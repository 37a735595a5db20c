import Ringdrop.Library.Program

namespace Ringdrop.Library.Program

variable {E C : Type} {A : C → Type} {α β γ σ ω : Type}

def output (out : (c : C) → A c → List ω) (log : Trace A) : List ω :=
  log.flatMap (fun x ↦ out x.1 x.2)

/-- Whatever the answers, the program puts out `b`, leaves the state `s` as it is, and
returns `r`, or fails if that is `none`. -/
def Emits (R : (c : C) → σ → A c → σ → Prop) (out : (c : C) → A c → List ω) (s : σ)
    (p : Program E C A α) (b : List ω) (r : Option α) : Prop :=
  ∀ log, wp (logged R) p (fun v x ↦ x.1 = s ∧ output out x.2 = output out log ++ b ∧ r = some v)
    (fun _ x ↦ x.1 = s ∧ output out x.2 = output out log ++ b ∧ r = none) (s, log)

section Rules

variable {R : (c : C) → σ → A c → σ → Prop} {out : (c : C) → A c → List ω} {s : σ}

theorem output_concat (log : Trace A) (c : C) (a : A c) :
    output out (log ++ [⟨c, a⟩]) = output out log ++ out c a := by
  simp [output]

theorem emits_ret (v : α) : Emits R out s (.ret v : Program E C A α) [] (some v) :=
  fun _ ↦ ⟨rfl, by simp, rfl⟩

theorem emits_fail (e : E) : Emits R out s (.fail e : Program E C A α) [] none :=
  fun _ ↦ ⟨rfl, by simp, rfl⟩

theorem emits_call {c : C} {k : A c → Program E C A α} {b : List ω} {r : Option α}
    (h : ∀ a s', R c s a s' → s' = s ∧ ∃ d, b = out c a ++ d ∧ Emits R out s (k a) d r) :
    Emits R out s (.call c k) b r := by
  rintro log a ⟨s', log'⟩ ⟨ha, hlog⟩
  obtain ⟨hs, d, rfl, hk⟩ := h a s' ha
  obtain rfl : s' = s := hs
  obtain rfl : log' = log ++ [⟨c, a⟩] := hlog
  have hw := hk (log ++ [⟨c, a⟩])
  rw [output_concat] at hw
  simp only [List.append_assoc] at hw
  exact hw

theorem Emits.bind {p : Program E C A β} {f : β → Program E C A α} {b d : List ω} {v : β}
    {r : Option α} (hp : Emits R out s p b (some v)) (hf : Emits R out s (f v) d r) :
    Emits R out s (p >>= f) (b ++ d) r := by
  intro log
  rw [wp_bind]
  refine wp_mono (hp log) ?_ ?_
  · rintro w ⟨s', log'⟩ ⟨hs, hb, hw⟩
    obtain rfl : s' = s := hs
    obtain rfl := Option.some.inj hw
    have hw' := hf log'
    rw [show output out log' = output out log ++ b from hb, List.append_assoc] at hw'
    exact hw'
  · rintro e x ⟨-, -, hn⟩
    cases hn

theorem Emits.bind_none {p : Program E C A β} {f : β → Program E C A α} {b : List ω}
    (hp : Emits R out s p b none) : Emits R out s (p >>= f) b none := by
  intro log
  rw [wp_bind]
  refine wp_mono (hp log) ?_ (fun _ _ h ↦ ⟨h.1, h.2.1, rfl⟩)
  rintro w x ⟨-, -, hn⟩
  cases hn

theorem Emits.mapError {p : Program E C A α} {g : E → E} {b : List ω} {r : Option α}
    (hp : Emits R out s p b r) : Emits R out s (p.mapError g) b r := by
  intro log
  rw [wp_mapError]
  exact hp log

theorem Emits.attempt {p : Program E C A β} {f : Except E β → Program E C A α} {b d : List ω}
    {r : Option β} {r' : Option α} (hp : Emits R out s p b r)
    (hok : ∀ v, r = some v → Emits R out s (f (.ok v)) d r')
    (herror : ∀ e, r = none → Emits R out s (f (.error e)) d r') :
    Emits R out s (p.attempt >>= f) (b ++ d) r' := by
  intro log
  rw [wp_bind, wp_attempt]
  refine wp_mono (hp log) ?_ ?_
  · rintro v ⟨s', log'⟩ ⟨hs, hb, hv⟩
    obtain rfl : s' = s := hs
    have hw := hok v hv log'
    rw [show output out log' = output out log ++ b from hb, List.append_assoc] at hw
    exact hw
  · rintro e ⟨s', log'⟩ ⟨hs, hb, hn⟩
    obtain rfl : s' = s := hs
    have hw := herror e hn log'
    rw [show output out log' = output out log ++ b from hb, List.append_assoc] at hw
    exact hw

/-- The output of a loop: pieces up to the first one after which the body fails. -/
def loopOutput (g : β → List ω × Bool) : List β → List ω × Bool
  | [] => ([], true)
  | x :: xs => if (g x).2 then ((g x).1 ++ (loopOutput g xs).1, (loopOutput g xs).2) else g x

theorem loopOutput_filter (p : β → Bool) (g : β → List ω × Bool) (xs : List β) :
    loopOutput (fun x ↦ if p x then g x else ([], true)) xs = loopOutput g (xs.filter p) := by
  induction xs with
  | nil => rfl
  | cons x xs ih =>
    cases hp : p x with
    | true => rw [List.filter_cons_of_pos hp, loopOutput, loopOutput, ih, hp, if_pos rfl]
    | false => rw [List.filter_cons_of_neg (by simp [hp]), loopOutput, ih, hp]; rfl

theorem loopOutput_congr {g g' : β → List ω × Bool} {xs : List β} (h : ∀ x ∈ xs, g x = g' x) :
    loopOutput g xs = loopOutput g' xs := by
  induction xs with
  | nil => rfl
  | cons x xs ih =>
    rw [loopOutput, loopOutput, h x (by simp), ih (fun y hy ↦ h y (by simp [hy]))]

theorem loopOutput_of_forall {g : β → List ω × Bool} {xs : List β} (h : ∀ x ∈ xs, (g x).2 = true) :
    loopOutput g xs = (xs.flatMap (fun x ↦ (g x).1), true) := by
  induction xs with
  | nil => rfl
  | cons x xs ih =>
    have hx := h x (by simp)
    have hxs := ih (fun y hy ↦ h y (by simp [hy]))
    rw [loopOutput, if_pos hx, hxs, List.flatMap_cons]

theorem loopOutput_concat {g : β → List ω × Bool} {xs : List β} (h : (loopOutput g xs).2 = true) (x : β) :
    loopOutput g (xs ++ [x]) = ((loopOutput g xs).1 ++ (g x).1, (g x).2) := by
  induction xs with
  | nil =>
    change (if (g x).2 then ((g x).1 ++ [], true) else g x) = ([] ++ (g x).1, (g x).2)
    cases hx : (g x).2 with
    | true => rw [if_pos rfl, List.append_nil, List.nil_append]
    | false =>
      rw [← hx, if_neg (by simp [hx])]
      rfl
  | cons y ys ih =>
    rw [loopOutput] at h
    by_cases hy : (g y).2
    · rw [if_pos hy] at h
      rw [List.cons_append, loopOutput, if_pos hy, ih h, loopOutput, if_pos hy, List.append_assoc]
    · rw [if_neg hy] at h
      exact absurd h hy

theorem forall_of_loopOutput {g : β → List ω × Bool} {xs : List β} (h : (loopOutput g xs).2 = true) :
    ∀ x ∈ xs, (g x).2 = true := by
  induction xs with
  | nil => simp
  | cons x xs ih =>
    rw [loopOutput] at h
    cases hx : (g x).2 with
    | false =>
      rw [hx, if_neg (by decide), hx] at h
      cases h
    | true =>
      rw [hx, if_pos rfl] at h
      intro y hy
      rcases List.mem_cons.mp hy with rfl | hy
      · exact hx
      · exact ih h y hy

def unitIf (b : Bool) : Option PUnit := if b then some ⟨⟩ else none

theorem Emits.forM {f : β → Program E C A PUnit} {g : β → List ω × Bool} {xs : List β}
    (hf : ∀ x ∈ xs, Emits R out s (f x) (g x).1 (unitIf (g x).2)) :
    Emits R out s (xs.forM f) (loopOutput g xs).1 (unitIf (loopOutput g xs).2) := by
  induction xs with
  | nil => exact emits_ret _
  | cons x xs ih =>
    rw [List.forM_eq_forM, List.forM_cons]
    have hx := hf x (by simp)
    unfold loopOutput
    cases hg : (g x).2 with
    | true =>
      rw [hg] at hx
      exact hx.bind (ih (fun y hy ↦ hf y (by simp [hy])))
    | false =>
      rw [hg] at hx
      simpa [hg, unitIf] using hx.bind_none

theorem Emits.foldlM_flatMap {f : γ → β → Program E C A γ} {g : γ → β → γ} {o : β → List ω} {xs : List β} {acc : γ}
    (hf : ∀ acc x, Emits R out s (f acc x) (o x) (some (g acc x))) :
    Emits R out s (xs.foldlM f acc) (xs.flatMap o) (some (xs.foldl g acc)) := by
  induction xs generalizing acc with
  | nil => exact emits_ret acc
  | cons x xs ih =>
    rw [List.foldlM_cons, List.foldl_cons, List.flatMap_cons]
    exact (hf acc x).bind ih

theorem Emits.foldlM {f : γ → β → Program E C A γ} {g : γ → β → γ} {xs : List β} {acc : γ}
    (hf : ∀ acc x, Emits R out s (f acc x) [] (some (g acc x))) :
    Emits R out s (xs.foldlM f acc) [] (some (xs.foldl g acc)) := by
  have hall : Emits R out s (xs.foldlM f acc) (xs.flatMap fun _ ↦ []) (some (xs.foldl g acc)) := foldlM_flatMap hf
  rwa [List.flatMap_eq_nil_iff.mpr fun _ _ ↦ rfl] at hall

/-- All runs of a program that emits `b` put out `b`. -/
theorem Emits.output_eq {p : Program E C A α} {b : List ω} {r : Option α} (hp : Emits R out s p b r)
    {v : Except E α} {s' : σ} {log : Trace A} (h : Runs (logged R) p (s, []) v (s', log)) :
    output out log = b ∧ s' = s ∧ v.toOption = r := by
  have hw := hp []
  cases v with
  | ok v =>
    obtain ⟨hs, hb, hr⟩ := h.ok_of_wp hw
    exact ⟨by simpa [output] using hb, hs, hr.symm⟩
  | error e =>
    obtain ⟨hs, hb, hr⟩ := h.error_of_wp hw
    exact ⟨by simpa [output] using hb, hs, hr.symm⟩

theorem Emits.exists_runs {p : Program E C A α} {b : List ω} {r : Option α} (hp : Emits R out s p b r)
    (hR : ∀ c s, ∃ a s', R c s a s') :
    ∃ v log, Runs (logged R) p (s, []) v (s, log) ∧ output out log = b ∧ v.toOption = r := by
  have hlogged : ∀ c x, ∃ a y, logged R c x a y := by
    intro c x
    obtain ⟨a, s', h⟩ := hR c x.1
    exact ⟨a, (s', x.2 ++ [⟨c, a⟩]), h, rfl⟩
  obtain ⟨v, ⟨s', log⟩, hr⟩ := exists_run hlogged p (s, [])
  obtain ⟨hout, rfl, hv⟩ := hp.output_eq hr
  exact ⟨v, log, hr, hout, hv⟩

end Rules

end Ringdrop.Library.Program
