import Ringdrop.Library.Interleaving

namespace Ringdrop.Library

variable {E C : Type} {A : C → Type} {α τ : Type}

namespace Program

/-- `q` is what is left of `p` after the answers of a trace. -/
inductive Hears : Program E C A α → Trace A → Program E C A α → Prop
  | start (p : Program E C A α) : Hears p [] p
  | call {p : Program E C A α} {log : Trace A} {c : C} {k : A c → Program E C A α} (a : A c) :
      Hears p log (.call c k) → Hears p (log ++ [⟨c, a⟩]) (k a)

/-- A trace that leads from one state to another. -/
inductive Replay (R : (c : C) → τ → A c → τ → Prop) : Trace A → τ → τ → Prop
  | nil (t : τ) : Replay R [] t t
  | cons {c : C} {a : A c} {log : Trace A} {t t₁ t₂ : τ} :
      R c t a t₁ → Replay R log t₁ t₂ → Replay R (⟨c, a⟩ :: log) t t₂

variable {R : (c : C) → τ → A c → τ → Prop} {l l' : Trace A} {t t' : τ}

theorem replay_append : Replay R (l ++ l') t t' ↔ ∃ t₁, Replay R l t t₁ ∧ Replay R l' t₁ t' := by
  induction l generalizing t with
  | nil =>
    constructor
    · intro h
      exact ⟨t, .nil t, h⟩
    · rintro ⟨t₁, h₁, h₂⟩
      cases h₁
      exact h₂
  | cons x l ih =>
    constructor
    · intro h
      cases h with
      | cons hr hl =>
        obtain ⟨t₁, h₁, h₂⟩ := ih.mp hl
        exact ⟨t₁, .cons hr h₁, h₂⟩
    · rintro ⟨t₁, h₁, h₂⟩
      cases h₁ with
      | cons hr hl => exact .cons hr (ih.mpr ⟨t₁, hl, h₂⟩)

theorem replay_singleton {c : C} {a : A c} : Replay R [⟨c, a⟩] t t' ↔ R c t a t' := by
  constructor
  · intro h
    cases h with
    | cons hr hl =>
      cases hl
      exact hr
  · intro h
    exact .cons h (.nil t')

def Commutes (R : (c : C) → τ → A c → τ → Prop) (x y : (c : C) × A c) : Prop :=
  ∀ t t', Replay R [x, y] t t' ↔ Replay R [y, x] t t'

theorem Commutes.symm {x y : (c : C) × A c} (h : Commutes R x y) : Commutes R y x := fun t t' ↦ (h t t').symm

theorem replay_swap_one {x : (c : C) × A c} (h : ∀ y ∈ l, Commutes R x y) (hl : Replay R (x :: l) t t') :
    Replay R (l ++ [x]) t t' := by
  induction l generalizing t with
  | nil => exact hl
  | cons y l ih =>
    change Replay R ([y] ++ (l ++ [x])) t t'
    have hfirst : Replay R ([x, y] ++ l) t t' := hl
    obtain ⟨t₁, hxy, hrest⟩ := replay_append.mp hfirst
    have hyx : Replay R ([y] ++ [x]) t t₁ := (h y (by simp) t t₁).mp hxy
    obtain ⟨t₂, hy, hx⟩ := replay_append.mp hyx
    have hlast := ih (fun z hz ↦ h z (by simp [hz])) (replay_append.mpr ⟨t₁, hx, hrest⟩)
    exact replay_append.mpr ⟨t₂, hy, hlast⟩

/-- Traces whose calls commute may be replayed in either order. -/
theorem replay_swap (h : ∀ x ∈ l, ∀ y ∈ l', Commutes R x y) (hl : Replay R (l ++ l') t t') :
    Replay R (l' ++ l) t t' := by
  induction l generalizing t with
  | nil => simpa using hl
  | cons x l ih =>
    cases hl with
    | @cons c a _ _ _ _ hr hrest =>
      obtain ⟨t₁, hl', hl⟩ := replay_append.mp (ih (fun z hz ↦ h z (by simp [hz])) hrest)
      have hx := replay_swap_one (h ⟨c, a⟩ (by simp)) (.cons hr hl')
      obtain ⟨t₂, h₁, h₂⟩ := replay_append.mp hx
      have hcons : Replay R ([⟨c, a⟩] ++ l) t₂ t' := replay_append.mpr ⟨t₁, h₂, hl⟩
      exact replay_append.mpr ⟨t₂, h₁, hcons⟩

theorem Hears.runs {p q : Program E C A α} {log : Trace A} {r : Except E α} {y : τ × Trace A} (h : Hears p log q)
    (before : Trace A) (hl : Replay R log t t') (hq : Runs (logged R) q (t', before ++ log) r y) :
    Runs (logged R) p (t, before) r y := by
  induction h generalizing t' with
  | start =>
    cases hl
    simpa using hq
  | call a _ ih =>
    obtain ⟨t₁, hlog, hlast⟩ := replay_append.mp hl
    exact ih hlog (.call ⟨replay_singleton.mp hlast, (List.append_assoc ..).symm⟩ hq)

theorem Hears.uses {P : C → Prop} {p q : Program E C A α} {log : Trace A} (h : Hears p log q) (hp : p.Uses P) :
    q.Uses P := by
  induction h with
  | start => exact hp
  | call a _ ih => exact ih.2 a

end Program

namespace Pool

open Program

variable {ι σ : Type} [DecidableEq ι]

def Through (shared : C → Prop) (x : Pool ι σ E C A α) (i : ι) : Prop :=
  (x.threads i).prog.Uses (fun c ↦ ¬ shared c)

/-- Threads run one after the other, each with the calls and answers it has in `logs`. -/
inductive InTurn (R : (c : C) → τ → A c → τ → Prop) (progs : ι → Program E C A α) (logs : ι → Trace A) :
    List ι → τ → τ → Prop
  | nil (t : τ) : InTurn R progs logs [] t t
  | cons {i : ι} {is : List ι} {t t₁ t₂ : τ} {r : Except E α} :
      Runs (logged R) (progs i) (t, []) r (t₁, logs i) → InTurn R progs logs is t₁ t₂ →
      InTurn R progs logs (i :: is) t t₂

def traces (x : Pool ι σ E C A α) (is : List ι) : Trace A := is.flatMap fun i ↦ (x.threads i).log

omit [DecidableEq ι] in
theorem traces_append (x : Pool ι σ E C A α) (is js : List ι) :
    x.traces (is ++ js) = x.traces is ++ x.traces js := List.flatMap_append

/-- The run so far, put in an order: first the threads that are through, then the others,
whose calls all commute. -/
structure Serialized (R : (c : C) → τ → A c → τ → Prop) (shared : C → Prop) (x : Pool ι σ E C A α) (t₀ t : τ)
    (done midway : List ι) : Prop where
  nodup : (done ++ midway).Nodup
  begun : ∀ i, (x.threads i).log ≠ [] → i ∈ done ++ midway
  through : ∀ i ∈ done, Through shared x i
  unfinished : ∀ i ∈ midway, ¬ Through shared x i
  replay : Replay R (x.traces (done ++ midway)) t₀ t
  apart : ∀ i j, i ≠ j → ¬ Through shared x i → ¬ Through shared x j →
    ∀ e ∈ (x.threads i).log, ∀ e' ∈ (x.threads j).log, Commutes R e e'

section Step

variable {R : (c : C) → τ → A c → τ → Prop} {shared : C → Prop} {x : Pool ι σ E C A α} {i : ι} {c : C}
  {k : A c → Program E C A α} {a : A c} {s : σ} {t₀ t t' : τ} {done midway : List ι}

theorem traces_resume_of_notMem {is : List ι} (h : i ∉ is) : (x.resume i c a k s).traces is = x.traces is := by
  unfold traces
  refine List.flatMap_congr fun j hj ↦ ?_
  rw [resume_of_ne]
  rintro rfl
  exact h hj

theorem through_resume_of_ne {j : ι} (h : j ≠ i) :
    Through shared (x.resume i c a k s) j ↔ Through shared x j := by
  unfold Through
  rw [resume_of_ne _ h]

omit [DecidableEq ι] in
theorem Through.call (h : Through shared x i) (hp : (x.threads i).prog = .call c k) :
    ¬ shared c ∧ ∀ a, (k a).Uses (fun c ↦ ¬ shared c) := by
  unfold Through at h
  rwa [hp] at h

theorem Through.resume (h : Through shared x i) (hp : (x.threads i).prog = .call c k) :
    Through shared (x.resume i c a k s) i := by
  unfold Through
  rw [resume_self]
  exact (h.call hp).2 a

theorem replay_resume {is js : List ι} (hnodup : (is ++ i :: js).Nodup) (hl : Replay R (x.traces (is ++ i :: js)) t₀ t)
    (hr : R c t a t') (hcomm : ∀ j ∈ js, ∀ e ∈ (x.threads j).log, Commutes R e ⟨c, a⟩) :
    Replay R ((x.resume i c a k s).traces (is ++ i :: js)) t₀ t' := by
  have hsplit : ∀ y : Pool ι σ E C A α, y.traces (is ++ i :: js) = y.traces is ++ ((y.threads i).log ++ y.traces js) := by
    intro y
    rw [traces_append]
    rfl
  have hleft : i ∉ is := fun h ↦ (List.nodup_append.mp hnodup).2.2 i h i (by simp) rfl
  have hright : i ∉ js := (List.nodup_cons.mp (List.nodup_append.mp hnodup).2.1).1
  rw [hsplit] at hl ⊢
  obtain ⟨t₁, h₁, hrest⟩ := replay_append.mp hl
  obtain ⟨t₂, h₂, h₃⟩ := replay_append.mp hrest
  rw [traces_resume_of_notMem hleft, traces_resume_of_notMem hright, resume_self, List.append_assoc]
  have hlast : Replay R (x.traces js ++ [⟨c, a⟩]) t₂ t' := replay_append.mpr ⟨t, h₃, replay_singleton.mpr hr⟩
  have hswapped : Replay R ([⟨c, a⟩] ++ x.traces js) t₂ t' := by
    refine replay_swap (fun e he y hy ↦ ?_) hlast
    obtain ⟨j, hj, hej⟩ := List.mem_flatMap.mp he
    rw [List.mem_singleton.mp hy]
    exact hcomm j hj e hej
  exact replay_append.mpr ⟨t₁, h₁, replay_append.mpr ⟨t₂, h₂, hswapped⟩⟩

omit [DecidableEq ι] in
theorem replay_earlier {ds is js : List ι}
    (hcomm : ∀ j ∈ is, ∀ e ∈ (x.threads j).log, ∀ e' ∈ (x.threads i).log, Commutes R e e')
    (hl : Replay R (x.traces (ds ++ (is ++ i :: js))) t₀ t) :
    Replay R (x.traces ((ds ++ [i]) ++ (is ++ js))) t₀ t := by
  have hsingle : x.traces [i] = (x.threads i).log := List.append_nil _
  rw [List.append_cons, traces_append, traces_append, traces_append] at hl
  rw [traces_append, traces_append, traces_append, List.append_assoc]
  obtain ⟨t₁, h₁, hrest⟩ := replay_append.mp hl
  obtain ⟨t₂, h₂, h₃⟩ := replay_append.mp hrest
  have hswapped : Replay R (x.traces [i] ++ x.traces is) t₁ t₂ := by
    refine replay_swap (fun e he e' he' ↦ ?_) h₂
    obtain ⟨j, hj, hej⟩ := List.mem_flatMap.mp he
    rw [hsingle] at he'
    exact hcomm j hj e hej e' he'
  rw [← List.append_assoc (x.traces [i])]
  exact replay_append.mpr ⟨t₁, h₁, replay_append.mpr ⟨t₂, hswapped, h₃⟩⟩

theorem commutes_silent (hsilent : ∀ c t a t', ¬ shared c → (R c t a t' ↔ t' = t)) (hc : ¬ shared c)
    (e : (c : C) × A c) : Commutes R e ⟨c, a⟩ := by
  obtain ⟨d, b⟩ := e
  intro t t'
  constructor
  · intro h
    cases h with
    | cons hd hl =>
      have hc' := (hsilent _ _ _ _ hc).mp (replay_singleton.mp hl)
      subst hc'
      exact .cons ((hsilent _ _ _ _ hc).mpr rfl) (replay_singleton.mpr hd)
  · intro h
    cases h with
    | cons hd hl =>
      have hd' := (hsilent _ _ _ _ hc).mp hd
      subst hd'
      exact .cons (replay_singleton.mp hl) (replay_singleton.mpr ((hsilent _ _ _ _ hc).mpr rfl))

omit [DecidableEq ι] in
theorem traces_insert {is js : List ι} (h : (x.threads i).log = []) :
    x.traces (is ++ i :: js) = x.traces (is ++ js) := by
  rw [traces_append, traces_append]
  unfold traces
  rw [List.flatMap_cons, h, List.nil_append]

omit [DecidableEq ι] in
theorem Serialized.enter (h : Serialized R shared x t₀ t done midway) (hi : i ∉ done ++ midway) :
    (Through shared x i → Serialized R shared x t₀ t (done ++ [i]) midway) ∧
      (¬ Through shared x i → Serialized R shared x t₀ t done (midway ++ [i])) := by
  have hlog : (x.threads i).log = [] := by
    by_contra hlog
    exact hi (h.begun i hlog)
  constructor
  · intro hthrough
    refine ⟨?_, ?_, ?_, h.unfinished, ?_, h.apart⟩
    · rw [List.append_assoc, List.singleton_append, List.nodup_middle]
      exact List.nodup_cons.mpr ⟨hi, h.nodup⟩
    · intro j hj
      have hmem := h.begun j hj
      simp only [List.mem_append] at hmem ⊢
      tauto
    · intro j hj
      rcases List.mem_append.mp hj with hdone | hlast
      · exact h.through j hdone
      · rwa [List.mem_singleton.mp hlast]
    · rw [List.append_assoc, List.singleton_append, traces_insert hlog]
      exact h.replay
  · intro hnot
    refine ⟨?_, ?_, h.through, ?_, ?_, h.apart⟩
    · rw [← List.append_assoc, List.nodup_append]
      refine ⟨h.nodup, List.nodup_singleton i, fun j hj l hl ↦ ?_⟩
      rw [List.mem_singleton.mp hl]
      rintro rfl
      exact hi hj
    · intro j hj
      have hmem := h.begun j hj
      simp only [List.mem_append] at hmem ⊢
      tauto
    · intro j hj
      rcases List.mem_append.mp hj with hmid | hlast
      · exact h.unfinished j hmid
      · rwa [List.mem_singleton.mp hlast]
    · rw [← List.append_assoc, traces_insert hlog, List.append_nil]
      exact h.replay

/-- One call more, made by a thread whose place in the order is known. -/
theorem Serialized.step (hsilent : ∀ c t a t', ¬ shared c → (R c t a t' ↔ t' = t))
    (h : Serialized R shared x t₀ t done midway) (hi : i ∈ done ++ midway) (hp : (x.threads i).prog = .call c k)
    (hr : R c t a t')
    (hcomm : ∀ j, j ≠ i → ¬ Through shared x j → ∀ e ∈ (x.threads j).log, Commutes R e ⟨c, a⟩) :
    ∃ done' midway', Serialized R shared (x.resume i c a k s) t₀ t' done' midway' ∧
      ∀ j, j ∈ done' ++ midway' ↔ j ∈ done ++ midway := by
  have hbefore : ∀ j, ¬ Through shared (x.resume i c a k s) j → ¬ Through shared x j := by
    intro j hj hthrough
    by_cases hij : j = i
    · subst hij
      exact hj (hthrough.resume hp)
    · exact hj ((through_resume_of_ne hij).mpr hthrough)
  have hmem : ∀ e ∈ ((x.resume i c a k s).threads i).log, e ∈ (x.threads i).log ∨ e = ⟨c, a⟩ := by
    intro e he
    rw [resume_self] at he
    simpa using he
  -- the calls of two threads that are both under way commute, with the new one among them
  have hcommutes : ∀ j, j ≠ i → ¬ Through shared x i → ¬ Through shared x j → ∀ e ∈ (x.threads j).log,
      ∀ e' ∈ ((x.resume i c a k s).threads i).log, Commutes R e e' := by
    intro j hj hnot hnotj e he e' he'
    rcases hmem e' he' with hold | rfl
    · exact h.apart j i hj hnotj hnot e he e' hold
    · exact hcomm j hj hnotj e he
  have hapart : ∀ j l, j ≠ l → ¬ Through shared (x.resume i c a k s) j → ¬ Through shared (x.resume i c a k s) l →
      ∀ e ∈ ((x.resume i c a k s).threads j).log, ∀ e' ∈ ((x.resume i c a k s).threads l).log, Commutes R e e' := by
    intro j l hjl hj hl e he e' he'
    have hj' := hbefore j hj
    have hl' := hbefore l hl
    by_cases hji : j = i
    · subst hji
      rw [resume_of_ne _ (Ne.symm hjl)] at he'
      exact (hcommutes l (Ne.symm hjl) hj' hl' e' he' e he).symm
    · rw [resume_of_ne _ hji] at he
      by_cases hli : l = i
      · subst hli
        exact hcommutes j hjl hl' hj' e he e' he'
      · rw [resume_of_ne _ hli] at he'
        exact h.apart j l hjl hj' hl' e he e' he'
  have hbegun : ∀ j, ((x.resume i c a k s).threads j).log ≠ [] → j ∈ done ++ midway := by
    intro j hj
    by_cases hij : j = i
    · rwa [hij]
    · rw [resume_of_ne _ hij] at hj
      exact h.begun j hj
  have hthrough : ∀ j, Through shared x j → Through shared (x.resume i c a k s) j := by
    intro j hj
    by_contra hnot
    exact hbefore j hnot hj
  have hunfinished : ∀ j, j ≠ i → ¬ Through shared x j → ¬ Through shared (x.resume i c a k s) j :=
    fun j hij hj hth ↦ hj ((through_resume_of_ne hij).mp hth)
  by_cases hth : Through shared x i
  · have hdone : i ∈ done := by
      rcases List.mem_append.mp hi with hdone | hmid
      · exact hdone
      · exact absurd hth (h.unfinished i hmid)
    obtain ⟨is, js, rfl⟩ := List.append_of_mem hdone
    have hnodup : (is ++ i :: (js ++ midway)).Nodup := by simpa using h.nodup
    have hreplay : Replay R (x.traces (is ++ i :: (js ++ midway))) t₀ t := by simpa using h.replay
    have hlater := replay_resume (k := k) (s := s) hnodup hreplay hr
      (fun _ _ e _ ↦ commutes_silent hsilent (hth.call hp).1 e)
    refine ⟨is ++ i :: js, midway, ⟨h.nodup, hbegun, fun j hj ↦ hthrough j (h.through j hj), ?_, ?_, hapart⟩,
      fun _ ↦ Iff.rfl⟩
    · intro j hj
      refine hunfinished j ?_ (h.unfinished j hj)
      rintro rfl
      exact h.unfinished j hj hth
    · simpa using hlater
  · have hmid : i ∈ midway := by
      rcases List.mem_append.mp hi with hdone | hmid
      · exact absurd (h.through i hdone) hth
      · exact hmid
    obtain ⟨is, js, rfl⟩ := List.append_of_mem hmid
    have hnodup : ((done ++ is) ++ i :: js).Nodup := by simpa using h.nodup
    have hreplay : Replay R (x.traces ((done ++ is) ++ i :: js)) t₀ t := by simpa using h.replay
    have hother : ∀ j, j ∈ is ∨ j ∈ js → j ≠ i ∧ ¬ Through shared x j := by
      intro j hj
      refine ⟨?_, h.unfinished j (by simp only [List.mem_append, List.mem_cons]; tauto)⟩
      rintro rfl
      have hall := List.nodup_middle.mp hnodup
      refine (List.nodup_cons.mp hall).1 ?_
      simp only [List.mem_append]
      tauto
    have hlater := replay_resume (k := k) (s := s) hnodup hreplay hr (fun j hj e he ↦
      hcomm j (hother j (.inr hj)).1 (hother j (.inr hj)).2 e he)
    by_cases hfinished : Through shared (x.resume i c a k s) i
    · -- the thread is through now, and takes its place before those that are not
      have hsame : ∀ j, j ∈ (done ++ [i]) ++ (is ++ js) ↔ j ∈ done ++ (is ++ i :: js) := by
        intro j
        simp only [List.mem_append, List.mem_cons, List.not_mem_nil]
        tauto
      refine ⟨done ++ [i], is ++ js, ⟨?_, fun j hj ↦ (hsame j).mpr (hbegun j hj), ?_, ?_, ?_, hapart⟩, hsame⟩
      · have hperm : ((done ++ [i]) ++ (is ++ js)).Perm ((done ++ is) ++ i :: js) := by
          rw [List.append_assoc, List.singleton_append]
          refine List.perm_middle.trans ?_
          rw [← List.append_assoc]
          exact List.perm_middle.symm
        exact hperm.nodup_iff.mpr hnodup
      · intro j hj
        rcases List.mem_append.mp hj with hdone | hlast
        · exact hthrough j (h.through j hdone)
        · rwa [List.mem_singleton.mp hlast]
      · intro j hj
        have hj' := hother j (List.mem_append.mp hj)
        exact hunfinished j hj'.1 hj'.2
      · refine replay_earlier (fun j hj e he e' he' ↦ ?_) (by simpa using hlater)
        have hj' := hother j (.inl hj)
        rw [resume_of_ne _ hj'.1] at he
        exact hcommutes j hj'.1 hth hj'.2 e he e' he'
    · refine ⟨done, is ++ i :: js, ⟨h.nodup, hbegun, fun j hj ↦ hthrough j (h.through j hj), ?_, ?_, hapart⟩,
        fun _ ↦ Iff.rfl⟩
      · intro j hj
        by_cases hij : j = i
        · rwa [hij]
        · exact hunfinished j hij (h.unfinished j hj)
      · simpa using hlater

end Step

section Runs

variable {R : (c : C) → τ → A c → τ → Prop} {S : (c : C) → σ → A c → σ → Prop} {env : σ → σ → Prop}
  {guard : Pool ι σ E C A α → ι → C → Prop} {shared : C → Prop} {proj : σ → τ} {s : σ} {x : Pool ι σ E C A α}

omit [DecidableEq ι] in
theorem serialized_start (progs : ι → Program E C A α) (t : τ) :
    Serialized R shared (start s progs) t t [] [] := by
  refine ⟨List.nodup_nil, fun i hi ↦ absurd rfl hi, ?_, ?_, .nil t, ?_⟩
  · intro i hi
    cases hi
  · intro i hi
    cases hi
  · intro i j _ _ _ e he
    cases he

/-- An interleaving in which each call commutes with the calls that unfinished threads have
made before can be put in an order. -/
theorem Reaches.serialized (hsilent : ∀ c t a t', ¬ shared c → (R c t a t' ↔ t' = t))
    (hproj : ∀ {y i c k a s'}, Reaches S env guard x y → (y.threads i).prog = .call c k → S c y.state a s' →
      R c (proj y.state) a (proj s'))
    (henv : ∀ t t', env t t' → proj t' = proj t)
    (hguard : ∀ {y i c a t}, guard y i c → S c y.state a t → ∀ j, j ≠ i → ¬ Through shared y j →
      ∀ e ∈ (y.threads j).log, Commutes R e ⟨c, a⟩)
    {y : Pool ι σ E C A α} {t₀ : τ} (hx : ∃ done midway, Serialized R shared x t₀ (proj x.state) done midway ∧
      ∀ i ∈ done ++ midway, (x.threads i).log ≠ [])
    (h : Reaches S env guard x y) : ∃ done midway, Serialized R shared y t₀ (proj y.state) done midway ∧
      ∀ i ∈ done ++ midway, (y.threads i).log ≠ [] := by
  induction h with
  | refl => exact hx
  | @step y z i c hy hc hs ih =>
    cases hs with
    | @call k a s' hp hr =>
      obtain ⟨done, midway, hser, hmem⟩ := ih
      have hnext : ∀ done midway, Serialized R shared y t₀ (proj y.state) done midway → i ∈ done ++ midway →
          (∀ j ∈ done ++ midway, j ≠ i → (y.threads j).log ≠ []) →
          ∃ done' midway', Serialized R shared (y.resume i c a k s') t₀ (proj s') done' midway' ∧
            ∀ j ∈ done' ++ midway', ((y.resume i c a k s').threads j).log ≠ [] := by
        intro done midway hser hi hlogs
        obtain ⟨done', midway', hser', hsame⟩ := hser.step (s := s') hsilent hi hp (hproj hy hp hr) (hguard hc hr)
        refine ⟨done', midway', hser', fun j hj ↦ ?_⟩
        by_cases hij : j = i
        · subst hij
          rw [resume_self]
          simp
        · rw [resume_of_ne _ hij]
          exact hlogs j ((hsame j).mp hj) hij
      by_cases hi : i ∈ done ++ midway
      · exact hnext done midway hser hi (fun j hj _ ↦ hmem j hj)
      · obtain ⟨hdone, hmid⟩ := hser.enter hi
        by_cases hth : Through shared y i
        · refine hnext _ _ (hdone hth) (by simp) fun j hj hij ↦ hmem j ?_
          simp only [List.mem_append, List.mem_singleton] at hj ⊢
          tauto
        · refine hnext _ _ (hmid hth) (by simp) fun j hj hij ↦ hmem j ?_
          simp only [List.mem_append, List.mem_singleton] at hj ⊢
          tauto
  | env _ he ih =>
    obtain ⟨done, midway, hser, hmem⟩ := ih
    rw [← henv _ _ he] at hser
    exact ⟨done, midway, ⟨hser.nodup, hser.begun, hser.through, hser.unfinished, hser.replay, hser.apart⟩, hmem⟩

theorem Reaches.hears {progs : ι → Program E C A α} (h : Reaches S env guard (start s progs) x) (i : ι) :
    Hears (progs i) (x.threads i).log (x.threads i).prog := by
  induction h generalizing i with
  | refl => exact .start _
  | @step y z j c _ _ hs ih =>
    cases hs with
    | @call k a s' hp hr =>
      refine forall_resume (J := fun i prog log ↦ Hears (progs i) log prog) ih ?_ i
      have hj := ih j
      rw [hp] at hj
      exact hj.call a
  | env _ _ ih => exact ih i

omit [DecidableEq ι] in
theorem inTurn_of_replay {progs : ι → Program E C A α} {order : List ι} {t t' : τ}
    (hhears : ∀ i ∈ order, Hears (progs i) (x.threads i).log (x.threads i).prog)
    (hdone : ∀ i ∈ order, ∀ c k, (x.threads i).prog ≠ .call c k) (h : Replay R (x.traces order) t t') :
    InTurn R progs (fun i ↦ (x.threads i).log) order t t' := by
  induction order generalizing t with
  | nil =>
    cases h
    exact .nil _
  | cons i order ih =>
    have hsplit : Replay R ((x.threads i).log ++ x.traces order) t t' := h
    obtain ⟨t₁, hlog, hrest⟩ := replay_append.mp hsplit
    have hruns : ∃ r, Runs (logged R) (progs i) (t, []) r (t₁, (x.threads i).log) := by
      have hi := hhears i (by simp)
      cases hprog : (x.threads i).prog with
      | ret v =>
        rw [hprog] at hi
        exact ⟨.ok v, hi.runs [] hlog (.ret v _)⟩
      | fail e =>
        rw [hprog] at hi
        exact ⟨.error e, hi.runs [] hlog (.fail e _)⟩
      | call c k => exact (hdone i (by simp) c k hprog).elim
    obtain ⟨r, hr⟩ := hruns
    exact .cons hr (ih (fun j hj ↦ hhears j (by simp [hj])) (fun j hj ↦ hdone j (by simp [hj])) hrest)

/-- Such an interleaving comes to what the threads come to in turn, with the same calls and
the same answers. -/
theorem Reaches.inTurn {progs : ι → Program E C A α} (hsilent : ∀ c t a t', ¬ shared c → (R c t a t' ↔ t' = t))
    (hproj : ∀ {y i c k a s'}, Reaches S env guard (start s progs) y → (y.threads i).prog = .call c k →
      S c y.state a s' → R c (proj y.state) a (proj s'))
    (henv : ∀ t t', env t t' → proj t' = proj t)
    (hguard : ∀ {y i c a t}, guard y i c → S c y.state a t → ∀ j, j ≠ i → ¬ Through shared y j →
      ∀ e ∈ (y.threads j).log, Commutes R e ⟨c, a⟩)
    (h : Reaches S env guard (start s progs) x)
    (hidle : ∀ i, (x.threads i).log = [] ∨ ∀ c k, (x.threads i).prog ≠ .call c k) :
    ∃ order : List ι, order.Nodup ∧ (∀ i, i ∈ order ↔ (x.threads i).log ≠ []) ∧
      InTurn R progs (fun i ↦ (x.threads i).log) order (proj s) (proj x.state) := by
  have hstart : ∃ done midway, Serialized R shared (start s progs) (proj s) (proj (start s progs).state) done midway ∧
      ∀ i ∈ done ++ midway, ((start s progs).threads i).log ≠ [] :=
    ⟨[], [], serialized_start progs (proj s), fun i hi ↦ by cases hi⟩
  obtain ⟨done, midway, hser, hmem⟩ := Reaches.serialized hsilent hproj henv hguard hstart h
  refine ⟨done ++ midway, hser.nodup, fun i ↦ ⟨hmem i, hser.begun i⟩, ?_⟩
  refine inTurn_of_replay (fun i _ ↦ h.hears i) (fun i hi ↦ ?_) hser.replay
  exact (hidle i).resolve_left (hmem i hi)

end Runs

end Pool

end Ringdrop.Library
