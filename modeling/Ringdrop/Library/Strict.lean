import Ringdrop.Library.Program

namespace Ringdrop.Library.Program

variable {E C : Type} {A : C → Type} {α β γ σ : Type}

def Fails : Program E C A α → Prop
  | ret _ => False
  | fail _ => True
  | call _ k => ∀ a, (k a).Fails

def Strict (bad : (c : C) → A c → Prop) : Program E C A α → Prop
  | ret _ => True
  | fail _ => False
  | call c k => ∀ a, (bad c a → (k a).Fails) ∧ (¬ bad c a → (k a).Strict bad)

section Rules

variable {bad : (c : C) → A c → Prop} {p : Program E C A α}

theorem Fails.bind (hp : p.Fails) (f : α → Program E C A β) : (p >>= f).Fails := by
  induction p with
  | ret v => exact hp.elim
  | fail e => exact hp
  | call c k ih => exact fun a ↦ ih a (hp a)

theorem Fails.mapError (hp : p.Fails) (g : E → E) : (p.mapError g).Fails := by
  induction p with
  | ret v => exact hp.elim
  | fail e => exact hp
  | call c k ih => exact fun a ↦ ih a (hp a)

theorem Strict.bind {f : α → Program E C A β} (hp : p.Strict bad) (hf : ∀ v, (f v).Strict bad) :
    (p >>= f).Strict bad := by
  induction p with
  | ret v => exact hf v
  | fail e => exact hp
  | call c k ih =>
    intro a
    refine ⟨fun hbad ↦ ((hp a).1 hbad).bind f, fun hbad ↦ ih a ((hp a).2 hbad)⟩

theorem Strict.mapError (hp : p.Strict bad) (g : E → E) : (p.mapError g).Strict bad := by
  induction p with
  | ret v => exact hp
  | fail e => exact hp
  | call c k ih =>
    intro a
    refine ⟨fun hbad ↦ ((hp a).1 hbad).mapError g, fun hbad ↦ ih a ((hp a).2 hbad)⟩

theorem Strict.foldlM {f : γ → β → Program E C A γ} (hf : ∀ acc x, (f acc x).Strict bad) (xs : List β) (acc : γ) :
    (xs.foldlM f acc).Strict bad := by
  induction xs generalizing acc with
  | nil => trivial
  | cons x rest ih =>
    rw [List.foldlM_cons]
    exact (hf acc x).bind ih

theorem strict_ask {c : C} (h : ∀ a, ¬ bad c a) : (ask c : Program E C A (A c)).Strict bad :=
  fun a ↦ ⟨fun hbad ↦ (h a hbad).elim, fun _ ↦ trivial⟩

theorem Fails.finally {close : Program E C A PUnit} (hp : p.Fails) :
    (do let r ← p.attempt; close; ofExcept r).Fails := by
  induction p with
  | ret v => exact hp.elim
  | fail e =>
    change (close >>= fun _ ↦ ofExcept (.error e)).Fails
    induction close with
    | ret v => trivial
    | fail e => trivial
    | call c k ih => exact ih
  | call c k ih => exact fun a ↦ ih a (hp a)

theorem Strict.finally {close : Program E C A PUnit} (hp : p.Strict bad) (hclose : close.Strict bad) :
    (do let r ← p.attempt; close; ofExcept r).Strict bad := by
  induction p with
  | ret v => exact hclose.bind fun _ ↦ trivial
  | fail e => exact hp.elim
  | call c k ih =>
    intro a
    refine ⟨fun hbad ↦ ((hp a).1 hbad).finally, fun hbad ↦ ih a ((hp a).2 hbad)⟩

end Rules

section Runs

variable {bad : (c : C) → A c → Prop} {R : (c : C) → σ → A c → σ → Prop} {p : Program E C A α}

theorem Fails.wp (hp : p.Fails) {log : Trace A} (hlog : ∃ y ∈ log, bad y.1 y.2) (s : σ) :
    wp (logged R) p (fun _ _ ↦ False) (fun _ x ↦ ∃ y ∈ x.2, bad y.1 y.2) (s, log) := by
  induction p generalizing s log with
  | ret v => exact hp.elim
  | fail e => exact hlog
  | call c k ih =>
    rintro a ⟨s', log'⟩ ⟨-, hconcat⟩
    obtain rfl : log' = log ++ [⟨c, a⟩] := hconcat
    obtain ⟨y, hy, hbad⟩ := hlog
    exact ih a (hp a) ⟨y, List.mem_append_left _ hy, hbad⟩ s'

theorem Strict.wp (hp : p.Strict bad) {log : Trace A} (hlog : ∀ y ∈ log, ¬ bad y.1 y.2) (s : σ) :
    wp (logged R) p (fun _ x ↦ ∀ y ∈ x.2, ¬ bad y.1 y.2) (fun _ x ↦ ∃ y ∈ x.2, bad y.1 y.2) (s, log) := by
  induction p generalizing s log with
  | ret v => exact hlog
  | fail e => exact hp.elim
  | call c k ih =>
    rintro a ⟨s', log'⟩ ⟨-, hconcat⟩
    obtain rfl : log' = log ++ [⟨c, a⟩] := hconcat
    by_cases hbad : bad c a
    · have hfails : ∃ y ∈ log ++ [⟨c, a⟩], bad y.1 y.2 := ⟨⟨c, a⟩, by simp, hbad⟩
      exact wp_mono (((hp a).1 hbad).wp hfails s') (fun _ _ h ↦ h.elim) (fun _ _ h ↦ h)
    · apply ih a ((hp a).2 hbad)
      intro y hy
      rcases List.mem_append.mp hy with hy | hy
      · exact hlog y hy
      · obtain rfl := List.mem_singleton.mp hy
        exact hbad

theorem Strict.error_iff (hp : p.Strict bad) {s s' : σ} {r : Except E α} {log : Trace A}
    (h : Runs (logged R) p (s, []) r (s', log)) : (∃ e, r = .error e) ↔ ∃ y ∈ log, bad y.1 y.2 := by
  have hw := hp.wp (R := R) (List.forall_mem_nil _) s
  cases r with
  | ok v =>
    have hnone := h.ok_of_wp hw
    refine iff_of_false (by simp) ?_
    rintro ⟨y, hy, hbad⟩
    exact hnone y hy hbad
  | error e => exact iff_of_true ⟨e, rfl⟩ (h.error_of_wp hw)

end Runs

end Ringdrop.Library.Program
