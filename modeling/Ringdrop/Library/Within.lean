import Ringdrop.Library.Interleaving
import Ringdrop.Library.Output

namespace Ringdrop.Library

namespace Program

variable {E C : Type} {A : C → Type} {α β γ : Type}

/-- As long as it is answered as `H` allows, the program makes only calls of `P` and its
result is in `Q`. -/
def Within (H : (c : C) → A c → Prop) (P : C → Prop) : Program E C A α → (α → Prop) → Prop
  | ret v, Q => Q v
  | fail _, _ => True
  | call c k, Q => P c ∧ ∀ a, H c a → (k a).Within H P Q

variable {H : (c : C) → A c → Prop} {P : C → Prop}

theorem within_ret {v : α} {Q : α → Prop} (h : Q v) : (ret v : Program E C A α).Within H P Q := h

theorem within_fail {e : E} {Q : α → Prop} : (fail e : Program E C A α).Within H P Q := trivial

theorem within_ask {c : C} {Q : A c → Prop} (hc : P c) (hQ : ∀ a, H c a → Q a) :
    (ask c : Program E C A (A c)).Within H P Q := ⟨hc, hQ⟩

theorem within_ofExcept {r : Except E α} {Q : α → Prop} (h : ∀ v, r = .ok v → Q v) :
    (ofExcept r : Program E C A α).Within H P Q := by
  cases r with
  | ok v => exact h v rfl
  | error e => trivial

theorem uses_ofExcept_bind {r : Except E β} {f : β → Program E C A α} (h : ∀ v, r = .ok v → (f v).Uses P) :
    (ofExcept r >>= f).Uses P := by
  cases r with
  | ok v => exact h v rfl
  | error e => trivial

theorem Within.mono {p : Program E C A α} {P' : C → Prop} {Q Q' : α → Prop} (h : p.Within H P Q)
    (hP : ∀ c, P c → P' c) (hQ : ∀ v, Q v → Q' v) : p.Within H P' Q' := by
  induction p with
  | ret v => exact hQ v h
  | fail e => trivial
  | call c k ih => exact ⟨hP c h.1, fun a ha ↦ ih a (h.2 a ha)⟩

theorem Within.bind {p : Program E C A β} {f : β → Program E C A α} {Q : β → Prop} {Q' : α → Prop}
    (hp : p.Within H P Q) (hf : ∀ v, Q v → (f v).Within H P Q') : (p >>= f).Within H P Q' := by
  induction p with
  | ret v => exact hf v hp
  | fail e => trivial
  | call c k ih => exact ⟨hp.1, fun a ha ↦ ih a (hp.2 a ha)⟩

/-- What is made of an answer that may be an error. -/
theorem within_asking {c : C} {f : A c → Except E α} {Q : α → Prop} (hc : P c)
    (hQ : ∀ a v, H c a → f a = .ok v → Q v) : (ask c >>= fun a ↦ ofExcept (f a) : Program E C A α).Within H P Q :=
  (within_ask hc fun _ ha ↦ ha).bind fun a ha ↦ within_ofExcept fun v hv ↦ hQ a v ha hv

theorem Within.foldlM_all {f : γ → β → Program E C A γ} {xs : List β} {G : β → Prop}
    (hf : ∀ b, ∀ x ∈ xs, (f b x).Within H P fun _ ↦ G x) (b : γ) :
    (xs.foldlM f b).Within H P fun _ ↦ ∀ x ∈ xs, G x := by
  induction xs generalizing b with
  | nil => exact within_ret (by simp)
  | cons x rest ih =>
    rw [List.foldlM_cons]
    refine (hf b x (by simp)).bind fun b' hx ↦ ?_
    refine (ih (fun b y hy ↦ hf b y (by simp [hy])) b').mono (fun _ hc ↦ hc) fun _ hrest ↦ ?_
    rw [List.forall_mem_cons]
    exact ⟨hx, hrest⟩

theorem Within.forM_all {f : β → Program E C A PUnit} {xs : List β} {G : β → Prop}
    (hf : ∀ x ∈ xs, (f x).Within H P fun _ ↦ G x) : (forM xs f).Within H P fun _ ↦ ∀ x ∈ xs, G x := by
  induction xs with
  | nil => exact within_ret (by simp)
  | cons x rest ih =>
    rw [List.forM_cons]
    refine (hf x (by simp)).bind fun _ hx ↦ ?_
    refine (ih fun y hy ↦ hf y (by simp [hy])).mono (fun _ hc ↦ hc) fun _ hrest ↦ ?_
    rw [List.forall_mem_cons]
    exact ⟨hx, hrest⟩

theorem within_const {p : Program E C A α} {G : Prop} (h : G) : p.Within H (fun _ ↦ True) fun _ ↦ G := by
  induction p with
  | ret v => exact h
  | fail e => trivial
  | call c k ih => exact ⟨trivial, fun a _ ↦ ih a⟩

theorem Within.wpc {p : Program E C A α} {Q : α → Prop} (h : p.Within H (fun _ ↦ True) Q) (log : Trace A) :
    p.wpc (Pool.heard fun _ ↦ H) (fun _ ↦ True) (fun v _ ↦ Q v) log := by
  induction p generalizing log with
  | ret v => exact ⟨trivial, h⟩
  | fail e => trivial
  | call c k ih => exact ⟨trivial, fun a log' ha ↦ ih a (h.2 a ha.1) log'⟩

theorem Uses.within {p : Program E C A α} (h : p.Uses P) : p.Within H P fun _ ↦ True := by
  induction p with
  | ret v => trivial
  | fail e => trivial
  | call c k ih => exact ⟨h.1, fun a _ ↦ ih a (h.2 a)⟩

theorem Uses.within_bind {p : Program E C A β} {f : β → Program E C A α} {Q : α → Prop} (hp : p.Uses P)
    (hf : ∀ v, (f v).Within H P Q) : (p >>= f).Within H P Q := hp.within.bind fun v _ ↦ hf v

/-- A crash invariant about the calls made so far, whatever they are answered, is one about
every call. -/
theorem uses_of_wpc (hA : ∀ c, Nonempty (A c)) {p : Program E C A α} (log : Trace A) {Q : α → Trace A → Prop}
    (h : p.wpc Pool.hearing (fun log ↦ ∀ x ∈ log, P x.1) Q log) : p.Uses P := by
  induction p generalizing log with
  | ret v => trivial
  | fail e => trivial
  | call c k ih =>
    have hnext : ∀ a, (k a).wpc Pool.hearing (fun log ↦ ∀ x ∈ log, P x.1) Q (log ++ [⟨c, a⟩]) :=
      fun a ↦ h.2 a _ ⟨trivial, rfl⟩
    refine ⟨?_, fun a ↦ ih a _ (hnext a)⟩
    obtain ⟨a⟩ := hA c
    exact wpc_invariant (hnext a) ⟨c, a⟩ (by simp)

section Recorded

variable {I : Trace A → Prop}

/-- What is recorded does not depend on what has been recorded before. -/
theorem Runs.recorded_append {p : Program E C A α} {log log' : Trace A} {r : Except E α} (pre : Trace A)
    (h : Runs (Pool.heard fun _ ↦ H) p log r log') : Runs (Pool.heard fun _ ↦ H) p (pre ++ log) r (pre ++ log') := by
  induction h with
  | ret v s => exact .ret v _
  | fail e s => exact .fail e _
  | call hc _ ih =>
    refine .call ⟨hc.1, ?_⟩ ih
    rw [hc.2, List.append_assoc]

/-- What is recorded is added to what has been recorded before. -/
theorem wpc_recording {K : Trace A → (c : C) → A c → Prop} {p : Program E C A α} {Q : α → Trace A → Prop} {log : Trace A}
    (h : p.wpc (Pool.heard K) I Q log) : p.wpc (Pool.heard K) I (fun v log' ↦ Q v log' ∧ log <+: log') log := by
  induction p generalizing log with
  | ret v => exact ⟨h.1, h.2, List.prefix_refl _⟩
  | fail e => exact h
  | call c k ih =>
    refine ⟨h.1, fun a log' ha ↦ ?_⟩
    refine wpc_mono (ih a (h.2 a log' ha)) fun v log'' _ hQ ↦ ⟨hQ.1, ?_⟩
    exact (ha.2 ▸ List.prefix_append ..).trans hQ.2

/-- Calls that put out nothing leave what has been put out, and what is recorded. -/
theorem wpc_quiet {ω : Type} {out : (c : C) → A c → List ω} {K : Trace A → (c : C) → A c → Prop} {p : Program E C A α}
    {log : Trace A} (hp : p.Uses fun c ↦ ∀ a, out c a = [])
    (hI : ∀ log', output out log' = output out log → log <+: log' → I log') :
    p.wpc (Pool.heard K) I (fun _ log' ↦ output out log' = output out log ∧ log <+: log') log := by
  have hkept : p.wpc (Pool.heard K) (fun log' ↦ output out log' = output out log ∧ log <+: log') (fun _ _ ↦ True) log := by
    refine hp.wpc_invariant (fun c log₁ a log₂ hc hsame ha ↦ ?_) ⟨rfl, List.prefix_refl _⟩
    rw [ha.2, output_concat, hc a, List.append_nil]
    exact ⟨hsame.1, hsame.2.trans (List.prefix_append ..)⟩
  exact wpc_weaken (wpc_mono hkept fun _ _ hsame _ ↦ hsame) fun log' h ↦ hI log' h.1 h.2

/-- A program that returns leaves a record of its run behind. -/
theorem wpc_recorded {p : Program E C A α} {Q : α → Trace A → Prop} {log : Trace A}
    (h : p.wpc (Pool.heard fun _ ↦ H) I Q log) :
    p.wpc (Pool.heard fun _ ↦ H) I (fun v log' ↦ Q v log' ∧
      ∃ run, log' = log ++ run ∧ Runs (Pool.heard fun _ ↦ H) p [] (.ok v) run) log := by
  induction p generalizing log with
  | ret v => exact ⟨h.1, h.2, [], (List.append_nil _).symm, .ret v []⟩
  | fail e => exact h
  | call c k ih =>
    refine ⟨h.1, fun a log' ha ↦ ?_⟩
    refine wpc_mono (ih a (h.2 a log' ha)) fun v log'' _ hQ ↦ ⟨hQ.1, ?_⟩
    obtain ⟨run, hlog, hrun⟩ := hQ.2
    refine ⟨⟨c, a⟩ :: run, ?_, ?_⟩
    · rw [hlog, ha.2, List.append_assoc, List.singleton_append]
    · exact .call ⟨ha.1, rfl⟩ (hrun.recorded_append [⟨c, a⟩])

theorem wpc_recorded_bind {p : Program E C A β} {f : β → Program E C A α} {G : β → Prop}
    (hf : ∀ v, (f v).Within H (fun _ ↦ True) fun _ ↦ G v) :
    (p >>= f).wpc (Pool.heard fun _ ↦ H) (fun _ ↦ True)
      (fun _ log ↦ ∃ v run, Runs Pool.hearing p [] (.ok v) run ∧ run <+: log ∧ G v) [] := by
  apply wpc_bind
  have hp : p.wpc (Pool.heard fun _ ↦ H) (fun _ ↦ True) (fun _ _ ↦ True) [] := (within_const trivial).wpc []
  refine wpc_mono (wpc_recorded hp) fun v log _ hlog ↦ ?_
  obtain ⟨-, run, hrun, hruns⟩ := hlog
  obtain rfl : log = run := hrun
  refine wpc_mono (wpc_recording ((hf v).wpc log)) fun _ log' _ hlog' ↦ ?_
  exact ⟨v, log, hruns.mono fun _ _ _ _ h ↦ ⟨trivial, h.2⟩, hlog'.2, hlog'.1⟩

/-- The calls of a second part that are about `key` of what the first one has made out. -/
theorem wpc_recorded_about {κ : Type} (key : β → κ) {p : Program E C A β} {f : β → Program E C A α} {D : C → κ → Prop}
    (hp : p.Uses fun c ↦ ∀ g, ¬ D c g) (hf : ∀ v, (f v).Uses fun c ↦ ∀ g, D c g → g = key v) :
    (p >>= f).wpc Pool.hearing
      (fun log ↦ ∀ x ∈ log, ∀ g, D x.1 g → ∃ v run, Runs Pool.hearing p [] (.ok v) run ∧ run <+: log ∧ key v = g)
      (fun _ _ ↦ True) [] := by
  apply wpc_bind
  have hquiet : p.wpc Pool.hearing (fun log ↦ ∀ x ∈ log, ∀ g, ¬ D x.1 g) (fun _ _ ↦ True) [] := by
    refine hp.wpc_invariant (fun c log a log' hc hlog ha ↦ ?_) (by simp)
    rw [ha.2, List.forall_mem_append, List.forall_mem_singleton]
    exact ⟨hlog, hc⟩
  have hfirst : p.wpc Pool.hearing (fun log ↦ ∀ x ∈ log, ∀ g, ¬ D x.1 g)
      (fun v log ↦ (∀ x ∈ log, ∀ g, ¬ D x.1 g) ∧ Runs Pool.hearing p [] (.ok v) log) [] := by
    refine wpc_mono (wpc_recorded hquiet) fun v log hlog hrun ↦ ?_
    obtain ⟨-, run, rfl, hrun⟩ := hrun
    exact ⟨hlog, hrun⟩
  refine wpc_mono (wpc_weaken hfirst fun log hlog x hx g hg ↦ absurd hg (hlog x hx g)) fun v log _ hlog ↦ ?_
  obtain ⟨hnone, hrun⟩ := hlog
  have hrest : (f v).wpc Pool.hearing (fun log' ↦ log <+: log' ∧ ∀ x ∈ log', ∀ g, D x.1 g → g = key v)
      (fun _ _ ↦ True) log := by
    refine (hf v).wpc_invariant (fun c log₁ a log₂ hc hlog₁ ha ↦ ?_) ⟨List.prefix_refl _, ?_⟩
    · rw [ha.2, List.forall_mem_append, List.forall_mem_singleton]
      exact ⟨hlog₁.1.trans (List.prefix_append ..), hlog₁.2, hc⟩
    · exact fun x hx g hg ↦ absurd hg (hnone x hx g)
  refine wpc_weaken hrest fun log' hlog' x hx g hg ↦ ?_
  exact ⟨v, log, hrun, hlog'.1, (hlog'.2 x hx g hg).symm⟩

end Recorded

end Program

namespace Pool

variable {ι σ E C : Type} {A : C → Type} {α : Type} [DecidableEq ι] {R : (c : C) → σ → A c → σ → Prop}
  {env : σ → σ → Prop} {guard : Pool ι σ E C A α → ι → C → Prop}

/-- Every thread relies on answers of `H` and guarantees calls of its `P`: then the state keeps
an invariant under which such calls are answered as `H` allows. -/
theorem Reaches.within {H : (c : C) → A c → Prop} {P : ι → C → Prop} {I : σ → Prop} {x y : Pool ι σ E C A α}
    (h : Reaches R env guard x y) (hx : I x.state)
    (hprogs : ∀ i, (x.threads i).prog.Within H (P i) fun _ ↦ True)
    (hcall : ∀ i c s a s', P i c → I s → R c s a s' → H c a ∧ I s')
    (henv : ∀ s s', I s → env s s' → I s') :
    I y.state ∧ ∀ i, (y.threads i).prog.Within H (P i) fun _ ↦ True := by
  refine h.invariant (I := fun y ↦ I y.state ∧ ∀ i, (y.threads i).prog.Within H (P i) fun _ ↦ True) ⟨hx, hprogs⟩ ?_ ?_
  · intro y i c k a s hy _ hp hr
    have hi := hy.2 i
    rw [hp] at hi
    obtain ⟨ha, hs⟩ := hcall i c y.state a s hi.1 hy.1 hr
    exact ⟨hs, forall_resume (J := fun i prog _ ↦ prog.Within H (P i) fun _ ↦ True) hy.2 (hi.2 a ha)⟩
  · intro y s hy hs
    exact ⟨henv _ _ hy.1 hs, hy.2⟩

end Pool

end Ringdrop.Library
