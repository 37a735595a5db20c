import Mathlib.Logic.Relation

namespace Ringdrop.Library

/-- A program that asks its environment for answers: it has returned, it has
failed, or it makes one call `c` and goes on with the answer in `A c`. -/
inductive Program (E C : Type) (A : C → Type) (α : Type) : Type
  | ret (value : α) : Program E C A α
  | fail (error : E) : Program E C A α
  | call (c : C) (next : A c → Program E C A α) : Program E C A α

namespace Program

variable {E C : Type} {A : C → Type} {α β γ σ : Type}

protected def bind : Program E C A α → (α → Program E C A β) → Program E C A β
  | ret v, f => f v
  | fail e, _ => fail e
  | call c k, f => call c (fun a ↦ (k a).bind f)

def ask (c : C) : Program E C A (A c) := call c ret

def ofExcept : Except E α → Program E C A α
  | .ok v => ret v
  | .error e => fail e

/-- Run to the end and hand the outcome over, failure included. -/
def attempt : Program E C A α → Program E C A (Except E α)
  | ret v => ret (.ok v)
  | fail e => ret (.error e)
  | call c k => call c (fun a ↦ (k a).attempt)

def mapError (f : E → E) : Program E C A α → Program E C A α
  | ret v => ret v
  | fail e => fail (f e)
  | call c k => call c (fun a ↦ (k a).mapError f)

instance : Monad (Program E C A) where
  pure := ret
  bind := Program.bind

instance : MonadExceptOf E (Program E C A) where
  throw := fail
  tryCatch x f := x.attempt.bind fun
    | .ok v => ret v
    | .error e => f e

@[simp] theorem pure_def (v : α) : (pure v : Program E C A α) = ret v := rfl

@[simp] theorem throw_def (e : E) : (throw e : Program E C A α) = fail e := rfl

@[simp] theorem ret_bind (v : α) (f : α → Program E C A β) : (ret v >>= f) = f v := rfl

@[simp] theorem fail_bind (e : E) (f : α → Program E C A β) : (fail e >>= f) = fail e := rfl

@[simp] theorem call_bind (c : C) (k : A c → Program E C A α) (f : α → Program E C A β) :
    (call c k >>= f) = call c (fun a ↦ k a >>= f) := rfl

@[simp] theorem attempt_ret (v : α) : (ret v : Program E C A α).attempt = ret (.ok v) := rfl

@[simp] theorem attempt_fail (e : E) : (fail e : Program E C A α).attempt = ret (.error e) := rfl

@[simp] theorem attempt_call (c : C) (k : A c → Program E C A α) :
    (call c k).attempt = call c (fun a ↦ (k a).attempt) := rfl

@[simp] theorem mapError_ret (f : E → E) (v : α) : (ret v : Program E C A α).mapError f = ret v := rfl

@[simp] theorem mapError_fail (f : E → E) (e : E) :
    (fail e : Program E C A α).mapError f = fail (f e) := rfl

@[simp] theorem mapError_call (f : E → E) (c : C) (k : A c → Program E C A α) :
    (call c k).mapError f = call c (fun a ↦ (k a).mapError f) := rfl

@[simp] theorem ofExcept_ok (v : α) : (ofExcept (.ok v) : Program E C A α) = ret v := rfl

@[simp] theorem ofExcept_error (e : E) : (ofExcept (.error e) : Program E C A α) = fail e := rfl

instance : LawfulMonad (Program E C A) := LawfulMonad.mk' _
  (by
    intro α p
    change p.bind (fun v ↦ ret v) = p
    induction p with
    | ret v => rfl
    | fail e => rfl
    | call c k ih => simp only [Program.bind, ih])
  (fun _ _ ↦ rfl)
  (by
    intro α β γ p f g
    change (p.bind f).bind g = p.bind (fun v ↦ (f v).bind g)
    induction p with
    | ret v => rfl
    | fail e => rfl
    | call c k ih => simp only [Program.bind, ih])

/-- A possible execution under the answers `R c s a s'`: call `c` made in state
`s` may be answered `a` and leave the state `s'`. -/
inductive Runs (R : (c : C) → σ → A c → σ → Prop) : Program E C A α → σ → Except E α → σ → Prop
  | ret (v : α) (s : σ) : Runs R (.ret v) s (.ok v) s
  | fail (e : E) (s : σ) : Runs R (.fail e) s (.error e) s
  | call {c : C} {k : A c → Program E C A α} {s s' s'' : σ} {a : A c} {r : Except E α} :
      R c s a s' → Runs R (k a) s' r s'' → Runs R (.call c k) s r s''

/-- Weakest precondition: whatever the answers, the program returns in `Q` or fails
in `Z`. Programs are finite trees, so this is total correctness against `R`. -/
def wp (R : (c : C) → σ → A c → σ → Prop) :
    Program E C A α → (α → σ → Prop) → (E → σ → Prop) → σ → Prop
  | ret v, Q, _, s => Q v s
  | fail e, _, Z, s => Z e s
  | call c k, Q, Z, s => ∀ a s', R c s a s' → wp R (k a) Q Z s'

def Outcome (Q : α → σ → Prop) (Z : E → σ → Prop) : Except E α → σ → Prop
  | .ok v, s => Q v s
  | .error e, s => Z e s

section Rules

variable {R R' : (c : C) → σ → A c → σ → Prop} {Q : α → σ → Prop} {Z : E → σ → Prop} {s : σ}

@[simp] theorem wp_ret (v : α) : wp R (.ret v) Q Z s ↔ Q v s := Iff.rfl

@[simp] theorem wp_fail (e : E) : wp R (.fail e) Q Z s ↔ Z e s := Iff.rfl

@[simp] theorem wp_call (c : C) (k : A c → Program E C A α) :
    wp R (.call c k) Q Z s ↔ ∀ a s', R c s a s' → wp R (k a) Q Z s' := Iff.rfl

@[simp] theorem outcome_ok (v : α) : Outcome Q Z (.ok v) s ↔ Q v s := Iff.rfl

@[simp] theorem outcome_error (e : E) : Outcome Q Z (.error e) s ↔ Z e s := Iff.rfl

theorem wp_ofExcept (r : Except E α) : wp R (ofExcept r) Q Z s ↔ Outcome Q Z r s := by
  cases r <;> rfl

theorem wp_ask (c : C) {Q : A c → σ → Prop} :
    wp R (ask c) Q Z s ↔ ∀ a s', R c s a s' → Q a s' := Iff.rfl

theorem wp_bind (p : Program E C A β) (f : β → Program E C A α) :
    wp R (p >>= f) Q Z s ↔ wp R p (fun v ↦ wp R (f v) Q Z) Z s := by
  induction p generalizing s with
  | ret v => rfl
  | fail e => rfl
  | call c k ih => simp only [call_bind, wp_call, ih]

theorem wp_attempt (p : Program E C A β) {Q : Except E β → σ → Prop} :
    wp R p.attempt Q Z s ↔ wp R p (fun v ↦ Q (.ok v)) (fun e ↦ Q (.error e)) s := by
  induction p generalizing s with
  | ret v => rfl
  | fail e => rfl
  | call c k ih => simp only [attempt_call, wp_call, ih]

theorem wp_mapError (f : E → E) (p : Program E C A α) :
    wp R (p.mapError f) Q Z s ↔ wp R p Q (fun e ↦ Z (f e)) s := by
  induction p generalizing s with
  | ret v => rfl
  | fail e => rfl
  | call c k ih => simp only [mapError_call, wp_call, ih]

theorem wp_mono {p : Program E C A α} {Q' : α → σ → Prop} {Z' : E → σ → Prop}
    (h : wp R p Q Z s) (hQ : ∀ v s', Q v s' → Q' v s') (hZ : ∀ e s', Z e s' → Z' e s') :
    wp R p Q' Z' s := by
  induction p generalizing s with
  | ret v => exact hQ v s h
  | fail e => exact hZ e s h
  | call c k ih => exact fun a s' hr ↦ ih a (h a s' hr)

theorem wp_and {p : Program E C A α} {Q' : α → σ → Prop} {Z' : E → σ → Prop} (h : wp R p Q Z s)
    (h' : wp R p Q' Z' s) : wp R p (fun v s' ↦ Q v s' ∧ Q' v s') (fun e s' ↦ Z e s' ∧ Z' e s') s := by
  induction p generalizing s with
  | ret v => exact ⟨h, h'⟩
  | fail e => exact ⟨h, h'⟩
  | call c k ih => exact fun a s' hr ↦ ih a (h a s' hr) (h' a s' hr)

theorem wp_anti {p : Program E C A α} (hR : ∀ c s a s', R' c s a s' → R c s a s')
    (h : wp R p Q Z s) : wp R' p Q Z s := by
  induction p generalizing s with
  | ret v => exact h
  | fail e => exact h
  | call c k ih => exact fun a s' hr ↦ ih a (h a s' (hR c s a s' hr))

/-- Loop rule: a body that keeps `I` until it fails keeps `I` over a whole list. -/
theorem wp_forM {I : List β → σ → Prop} {f : β → Program E C A PUnit} {xs : List β}
    {Q : PUnit → σ → Prop}
    (hf : ∀ x rest s, I (x :: rest) s → wp R (f x) (fun _ ↦ I rest) Z s)
    (hQ : ∀ s, I [] s → Q ⟨⟩ s) (hs : I xs s) : wp R (forM xs f) Q Z s := by
  induction xs generalizing s with
  | nil => exact hQ s hs
  | cons x rest ih =>
    rw [List.forM_cons, wp_bind]
    exact wp_mono (hf x rest s hs) (fun _ _ hs' ↦ ih hs') (fun _ _ hz ↦ hz)

theorem wp_foldlM {I : List β → γ → σ → Prop} {f : γ → β → Program E C A γ} {xs : List β} {acc : γ}
    {Q : γ → σ → Prop}
    (hf : ∀ x rest acc s, I (x :: rest) acc s → wp R (f acc x) (fun acc' ↦ I rest acc') Z s)
    (hQ : ∀ acc s, I [] acc s → Q acc s) (hs : I xs acc s) :
    wp R (xs.foldlM f acc) Q Z s := by
  induction xs generalizing acc s with
  | nil => exact hQ acc s hs
  | cons x rest ih =>
    rw [List.foldlM_cons, wp_bind]
    exact wp_mono (hf x rest acc s hs) (fun _ _ hs' ↦ ih hs') (fun _ _ hz ↦ hz)

theorem wp_iff_runs (p : Program E C A α) : wp R p Q Z s ↔
    (∀ v s', Runs R p s (.ok v) s' → Q v s') ∧ (∀ e s', Runs R p s (.error e) s' → Z e s') := by
  induction p generalizing s with
  | ret v =>
    constructor
    · intro h
      exact ⟨by rintro v s' ⟨⟩; exact h, by rintro e s' ⟨⟩⟩
    · intro h
      exact h.1 v s (.ret v s)
  | fail e =>
    constructor
    · intro h
      exact ⟨by rintro v s' ⟨⟩, by rintro e s' ⟨⟩; exact h⟩
    · intro h
      exact h.2 e s (.fail e s)
  | call c k ih =>
    constructor
    · intro h
      constructor
      · intro v s'' hr
        cases hr with
        | call ha hk => exact ((ih _).mp (h _ _ ha)).1 v s'' hk
      · intro e s'' hr
        cases hr with
        | call ha hk => exact ((ih _).mp (h _ _ ha)).2 e s'' hk
    · intro h a s' ha
      exact (ih a).mpr ⟨fun v s'' hk ↦ h.1 v s'' (.call ha hk), fun e s'' hk ↦ h.2 e s'' (.call ha hk)⟩

theorem Runs.ok_of_wp {p : Program E C A α} {s' : σ} {v : α} (h : Runs R p s (.ok v) s')
    (hw : wp R p Q Z s) : Q v s' := ((wp_iff_runs p).mp hw).1 v s' h

theorem Runs.error_of_wp {p : Program E C A α} {s' : σ} {e : E} (h : Runs R p s (.error e) s')
    (hw : wp R p Q Z s) : Z e s' := ((wp_iff_runs p).mp hw).2 e s' h

theorem exists_run (hR : ∀ c s, ∃ a s', R c s a s') (p : Program E C A α) (s : σ) :
    ∃ r s', Runs R p s r s' := by
  induction p generalizing s with
  | ret v => exact ⟨.ok v, s, .ret v s⟩
  | fail e => exact ⟨.error e, s, .fail e s⟩
  | call c k ih =>
    obtain ⟨a, s₁, ha⟩ := hR c s
    obtain ⟨r, s₂, hk⟩ := ih a s₁
    exact ⟨r, s₂, .call ha hk⟩

theorem Runs.mono {p : Program E C A α} {s' : σ} {r : Except E α}
    (hR : ∀ c s a s', R c s a s' → R' c s a s') (h : Runs R p s r s') : Runs R' p s r s' := by
  induction h with
  | ret v s => exact .ret v s
  | fail e s => exact .fail e s
  | call ha _ ih => exact .call (hR _ _ _ _ ha) ih

theorem Runs.attempt {p : Program E C A α} {s' : σ} {r : Except E α} (h : Runs R p s r s') :
    Runs R p.attempt s (.ok r) s' := by
  induction h with
  | ret v s => exact .ret (Except.ok v) s
  | fail e s => exact .ret (Except.error e) s
  | call ha _ ih => exact .call ha ih

theorem Runs.invariant {I : σ → Prop} {p : Program E C A α} {s' : σ} {r : Except E α}
    (h : Runs R p s r s') (hI : ∀ c s a s', I s → R c s a s' → I s') (hs : I s) : I s' := by
  induction h with
  | ret v s => exact hs
  | fail e s => exact hs
  | call ha _ ih => exact ih (hI _ _ _ _ hs ha)

def Uses (P : C → Prop) : Program E C A α → Prop
  | ret _ => True
  | fail _ => True
  | call c k => P c ∧ ∀ a, (k a).Uses P

@[simp] theorem uses_ret {P : C → Prop} (v : α) : (ret v : Program E C A α).Uses P ↔ True := Iff.rfl

@[simp] theorem uses_fail {P : C → Prop} (e : E) : (fail e : Program E C A α).Uses P ↔ True := Iff.rfl

@[simp] theorem uses_call {P : C → Prop} (c : C) (k : A c → Program E C A α) :
    (call c k).Uses P ↔ P c ∧ ∀ a, (k a).Uses P := Iff.rfl

theorem uses_ofExcept {P : C → Prop} (r : Except E α) : (ofExcept r : Program E C A α).Uses P := by
  cases r <;> trivial

theorem uses_ask {P : C → Prop} {c : C} (h : P c) : (ask c : Program E C A (A c)).Uses P :=
  ⟨h, fun _ ↦ trivial⟩

theorem Uses.bind {P : C → Prop} {p : Program E C A α} {f : α → Program E C A β}
    (hp : p.Uses P) (hf : ∀ v, (f v).Uses P) : (p >>= f).Uses P := by
  induction p with
  | ret v => exact hf v
  | fail e => trivial
  | call c k ih => exact ⟨hp.1, fun a ↦ ih a (hp.2 a)⟩

theorem Uses.attempt {P : C → Prop} {p : Program E C A α} (hp : p.Uses P) : p.attempt.Uses P := by
  induction p with
  | ret v => trivial
  | fail e => trivial
  | call c k ih => exact ⟨hp.1, fun a ↦ ih a (hp.2 a)⟩

theorem Uses.mapError {P : C → Prop} {f : E → E} {p : Program E C A α} (hp : p.Uses P) :
    (p.mapError f).Uses P := by
  induction p with
  | ret v => trivial
  | fail e => trivial
  | call c k ih => exact ⟨hp.1, fun a ↦ ih a (hp.2 a)⟩

theorem Uses.forM_mem {P : C → Prop} {f : β → Program E C A PUnit} {xs : List β} (hf : ∀ x ∈ xs, (f x).Uses P) :
    (forM xs f).Uses P := by
  induction xs with
  | nil => trivial
  | cons x rest ih =>
    rw [List.forM_cons]
    exact (hf x (by simp)).bind fun _ ↦ ih fun y hy ↦ hf y (by simp [hy])

theorem Uses.forM {P : C → Prop} {f : β → Program E C A PUnit} (hf : ∀ x, (f x).Uses P)
    (xs : List β) : (forM xs f).Uses P := Uses.forM_mem fun x _ ↦ hf x

theorem Uses.foldlM {P : C → Prop} {f : γ → β → Program E C A γ} (hf : ∀ acc x, (f acc x).Uses P)
    (xs : List β) (acc : γ) : (xs.foldlM f acc).Uses P := by
  induction xs generalizing acc with
  | nil => trivial
  | cons x rest ih =>
    rw [List.foldlM_cons]
    exact (hf acc x).bind ih

theorem Uses.mono {P P' : C → Prop} {p : Program E C A α} (hp : p.Uses P) (h : ∀ c, P c → P' c) :
    p.Uses P' := by
  induction p with
  | ret v => trivial
  | fail e => trivial
  | call c k ih => exact ⟨h c hp.1, fun a ↦ ih a (hp.2 a)⟩

theorem uses_true (p : Program E C A α) : p.Uses (fun _ ↦ True) := by
  induction p with
  | ret v => trivial
  | fail e => trivial
  | call c k ih => exact ⟨trivial, ih⟩

theorem Uses.wp_invariant {P : C → Prop} {I : σ → Prop} {p : Program E C A α}
    (hp : p.Uses P) (hI : ∀ c s a s', P c → I s → R c s a s' → I s') (hs : I s) :
    wp R p (fun _ ↦ I) (fun _ ↦ I) s := by
  induction p generalizing s with
  | ret v => exact hs
  | fail e => exact hs
  | call c k ih => exact fun a s' hr ↦ ih a (hp.2 a) (hI c s a s' hp.1 hs hr)

end Rules

section Deterministic

def run (h : (c : C) → σ → A c × σ) : Program E C A α → σ → Except E α × σ
  | ret v, s => (.ok v, s)
  | fail e, s => (.error e, s)
  | call c k, s => run h (k (h c s).1) (h c s).2

def graph (h : (c : C) → σ → A c × σ) (c : C) (s : σ) (a : A c) (s' : σ) : Prop :=
  h c s = (a, s')

variable {h : (c : C) → σ → A c × σ}

theorem run_bind (p : Program E C A α) (f : α → Program E C A β) (s : σ) :
    run h (p >>= f) s = match run h p s with
      | (.ok v, s') => run h (f v) s'
      | (.error e, s') => (.error e, s') := by
  induction p generalizing s with
  | ret v => rfl
  | fail e => rfl
  | call c k ih => exact ih _ _

theorem runs_run (p : Program E C A α) (s : σ) :
    Runs (graph h) p s (run h p s).1 (run h p s).2 := by
  induction p generalizing s with
  | ret v => exact .ret v s
  | fail e => exact .fail e s
  | call c k ih => exact .call rfl (ih _ _)

theorem forall_graph {c : C} {s : σ} {P : A c → σ → Prop} :
    (∀ a s', graph h c s a s' → P a s') ↔ P (h c s).1 (h c s).2 := by
  constructor
  · intro hP
    exact hP _ _ rfl
  · rintro hP a s' hg
    have ha : (h c s).1 = a := congrArg Prod.fst hg
    have hs : (h c s).2 = s' := congrArg Prod.snd hg
    rwa [← ha, ← hs]

theorem outcome_run {p : Program E C A α} {Q : α → σ → Prop} {Z : E → σ → Prop} {s : σ}
    (hw : wp (graph h) p Q Z s) : Outcome Q Z (run h p s).1 (run h p s).2 := by
  have hr := runs_run (h := h) p s
  cases hres : (run h p s).1 with
  | ok v =>
    rw [hres] at hr
    exact hr.ok_of_wp hw
  | error e =>
    rw [hres] at hr
    exact hr.error_of_wp hw

def checked (h : (c : C) → σ → A c × σ) (g : C → σ → Bool) : Program E C A α → σ → Bool
  | ret _, _ => true
  | fail _, _ => true
  | call c k, s => g c s && checked h g (k (h c s).1) (h c s).2

theorem runs_checked {g : C → σ → Bool} (p : Program E C A α) (s : σ) (hg : checked h g p s) :
    Runs (fun c s a s' ↦ graph h c s a s' ∧ g c s = true) p s (run h p s).1 (run h p s).2 := by
  induction p generalizing s with
  | ret v => exact .ret v s
  | fail e => exact .fail e s
  | call c k ih =>
    obtain ⟨hc, hk⟩ := Bool.and_eq_true_iff.mp hg
    exact .call ⟨rfl, hc⟩ (ih _ _ hk)

def returned : Program E C A α → Bool
  | ret _ => true
  | _ => false

theorem eq_ret_of_returned {p : Program E C A Unit} (h : p.returned = true) : p = ret () := by
  cases p with
  | ret v => rfl
  | fail e => cases h
  | call c k => cases h

end Deterministic

section Traces

/-- The calls made and the answers given, oldest first. -/
abbrev Trace (A : C → Type) := List ((c : C) × A c)

def logged (R : (c : C) → σ → A c → σ → Prop) (c : C) (x : σ × Trace A) (a : A c)
    (y : σ × Trace A) : Prop :=
  R c x.1 a y.1 ∧ y.2 = x.2 ++ [⟨c, a⟩]

def logging (h : (c : C) → σ → A c × σ) (c : C) (x : σ × Trace A) : A c × (σ × Trace A) :=
  ((h c x.1).1, ((h c x.1).2, x.2 ++ [⟨c, (h c x.1).1⟩]))

theorem runs_logging {h : (c : C) → σ → A c × σ} (p : Program E C A α) (x : σ × Trace A) :
    Runs (logged (graph h)) p x (run (logging h) p x).1 (run (logging h) p x).2 := by
  refine (runs_run p x).mono fun c x a y hy ↦ ?_
  cases hy
  exact ⟨rfl, rfl⟩

/-- Answers that also keep a history beside the state: each call with its answer and the
state it found. -/
def recorded (R : (c : C) → σ → A c → σ → Prop) (c : C) (x : σ × List (σ × (c : C) × A c)) (a : A c)
    (y : σ × List (σ × (c : C) × A c)) : Prop :=
  R c x.1 a y.1 ∧ y.2 = x.2 ++ [(x.1, ⟨c, a⟩)]

/-- The last call was one that `P` allows after the calls before it. -/
def Follows (P : Trace A → C → Prop) (log : Trace A) : Prop :=
  ∀ before c a, log = before ++ [⟨c, a⟩] → P before c

theorem follows_nil {P : Trace A → C → Prop} : Follows P [] := by
  intro before c a h
  simp at h

theorem follows_concat {P : Trace A → C → Prop} {log : Trace A} {c : C} {a : A c} :
    Follows P (log ++ [⟨c, a⟩]) ↔ P log c := by
  constructor
  · intro h
    exact h log c a rfl
  · intro h before c' a' heq
    obtain ⟨rfl, hlast⟩ := List.append_inj' heq rfl
    cases hlast
    exact h

/-- Steps of the environment `env` may come before each call. -/
def interfered (env : σ → σ → Prop) (R : (c : C) → σ → A c → σ → Prop) (c : C) (s : σ)
    (a : A c) (s' : σ) : Prop :=
  ∃ s₁, Relation.ReflTransGen env s s₁ ∧ R c s₁ a s'

end Traces

end Program

end Ringdrop.Library
