import Ringdrop.Library.Crash
import Mathlib.Logic.Function.Basic
import Mathlib.Logic.Hydra

namespace Ringdrop.Library

structure Thread (E C : Type) (A : C → Type) (α : Type) where
  prog : Program E C A α
  log : Program.Trace A

structure Pool (ι σ E C : Type) (A : C → Type) (α : Type) where
  state : σ
  threads : ι → Thread E C A α

namespace Pool

variable {ι σ E C : Type} {A : C → Type} {α : Type} [DecidableEq ι]

def start (s : σ) (progs : ι → Program E C A α) : Pool ι σ E C A α :=
  ⟨s, fun i ↦ ⟨progs i, []⟩⟩

/-- Thread `i` is answered `a` to the call `c` it is waiting on. -/
def resume (x : Pool ι σ E C A α) (i : ι) (c : C) (a : A c) (k : A c → Program E C A α) (s : σ) :
    Pool ι σ E C A α :=
  ⟨s, Function.update x.threads i ⟨k a, (x.threads i).log ++ [⟨c, a⟩]⟩⟩

@[simp] theorem resume_state (x : Pool ι σ E C A α) (i : ι) (c : C) (a : A c)
    (k : A c → Program E C A α) (s : σ) : (x.resume i c a k s).state = s := rfl

@[simp] theorem resume_self (x : Pool ι σ E C A α) (i : ι) (c : C) (a : A c)
    (k : A c → Program E C A α) (s : σ) :
    (x.resume i c a k s).threads i = ⟨k a, (x.threads i).log ++ [⟨c, a⟩]⟩ :=
  Function.update_self ..

theorem resume_of_ne (x : Pool ι σ E C A α) {i j : ι} (h : j ≠ i) (c : C) (a : A c)
    (k : A c → Program E C A α) (s : σ) : (x.resume i c a k s).threads j = x.threads j :=
  Function.update_of_ne h ..

theorem forall_resume {J : ι → Program E C A α → Program.Trace A → Prop} {x : Pool ι σ E C A α} {i : ι} {c : C}
    {a : A c} {k : A c → Program E C A α} {s : σ} (hx : ∀ j, J j (x.threads j).prog (x.threads j).log)
    (hi : J i (k a) ((x.threads i).log ++ [⟨c, a⟩])) (j : ι) :
    J j ((x.resume i c a k s).threads j).prog ((x.resume i c a k s).threads j).log := by
  by_cases hij : j = i
  · subst hij
    rw [resume_self]
    exact hi
  · rw [resume_of_ne _ hij]
    exact hx j

/-- One atomic call by thread `i`. -/
inductive Step (R : (c : C) → σ → A c → σ → Prop) (x : Pool ι σ E C A α) (i : ι) :
    C → Pool ι σ E C A α → Prop
  | call {c : C} {k : A c → Program E C A α} {a : A c} {s : σ} :
      (x.threads i).prog = .call c k → R c x.state a s → Step R x i c (x.resume i c a k s)

/-- Any interleaving of calls whose guard holds in the configuration they are made
in, and of steps `env` of the surroundings. -/
inductive Reaches (R : (c : C) → σ → A c → σ → Prop) (env : σ → σ → Prop)
    (guard : Pool ι σ E C A α → ι → C → Prop) (x : Pool ι σ E C A α) : Pool ι σ E C A α → Prop
  | refl : Reaches R env guard x x
  | step {y z : Pool ι σ E C A α} {i : ι} {c : C} :
      Reaches R env guard x y → guard y i c → Step R y i c z → Reaches R env guard x z
  | env {y : Pool ι σ E C A α} {s : σ} :
      Reaches R env guard x y → env y.state s → Reaches R env guard x { y with state := s }

/-- `Reaches`, with the calls of all threads and their answers, oldest first. -/
inductive History (R : (c : C) → σ → A c → σ → Prop) (env : σ → σ → Prop)
    (guard : Pool ι σ E C A α → ι → C → Prop) (x : Pool ι σ E C A α) :
    List (ι × (c : C) × A c) → Pool ι σ E C A α → Prop
  | refl : History R env guard x [] x
  | step {y : Pool ι σ E C A α} {calls : List (ι × (c : C) × A c)} {i : ι} {c : C} {k : A c → Program E C A α}
      {a : A c} {s : σ} :
      History R env guard x calls y → guard y i c → (y.threads i).prog = .call c k → R c y.state a s →
      History R env guard x (calls ++ [(i, ⟨c, a⟩)]) (y.resume i c a k s)
  | env {y : Pool ι σ E C A α} {calls : List (ι × (c : C) × A c)} {s : σ} :
      History R env guard x calls y → env y.state s → History R env guard x calls { y with state := s }

variable {R : (c : C) → σ → A c → σ → Prop} {env : σ → σ → Prop}
  {guard : Pool ι σ E C A α → ι → C → Prop}

theorem Reaches.invariant {I : Pool ι σ E C A α → Prop} {x y : Pool ι σ E C A α}
    (h : Reaches R env guard x y) (hx : I x)
    (hstep : ∀ y i c k a s, I y → guard y i c → (y.threads i).prog = .call c k → R c y.state a s →
      I (y.resume i c a k s))
    (henv : ∀ y s, I y → env y.state s → I { y with state := s }) : I y := by
  induction h with
  | refl => exact hx
  | step _ hg hs ih =>
    cases hs with
    | call hp hr => exact hstep _ _ _ _ _ _ ih hg hp hr
  | env _ he ih => exact henv _ _ ih he

theorem Reaches.mono {R' : (c : C) → σ → A c → σ → Prop} {guard' : Pool ι σ E C A α → ι → C → Prop}
    {x y : Pool ι σ E C A α} (hR : ∀ c s a s', R c s a s' → R' c s a s')
    (hg : ∀ y i c, guard y i c → guard' y i c) (h : Reaches R env guard x y) :
    Reaches R' env guard' x y := by
  induction h with
  | refl => exact .refl
  | step _ hc hs ih =>
    cases hs with
    | call hp hr => exact .step ih (hg _ _ _ hc) (.call hp (hR _ _ _ _ hr))
  | env _ he ih => exact .env ih he

theorem Reaches.trans {x y z : Pool ι σ E C A α} (h : Reaches R env guard x y)
    (h' : Reaches R env guard y z) : Reaches R env guard x z := by
  induction h' with
  | refl => exact h
  | step _ hc hs ih => exact .step ih hc hs
  | env _ he ih => exact .env ih he

theorem History.trans {x y z : Pool ι σ E C A α} {calls calls' : List (ι × (c : C) × A c)}
    (h : History R env guard x calls y) (h' : History R env guard y calls' z) :
    History R env guard x (calls ++ calls') z := by
  induction h' with
  | refl => rwa [List.append_nil]
  | step _ hg hp hr ih =>
    rw [← List.append_assoc]
    exact .step ih hg hp hr
  | env _ he ih => exact .env ih he

theorem History.mono {R' : (c : C) → σ → A c → σ → Prop} {guard' : Pool ι σ E C A α → ι → C → Prop}
    {x y : Pool ι σ E C A α} {calls : List (ι × (c : C) × A c)} (hR : ∀ c s a s', R c s a s' → R' c s a s')
    (hg : ∀ y i c, guard y i c → guard' y i c) (h : History R env guard x calls y) :
    History R' env guard' x calls y := by
  induction h with
  | refl => exact .refl
  | step _ hc hp hr ih => exact .step ih (hg _ _ _ hc) hp (hR _ _ _ _ hr)
  | env _ he ih => exact .env ih he

/-- What a thread hears, when `H` says which answers are possible after its calls so far. -/
def heard (H : Program.Trace A → (c : C) → A c → Prop) (c : C) (log : Program.Trace A) (a : A c)
    (log' : Program.Trace A) : Prop :=
  H log c a ∧ log' = log ++ [⟨c, a⟩]

abbrev hearing : (c : C) → Program.Trace A → A c → Program.Trace A → Prop := heard fun _ _ _ ↦ True

/-- What each thread keeps on its own, whatever it hears, it keeps among the others. -/
theorem Reaches.thread {H : Program.Trace A → (c : C) → A c → Prop} {I : Program.Trace A → Prop}
    {x y : Pool ι σ E C A α} (h : Reaches R env guard x y)
    (hH : ∀ {y i c k a s}, Reaches R env guard x y → guard y i c → (y.threads i).prog = .call c k →
      R c y.state a s → H (y.threads i).log c a)
    (hx : ∀ i, (x.threads i).prog.wpc (heard H) I (fun _ _ ↦ True) (x.threads i).log) (i : ι) :
    (y.threads i).prog.wpc (heard H) I (fun _ _ ↦ True) (y.threads i).log := by
  induction h generalizing i with
  | refl => exact hx i
  | @step y z j c hy hg hs ih =>
    cases hs with
    | @call k a s hp hr =>
      refine forall_resume (J := fun _ prog log ↦ prog.wpc (heard H) I (fun _ _ ↦ True) log) ih ?_ i
      have hj := ih j
      rw [hp] at hj
      exact hj.2 a _ ⟨hH hy hg hp hr, rfl⟩
  | env _ _ ih => exact ih i

/-- `Reaches.thread`, where what a thread hears may also depend on what is still to come
before `z`. -/
theorem Reaches.thread_until {H : Program.Trace A → (c : C) → A c → Prop} {I : Program.Trace A → Prop}
    {Q : α → Program.Trace A → Prop} {x y z : Pool ι σ E C A α} (h : Reaches R env guard x y)
    (hz : Reaches R env guard y z)
    (hH : ∀ {y i c k a s}, Reaches R env guard x y → Reaches R env guard y z → (y.threads i).prog = .call c k →
      R c y.state a s → Reaches R env guard (y.resume i c a k s) z → H (y.threads i).log c a) {i : ι}
    (hx : (x.threads i).prog.wpc (heard H) I Q (x.threads i).log) :
    (y.threads i).prog.wpc (heard H) I Q (y.threads i).log := by
  induction h with
  | refl => exact hx
  | @step y w j c hy hg hs ih =>
    have hyz : Reaches R env guard y z := (Reaches.step .refl hg hs).trans hz
    cases hs with
    | @call k a s hp hr =>
      have hi := ih hyz
      by_cases hij : i = j
      · subst hij
        rw [hp] at hi
        rw [resume_self]
        exact hi.2 a _ ⟨hH hy hyz hp hr hz, rfl⟩
      · rw [resume_of_ne _ hij]
        exact hi
  | env hy he ih => exact ih ((Reaches.env .refl he).trans hz)

theorem log_prefix_resume (x : Pool ι σ E C A α) (i : ι) (c : C) (a : A c) (k : A c → Program E C A α) (s : σ) (j : ι) :
    (x.threads j).log <+: ((x.resume i c a k s).threads j).log := by
  by_cases hij : j = i
  · subst hij
    rw [resume_self]
    exact List.prefix_append ..
  · rw [resume_of_ne _ hij]

theorem Reaches.log_prefix {x y : Pool ι σ E C A α} (h : Reaches R env guard x y) (i : ι) :
    (x.threads i).log <+: (y.threads i).log :=
  h.invariant (I := fun z ↦ (x.threads i).log <+: (z.threads i).log) (List.prefix_refl _)
    (fun z j c k a s hz _ _ _ ↦ hz.trans (log_prefix_resume z j c a k s i)) fun _ _ hz _ ↦ hz

/-- A thread that has no call left to make does nothing any more. -/
theorem Reaches.threads_of_no_call {x y : Pool ι σ E C A α} {i : ι} (h : Reaches R env guard x y)
    (hx : ∀ c k, (x.threads i).prog ≠ .call c k) : y.threads i = x.threads i := by
  refine h.invariant (I := fun z ↦ z.threads i = x.threads i) rfl (fun z j c k a s hz _ hp _ ↦ ?_) fun z s hz _ ↦ hz
  by_cases hij : i = j
  · subst hij
    rw [hz] at hp
    exact absurd hp (hx c k)
  · rw [resume_of_ne _ hij]
    exact hz

theorem Reaches.threads_of_ret {x y : Pool ι σ E C A α} {i : ι} {v : α} (h : Reaches R env guard x y)
    (hx : (x.threads i).prog = .ret v) : y.threads i = x.threads i :=
  h.threads_of_no_call fun c k hp ↦ by
    rw [hx] at hp
    cases hp

theorem Reaches.exists_partial {x : Pool ι σ E C A α} {i : ι} {q : Program E C A α} {s' : σ} {log' : Program.Trace A}
    (h : Program.Partial (Program.logged R) (x.threads i).prog (x.state, (x.threads i).log) q (s', log')) :
    ∃ y, Reaches R env (fun _ _ _ ↦ True) x y ∧ y.state = s' ∧ y.threads i = ⟨q, log'⟩ ∧
      ∀ j, j ≠ i → y.threads j = x.threads j := by
  generalize hz : (s', log') = z at h
  induction h generalizing s' log' with
  | start =>
    obtain ⟨rfl, rfl⟩ := Prod.mk.inj hz
    exact ⟨x, .refl, rfl, rfl, fun _ _ ↦ rfl⟩
  | @call c k a s₁ s₂ _ hr ih =>
    obtain ⟨y, hy, hstate, hthread, hothers⟩ := ih rfl
    obtain ⟨hanswer, hrecord⟩ := hr
    rw [← hz] at hanswer hrecord
    have hprog : (y.threads i).prog = .call c k := by rw [hthread]
    refine ⟨y.resume i c a k s', .step hy trivial (.call hprog (hstate ▸ hanswer)), rfl, ?_, fun j hj ↦ ?_⟩
    · rw [resume_self, hthread]
      exact congrArg (Thread.mk _) hrecord.symm
    · rw [resume_of_ne y hj, hothers j hj]

/-- Let the threads move in the order of a schedule, against a deterministic
environment. A finished thread lets its turn pass. -/
def schedule (h : (c : C) → σ → A c × σ) : List ι → Pool ι σ E C A α → Pool ι σ E C A α
  | [], x => x
  | i :: is, x =>
    match (x.threads i).prog with
    | .call c k => schedule h is (x.resume i c (h c x.state).1 k (h c x.state).2)
    | _ => schedule h is x

def scheduleChecked (h : (c : C) → σ → A c × σ) (g : Pool ι σ E C A α → ι → C → Bool) :
    List ι → Pool ι σ E C A α → Bool
  | [], _ => true
  | i :: is, x =>
    match (x.threads i).prog with
    | .call c k => g x i c && scheduleChecked h g is (x.resume i c (h c x.state).1 k (h c x.state).2)
    | _ => scheduleChecked h g is x

theorem reaches_schedule {h : (c : C) → σ → A c × σ} {g : Pool ι σ E C A α → ι → C → Bool} (is : List ι)
    (x : Pool ι σ E C A α) (hg : scheduleChecked h g is x) :
    Reaches (Program.graph h) env (fun x i c ↦ g x i c = true) x (schedule h is x) := by
  induction is generalizing x with
  | nil => exact .refl
  | cons i is ih =>
    unfold schedule
    unfold scheduleChecked at hg
    split at hg
    next c k hp =>
      obtain ⟨hc, hrest⟩ := Bool.and_eq_true_iff.mp hg
      exact (Reaches.step .refl hc (.call hp rfl)).trans (ih _ hrest)
    next => exact ih x hg

theorem scheduleChecked_true {h : (c : C) → σ → A c × σ} (is : List ι) (x : Pool ι σ E C A α) :
    scheduleChecked h (fun _ _ _ ↦ true) is x = true := by
  induction is generalizing x with
  | nil => rfl
  | cons i is ih =>
    unfold scheduleChecked
    split
    next => exact ih _
    next => exact ih x

def scheduleCalls (h : (c : C) → σ → A c × σ) : List ι → Pool ι σ E C A α → List (ι × (c : C) × A c)
  | [], _ => []
  | i :: is, x =>
    match (x.threads i).prog with
    | .call c k =>
      (i, ⟨c, (h c x.state).1⟩) :: scheduleCalls h is (x.resume i c (h c x.state).1 k (h c x.state).2)
    | _ => scheduleCalls h is x

theorem history_schedule {h : (c : C) → σ → A c × σ} {g : Pool ι σ E C A α → ι → C → Bool} (is : List ι)
    (x : Pool ι σ E C A α) (hg : scheduleChecked h g is x) :
    History (Program.graph h) env (fun x i c ↦ g x i c = true) x (scheduleCalls h is x) (schedule h is x) := by
  induction is generalizing x with
  | nil => exact .refl
  | cons i is ih =>
    unfold schedule scheduleCalls
    unfold scheduleChecked at hg
    split at hg
    next c k hp =>
      obtain ⟨hc, hrest⟩ := Bool.and_eq_true_iff.mp hg
      have hfirst : History (Program.graph h) env (fun x i c ↦ g x i c = true) x [(i, ⟨c, (h c x.state).1⟩)]
          (x.resume i c (h c x.state).1 k (h c x.state).2) := .step .refl hc hp rfl
      exact hfirst.trans (ih _ hrest)
    next => exact ih x hg

end Pool

def StepAt {α : Type} (r : α → α → Prop) (l' l : List α) : Prop :=
  ∃ i a a', l[i]? = some a ∧ r a' a ∧ l' = l.set i a'

theorem set_eq_append {α : Type} {l : List α} {i : ℕ} {a : α} (h : l[i]? = some a) (a' : α) :
    l = l.take i ++ a :: l.drop (i + 1) ∧ l.set i a' = l.take i ++ a' :: l.drop (i + 1) := by
  obtain ⟨hi, rfl⟩ := List.getElem?_eq_some_iff.mp h
  refine ⟨?_, List.set_eq_take_append_cons_drop.trans (if_pos hi)⟩
  rw [← List.drop_eq_getElem_cons hi, List.take_append_drop]

theorem wellFounded_stepAt {α : Type} {r : α → α → Prop} (hr : WellFounded r) :
    WellFounded (StepAt r) := by
  have hirrefl : Std.Irrefl r := ⟨fun a ha ↦ hr.asymmetric a a ha ha⟩
  refine Subrelation.wf (r := InvImage (Relation.CutExpand r) Multiset.ofList) ?_ (InvImage.wf _ hr.cutExpand)
  rintro l' l ⟨i, a, a', hget, hstep, rfl⟩
  obtain ⟨hl, hset⟩ := set_eq_append hget a'
  have hcut := Relation.cutExpand_add_single (Multiset.ofList (l.take i ++ l.drop (i + 1))) hstep
  have hof (b : α) : Multiset.ofList (l.take i ++ l.drop (i + 1)) + {b} =
      Multiset.ofList (l.take i ++ b :: l.drop (i + 1)) := by
    have hperm : (l.drop (i + 1) ++ [b]).Perm ([b] ++ l.drop (i + 1)) := List.perm_append_comm
    rw [← Multiset.coe_singleton, Multiset.coe_add, Multiset.coe_eq_coe, List.append_assoc]
    exact hperm.append_left (l.take i)
  rw [hof, hof, ← hl, ← hset] at hcut
  exact hcut

theorem forall_mem_set {α : Type} {P : α → Prop} {l : List α} (i : ℕ) {a : α} (h : ∀ b ∈ l, P b)
    (ha : P a) : ∀ b ∈ l.set i a, P b := by
  intro b hb
  rcases List.mem_or_eq_of_mem_set hb with hb | rfl
  · exact h b hb
  · exact ha

theorem eq_or_mem_set {α : Type} {l : List α} {i : ℕ} {a b : α} (ha : l[i]? = some a) (hb : b ∈ l) (a' : α) :
    b = a ∨ b ∈ l.set i a' := by
  obtain ⟨j, hj⟩ := List.getElem?_of_mem hb
  by_cases hij : i = j
  · subst hij
    exact .inl (Option.some.inj (hj.symm.trans ha))
  · exact .inr (List.mem_of_getElem? ((List.getElem?_set_ne hij).trans hj))

end Ringdrop.Library
