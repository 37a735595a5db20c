import Ringdrop.Library.Program

namespace Ringdrop.Library.Program

variable {E C : Type} {A : C → Type} {α β γ σ δ : Type}

inductive Partial (R : (c : C) → σ → A c → σ → Prop) (p : Program E C A α) (s : σ) :
    Program E C A α → σ → Prop
  | start : Partial R p s p s
  | call {c : C} {k : A c → Program E C A α} {a : A c} {s₁ s₂ : σ} :
      Partial R p s (.call c k) s₁ → R c s₁ a s₂ → Partial R p s (k a) s₂

/-- Weakest precondition with a crash condition: `I` holds before and after every call,
and if the program returns, `Q` holds as well. -/
def wpc (R : (c : C) → σ → A c → σ → Prop) (I : σ → Prop) :
    Program E C A α → (α → σ → Prop) → σ → Prop
  | ret v, Q, s => I s ∧ Q v s
  | fail _, _, s => I s
  | call c k, Q, s => I s ∧ ∀ a s', R c s a s' → wpc R I (k a) Q s'

variable {R : (c : C) → σ → A c → σ → Prop} {I : σ → Prop}

theorem wpc_invariant {p : Program E C A α} {Q : α → σ → Prop} {s : σ} (h : wpc R I p Q s) : I s := by
  cases p with
  | ret v => exact h.1
  | fail e => exact h
  | call c k => exact h.1

theorem wpc_mono {p : Program E C A α} {Q Q' : α → σ → Prop} {s : σ} (h : wpc R I p Q s)
    (hQ : ∀ v s, I s → Q v s → Q' v s) : wpc R I p Q' s := by
  induction p generalizing s with
  | ret v => exact ⟨h.1, hQ v s h.1 h.2⟩
  | fail e => exact h
  | call c k ih => exact ⟨h.1, fun a s' hr ↦ ih a (h.2 a s' hr)⟩

theorem wpc_bind {p : Program E C A β} {f : β → Program E C A α} {Q : α → σ → Prop} {s : σ}
    (h : wpc R I p (fun v ↦ wpc R I (f v) Q) s) : wpc R I (p >>= f) Q s := by
  induction p generalizing s with
  | ret v => exact h.2
  | fail e => exact h
  | call c k ih => exact ⟨h.1, fun a s' hr ↦ ih a (h.2 a s' hr)⟩

theorem wpc_mapError {p : Program E C A α} {g : E → E} {Q : α → σ → Prop} {s : σ}
    (h : wpc R I p Q s) : wpc R I (p.mapError g) Q s := by
  induction p generalizing s with
  | ret v => exact h
  | fail e => exact h
  | call c k ih => exact ⟨h.1, fun a s' hr ↦ ih a (h.2 a s' hr)⟩

theorem wpc_weaken {J : σ → Prop} {p : Program E C A α} {Q : α → σ → Prop} {s : σ} (h : wpc R J p Q s)
    (hI : ∀ s, J s → I s) : wpc R I p Q s := by
  induction p generalizing s with
  | ret v => exact ⟨hI s h.1, h.2⟩
  | fail e => exact hI s h
  | call c k ih => exact ⟨hI s h.1, fun a s' hr ↦ ih a (h.2 a s' hr)⟩

theorem wpc_always {p : Program E C A α} (hI : ∀ s, I s) (s : σ) : wpc R I p (fun _ _ ↦ True) s := by
  induction p generalizing s with
  | ret v => exact ⟨hI s, trivial⟩
  | fail e => exact hI s
  | call c k ih => exact ⟨hI s, fun a s' _ ↦ ih a s'⟩

theorem wpc_ask {c : C} {Q : A c → σ → Prop} {s : σ} (hI : I s)
    (h : ∀ a s', R c s a s' → I s' ∧ Q a s') : wpc R I (ask c : Program E C A (A c)) Q s := ⟨hI, h⟩

theorem wpc_attempt {p : Program E C A β} {Q : Except E β → σ → Prop} {s : σ}
    (h : wpc R I p (fun v ↦ Q (.ok v)) s) (hfail : ∀ e s, I s → Q (.error e) s) :
    wpc R I p.attempt Q s := by
  induction p generalizing s with
  | ret v => exact h
  | fail e => exact ⟨h, hfail e s h⟩
  | call c k ih => exact ⟨h.1, fun a s' hr ↦ ih a (h.2 a s' hr)⟩

theorem wpc_forM {f : β → Program E C A PUnit} {xs : List β} {s : σ}
    (hf : ∀ x ∈ xs, ∀ s, I s → wpc R I (f x) (fun _ _ ↦ True) s) (hs : I s) :
    wpc R I (forM xs f) (fun _ _ ↦ True) s := by
  induction xs generalizing s with
  | nil => exact ⟨hs, trivial⟩
  | cons x rest ih =>
    rw [List.forM_cons]
    apply wpc_bind
    refine wpc_mono (hf x (by simp) s hs) fun _ s' hi _ ↦ ?_
    exact ih (fun y hy ↦ hf y (by simp [hy])) hi

theorem Uses.wpc_invariant {P : C → Prop} {p : Program E C A α} {s : σ} (hp : p.Uses P)
    (hI : ∀ c s a s', P c → I s → R c s a s' → I s') (hs : I s) : wpc R I p (fun _ _ ↦ True) s := by
  induction p generalizing s with
  | ret v => exact ⟨hs, trivial⟩
  | fail e => exact hs
  | call c k ih => exact ⟨hs, fun a s' hr ↦ ih a (hp.2 a) (hI c s a s' hp.1 hs hr)⟩

theorem wpc_ofExcept {r : Except E α} {Q : α → σ → Prop} {s : σ} (hI : I s)
    (hQ : ∀ v, r = .ok v → Q v s) : wpc R I (ofExcept r) Q s := by
  cases r with
  | ok v => exact ⟨hI, hQ v rfl⟩
  | error e => exact hI

theorem wpc_foldlM {f : γ → β → Program E C A γ} {xs : List β} {acc : γ} {s : σ}
    (hf : ∀ acc, ∀ x ∈ xs, ∀ s, I s → wpc R I (f acc x) (fun _ _ ↦ True) s) (hs : I s) :
    wpc R I (xs.foldlM f acc) (fun _ _ ↦ True) s := by
  induction xs generalizing acc s with
  | nil => exact ⟨hs, trivial⟩
  | cons x rest ih =>
    rw [List.foldlM_cons]
    apply wpc_bind
    refine wpc_mono (hf acc x (by simp) s hs) fun acc s' hi _ ↦ ?_
    exact ih (fun acc y hy ↦ hf acc y (by simp [hy])) hi

/-- Loop rule with an invariant `J` of its own, which holds between the rounds and follows what has
been done. -/
theorem wpc_forM_done {J : List β → σ → Prop} {f : β → Program E C A PUnit} {xs : List β} {s : σ}
    (hJ : ∀ done s, J done s → I s)
    (hf : ∀ done x rest, xs = done ++ x :: rest → ∀ s, J done s → wpc R I (f x) (fun _ ↦ J (done ++ [x])) s)
    (hs : J [] s) : wpc R I (forM xs f) (fun _ ↦ J xs) s := by
  have hloop : ∀ done rest s, xs = done ++ rest → J done s → wpc R I (forM rest f) (fun _ ↦ J xs) s := by
    intro done rest
    induction rest generalizing done with
    | nil =>
      intro s hxs hs
      rw [List.append_nil] at hxs
      exact ⟨hJ done s hs, hxs ▸ hs⟩
    | cons x rest ih =>
      intro s hxs hs
      rw [List.forM_cons]
      apply wpc_bind
      refine wpc_mono (hf done x rest hxs s hs) fun _ s' _ hs' ↦ ?_
      refine ih (done ++ [x]) s' ?_ hs'
      rw [hxs, List.append_assoc, List.singleton_append]
  exact hloop [] xs s rfl hs

/-- Loop rule with an invariant that does not. -/
theorem wpc_forM_mem {J : σ → Prop} {f : β → Program E C A PUnit} {xs : List β} {s : σ} (hJ : ∀ s, J s → I s)
    (hf : ∀ x ∈ xs, ∀ s, J s → wpc R I (f x) (fun _ ↦ J) s) (hs : J s) : wpc R I (forM xs f) (fun _ ↦ J) s :=
  wpc_forM_done (J := fun _ ↦ J) (fun _ ↦ hJ) (fun done x rest hxs ↦ hf x (by simp [hxs])) hs

theorem wp_of_wpc {p : Program E C A α} {Q : α → σ → Prop} {s : σ} (h : wpc R I p Q s) :
    wp R p (fun _ ↦ I) (fun _ ↦ I) s := by
  induction p generalizing s with
  | ret v => exact h.1
  | fail e => exact h
  | call c k ih => exact fun a s' hr ↦ ih a (h.2 a s' hr)

theorem wpc_of_wp {p : Program E C A α} {Q : α → σ → Prop} {s : σ} (h : wpc R I p (fun _ _ ↦ True) s)
    (hw : wp R p Q (fun _ _ ↦ True) s) : wpc R I p Q s := by
  induction p generalizing s with
  | ret v => exact ⟨h.1, hw⟩
  | fail e => exact h
  | call c k ih => exact ⟨h.1, fun a s' hr ↦ ih a (h.2 a s' hr) (hw a s' hr)⟩

/-- A program in brackets: `close` is called however it ends. -/
theorem wpc_finally {p : Program E C A α} {close : Program E C A PUnit} {Q : α → σ → Prop} {s : σ}
    (h : wpc R I p (fun v ↦ wpc R I close (fun _ ↦ Q v)) s)
    (hfail : ∀ s, I s → wpc R I close (fun _ _ ↦ True) s) :
    wpc R I (do let r ← p.attempt; close; ofExcept r) Q s := by
  induction p generalizing s with
  | ret v =>
    change wpc R I (close >>= fun _ ↦ ofExcept (.ok v)) Q s
    refine wpc_bind (wpc_mono h.2 ?_)
    intro _ s' hi hq
    exact ⟨hi, hq⟩
  | fail e =>
    change wpc R I (close >>= fun _ ↦ ofExcept (.error e)) Q s
    refine wpc_bind (wpc_mono (hfail s h) ?_)
    intro _ s' hi _
    exact hi
  | call c k ih => exact ⟨h.1, fun a s' hr ↦ ih a (h.2 a s' hr)⟩

theorem Partial.invariant {p q : Program E C A α} {s s' : σ} {Q : α → σ → Prop} (h : Partial R p s q s')
    (hp : wpc R I p Q s) : wpc R I q Q s' := by
  induction h with
  | start => exact hp
  | call _ hr ih => exact ih.2 _ _ hr

theorem Partial.uses_invariant {P : C → Prop} {p q : Program E C A α} {s s' : σ} (h : Partial R p s q s')
    (hp : p.Uses P) (hI : ∀ c s a s', P c → I s → R c s a s' → I s') (hs : I s) : q.Uses P ∧ I s' := by
  induction h with
  | start => exact ⟨hp, hs⟩
  | call _ hr ih => exact ⟨ih.1.2 _, hI _ _ _ _ ih.1.1 ih.2 hr⟩

theorem Runs.of_wpc {p : Program E C A α} {s s' : σ} {Q : α → σ → Prop} {v : α}
    (h : Runs R p s (.ok v) s') (hp : wpc R I p Q s) : I s' ∧ Q v s' := by
  generalize hr : Except.ok v = r at h
  induction h with
  | ret w s =>
    obtain rfl := Except.ok.inj hr
    exact hp
  | fail e s => cases hr
  | call hc _ ih => exact ih (hp.2 _ _ hc) hr

theorem Partial.mono {R' : (c : C) → σ → A c → σ → Prop} {p q : Program E C A α} {s s' : σ}
    (hR : ∀ c s a s', R c s a s' → R' c s a s') (h : Partial R p s q s') : Partial R' p s q s' := by
  induction h with
  | start => exact .start
  | call _ hr ih => exact ih.call (hR _ _ _ _ hr)

theorem Partial.runs {p q : Program E C A α} {s s₁ s' : σ} {v : α} (h : Partial R p s q s₁)
    (hq : Runs R q s₁ (.ok v) s') : Partial R p s (.ret v) s' := by
  generalize hr : Except.ok v = r at hq
  induction hq with
  | ret w s =>
    obtain rfl := Except.ok.inj hr
    exact h
  | fail e s => cases hr
  | call hc _ ih => exact ih (h.call hc) hr

/-- The first `n` calls of a program against a deterministic environment. -/
def cut (h : (c : C) → σ → A c × σ) : Nat → Program E C A α → σ → Program E C A α × σ
  | n + 1, call c k, s => cut h n (k (h c s).1) (h c s).2
  | _, p, s => (p, s)

theorem partial_cut {h : (c : C) → σ → A c × σ} (hR : ∀ c s, R c s (h c s).1 (h c s).2)
    (n : Nat) (p : Program E C A α) (s : σ) : Partial R p s (cut h n p s).1 (cut h n p s).2 := by
  suffices hcut : ∀ n (q : Program E C A α) s₁, Partial R p s q s₁ →
      Partial R p s (cut h n q s₁).1 (cut h n q s₁).2 from hcut n p s .start
  intro n
  induction n with
  | zero => intro q s₁ hq; exact hq
  | succ n ih =>
    intro q s₁ hq
    cases q with
    | ret v => exact hq
    | fail e => exact hq
    | call c k => exact ih _ _ (.call hq (hR c s₁))

/-- Any number of attempts of `p`, each of which is cut off somewhere. What survives of a
state is `durable`, and the next attempt starts with `boot` of that. -/
inductive Attempts (R : (c : C) → σ → A c → σ → Prop) (durable : σ → δ) (boot : δ → σ)
    (p : Program E C A α) (d : δ) : δ → Prop
  | none : Attempts R durable boot p d d
  | crash {d' : δ} {q : Program E C A α} {s : σ} :
      Attempts R durable boot p d d' → Partial R p (boot d') q s →
      Attempts R durable boot p d (durable s)

/-- A crash condition that each attempt keeps, and from which each attempt can start,
holds after all of them. -/
theorem Attempts.invariant {durable : σ → δ} {boot : δ → σ} {p : Program E C A α} {d d' : δ} {I : δ → Prop}
    {Q : α → σ → Prop} (h : Attempts R durable boot p d d') (hd : I d)
    (hp : ∀ d, I d → wpc R (fun s ↦ I (durable s)) p Q (boot d)) : I d' := by
  induction h with
  | none => exact hd
  | crash _ hcut ih =>
    have hq := hcut.invariant (hp _ ih)
    exact wpc_invariant (I := fun s ↦ I (durable s)) hq

end Ringdrop.Library.Program
