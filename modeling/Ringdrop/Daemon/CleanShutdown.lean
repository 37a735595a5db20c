import Ringdrop.Daemon.DaemonServer
import Mathlib.Order.GameAdd

namespace Ringdrop.Server

open Library Program Relation

namespace Connection

theorem dispatch_step {x y : Connection} (h : Step x y) :
    y.dispatch = x.dispatch ∨ ∃ (c : Call) (k : c.Ans → Action (Except Error Unit)) (a : c.Ans),
      x.dispatch = .call c k ∧ y.dispatch = k a := by
  cases h with
  | call hc _ _ => exact .inr ⟨_, _, _, hc, rfl⟩
  | send hc _ => exact .inr ⟨_, _, (), hc, rfl⟩
  | startProgress hc => exact .inr ⟨_, _, (), hc, rfl⟩
  | progress hc _ => exact .inr ⟨_, _, (), hc, rfl⟩
  | joinProgress hc _ _ => exact .inr ⟨_, _, (), hc, rfl⟩
  | fileStart _ _ => exact .inl rfl
  | bytes _ _ _ => exact .inl rfl
  | write _ => exact .inl rfl

end Connection

def DispatchPhase.rank : DispatchPhase → ℕ
  | running => 2
  | senderDropped => 1
  | released => 0

namespace Served

def Sound : Served → Prop
  | requested _ phase x =>
    (∃ reqId, x.Sound reqId) ∧ (phase ≠ .running → ∃ r, x.dispatch = .ret r)
  | _ => True

def notifyThenReturn : Action (Except Error Unit) := .call .notifyShutdown (fun _ ↦ .ret (.ok ()))

def Pending : Served → Prop
  | requested _ phase x => phase = .running ∧
    ((∃ e, x.dispatch = .call (.send e) (fun _ ↦ notifyThenReturn)) ∨ x.dispatch = notifyThenReturn)
  | _ => False

variable {c c' : Served} {s s' : NodeState}

theorem sound_step (hc : c.Sound) (h : Step c s c' s') : c'.Sound := by
  cases h with
  | @serve _ _ x _ _ hstep =>
    obtain ⟨⟨reqId, hx⟩, hreturned⟩ := hc
    have hx' : Connection.Sound reqId { x with node := s } := hx
    refine ⟨⟨reqId, Connection.sound_step hx' hstep⟩, fun hphase ↦ ?_⟩
    obtain ⟨r, hr⟩ := hreturned hphase
    rcases Connection.dispatch_step hstep with hsame | ⟨c, k, a, hcall, -⟩
    · exact ⟨r, hsame.trans hr⟩
    · exact absurd (hr.symm.trans hcall) (by simp)
  | dropSender hr => exact ⟨hc.1, fun _ ↦ ⟨_, hr⟩⟩
  | dropNode => exact ⟨hc.1, fun _ ↦ hc.2 (by decide)⟩
  | forwarded _ _ _ => exact hc

theorem sound_abort (hc : c.Sound) : c.abort.Sound := by
  cases c with
  | requested forwarding phase x => exact hc
  | _ => trivial

theorem unfinished_step (h : Step c s c' s') (hc : c.unfinished = false) : c'.unfinished = false := by
  cases h with
  | forwarded _ _ _ => rfl
  | _ => exact hc

theorem ownsNode_step (h : Step c s c' s') (hc : c.ownsNode = false) : c'.ownsNode = false := by
  cases h with
  | serve _ => exact hc
  | dropSender _ => cases hc
  | dropNode => rfl
  | forwarded _ _ _ => exact hc

theorem unfinished_abort (c : Served) : c.abort.unfinished = false := by
  cases c <;> rfl

theorem ownsNode_eq_orphaned (hc : c.unfinished = false) : c.ownsNode = c.orphaned := by
  cases c with
  | reading => cases hc
  | closed => rfl
  | requested forwarding phase x =>
    obtain rfl : forwarding = false := hc
    rfl

theorem pending_step (hc : c.Pending) (h : Step c s c' s') :
    c'.Pending ∨ (c.atNotify && !c'.atNotify) = true := by
  cases h with
  | @serve forwarding phase x y s hstep =>
    obtain ⟨hphase, hpending⟩ := hc
    rcases Connection.dispatch_step hstep with hsame | ⟨c, k, a, hcall, hnext⟩
    · rw [show x.dispatch = y.dispatch from hsame.symm] at hpending
      exact .inl ⟨hphase, hpending⟩
    · rcases hpending with ⟨e, he⟩ | he
      · cases he.symm.trans hcall
        exact .inl ⟨hphase, .inr hnext⟩
      · cases he.symm.trans hcall
        right
        simp [atNotify, he, hnext, notifyThenReturn]
  | dropSender hr =>
    obtain ⟨-, ⟨e, he⟩ | he⟩ := hc
    · exact absurd (hr.symm.trans he) (by simp)
    · exact absurd (hr.symm.trans he) (by simp [notifyThenReturn])
  | dropNode => exact absurd hc.1 (by decide)
  | forwarded hphase _ _ => exact absurd hc.1 hphase

theorem orphaned_of_unfinished (hc : c.unfinished = true) : c.orphaned = false := by
  cases c with
  | requested forwarding phase x =>
    obtain rfl : forwarding = true := hc
    rfl
  | _ => rfl

/-- The tasks of a request can go on without the connection task. -/
theorem exists_step {forwarding : Bool} {phase : DispatchPhase} {x : Connection}
    (hc : (requested forwarding phase x).Sound) (hphase : phase ≠ .released) :
    ∃ phase' y s', Step (requested forwarding phase x) s (requested forwarding phase' y) s' := by
  obtain ⟨⟨reqId, hx⟩, -⟩ := hc
  cases phase with
  | running =>
    by_cases hr : ∃ r, x.dispatch = .ret r
    · obtain ⟨r, hr⟩ := hr
      exact ⟨_, _, _, .dropSender hr⟩
    · have hx' : Connection.Sound reqId { x with node := s } := hx
      obtain ⟨y, hy⟩ := Connection.exists_step hx' (fun r h ↦ absurd ⟨r, h⟩ hr)
      exact ⟨_, _, _, .serve hy⟩
  | senderDropped => exact ⟨_, _, s, .dropNode⟩
  | released => exact absurd rfl hphase

/-- What can become of a connection without its client. -/
def Follows (c' c : Served) : Prop :=
  (∃ s s', Step c s c' s') ∨ c.unfinished = true ∧ c' = c.abort

theorem acc_closed : Acc Follows closed := by
  refine .intro _ fun c h ↦ ?_
  rcases h with ⟨s, s', h⟩ | ⟨h, -⟩
  · cases h
  · cases h

theorem acc_requested (n : ℕ) : ∀ (forwarding : Bool) (phase : DispatchPhase) (x : Connection),
    forwarding.toNat + phase.rank = n → Acc Follows (requested forwarding phase x) := by
  induction n using Nat.strong_induction_on with
  | _ n ih =>
    intro forwarding phase x hn
    induction Connection.acc_follows x with
    | intro x _ ihx =>
      refine .intro _ fun c h ↦ ?_
      rcases h with ⟨s, s', h⟩ | ⟨h, rfl⟩
      · cases h with
        | serve hstep => exact ihx _ ⟨_, hstep⟩
        | dropSender _ => exact ih _ (by subst hn; simp [DispatchPhase.rank]) _ _ _ rfl
        | dropNode => exact ih _ (by subst hn; simp [DispatchPhase.rank]) _ _ _ rfl
        | forwarded _ _ _ => exact ih _ (by subst hn; simp) _ _ _ rfl
      · obtain rfl : forwarding = true := h
        exact ih _ (by subst hn; simp) _ _ _ rfl

theorem wellFounded_follows : WellFounded Follows := by
  refine ⟨fun c ↦ ?_⟩
  cases c with
  | reading =>
    refine .intro _ fun c h ↦ ?_
    rcases h with ⟨s, s', h⟩ | ⟨-, rfl⟩
    · cases h
    · exact acc_closed
  | closed => exact acc_closed
  | requested forwarding phase x => exact acc_requested _ _ _ _ rfl

end Served

def RunPhase.rank : RunPhase → ℕ
  | accepting => 4
  | draining => 3
  | aborting => 2
  | unwrapping => 1
  | shutDown => 0
  | panicked => 0
  | acceptFailed => 0

namespace DaemonServer

theorem wellFounded_own : WellFounded (fun y x ↦ Own x y) := by
  have hwf := WellFounded.prod_gameAdd (wellFounded_lt (α := ℕ))
    (wellFounded_stepAt Served.wellFounded_follows)
  refine Subrelation.wf ?_ (InvImage.wf (fun x : DaemonServer ↦ (x.phase.rank, x.served)) hwf)
  intro y x h
  cases h with
  | served hc hstep => exact .snd ⟨_, _, _, hc, .inl ⟨_, _, hstep⟩, rfl⟩
  | notified hphase _ => exact .fst (by simp [hphase, RunPhase.rank])
  | timeout hphase => exact .fst (by simp [hphase, RunPhase.rank])
  | abort hphase hc hunfinished => exact .snd ⟨_, _, _, hc, .inr ⟨hunfinished, rfl⟩, rfl⟩
  | drained hphase _ =>
    refine .fst ?_
    rcases hphase with hphase | hphase <;> simp [hphase, RunPhase.rank]
  | unwrap hphase =>
    refine .fst ?_
    rw [hphase]
    dsimp only
    split <;> simp [RunPhase.rank]

structure Inv (x : DaemonServer) : Prop where
  sound : ∀ c ∈ x.served, c.Sound
  unpanicked : x.phase ≠ .panicked
  attended : x.phase = .draining ∨ x.phase = .aborting → ∀ c ∈ x.served, c.orphaned = false
  unowned : x.phase = .unwrapping ∨ x.phase = .shutDown →
    ∀ c ∈ x.served, c.unfinished = false ∧ c.ownsNode = false
  failed : x.phase = .acceptFailed → x.requested = false ∧ ∀ c ∈ x.served, c.unfinished = false
  pending : x.phase = .accepting → x.requested = true →
    x.notified = true ∨ ∃ c ∈ x.served, c.Pending

theorem inv_bind (node : NodeState) : (bind node).Inv := by
  constructor <;> simp [bind]

theorem attended_step {c c' : Served} {s s' : NodeState} (hc : c.orphaned = false) (hstep : Served.Step c s c' s')
    (hkept : c.unfinished = true → c'.orphaned = false) : c'.orphaned = false := by
  cases hunfinished : c.unfinished with
  | true => exact hkept hunfinished
  | false =>
    have howns := Served.ownsNode_step hstep ((Served.ownsNode_eq_orphaned hunfinished).trans hc)
    rwa [Served.ownsNode_eq_orphaned (Served.unfinished_step hstep hunfinished)] at howns

theorem inv_own {x y : DaemonServer} (hx : x.Inv) (h : Own x y) (ho : Orderly x y) : y.Inv := by
  cases h with
  | @served i c c' s hc hstep =>
    have hmem : c ∈ x.served := List.mem_of_getElem? hc
    refine ⟨forall_mem_set i hx.sound (Served.sound_step (hx.sound c hmem) hstep), hx.unpanicked, ?_, ?_, ?_, ?_⟩
    · intro hphase
      have hset : (x.served.set i c')[i]? = some c' :=
        List.getElem?_set_self (List.getElem?_eq_some_iff.mp hc).1
      exact forall_mem_set i (hx.attended hphase)
        (attended_step (hx.attended hphase c hmem) hstep (ho.lasting hphase i c c' hc hset))
    · intro hphase
      obtain ⟨hfin, hown⟩ := hx.unowned hphase c hmem
      exact forall_mem_set i (hx.unowned hphase)
        ⟨Served.unfinished_step hstep hfin, Served.ownsNode_step hstep hown⟩
    · intro hphase
      obtain ⟨hreq, hfin⟩ := hx.failed hphase
      exact ⟨hreq, forall_mem_set i hfin (Served.unfinished_step hstep (hfin c hmem))⟩
    · intro hphase hreq
      rcases hx.pending hphase hreq with hnotified | ⟨d, hd, hpending⟩
      · exact .inl (by simp [hnotified])
      · rcases eq_or_mem_set hc hd c' with rfl | hd
        · rcases Served.pending_step hpending hstep with hpending | hnotify
          · exact .inr ⟨c', List.mem_set (List.getElem?_eq_some_iff.mp hc).1 c', hpending⟩
          · exact .inl (by rw [hnotify, Bool.or_true])
        · exact .inr ⟨d, hd, hpending⟩
  | notified hphase _ =>
    exact ⟨hx.sound, by simp, fun _ ↦ ho.hangUps hphase rfl, by simp, by simp, by simp⟩
  | timeout hphase =>
    exact ⟨hx.sound, by simp, fun _ ↦ hx.attended (.inl hphase), by simp, by simp, by simp⟩
  | @abort i c hphase hc hunfinished =>
    have hset : (x.served.set i c.abort)[i]? = some c.abort :=
      List.getElem?_set_self (List.getElem?_eq_some_iff.mp hc).1
    have hattended := ho.lasting (.inr hphase) i c c.abort hc hset hunfinished
    refine ⟨forall_mem_set i hx.sound (Served.sound_abort (hx.sound c (List.mem_of_getElem? hc))), ?_, ?_, ?_, ?_, ?_⟩
    · simp [hphase]
    · exact fun h ↦ forall_mem_set i (hx.attended h) hattended
    · simp [hphase]
    · simp [hphase]
    · simp [hphase]
  | drained hphase hfin =>
    refine ⟨hx.sound, by simp, by simp, ?_, by simp, by simp⟩
    intro _ c hc
    exact ⟨hfin c hc, (Served.ownsNode_eq_orphaned (hfin c hc)).trans (hx.attended hphase c hc)⟩
  | unwrap hphase =>
    have hgone := hx.unowned (.inl hphase)
    have hany : x.served.any Served.ownsNode = false := by
      rw [List.any_eq_false]
      intro c hc
      simp [(hgone c hc).2]
    rw [hany]
    exact ⟨hx.sound, by simp, by simp, fun _ ↦ hgone, by simp, by simp⟩

theorem unfinished_of_phase {x : DaemonServer} (hx : x.Inv)
    (hphase : x.phase = .unwrapping ∨ x.phase = .shutDown ∨ x.phase = .acceptFailed) :
    ∀ c ∈ x.served, c.unfinished = false := by
  intro c hc
  rcases hphase with hphase | hphase | hphase
  · exact (hx.unowned (.inl hphase) c hc).1
  · exact (hx.unowned (.inr hphase) c hc).1
  · exact (hx.failed hphase).2 c hc

theorem inv_set {x : DaemonServer} (hx : x.Inv) {i : ℕ} {c : Served} (hc : x.served[i]? = some c)
    (hunfinished : c.unfinished = true) (c' : Served) (hsound : c'.Sound)
    (hattended : x.phase = .draining ∨ x.phase = .aborting → c'.orphaned = false) (requested : Bool)
    (hpending : (x.requested = true → c.Pending → c'.Pending) ∧
      (requested = true → x.requested = true ∨ c'.Pending)) :
    Inv { x with requested := requested, served := x.served.set i c' } := by
  have hmem : c ∈ x.served := List.mem_of_getElem? hc
  have hphase : ¬ (x.phase = .unwrapping ∨ x.phase = .shutDown ∨ x.phase = .acceptFailed) := by
    intro hphase
    have hfin := unfinished_of_phase hx hphase c hmem
    rw [hunfinished] at hfin
    cases hfin
  refine ⟨forall_mem_set i hx.sound hsound, hx.unpanicked,
    fun h ↦ forall_mem_set i (hx.attended h) (hattended h), ?_, ?_, ?_⟩
  · intro h
    exact absurd (h.imp_right .inl) hphase
  · intro h
    exact absurd (.inr (.inr h)) hphase
  · intro haccepting hreq
    have hnew : c' ∈ x.served.set i c' := List.mem_set (List.getElem?_eq_some_iff.mp hc).1 c'
    rcases hpending.2 hreq with hreq | hnewPending
    · rcases hx.pending haccepting hreq with hnotified | ⟨d, hd, hold⟩
      · exact .inl hnotified
      · rcases eq_or_mem_set hc hd c' with rfl | hd
        · exact .inr ⟨c', hnew, hpending.1 hreq hold⟩
        · exact .inr ⟨d, hd, hold⟩
    · exact .inr ⟨c', hnew, hnewPending⟩

variable {env : Env} {defaultReceiveDir : Option Path}

theorem inv_outside {x y : DaemonServer} (hx : x.Inv) (h : Outside env defaultReceiveDir x y)
    (ho : Orderly x y) : y.Inv := by
  cases h with
  | accept hphase =>
    refine ⟨?_, hx.unpanicked, by simp [hphase], by simp [hphase], by simp [hphase], ?_⟩
    · intro c hc
      rcases List.mem_append.mp hc with hc | hc
      · exact hx.sound c hc
      · obtain rfl := List.mem_singleton.mp hc
        trivial
    · intro haccepting hreq
      rcases hx.pending haccepting hreq with hnotified | ⟨c, hc, hpending⟩
      · exact .inl hnotified
      · exact .inr ⟨c, List.mem_append_left _ hc, hpending⟩
  | acceptError hphase =>
    have hreq : x.requested = false := ho.accepts (by simp [hphase]) rfl
    refine ⟨?_, by simp, by simp, by simp, fun _ ↦ ⟨hreq, ?_⟩, by simp⟩
    · intro c hc
      obtain ⟨d, hd, rfl⟩ := List.mem_map.mp hc
      exact Served.sound_abort (hx.sound d hd)
    · intro c hc
      obtain ⟨d, -, rfl⟩ := List.mem_map.mp hc
      exact Served.unfinished_abort d
  | @request i reqId op hc =>
    refine inv_set hx hc rfl (.requested true .running _) ⟨⟨reqId, ?_⟩, ?_⟩ (fun _ ↦ rfl) _ ⟨?_, ?_⟩
    · exact Connection.sound_start env defaultReceiveDir reqId op x.node
    · exact fun h ↦ absurd rfl h
    · exact fun _ h ↦ h.elim
    · intro h
      rcases (Bool.or_eq_true _ _).mp h with h | h
      · exact .inl h
      · cases op with
        | shutdown => exact .inr ⟨rfl, .inl ⟨_, rfl⟩⟩
        | _ => cases h
  | unreadable hc =>
    exact inv_set hx hc rfl .closed trivial (fun _ ↦ rfl) x.requested ⟨fun _ h ↦ h.elim, .inl⟩
  | @disconnect i phase y hc _ =>
    have hsound : (Served.requested true phase y).Sound := hx.sound _ (List.mem_of_getElem? hc)
    have hset : (x.served.set i (.requested false phase y))[i]? = some (.requested false phase y) :=
      List.getElem?_set_self (List.getElem?_eq_some_iff.mp hc).1
    exact inv_set hx hc rfl (.requested false phase y) hsound (fun h ↦ ho.lasting h i _ _ hc hset rfl)
      x.requested ⟨fun _ h ↦ h, .inl⟩

/-- A run whose steps are all orderly. -/
def Runs (env : Env) (defaultReceiveDir : Option Path) : DaemonServer → DaemonServer → Prop :=
  ReflTransGen (fun x y ↦ Step env defaultReceiveDir x y ∧ Orderly x y)

theorem inv_runs {x y : DaemonServer} (hx : x.Inv) (h : Runs env defaultReceiveDir x y) : y.Inv := by
  induction h with
  | refl => exact hx
  | tail _ hstep ih =>
    rcases hstep with ⟨hown | houtside, ho⟩
    · exact inv_own ih hown ho
    · exact inv_outside ih houtside ho

theorem orderly_of_set {x y : DaemonServer} {i : ℕ} {c c' : Served} (hphase : y.phase = x.phase)
    (hc : x.served[i]? = some c) (hserved : y.served = x.served.set i c')
    (hattended : c.unfinished = true → c'.orphaned = false) : Orderly x y := by
  refine ⟨fun hx hy ↦ ?_, fun _ j d d' hd hd' hunfinished ↦ ?_, fun hx hy ↦ absurd (hphase.symm.trans hy) hx⟩
  · rw [hphase, hx] at hy
    cases hy
  · rw [hserved] at hd'
    by_cases hji : j = i
    · subst hji
      rw [List.getElem?_set_self (List.getElem?_eq_some_iff.mp hc).1] at hd'
      rw [hc] at hd
      rw [← Option.some.inj hd']
      exact hattended (Option.some.inj hd ▸ hunfinished)
    · rw [List.getElem?_set_ne (Ne.symm hji), hd] at hd'
      rw [← Option.some.inj hd']
      exact Served.orphaned_of_unfinished hunfinished

theorem orderly_of_served {x y : DaemonServer} (hserved : y.served = x.served)
    (hleft : x.phase = .accepting → ∀ c ∈ x.served, c.orphaned = false) (hphase : y.phase ≠ .acceptFailed) :
    Orderly x y := by
  refine ⟨fun hx _ ↦ hleft hx, fun _ i c c' hc hc' hunfinished ↦ ?_, fun _ hy ↦ absurd hy hphase⟩
  rw [hserved, hc] at hc'
  rw [← Option.some.inj hc']
  exact Served.orphaned_of_unfinished hunfinished

/-- What the tasks of a request do without ending the connection task is orderly. -/
theorem exists_own_served {x : DaemonServer} (hx : x.Inv) {forwarding : Bool} {phase : DispatchPhase}
    {y : Connection} (hc : .requested forwarding phase y ∈ x.served) (hphase : phase ≠ .released) :
    ∃ z, Own x z ∧ Orderly x z := by
  obtain ⟨i, hi⟩ := List.getElem?_of_mem hc
  obtain ⟨phase', y', s', hstep⟩ := Served.exists_step (hx.sound _ hc) hphase
  refine ⟨_, .served hi hstep, orderly_of_set rfl hi rfl fun hunfinished ↦ ?_⟩
  obtain rfl : forwarding = true := hunfinished
  rfl

theorem requested_own {x y : DaemonServer} (h : Own x y) : y.requested = x.requested := by
  cases h <;> rfl

theorem exists_own_orphan {x : DaemonServer} (hx : x.Inv) {c : Served} (hc : c ∈ x.served)
    (horphan : c.orphaned = true) : ∃ y, Own x y ∧ Orderly x y := by
  cases c with
  | requested forwarding phase y =>
    refine exists_own_served hx hc ?_
    rintro rfl
    cases forwarding <;> cases horphan
  | _ => cases horphan

/-- After a shutdown request the daemon can always go on until it has shut down. -/
theorem exists_own {x : DaemonServer} (hx : x.Inv) (hreq : x.requested = true) (hphase : x.phase ≠ .shutDown) :
    ∃ y, Own x y ∧ Orderly x y := by
  cases hp : x.phase with
  | accepting =>
    rcases hx.pending hp hreq with hnotified | ⟨c, hc, hpending⟩
    · by_cases horphans : ∀ c ∈ x.served, c.orphaned = false
      · exact ⟨_, .notified hp hnotified, orderly_of_served rfl (fun _ ↦ horphans) (by simp)⟩
      · push Not at horphans
        obtain ⟨c, hc, horphan⟩ := horphans
        exact exists_own_orphan hx hc (by simpa using horphan)
    · cases c with
      | requested forwarding phase y =>
        exact exists_own_served hx hc (by rw [hpending.1]; decide)
      | _ => exact hpending.elim
  | draining => exact ⟨_, .timeout hp, orderly_of_served rfl (by simp [hp]) (by simp)⟩
  | aborting =>
    by_cases hfin : ∀ c ∈ x.served, c.unfinished = false
    · exact ⟨_, .drained (.inr hp) hfin, orderly_of_served rfl (by simp [hp]) (by simp)⟩
    · push Not at hfin
      obtain ⟨c, hc, hunfinished⟩ := hfin
      have hunfinished : c.unfinished = true := by simpa using hunfinished
      obtain ⟨i, hi⟩ := List.getElem?_of_mem hc
      by_cases horphan : c.abort.orphaned = false
      · exact ⟨_, .abort hp hi hunfinished, orderly_of_set rfl hi rfl fun _ ↦ horphan⟩
      · -- the request is not over, and goes on
        cases c with
        | requested forwarding phase y =>
          refine exists_own_served hx hc ?_
          rintro rfl
          exact horphan rfl
        | _ => exact absurd rfl horphan
  | unwrapping =>
    refine ⟨_, .unwrap hp, orderly_of_served rfl (by simp [hp]) ?_⟩
    dsimp only
    split <;> simp
  | shutDown => exact absurd hp hphase
  | panicked => exact absurd hp hx.unpanicked
  | acceptFailed =>
    rw [(hx.failed hp).1] at hreq
    cases hreq

/-- Nothing waits for a request whose connection task is over. -/
theorem panics_of_orphan {x : DaemonServer} (hphase : x.phase = .aborting)
    (horphan : ∃ c ∈ x.served, c.orphaned = true) : ∃ y, ReflTransGen Own x y ∧ y.phase = .panicked := by
  induction x using wellFounded_own.induction with
  | _ x ih =>
    obtain ⟨d, hd, horphan⟩ := horphan
    by_cases hfin : ∀ c ∈ x.served, c.unfinished = false
    · have hany : x.served.any Served.ownsNode = true := by
        rw [List.any_eq_true]
        exact ⟨d, hd, (Served.ownsNode_eq_orphaned (hfin d hd)).trans horphan⟩
      have hdrained : Own x _ := .drained (.inr hphase) hfin
      refine ⟨_, .tail (.single hdrained) (.unwrap rfl), ?_⟩
      simp [hany]
    · push Not at hfin
      obtain ⟨c, hc, hunfinished⟩ := hfin
      have hunfinished : c.unfinished = true := by simpa using hunfinished
      obtain ⟨i, hi⟩ := List.getElem?_of_mem hc
      have habort : Own x _ := .abort hphase hi hunfinished
      have hkept : d ∈ x.served.set i c.abort := by
        refine (eq_or_mem_set hi hd c.abort).resolve_left ?_
        rintro rfl
        rw [Served.orphaned_of_unfinished hunfinished] at horphan
        cases horphan
      obtain ⟨y, hrun, hy⟩ := ih _ habort hphase ⟨d, hkept, horphan⟩
      exact ⟨y, .head habort hrun, hy⟩

/-- After a step that is not orderly `run` can panic, whatever the clients do, or it has
given up listening after a shutdown request. -/
theorem panics_of_disorderly {x y : DaemonServer} (h : Step env defaultReceiveDir x y) (ho : ¬ Orderly x y) :
    x.requested = true ∧ y.phase = .acceptFailed ∨ ∃ z, ReflTransGen Own y z ∧ z.phase = .panicked := by
  by_cases haccepts : x.phase ≠ .acceptFailed → y.phase = .acceptFailed → x.requested = false
  · right
    have horphan : (y.phase = .draining ∨ y.phase = .aborting) ∧ ∃ c ∈ y.served, c.orphaned = true := by
      by_contra hnone
      refine ho ⟨fun hx hy c hc ↦ ?_, fun hphase i c c' hc hc' hunfinished ↦ ?_, haccepts⟩
      · by_contra horphan
        refine hnone ⟨.inl hy, c, ?_, by simpa using horphan⟩
        rcases h with h | h
        · cases h with
          | notified => exact hc
          | served => exact absurd (hx.symm.trans hy) (by simp)
          | timeout hp => exact absurd (hx.symm.trans hp) (by simp)
          | abort hp => exact absurd (hx.symm.trans hp) (by simp)
          | drained => cases hy
          | unwrap hp => exact absurd (hx.symm.trans hp) (by simp)
        · cases h with
          | acceptError => cases hy
          | _ => exact absurd (hx.symm.trans hy) (by simp)
      · by_contra horphan
        have horphan : c'.orphaned = true := by simpa using horphan
        have hmem := List.mem_of_getElem? hc'
        have hchanged : y.served ≠ x.served := by
          intro heq
          rw [heq, hc] at hc'
          rw [← Option.some.inj hc', Served.orphaned_of_unfinished hunfinished] at horphan
          cases horphan
        refine hnone ⟨?_, c', hmem, horphan⟩
        rcases h with h | h
        · cases h with
          | served => exact hphase
          | abort => exact hphase
          | timeout => exact .inr rfl
          | notified => exact absurd rfl hchanged
          | drained => exact absurd rfl hchanged
          | unwrap => exact absurd rfl hchanged
        · cases h with
          | acceptError hp => rcases hphase with h | h <;> exact absurd (hp.symm.trans h) (by simp)
          | _ => exact hphase
    obtain ⟨hphase | hphase, horphan⟩ := horphan
    · have htimeout : Own y _ := .timeout hphase
      obtain ⟨z, hrun, hz⟩ := panics_of_orphan (x := { y with phase := .aborting }) rfl horphan
      exact ⟨z, .head htimeout hrun, hz⟩
    · exact panics_of_orphan hphase horphan
  · push Not at haccepts
    exact .inl ⟨by simpa using haccepts.2.2, haccepts.2.1⟩

/-- In every orderly run nobody else holds the node when `run` takes it out of its
`Arc`, so `run` does not panic there. Once a shutdown is requested, `run` ends in no
other way than with the shutdown of the node, and without further doings of clients it
ends after finitely many steps, whatever their order. And after a step that is not orderly
`run` has given up listening, or can go on to panic whatever the clients do. -/
theorem shutdown_clean {node : NodeState} {x : DaemonServer} (h : Runs env defaultReceiveDir (bind node) x) :
    x.phase ≠ .panicked ∧ (x.phase = .unwrapping → ∀ c ∈ x.served, c.ownsNode = false) ∧
      (x.requested = true → x.phase ≠ .acceptFailed ∧ Acc (fun z y ↦ Own y z ∧ Orderly y z) x ∧
        ∀ y, ReflTransGen (fun y z ↦ Own y z ∧ Orderly y z) x y → (∀ z, ¬ (Own y z ∧ Orderly y z)) →
          y.phase = .shutDown) ∧
      ∀ y, Step env defaultReceiveDir x y → ¬ Orderly x y →
        x.requested = true ∧ y.phase = .acceptFailed ∨ ∃ z, ReflTransGen Own y z ∧ z.phase = .panicked := by
  have hx := inv_runs (inv_bind node) h
  refine ⟨hx.unpanicked, fun hphase c hc ↦ (hx.unowned (.inl hphase) c hc).2, fun hreq ↦ ⟨?_, ?_, ?_⟩,
    fun y hstep ho ↦ panics_of_disorderly hstep ho⟩
  · intro hphase
    rw [(hx.failed hphase).1] at hreq
    cases hreq
  · exact Subrelation.accessible (fun h ↦ h.1) (wellFounded_own.apply x)
  · intro y hown
    have hy : y.Inv ∧ y.requested = true := by
      induction hown with
      | refl => exact ⟨hx, hreq⟩
      | tail _ hstep ih => exact ⟨inv_own ih.1 hstep.1 hstep.2, (requested_own hstep.1).trans ih.2⟩
    intro hstuck
    by_contra hphase
    obtain ⟨z, hz⟩ := exists_own hy.1 hy.2 hphase
    exact hstuck z hz

section Runs

variable (l : List Served)

theorem orderly_of_accepting {x y : DaemonServer} (hx : x.phase = .accepting) (hy : y.phase = .accepting) :
    Orderly x y := by
  constructor <;> simp [hx, hy]

theorem own_last {node s : NodeState} {requested notified : Bool} {c c' : Served} (h : Served.Step c node c' s) :
    let x : DaemonServer := ⟨.accepting, node, requested, notified, l ++ [c]⟩
    let y : DaemonServer := ⟨.accepting, s, requested, notified || (c.atNotify && !c'.atNotify), l ++ [c']⟩
    Step (.plain []) none x y ∧ Orderly x y := by
  intro x y
  have hget : x.served[l.length]? = some c := List.getElem?_concat_length
  have hset : (l ++ [c]).set l.length c' = l ++ [c'] := by simp
  have hown := Own.served hget h
  rw [hset] at hown
  exact ⟨.inl hown, orderly_of_accepting rfl rfl⟩

theorem runs_request (reqId : Uuid) (op : Op) (node : NodeState) (requested notified : Bool) :
    Runs (.plain []) none ⟨.accepting, node, requested, notified, l⟩
      ⟨.accepting, node, requested || IsShutdown op, notified,
        l ++ [.requested true .running (.start (dispatch (.plain []) none reqId op) node)]⟩ := by
  have haccept : Outside (.plain []) none ⟨.accepting, node, requested, notified, l⟩
    ⟨.accepting, node, requested, notified, l ++ [.reading]⟩ := .accept rfl
  have hget : (l ++ [Served.reading])[l.length]? = some .reading := List.getElem?_concat_length
  have hrequest : Outside (.plain []) none ⟨.accepting, node, requested, notified, l ++ [.reading]⟩
      ⟨.accepting, node, requested || IsShutdown op, notified, (l ++ [Served.reading]).set l.length
        (.requested true .running (.start (dispatch (.plain []) none reqId op) node))⟩ := .request hget
  have hset (c : Served) : (l ++ [Served.reading]).set l.length c = l ++ [c] := by simp
  rw [hset] at hrequest
  exact .tail (.tail .refl ⟨.inr haccept, orderly_of_accepting rfl rfl⟩) ⟨.inr hrequest, orderly_of_accepting rfl rfl⟩

theorem runs_shutdown : Runs (.plain []) none ⟨.accepting, emptyNode, false, false, l⟩
    ⟨.accepting, emptyNode, true, true,
      l ++ [.requested false .released ⟨.ret (.ok ()), emptyNode, none, [], [.done .nil]⟩]⟩ := by
  have hroom : (Connection.start (dispatch (.plain []) none .nil .shutdown) emptyNode).channel.length <
      channelCapacity := by
    decide
  have hsend : Connection.Step (.start (dispatch (.plain []) none .nil .shutdown) emptyNode)
    ⟨Served.notifyThenReturn, emptyNode, none, [.done .nil], []⟩ := .send rfl hroom
  have hwrite : Connection.Step ⟨Served.notifyThenReturn, emptyNode, none, [.done .nil], []⟩
    ⟨Served.notifyThenReturn, emptyNode, none, [], [.done .nil]⟩ := .write rfl
  have hnotify : Connection.Step ⟨Served.notifyThenReturn, emptyNode, none, [], [.done .nil]⟩
      ⟨.ret (.ok ()), emptyNode, none, [], [.done .nil]⟩ := by
    have hexec : Answers .notifyShutdown emptyNode () emptyNode := .exec .notifyShutdown emptyNode
    exact Connection.Step.call (k := fun _ ↦ .ret (.ok ())) rfl rfl hexec
  have h0 := runs_request l .nil .shutdown emptyNode false false
  have h1 := h0.tail (own_last l (.serve hsend))
  have h2 := h1.tail (own_last l (.serve hwrite))
  have h3 := h2.tail (own_last l (.serve hnotify))
  have h4 := h3.tail (own_last l (.dropSender rfl))
  have h5 := h4.tail (own_last l .dropNode)
  exact h5.tail (own_last l (.forwarded (by decide) rfl rfl))

end Runs

theorem exists_last {α : Type} {r : α → α → Prop} {x : α} (h : Acc (fun z y ↦ r y z) x) :
    ∃ y, ReflTransGen r x y ∧ ∀ z, ¬ r y z := by
  induction h with
  | intro x _ ih =>
    by_cases hnext : ∃ z, r x z
    · obtain ⟨z, hz⟩ := hnext
      obtain ⟨y, hrun, hy⟩ := ih z hz
      exact ⟨y, .head hz hrun, hy⟩
    · exact ⟨x, .refl, not_exists.mp hnext⟩

/-- A request is still under way when the drain begins, and `run` shuts the node down. -/
theorem shutdown_clean_run : ∃ x y : DaemonServer, Runs (.plain []) none (bind emptyNode) x ∧
    x.phase = .draining ∧ (∃ c ∈ x.served, c.ownsNode = true) ∧ ReflTransGen (fun y z ↦ Own y z ∧ Orderly y z) x y ∧
      y.phase = .shutDown := by
  have hrequests := (runs_shutdown []).trans (runs_request _ .nil (.ringNew "friends") emptyNode true true)
  have hdraining := hrequests.tail ⟨.inl (.notified rfl rfl), orderly_of_served rfl (by simp [Served.orphaned]) (by simp)⟩
  obtain ⟨-, -, hshutdown, -⟩ := shutdown_clean hdraining
  obtain ⟨-, hacc, hlast⟩ := hshutdown rfl
  obtain ⟨y, hrun, hy⟩ := exists_last hacc
  exact ⟨_, y, hdraining, rfl, ⟨_, List.mem_append_right _ List.mem_cons_self, rfl⟩, hrun, hlast y hrun hy⟩

/-- A request that takes longer than the drain: its connection task is aborted, and the
dispatch task goes on with the node. -/
theorem node_still_owned : ∃ x : DaemonServer,
    ReflTransGen (Step (.plain []) none) (bind emptyNode) x ∧ x.requested = true ∧ x.phase = .panicked := by
  have hlong := runs_request [] .nil (.receive "blob-ticket" none false) emptyNode false false
  have hshutdown := hlong.trans (runs_shutdown _)
  have hrun : ReflTransGen (Step (.plain []) none) (bind emptyNode) _ :=
    ReflTransGen.mono (fun _ _ h ↦ And.left h) _ _ hshutdown
  have hnotified := hrun.tail (.inl (.notified rfl rfl))
  have htimeout := hnotified.tail (.inl (.timeout rfl))
  have habort := htimeout.tail (.inl (.abort (i := 0) rfl rfl rfl))
  have hdrained := habort.tail (.inl (.drained (.inr rfl) (by simp [Served.unfinished, Served.abort])))
  have hunwrapped := hdrained.tail (.inl (.unwrap rfl))
  exact ⟨_, hunwrapped, rfl, rfl⟩

end DaemonServer

end Ringdrop.Server
