import Ringdrop.Daemon.Client
import Ringdrop.Daemon.Events

namespace Ringdrop.Server

open Library Program Handlers Relation

structure ProgressTask where
  reqId : Uuid
  queue : List ProgressEvent
  currentFile : Option (ℕ × ℕ × String)

def ProgressTask.event (task : ProgressTask) (received total : UInt64) : Event :=
  match task.currentFile with
  | some (fileIndex, fileTotal, fileName) =>
    .fileProgress task.reqId fileIndex fileTotal fileName received total
  | none => .progress task.reqId received total

/-- A request under way: the rest of its dispatch, its progress task, the events in the
channel, and the events written to the client. -/
structure Connection where
  dispatch : Action (Except Error Unit)
  node : NodeState
  task : Option ProgressTask
  channel : List Event
  written : List Event

def channelCapacity : ℕ := 32

namespace Connection

def events (x : Connection) : List Event := x.written ++ x.channel

/-- One step of the dispatch, of the progress task or of the writer. A send waits for
room in the channel, and the join for the end of the queue. Every other call returns, and the
connection is not aborted. -/
inductive Step (x : Connection) : Connection → Prop
  | call {c : Call} {k : c.Ans → Action (Except Error Unit)} {a : c.Ans} {s : NodeState} :
      x.dispatch = .call c k → Wired c = false → Answers c x.node a s →
      Step x { x with dispatch := k a, node := s }
  | send {e : Event} {k : Unit → Action (Except Error Unit)} :
      x.dispatch = .call (.send e) k → x.channel.length < channelCapacity →
      Step x { x with dispatch := k (), channel := x.channel ++ [e] }
  | startProgress {reqId : Uuid} {k : Unit → Action (Except Error Unit)} :
      x.dispatch = .call (.startProgress reqId) k →
      Step x { x with dispatch := k (), task := some ⟨reqId, [], none⟩ }
  | progress {e : ProgressEvent} {k : Unit → Action (Except Error Unit)} {task : ProgressTask} :
      x.dispatch = .call (.progress e) k → x.task = some task →
      Step x { x with dispatch := k (), task := some { task with queue := task.queue ++ [e] } }
  | fileStart {task : ProgressTask} {index total : ℕ} {name : String} {rest : List ProgressEvent} :
      x.task = some task → task.queue = .fileStart index total name :: rest →
      Step x { x with task := some { task with queue := rest, currentFile := some (index, total, name) } }
  | bytes {task : ProgressTask} {received total : UInt64} {rest : List ProgressEvent} :
      x.task = some task → task.queue = .bytes received total :: rest →
      x.channel.length < channelCapacity →
      Step x { x with
        task := some { task with queue := rest }, channel := x.channel ++ [task.event received total] }
  | joinProgress {k : Unit → Action (Except Error Unit)} {task : ProgressTask} :
      x.dispatch = .call .joinProgress k → x.task = some task → task.queue = [] →
      Step x { x with dispatch := k (), task := none }
  | write {e : Event} {rest : List Event} :
      x.channel = e :: rest → Step x { x with channel := rest, written := x.written ++ [e] }

def start (dispatch : Action (Except Error Unit)) (s : NodeState) : Connection :=
  ⟨dispatch, s, none, [], []⟩

end Connection

/-- All events are of the request and none of them ends the stream. -/
def AllQuiet (reqId : Uuid) (events : List Event) : Prop :=
  ∀ e ∈ events, e.reqId = reqId ∧ e.kind.isEos = false

/-- All events are of the request, and the last one and no other ends the stream. -/
def EndsWith (reqId : Uuid) (kind : EventKind) (events : List Event) : Prop :=
  ∃ quiet, events = quiet ++ [⟨reqId, kind⟩] ∧ AllQuiet reqId quiet

def Phase.Describes (reqId : Uuid) (x : Connection) : Phase → Prop
  | quiet => x.task = none ∧ AllQuiet reqId x.events
  | reporting => (∃ task, x.task = some task ∧ task.reqId = reqId) ∧ AllQuiet reqId x.events
  | closed kind => x.task = none ∧ EndsWith reqId kind x.events
  | broken => False

namespace Connection

def Sound (reqId : Uuid) (x : Connection) : Prop :=
  ∃ phase : Phase, phase.Describes reqId x ∧
    x.dispatch.wp (Phases reqId) (fun r phase ↦ phase = .closed (finalKind r)) (fun _ _ ↦ False) phase

theorem allQuiet_concat {reqId : Uuid} {events : List Event} {e : Event} (h : AllQuiet reqId events)
    (hid : e.reqId = reqId) (he : e.kind.isEos = false) : AllQuiet reqId (events ++ [e]) := by
  intro e' he'
  rcases List.mem_append.mp he' with he' | he'
  · exact h e' he'
  · obtain rfl := List.mem_singleton.mp he'
    exact ⟨hid, he⟩

variable {reqId : Uuid} {x y : Connection}

theorem describes_send {phase : Phase} {e : Event} (hphase : phase.Describes reqId x)
    (hbroken : phase.next reqId (.send e) ≠ .broken) {z : Connection} (htask : z.task = x.task)
    (hevents : z.events = x.events ++ [e]) : (phase.next reqId (.send e)).Describes reqId z := by
  cases phase with
  | quiet =>
    obtain ⟨hnone, hquiet⟩ := hphase
    rw [next_send] at hbroken ⊢
    by_cases hid : e.reqId = reqId
    · rw [if_pos hid]
      cases he : e.kind.isEos with
      | true =>
        refine ⟨htask.trans hnone, x.events, ?_, hquiet⟩
        rw [hevents, ← hid]
      | false =>
        refine ⟨htask.trans hnone, ?_⟩
        rw [hevents]
        exact allQuiet_concat hquiet hid he
    · exact absurd (if_neg hid) hbroken
  | reporting => exact absurd rfl hbroken
  | closed kind => exact absurd rfl hbroken
  | broken => exact absurd rfl hbroken

theorem describes_congr {phase : Phase} (h : phase.Describes reqId x) (htask : y.task = x.task)
    (hevents : y.events = x.events) : phase.Describes reqId y := by
  cases phase with
  | quiet => exact ⟨htask.trans h.1, by rw [hevents]; exact h.2⟩
  | reporting =>
    obtain ⟨⟨task, ht, hid⟩, hquiet⟩ := h
    exact ⟨⟨task, htask.trans ht, hid⟩, by rw [hevents]; exact hquiet⟩
  | closed kind => exact ⟨htask.trans h.1, by rw [hevents]; exact h.2⟩
  | broken => exact h

theorem sound_step (hx : x.Sound reqId) (h : Step x y) : y.Sound reqId := by
  obtain ⟨phase, hphase, hwp⟩ := hx
  have hadvance : ∀ {c : Call} {k : c.Ans → Action (Except Error Unit)} (a : c.Ans),
      x.dispatch = .call c k →
      (k a).wp (Phases reqId) (fun r phase ↦ phase = .closed (finalKind r)) (fun _ _ ↦ False)
        (phase.next reqId c) ∧ phase.next reqId c ≠ .broken := by
    intro c k a hc
    rw [hc] at hwp
    have hk := hwp a _ rfl
    refine ⟨hk, fun hbroken ↦ ?_⟩
    rw [hbroken] at hk
    exact not_wp_broken (by simp) x.node hk
  cases h with
  | call hc hw ha =>
    obtain ⟨hk, -⟩ := hadvance _ hc
    rw [next_of_unwired reqId phase hw] at hk
    exact ⟨phase, describes_congr hphase rfl rfl, hk⟩
  | @send e k hc _ =>
    obtain ⟨hk, hbroken⟩ := hadvance () hc
    refine ⟨_, describes_send hphase hbroken rfl ?_, hk⟩
    exact (List.append_assoc ..).symm
  | @startProgress id k hc =>
    obtain ⟨hk, hbroken⟩ := hadvance () hc
    refine ⟨_, ?_, hk⟩
    cases phase with
    | quiet =>
      rw [next_startProgress] at hbroken ⊢
      by_cases hid : id = reqId
      · rw [if_pos hid]
        exact ⟨⟨_, rfl, hid⟩, hphase.2⟩
      · exact absurd (if_neg hid) hbroken
    | _ => exact absurd rfl hbroken
  | progress hc ht =>
    obtain ⟨hk, hbroken⟩ := hadvance () hc
    refine ⟨_, ?_, hk⟩
    cases phase with
    | reporting =>
      obtain ⟨⟨task, ht', hid⟩, hquiet⟩ := hphase
      obtain rfl := Option.some.inj (ht.symm.trans ht')
      exact ⟨⟨_, rfl, hid⟩, hquiet⟩
    | _ => exact absurd rfl hbroken
  | fileStart ht hq =>
    refine ⟨phase, ?_, hwp⟩
    cases phase with
    | reporting =>
      obtain ⟨⟨task, ht', hid⟩, hquiet⟩ := hphase
      obtain rfl := Option.some.inj (ht.symm.trans ht')
      exact ⟨⟨_, rfl, hid⟩, hquiet⟩
    | quiet => exact absurd (ht.symm.trans hphase.1) (by simp)
    | closed kind => exact absurd (ht.symm.trans hphase.1) (by simp)
    | broken => exact hphase.elim
  | @bytes task received total rest ht hq _ =>
    refine ⟨phase, ?_, hwp⟩
    cases phase with
    | reporting =>
      obtain ⟨⟨task', ht', hid⟩, hquiet⟩ := hphase
      obtain rfl := Option.some.inj (ht.symm.trans ht')
      refine ⟨⟨_, rfl, hid⟩, ?_⟩
      have hevents : AllQuiet reqId (x.events ++ [task.event received total]) := by
        refine allQuiet_concat hquiet ?_ ?_
        · unfold ProgressTask.event
          split <;> exact hid
        · unfold ProgressTask.event
          split <;> rfl
      rwa [events, List.append_assoc] at hevents
    | quiet => exact absurd (ht.symm.trans hphase.1) (by simp)
    | closed kind => exact absurd (ht.symm.trans hphase.1) (by simp)
    | broken => exact hphase.elim
  | joinProgress hc ht hq =>
    obtain ⟨hk, hbroken⟩ := hadvance () hc
    refine ⟨_, ?_, hk⟩
    cases phase with
    | reporting => exact ⟨rfl, hphase.2⟩
    | _ => exact absurd rfl hbroken
  | @write e rest hc =>
    have hevents : (⟨x.dispatch, x.node, x.task, rest, x.written ++ [e]⟩ : Connection).events = x.events := by
      rw [events, events, hc]
      exact List.append_assoc ..
    exact ⟨phase, describes_congr hphase rfl hevents, hwp⟩

theorem sound_steps (h : ReflTransGen Step x y) (hx : x.Sound reqId) : y.Sound reqId := by
  induction h with
  | refl => exact hx
  | tail _ hstep ih => exact sound_step ih hstep

theorem sound_start (env : Env) (defaultReceiveDir : Option Path) (reqId : Uuid) (op : Op) (s : NodeState) :
    (start (Server.dispatch env defaultReceiveDir reqId op) s).Sound reqId :=
  ⟨.quiet, ⟨rfl, by simp [AllQuiet, events, start]⟩, wp_dispatch env defaultReceiveDir reqId op⟩

theorem events_of_returned {r : Except Error Unit} (hx : x.Sound reqId) (hr : x.dispatch = .ret r) :
    x.task = none ∧ EndsWith reqId (finalKind r) x.events := by
  obtain ⟨phase, hphase, hwp⟩ := hx
  rw [hr] at hwp
  obtain rfl : phase = .closed (finalKind r) := hwp
  exact hphase

/-- Nothing is stuck: as long as there is something left to do there is a step. -/
theorem exists_step (hx : x.Sound reqId) (h : ∀ r, x.dispatch = .ret r → x.channel ≠ []) :
    ∃ y, Step x y := by
  obtain ⟨phase, hphase, hwp⟩ := hx
  cases hchannel : x.channel with
  | cons e rest => exact ⟨_, .write hchannel⟩
  | nil =>
    have hroom : x.channel.length < channelCapacity := by
      rw [hchannel]
      decide
    cases hd : x.dispatch with
    | ret r => exact absurd hchannel (h r hd)
    | fail e =>
      rw [hd] at hwp
      exact hwp.elim
    | call c k =>
      rw [hd] at hwp
      have hbroken : phase.next reqId c ≠ .broken := by
        intro hbroken
        have hk := hwp (exec c x.node).1 _ rfl
        rw [hbroken] at hk
        exact not_wp_broken (by simp) x.node hk
      cases c with
      | send e => exact ⟨_, .send hd hroom⟩
      | startProgress id => exact ⟨_, .startProgress hd⟩
      | progress e =>
        cases phase with
        | reporting =>
          obtain ⟨⟨task, ht, -⟩, -⟩ := hphase
          exact ⟨_, .progress hd ht⟩
        | _ => exact absurd rfl hbroken
      | joinProgress =>
        cases phase with
        | reporting =>
          obtain ⟨⟨task, ht, -⟩, -⟩ := hphase
          cases hq : task.queue with
          | nil => exact ⟨_, .joinProgress hd ht hq⟩
          | cons e rest =>
            cases e with
            | fileStart index total name => exact ⟨_, .fileStart ht hq⟩
            | bytes received total => exact ⟨_, .bytes ht hq hroom⟩
        | _ => exact absurd rfl hbroken
      | _ => exact ⟨_, .call hd rfl (.exec _ x.node)⟩

def backlog (x : Connection) : ℕ :=
  2 * ((x.task.map (fun task ↦ task.queue.length)).getD 0) + x.channel.length

theorem backlog_fileStart {task : ProgressTask} {e : ProgressEvent} {rest : List ProgressEvent}
    {file : Option (ℕ × ℕ × String)} (ht : x.task = some task) (hq : task.queue = e :: rest) :
    backlog { x with task := some { task with queue := rest, currentFile := file } } < x.backlog := by
  simp only [backlog, ht, hq, Option.map_some, Option.getD_some, List.length_cons]
  omega

theorem backlog_bytes {task : ProgressTask} {e : ProgressEvent} {rest : List ProgressEvent} {event : Event}
    (ht : x.task = some task) (hq : task.queue = e :: rest) :
    backlog { x with task := some { task with queue := rest }, channel := x.channel ++ [event] } <
      x.backlog := by
  simp only [backlog, ht, hq, Option.map_some, Option.getD_some, List.length_cons, List.length_append,
    List.length_nil]
  omega

theorem backlog_write {e : Event} {rest written : List Event} (hc : x.channel = e :: rest) :
    backlog { x with channel := rest, written := written } < x.backlog := by
  simp only [backlog, hc, List.length_cons]
  omega

/-- A step at a node that others may have changed in between. -/
def Follows (y x : Connection) : Prop := ∃ s, Step { x with node := s } y

theorem acc_of_calls {p : Action (Except Error Unit)}
    (hcalls : ∀ (c : Call) (k : c.Ans → Action (Except Error Unit)) (a : c.Ans), p = .call c k →
      ∀ y : Connection, y.dispatch = k a → Acc Follows y) (n : ℕ) :
    ∀ x : Connection, x.dispatch = p → x.backlog = n → Acc Follows x := by
  induction n using Nat.strong_induction_on with
  | _ n ih =>
    intro x hp hn
    refine .intro x fun y ⟨s, h⟩ ↦ ?_
    cases h with
    | call hc _ _ => exact hcalls _ _ _ (hp.symm.trans hc) _ rfl
    | send hc _ => exact hcalls _ _ () (hp.symm.trans hc) _ rfl
    | startProgress hc => exact hcalls _ _ () (hp.symm.trans hc) _ rfl
    | progress hc _ => exact hcalls _ _ () (hp.symm.trans hc) _ rfl
    | joinProgress hc _ _ => exact hcalls _ _ () (hp.symm.trans hc) _ rfl
    | fileStart ht hq => exact ih _ (hn ▸ backlog_fileStart ht hq) _ hp rfl
    | bytes ht hq _ => exact ih _ (hn ▸ backlog_bytes ht hq) _ hp rfl
    | write hc => exact ih _ (hn ▸ backlog_write hc) _ hp rfl

theorem acc_follows (x : Connection) : Acc Follows x := by
  have hdispatch : ∀ p x, Connection.dispatch x = p → Acc Follows x := by
    intro p
    induction p with
    | ret r => exact fun x hx ↦ acc_of_calls (by simp) _ x hx rfl
    | fail e => exact fun x hx ↦ acc_of_calls (by simp) _ x hx rfl
    | call c k ih =>
      refine fun x hx ↦ acc_of_calls ?_ _ x hx rfl
      intro c' k' a hck
      cases hck
      exact ih a
  exact hdispatch x.dispatch x rfl

end Connection

end Ringdrop.Server
