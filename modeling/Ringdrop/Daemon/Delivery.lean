import Ringdrop.Daemon.RequestLine
import Ringdrop.Daemon.RequestOutcome
import Ringdrop.Library.Within

namespace Ringdrop.Server

open Library Program Relation Handlers

def Call.Answerable (c : Call) (a : c.Ans) : Prop := ∃ s s', Answers c s a s'

abbrev Recorded : (c : Call) → Trace Call.Ans → c.Ans → Trace Call.Ans → Prop :=
  Pool.heard fun _ c a ↦ Call.Answerable c a

namespace ProgressTask

def handle (task : ProgressTask) : ProgressEvent → ProgressTask × List Event
  | .fileStart index total name => ({ task with currentFile := some (index, total, name) }, [])
  | .bytes received total => (task, [task.event received total])

/-- The task when it has come to the end of its queue, and the events it has sent by then. -/
def drain : List ProgressEvent → ProgressTask → ProgressTask × List Event
  | [], task => (task, [])
  | e :: rest, task => ((drain rest (task.handle e).1).1, (task.handle e).2 ++ (drain rest (task.handle e).1).2)

def settled (task : ProgressTask) : ProgressTask := (drain task.queue { task with queue := [] }).1

def pending (task : ProgressTask) : List Event := (drain task.queue { task with queue := [] }).2

end ProgressTask

/-- A progress task that keeps up, and all events sent. -/
structure Delivery where
  task : Option ProgressTask
  events : List Event

/-- What comes of a call as if the progress task were done with it at once. -/
def Delivery.after (d : Delivery) : Call → Delivery
  | .send e => { d with events := d.events ++ [e] }
  | .startProgress reqId => { d with task := some ⟨reqId, [], none⟩ }
  | .progress e => match d.task with
    | some task => ⟨some (task.handle e).1, d.events ++ (task.handle e).2⟩
    | none => d
  | .joinProgress => { d with task := none }
  | _ => d

def deliver (log : Trace Call.Ans) : Delivery := log.foldl (fun d y ↦ d.after y.1) ⟨none, []⟩

theorem deliver_concat (log : Trace Call.Ans) (c : Call) (a : c.Ans) :
    deliver (log ++ [⟨c, a⟩]) = (deliver log).after c := List.foldl_concat ..

namespace Connection

/-- The events of the connection when its progress task has caught up. -/
def settled (x : Connection) : Delivery where
  task := x.task.map ProgressTask.settled
  events := x.events ++ (x.task.map ProgressTask.pending).getD []

variable {x y : Connection} {reqId : Uuid}

end Connection

section Requests

variable {env : Env} {defaultReceiveDir : Option Path} {reqId : Uuid} {op : Op} {s : NodeState} {x : Connection}

end Requests

section Pair

/-- An event as data that can be compared, unless it is a record or an error. -/
def plainEvent (e : Event) : Option (Uuid × String × List ℕ) :=
  match e.kind with
  | .line text => some (e.reqId, text, [])
  | .fileProgress index total name received size => some (e.reqId, name, [index, total, received.toNat, size.toNat])
  | .done => some (e.reqId, "", [0])
  | _ => none

def Sends (run : Option (Except Error Unit × NodeState × Delivery)) (events : List Event) : Bool :=
  match run with
  | some (.ok _, _, ⟨none, sent⟩) => decide (sent.map plainEvent = events.map plainEvent)
  | _ => false

end Pair

end Ringdrop.Server
