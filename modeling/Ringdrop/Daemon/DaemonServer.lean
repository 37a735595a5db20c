import Ringdrop.Daemon.Connection
import Ringdrop.Library.Interleaving

namespace Ringdrop.Server

open Library Program Relation

inductive DispatchPhase
  | running
  | senderDropped
  | released
deriving DecidableEq

/-- An accepted connection. Its task waits for the request line, has given up on it, or
has handed the request to a dispatch task, whose events it forwards until it is over;
what is sent after that is lost. -/
inductive Served
  | reading
  | closed
  | requested (forwarding : Bool) (phase : DispatchPhase) (x : Connection)

namespace Served

def unfinished : Served → Bool
  | reading => true
  | closed => false
  | requested forwarding _ _ => forwarding

/-- One of the tasks of the connection holds an `Arc` of the node. -/
def ownsNode : Served → Bool
  | reading => true
  | closed => false
  | requested _ phase _ => phase != .released

/-- The dispatch task holds the node, and the connection task is over. -/
def orphaned : Served → Bool
  | requested false phase _ => phase != .released
  | _ => false

def abort : Served → Served
  | reading => closed
  | closed => closed
  | requested _ phase x => requested false phase x

/-- What the two tasks of a connection do by themselves, at a node they share with the
other connections. -/
inductive Step : Served → NodeState → Served → NodeState → Prop
  | serve {forwarding : Bool} {phase : DispatchPhase} {x y : Connection} {s : NodeState} :
      Connection.Step { x with node := s } y →
      Step (requested forwarding phase x) s (requested forwarding phase y) y.node
  | dropSender {forwarding : Bool} {x : Connection} {s : NodeState} {r : Except Error Unit} :
      x.dispatch = .ret r →
      Step (requested forwarding .running x) s (requested forwarding .senderDropped x) s
  | dropNode {forwarding : Bool} {x : Connection} {s : NodeState} :
      Step (requested forwarding .senderDropped x) s (requested forwarding .released x) s
  | forwarded {phase : DispatchPhase} {x : Connection} {s : NodeState} :
      phase ≠ .running → x.task = none → x.channel = [] →
      Step (requested true phase x) s (requested false phase x) s

def atNotify : Served → Bool
  | requested _ _ x => match x.dispatch with
    | .call .notifyShutdown _ => true
    | _ => false
  | _ => false

end Served

inductive RunPhase
  | accepting
  | draining
  | aborting
  | unwrapping
  | shutDown
  | panicked
  | acceptFailed
deriving DecidableEq

/-- The daemon: where its loop is, the shared node, whether a `Shutdown` request has been
read and whether its notification has been given, and the connections. -/
structure DaemonServer where
  phase : RunPhase
  node : NodeState
  requested : Bool
  notified : Bool
  served : List Served

def IsShutdown : Op → Bool
  | .shutdown => true
  | _ => false

namespace DaemonServer

def bind (node : NodeState) : DaemonServer := ⟨.accepting, node, false, false, []⟩

/-- What the daemon does by itself: its tasks go on, and `run` leaves the accept loop,
waits for the connection tasks, at most for some time, aborts those that are left, and
takes the node out of its `Arc`. -/
inductive Own (x : DaemonServer) : DaemonServer → Prop
  | served {i : ℕ} {c c' : Served} {s : NodeState} :
      x.served[i]? = some c → Served.Step c x.node c' s →
      Own x { x with
        node := s, notified := x.notified || (c.atNotify && !c'.atNotify), served := x.served.set i c' }
  | notified : x.phase = .accepting → x.notified = true → Own x { x with phase := .draining }
  | timeout : x.phase = .draining → Own x { x with phase := .aborting }
  | abort {i : ℕ} {c : Served} :
      x.phase = .aborting → x.served[i]? = some c → c.unfinished = true →
      Own x { x with served := x.served.set i c.abort }
  | drained :
      x.phase = .draining ∨ x.phase = .aborting → (∀ c ∈ x.served, c.unfinished = false) →
      Own x { x with phase := .unwrapping }
  | unwrap :
      x.phase = .unwrapping →
      Own x { x with phase := if x.served.any Served.ownsNode then .panicked else .shutDown }

/-- What comes from outside: connections, which may fail to be accepted, requests,
lines that are none, and clients that hang up, which a task notices when it writes. An
error of the accept loop drops the set of tasks. -/
inductive Outside (env : Env) (defaultReceiveDir : Option Path) (x : DaemonServer) : DaemonServer → Prop
  | accept : x.phase = .accepting →
      Outside env defaultReceiveDir x { x with served := x.served ++ [.reading] }
  | acceptError : x.phase = .accepting →
      Outside env defaultReceiveDir x
        { x with phase := .acceptFailed, served := x.served.map Served.abort }
  | request {i : ℕ} {reqId : Uuid} {op : Op} :
      x.served[i]? = some .reading →
      Outside env defaultReceiveDir x { x with
        requested := x.requested || IsShutdown op
        served := x.served.set i
          (.requested true .running (.start (dispatch env defaultReceiveDir reqId op) x.node)) }
  | unreadable {i : ℕ} :
      x.served[i]? = some .reading →
      Outside env defaultReceiveDir x { x with served := x.served.set i .closed }
  | disconnect {i : ℕ} {phase : DispatchPhase} {y : Connection} :
      x.served[i]? = some (.requested true phase y) → y.channel ≠ [] →
      Outside env defaultReceiveDir x { x with served := x.served.set i (.requested false phase y) }

def Step (env : Env) (defaultReceiveDir : Option Path) (x y : DaemonServer) : Prop :=
  Own x y ∨ Outside env defaultReceiveDir x y

/-- The requests of clients that have hung up are over when `run` leaves the accept loop.
From then on a connection task ends, because its client hangs up, because it is aborted, or
with the last event, only when its dispatch task has dropped the node. And the accept loop
does not fail once a shutdown has been requested. -/
structure Orderly (x y : DaemonServer) : Prop where
  hangUps : x.phase = .accepting → y.phase = .draining → ∀ c ∈ x.served, c.orphaned = false
  lasting : x.phase = .draining ∨ x.phase = .aborting → ∀ (i : ℕ) (c c' : Served),
    x.served[i]? = some c → y.served[i]? = some c' → c.unfinished = true → c'.orphaned = false
  accepts : x.phase ≠ .acceptFailed → y.phase = .acceptFailed → x.requested = false

end DaemonServer

end Ringdrop.Server
