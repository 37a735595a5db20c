import Ringdrop.Daemon.ClientStream
import Ringdrop.Daemon.Delivery

namespace Ringdrop.Server

open Library Program Relation DaemonClient

def Call.shownLine : Call → List String
  | .send e => e.shownLine.toList
  | _ => []

def sentLines (log : Trace Call.Ans) : List String := log.flatMap fun y ↦ Call.shownLine y.1

theorem sentLines_concat (log : Trace Call.Ans) (c : Call) (a : c.Ans) :
    sentLines (log ++ [⟨c, a⟩]) = sentLines log ++ Call.shownLine c := by
  rw [sentLines, List.flatMap_append, List.flatMap_singleton]
  rfl

namespace Connection

variable {x y : Connection}

end Connection

section Sessions

variable {V : Type} {env : Env} {parsers : Parsers V} {defaultReceiveDir : Option Path} {s : NodeState}
  {parse : String → Except String Event} {req : Request} {line : String}
  {buf more : Bytes} {next : Except LinesCodecError (String × Bytes)}

end Sessions

section Named

end Named

end Ringdrop.Server
