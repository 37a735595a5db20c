import Ringdrop.Daemon.Protocol

namespace Ringdrop

open Library

namespace DaemonClient

/-- Reads events until the first `Done` or `Error`, from the lines the daemon writes
before it closes the connection. Lines over the limit are a framing error. -/
def send (parse : String → Except String Event) : List String → Except Error (List Event)
  | [] => .error (.msg "rdrop daemon closed connection before sending Done or Error")
  | text :: rest =>
    if fitsLine text then
      match parse text with
      | .error e => .error ((Error.msg e).context s!"malformed event from daemon: {text}")
      | .ok event =>
        match event.kind with
        | .done => .ok [event]
        | .error _ => .ok [event]
        | _ => match send parse rest with
          | .ok events => .ok (event :: events)
          | .error e => .error e
    else .error ((Error.msg "max line length exceeded").context "framing error reading from daemon")

def onEvent (err : Option String) (event : Event) : Option String :=
  match event.kind with
  | .error message => some message
  | _ => err

def run (parse : String → Except String Event) (lines : List String) : Except Error Unit :=
  match send parse lines with
  | .error e => .error e
  | .ok events => match events.foldl onEvent none with
    | some message => .error (.msg message)
    | none => .ok ()

end DaemonClient

end Ringdrop
