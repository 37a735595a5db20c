import Ringdrop.Daemon.EventLines
import Ringdrop.Daemon.RequestOutcome
import Ringdrop.Library.JsonPrefix

namespace Ringdrop

open Library

namespace LinesCodec

/-- `decode` once nothing more can come: what is left is a line as well. -/
def decodeEof (maxLength : ℕ) (buf : Bytes) : Option (Except LinesCodecError (String × Bytes)) :=
  match decode maxLength buf with
  | some next => some next
  | none => if buf = [] ∨ buf = [13] then none else some ((utf8 (withoutCarriageReturn buf)).map (·, []))

end LinesCodec

def LinesCodecError.error : LinesCodecError → Error
  | .maxLineLengthExceeded => .msg "max line length exceeded"
  | .io e => e

namespace DaemonClient

variable {σ : Type}

def closedEarly : Error := .msg "rdrop daemon closed connection before sending Done or Error"

/-- `send` on all that comes in before the connection ends, with what its callback makes of the
events. Every line takes a byte, so that one more than the length is fuel enough. -/
def listen (parse : String → Except String Event) (onEvent : σ → Event → σ) : ℕ → Bytes → σ → Except Error Unit × σ
  | 0, _, x => (.error closedEarly, x)
  | fuel + 1, buf, x => match LinesCodec.decodeEof maxLineBytes buf with
    | none => (.error closedEarly, x)
    | some (.error e) => (.error (e.error.context "framing error reading from daemon"), x)
    | some (.ok (text, rest)) => match parse text with
      | .error e => (.error ((Error.msg e).context s!"malformed event from daemon: {text}"), x)
      | .ok event =>
        if event.kind.isEos then (.ok (), onEvent x event) else listen parse onEvent fuel rest (onEvent x event)

/-- The lines `run` has printed and the error it has been told of. -/
structure Shown where
  printed : List String
  err : Option String

def Shown.onEvent (x : Shown) (event : Event) : Shown :=
  match event.kind with
  | .line text => { x with printed := x.printed ++ [text] }
  | .error message => { x with err := some message }
  | _ => x

end DaemonClient

/-- What a client's parser makes of the lines of events: each is read as it was written, and none that is cut off
is read as an event. -/
structure Wire (parse : String → Except String Event) (events : List Event) : Prop where
  text : ∀ e ∈ events, parse e.text = .ok e
  cut : ∀ e ∈ events, ∀ text cs e', e.text.toList = text.toList ++ cs → parse text = .ok e' → cs = []

section Reading

variable {parse : String → Except String Event} {e : Event} {events : List Event}

theorem Wire.mono (h : Wire parse events) {events' : List Event} (hsub : events' ⊆ events) : Wire parse events' where
  text e he := h.text e (hsub he)
  cut e he := h.cut e (hsub he)

theorem Wire.tail (h : Wire parse (e :: events)) : Wire parse events := h.mono (List.subset_cons_self _ _)

end Reading

section Lines

variable {maxLength : ℕ}

end Lines

namespace DaemonClient

variable {parse : String → Except String Event} {σ : Type} {onEvent : σ → Event → σ}

end DaemonClient

def Event.shownLine (e : Event) : Option String :=
  match e.kind with
  | .line text => some text
  | _ => none

namespace DaemonClient

variable {parse : String → Except String Event}

end DaemonClient

end Ringdrop
