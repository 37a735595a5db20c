import Ringdrop.Daemon.Connection
import Ringdrop.Daemon.EventLines

namespace Ringdrop.Server

open Library Program Relation LinesCodec

variable {V : Type}

/-- What `serde_json` and `uuid` make of a line; `V` are the values that any JSON is read as. -/
structure Parsers (V : Type) where
  request : String → Except String Request
  value : String → Option V
  get : V → String → Option V
  asStr : V → Option String
  uuid : String → Option Uuid

/-- Best effort, for the error of a line that is not a request. -/
def recoverId (parsers : Parsers V) (line : String) : Uuid :=
  (do
    let v ← parsers.value line
    let id ← parsers.get v "req_id"
    parsers.uuid (← parsers.asStr id)).getD Uuid.nil

def Connection.ended (s : NodeState) (written : List Event) : Connection := ⟨.ret (.ok ()), s, none, [], written⟩

/-- How a connection goes on from its first line, if there is one, or the error it is closed with. -/
def handleConnection (env : Env) (parsers : Parsers V) (defaultReceiveDir : Option Path) (s : NodeState) :
    Option (Except LinesCodecError (String × Bytes)) → Except Error Connection
  | none => .ok (.ended s [])
  | some (.error .maxLineLengthExceeded) =>
    .ok (.ended s [.error Uuid.nil "request exceeds maximum line length"])
  | some (.error (.io e)) => .error e
  | some (.ok (line, _)) => match parsers.request line with
    | .ok req => .ok (.start (dispatch env defaultReceiveDir req.reqId req.op) s)
    | .error e => .ok (.ended s [.error (recoverId parsers line) e])

/-- The connection comes to an end, whatever goes on at the node meanwhile, and what has been
written to it by then is in `P`. -/
def Concludes (x : Except Error Connection) (P : List Event → Prop) : Prop :=
  match x with
  | .error _ => P []
  | .ok x => Acc Connection.Follows x ∧
    ∀ y, ReflTransGen Connection.Follows y x → (∀ z, ¬ Connection.Follows z y) → P y.written

/-- The line is within the limit and reads `text`. -/
def Reads (line : Bytes) (text : String) : Prop :=
  line.length ≤ maxLineBytes ∧ utf8 (withoutCarriageReturn line) = .ok text

def Accepted (parsers : Parsers V) (line : Bytes) : Prop :=
  ∃ text req, Reads line text ∧ parsers.request text = .ok req

/-- A JSON object whose `req_id` is the text of a UUID. -/
def CarriesId (parsers : Parsers V) (line : Bytes) (id : Uuid) : Prop :=
  ∃ text v w str, Reads line text ∧ parsers.value text = some v ∧ parsers.get v "req_id" = some w ∧
    parsers.asStr w = some str ∧ parsers.uuid str = some id

/-- A line is answered, with the last event final, and if it is no request with an error that
carries the id in it, if there is one. -/
structure Answered (parsers : Parsers V) (line : Bytes) (x : Except Error Connection) : Prop where
  ends : Concludes x fun events ↦ ∃ before last, events = before ++ [last] ∧ last.kind.isEos = true
  recovered : ¬ Accepted parsers line → ∀ id, CarriesId parsers line id →
    Concludes x fun events ↦ ∃ message, events = [.error id message]
  unknown : ¬ Accepted parsers line → (∀ id, ¬ CarriesId parsers line id) →
    Concludes x fun events ↦ ∃ message, events = [.error Uuid.nil message]

section Answers

variable {env : Env} {parsers : Parsers V} {defaultReceiveDir : Option Path} {s : NodeState} {line rest : Bytes}

theorem not_follows_ended {written : List Event} (y : Connection) : ¬ Connection.Follows y (.ended s written) := by
  rintro ⟨s', h⟩
  cases h <;> simp_all [Connection.ended]

theorem concludes_ended {written : List Event} {P : List Event → Prop} (h : P written) :
    Concludes (.ok (.ended s written)) P := by
  refine ⟨.intro _ fun y hy ↦ absurd hy (not_follows_ended y), fun y hy _ ↦ ?_⟩
  rcases hy.cases_tail with heq | ⟨z, -, hz⟩
  · rw [← heq]
    exact h
  · exact absurd hz (not_follows_ended z)

theorem sound_follows {reqId : Uuid} {x y : Connection} (h : ReflTransGen Connection.Follows y x)
    (hx : x.Sound reqId) : y.Sound reqId := by
  induction h using ReflTransGen.head_induction_on with
  | refl => exact hx
  | @head _ c hstep _ ih =>
    obtain ⟨s, hstep⟩ := hstep
    have hnode : ({ c with node := s } : Connection).Sound reqId := ih
    exact Connection.sound_step hnode hstep

theorem concludes_start (req : Request) :
    Concludes (.ok (.start (dispatch env defaultReceiveDir req.reqId req.op) s))
      fun events ↦ ∃ before last, events = before ++ [last] ∧ last.kind.isEos = true := by
  refine ⟨Connection.acc_follows _, fun y hy hdone ↦ ?_⟩
  have hsound : y.Sound req.reqId :=
    sound_follows hy (Connection.sound_start env defaultReceiveDir req.reqId req.op s)
  have hover : ∃ r, y.dispatch = .ret r ∧ y.channel = [] := by
    by_contra hnot
    obtain ⟨z, hz⟩ := Connection.exists_step hsound fun r hr hnil ↦ hnot ⟨r, hr, hnil⟩
    exact hdone z ⟨y.node, hz⟩
  obtain ⟨r, hr, hnil⟩ := hover
  obtain ⟨-, quiet, hevents, -⟩ := Connection.events_of_returned hsound hr
  rw [Connection.events, hnil, List.append_nil] at hevents
  refine ⟨quiet, _, hevents, ?_⟩
  cases r <;> rfl

theorem recoverId_of_carriesId {text : String} {id : Uuid} (htext : Reads line text)
    (h : CarriesId parsers line id) : recoverId parsers text = id := by
  obtain ⟨text', v, w, str, htext', hv, hw, hstr, hid⟩ := h
  obtain rfl : text = text' := Except.ok.inj (htext.2.symm.trans htext'.2)
  simp [recoverId, hv, hw, hstr, hid]

theorem recoverId_of_forall {text : String} (htext : Reads line text)
    (h : ∀ id, ¬ CarriesId parsers line id) : recoverId parsers text = Uuid.nil := by
  unfold recoverId
  cases hv : parsers.value text with
  | none => rfl
  | some v =>
    cases hw : parsers.get v "req_id" with
    | none => simp [hw]
    | some w =>
      cases hstr : parsers.asStr w with
      | none => simp [hw, hstr]
      | some str =>
        cases hid : parsers.uuid str with
        | none => simp [hw, hstr, hid]
        | some id => exact absurd ⟨text, v, w, str, htext, hv, hw, hstr, hid⟩ (h id)

theorem answered_long (hlong : maxLineBytes < line.length) :
    Answered parsers line (handleConnection env parsers defaultReceiveDir s (some (.error .maxLineLengthExceeded))) where
  ends := concludes_ended ⟨[], _, rfl, rfl⟩
  recovered := by
    rintro - id ⟨text, v, w, str, htext, -⟩
    exact absurd htext.1 (Nat.not_le.mpr hlong)
  unknown _ _ := concludes_ended ⟨_, rfl⟩

theorem answered_text {text : String} (htext : Reads line text) (rest : Bytes) :
    Answered parsers line (handleConnection env parsers defaultReceiveDir s (some (.ok (text, rest)))) := by
  unfold handleConnection
  dsimp only
  cases hreq : parsers.request text with
  | ok req =>
    have haccepted : Accepted parsers line := ⟨text, req, htext, hreq⟩
    exact ⟨concludes_start req, fun h ↦ absurd haccepted h, fun h ↦ absurd haccepted h⟩
  | error e =>
    refine ⟨concludes_ended ⟨[], _, rfl, rfl⟩, fun _ id hid ↦ ?_, fun _ hnone ↦ ?_⟩
    · rw [recoverId_of_carriesId htext hid]
      exact concludes_ended ⟨_, rfl⟩
    · rw [recoverId_of_forall htext hnone]
      exact concludes_ended ⟨_, rfl⟩

/-- The first line that a client sends on a connection it keeps open is answered unless it
is within the limit and no text: then the connection is closed without an event. However
the bytes arrive, the line is looked at once it can be told. The calls of a handler return here,
and nobody aborts the connection. -/
theorem handleConnection_answers_iff {buf more : Bytes} {next : Except LinesCodecError (String × Bytes)}
    (hline : newline ∉ line) (hbuf : buf ++ more = line ++ newline :: rest)
    (hnext : LinesCodec.decode maxLineBytes buf = some next) :
    Answered parsers line (handleConnection env parsers defaultReceiveDir s (some next)) ↔
      maxLineBytes < line.length ∨ ∃ text, Utf8.fromUtf8 (withoutCarriageReturn line) = some text := by
  have hstream := decode_append more hnext
  rw [hbuf, decode_line hline] at hstream
  by_cases hlong : maxLineBytes < line.length
  · rw [if_pos hlong] at hstream
    refine iff_of_true ?_ (.inl hlong)
    cases next with
    | ok x => cases hstream
    | error e =>
      obtain rfl : LinesCodecError.maxLineLengthExceeded = e := Except.error.inj (Option.some.inj hstream)
      exact answered_long hlong
  · rw [if_neg hlong] at hstream
    rw [or_iff_right hlong]
    cases hutf8 : Utf8.fromUtf8 (withoutCarriageReturn line) with
    | some text =>
      have htext : utf8 (withoutCarriageReturn line) = .ok text := by rw [utf8, hutf8]
      rw [htext] at hstream
      refine iff_of_true ?_ ⟨text, rfl⟩
      cases next with
      | error e => cases hstream
      | ok x =>
        have hx : (text, rest) = (x.1, x.2 ++ more) := Except.ok.inj (Option.some.inj hstream)
        obtain rfl : text = x.1 := congrArg Prod.fst hx
        exact answered_text ⟨Nat.not_lt.mp hlong, htext⟩ x.2
    | none =>
      rw [utf8, hutf8] at hstream
      refine iff_of_false (fun h ↦ ?_) (by simp)
      cases next with
      | ok x => cases hstream
      | error e =>
        obtain rfl : LinesCodecError.io _ = e := Except.error.inj (Option.some.inj hstream)
        obtain ⟨before, last, hnil, -⟩ := h.ends
        simp at hnil

end Answers

def reading {α : Type} (parse : String → Option α) (text : String) : Except String α :=
  match parse text with
  | some v => .ok v
  | none => .error "malformed"

def jsonParsers : Parsers Json where
  request := reading (Request.parse parseHyphenated)
  value := Json.parse
  get
    | .obj fields, name => (Json.field fields name).join
    | _, _ => none
  asStr := Json.asStr
  uuid := parseHyphenated

def unknownOp : String := String.ofList (Json.print (.obj [("req_id", .str (toString Uuid.nil)), ("op", .str "nosuch")]))

theorem handleConnection_answers_iff_unknownOp : Answered jsonParsers (Utf8.toBytes unknownOp)
    (handleConnection (.plain []) jsonParsers none emptyNode (some (.ok (unknownOp, [])))) := by
  have hprintable : Json.Printable unknownOp.toList := by
    rw [unknownOp, String.toList_ofList]
    exact Json.printable_print _
  have hnext := decode_printable hprintable (by decide +kernel : unknownOp.utf8ByteSize ≤ maxLineBytes) []
  rw [List.append_nil] at hnext
  have hline : newline ∉ Utf8.toBytes unknownOp := not_mem_toBytes hprintable (by decide)
  have hbuf : Utf8.toBytes (unknownOp ++ "\n") ++ [] = Utf8.toBytes unknownOp ++ newline :: [] := by
    rw [List.append_nil, toBytes_line]
  have htext : Utf8.fromUtf8 (withoutCarriageReturn (Utf8.toBytes unknownOp)) = some unknownOp := by decide +kernel
  exact (handleConnection_answers_iff hline hbuf hnext).mpr (.inr ⟨unknownOp, htext⟩)

/-- A line of one byte that is no text. -/
theorem handleConnection_notUtf8 : ∃ next, LinesCodec.decode maxLineBytes [0xFF, newline] = some next ∧
    ¬ Answered jsonParsers [0xFF] (handleConnection (.plain []) jsonParsers none emptyNode (some next)) := by
  refine ⟨.error (.io (.msg "Unable to decode input as UTF8")), rfl, fun h ↦ ?_⟩
  obtain ⟨before, last, hnil, -⟩ := h.ends
  simp at hnil

end Ringdrop.Server
