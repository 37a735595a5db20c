import Ringdrop.Daemon.Protocol
import Ringdrop.Library.JsonObject

namespace Ringdrop

open Library Json

def asPath (v : Json) : Option Path := (asStr v).map Path.ofString

/-- The variant the tag names, from the fields beside the tag. Fields of other names are
passed over. -/
def Op.ofFields (fields : List (String × Json)) : Option Op := do
  let tag ← required asStr fields "op"
  let fields := fields.filter (fun f ↦ f.1 ≠ "op")
  match tag with
  | "node_id" => some (.nodeId (← required asBool fields "qr_code"))
  | "import" =>
    some (.import (← required asPath fields "path") (← required asStrings fields "rings")
      (← required asBool fields "open"))
  | "blob_list" => some (.blobList (← optional asStr fields "peer") (← optional asStrings fields "rings"))
  | "blob_remove" => some (.blobRemove (← required asStr fields "target"))
  | "blob_attach" =>
    some (.blobAttach (← required asStr fields "target") (← required asStrings fields "rings")
      (← required asBool fields "open"))
  | "blob_detach" =>
    some (.blobDetach (← required asStr fields "target") (← required asStrings fields "rings")
      (← required asBool fields "open") (← required asBool fields "all"))
  | "ring_new" => some (.ringNew (← required asStr fields "name"))
  | "ring_list" => some .ringList
  | "ring_add" =>
    some (.ringAdd (← required asStr fields "ring") (← required asStr fields "peer")
      (← optional asU64 fields "expires_at"))
  | "ring_remove" => some (.ringRemove (← required asStr fields "ring") (← required asStr fields "peer"))
  | "ring_members" => some (.ringMembers (← required asStr fields "ring"))
  | "receive" =>
    some (.receive (← required asStr fields "ticket") (← optional asPath fields "dest")
      (← required asBool fields "force_overwrite"))
  | "grant" => some (.grant (← required asStr fields "peer") (← required asStr fields "privilege"))
  | "revoke" => some (.revoke (← required asStr fields "peer") (← required asStr fields "privilege"))
  | "grants" => some (.grants (← optional asStr fields "peer") (← optional asStr fields "privilege"))
  | "remote_blob_list" => some (.remoteBlobList (← required asStr fields "peer"))
  | "peer_add" => some (.peerAdd (← required asStr fields "peer") (← optional asStr fields "nickname"))
  | "peer_list" => some .peerList
  | "peer_remove" => some (.peerRemove (← required asStr fields "peer"))
  | "shutdown" => some .shutdown
  | _ => none

def EventKind.ofFields (fields : List (String × Json)) : Option EventKind := do
  let tag ← required asStr fields "type"
  let fields := fields.filter (fun f ↦ f.1 ≠ "type")
  match tag with
  | "line" => some (.line (← required asStr fields "text"))
  | "progress" => some (.progress (← required asU64 fields "done") (← required asU64 fields "total"))
  | "file_progress" =>
    some (.fileProgress (← required asUsize fields "file_index") (← required asUsize fields "file_total")
      (← required asStr fields "file_name") (← required asU64 fields "done") (← required asU64 fields "total"))
  | "done" => some .done
  | "error" => some (.error (← required asStr fields "message"))
  | "record" => some (.record (← required (fun v ↦ some v.toValue) fields "value"))
  | _ => none

section Parsing

variable (parseUuid : String → Option Uuid)

def asUuid (v : Json) : Option Uuid := asStr v >>= parseUuid

def Request.ofJson : Json → Option Request
  | obj fields => do
    let reqId ← required (asUuid parseUuid) fields "req_id"
    let op ← Op.ofFields (fields.filter (fun f ↦ f.1 ≠ "req_id"))
    some ⟨reqId, op⟩
  | _ => none

def Event.ofJson : Json → Option Event
  | obj fields => do
    let reqId ← required (asUuid parseUuid) fields "req_id"
    let kind ← EventKind.ofFields (fields.filter (fun f ↦ f.1 ≠ "req_id"))
    some ⟨reqId, kind⟩
  | _ => none

def Request.parse (line : String) : Option Request := Json.parse line >>= Request.ofJson parseUuid

def Event.parse (line : String) : Option Event := Json.parse line >>= Event.ofJson parseUuid

end Parsing

section Fields

@[simp]
theorem asPath_str (s : String) : asPath (str s) = some (Path.ofString s) := rfl

theorem pathJson_eq_ok {p : Path} {v : Json} (h : pathJson p = .ok v) : ∃ text, v = str text ∧ Path.ofString text = p := by
  unfold pathJson at h
  cases htext : Utf8.fromUtf8 p with
  | none =>
    rw [htext] at h
    cases h
  | some text =>
    rw [htext] at h
    exact ⟨text, (Except.ok.inj h).symm, Utf8.fromUtf8_eq_some_iff.mp htext⟩

theorem pathJson_ofString (text : String) : pathJson (Path.ofString text) = .ok (str text) := by
  have htext : Utf8.fromUtf8 (Path.ofString text) = some text := Utf8.fromUtf8_eq_some_iff.mpr rfl
  rw [pathJson, htext]

theorem fields_import {path : Path} {rings : List String} {«open» : Bool} {fields : List (String × Json)}
    (h : (Op.import path rings «open»).fields = .ok fields) :
    ∃ text, Path.ofString text = path ∧
      fields = [("op", str "import"), ("path", str text), ("rings", strings rings), ("open", .bool «open»)] := by
  obtain ⟨v, hpath, hfields⟩ := bind_eq_ok.mp h
  obtain ⟨text, rfl, htext⟩ := pathJson_eq_ok hpath
  exact ⟨text, htext, (Except.ok.inj hfields).symm⟩

theorem fields_receive {ticket : String} {path : Path} {forceOverwrite : Bool} {fields : List (String × Json)}
    (h : (Op.receive ticket (some path) forceOverwrite).fields = .ok fields) :
    ∃ text, Path.ofString text = path ∧
      fields = [("op", str "receive"), ("ticket", str ticket), ("dest", str text),
        ("force_overwrite", .bool forceOverwrite)] := by
  obtain ⟨v, hpath, hfields⟩ := bind_eq_ok.mp h
  obtain ⟨text, rfl, htext⟩ := pathJson_eq_ok hpath
  exact ⟨text, htext, (Except.ok.inj hfields).symm⟩

/-- Every variant is read back from its fields, those left out and those that are `null`
included. -/
theorem Op.ofFields_fields {op : Op} {fields : List (String × Json)} (h : op.fields = .ok fields) :
    Op.ofFields fields = some op := by
  cases op with
  | «import» path rings «open» =>
    obtain ⟨text, rfl, rfl⟩ := fields_import h
    simp [Op.ofFields, strings]
  | blobList peer rings =>
    obtain rfl := Except.ok.inj h
    cases rings with
    | none => cases peer <;> rfl
    | some rings => cases peer <;> simp [Op.ofFields, optStr, strings]
  | blobAttach target rings «open» =>
    obtain rfl := Except.ok.inj h
    simp [Op.ofFields, strings]
  | blobDetach target rings «open» all =>
    obtain rfl := Except.ok.inj h
    simp [Op.ofFields, strings]
  | ringAdd ring peer expiresAt =>
    obtain rfl := Except.ok.inj h
    cases expiresAt with
    | none => rfl
    | some t => simp [Op.ofFields, optField]
  | receive ticket dest forceOverwrite =>
    cases dest with
    | none =>
      obtain rfl := Except.ok.inj h
      rfl
    | some path =>
      obtain ⟨text, rfl, rfl⟩ := fields_receive h
      rfl
  | grants peer privilege =>
    obtain rfl := Except.ok.inj h
    cases peer <;> cases privilege <;> rfl
  | peerAdd peer nickname =>
    obtain rfl := Except.ok.inj h
    cases nickname <;> rfl
  | _ =>
    obtain rfl := Except.ok.inj h
    rfl

/-- The numbers are within 64 bits, and a record is a JSON value that nests less than the
event may. -/
def EventKind.InRange : EventKind → Prop
  | .fileProgress fileIndex fileTotal _ _ _ => fileIndex < 2 ^ 64 ∧ fileTotal < 2 ^ 64
  | .record value => IsValue 126 value
  | _ => True

theorem EventKind.ofFields_fields {kind : EventKind} (h : kind.InRange) : EventKind.ofFields kind.fields = some kind := by
  cases kind with
  | progress received total => simp [EventKind.fields, EventKind.ofFields]
  | fileProgress fileIndex fileTotal fileName received total =>
    simp [EventKind.fields, EventKind.ofFields, asUsize_num h.1, asUsize_num h.2]
  | record value => simp [EventKind.fields, EventKind.ofFields, toValue_of_isValue h]
  | _ => rfl

def Beside (f : String × Json) : Prop := f.1 ≠ "req_id" ∧ Fits 126 f.2

theorem beside_opFields {op : Op} {fields : List (String × Json)} (h : op.fields = .ok fields) :
    ∀ f ∈ fields, Beside f := by
  cases op with
  | «import» path rings «open» =>
    obtain ⟨text, rfl, rfl⟩ := fields_import h
    simp [Beside, Fits, strings]
  | blobList peer rings =>
    obtain rfl := Except.ok.inj h
    cases peer <;> cases rings <;> simp [Beside, Fits, strings, optStr]
  | blobAttach target rings «open» =>
    obtain rfl := Except.ok.inj h
    simp [Beside, Fits, strings]
  | blobDetach target rings «open» all =>
    obtain rfl := Except.ok.inj h
    simp [Beside, Fits, strings]
  | ringAdd ring peer expiresAt =>
    obtain rfl := Except.ok.inj h
    cases expiresAt with
    | none => simp [Beside, Fits, optField]
    | some t =>
      have ht := t.toNat_lt
      simpa [Beside, Fits, optField] using ht
  | receive ticket dest forceOverwrite =>
    cases dest with
    | none =>
      obtain rfl := Except.ok.inj h
      simp [Beside, Fits]
    | some path =>
      obtain ⟨text, rfl, rfl⟩ := fields_receive h
      simp [Beside, Fits]
  | grants peer privilege =>
    obtain rfl := Except.ok.inj h
    cases peer <;> cases privilege <;> simp [Beside, Fits, optField]
  | peerAdd peer nickname =>
    obtain rfl := Except.ok.inj h
    cases nickname <;> simp [Beside, Fits, optField]
  | _ =>
    obtain rfl := Except.ok.inj h
    simp [Beside, Fits]

theorem beside_eventFields {kind : EventKind} (h : kind.InRange) : ∀ f ∈ kind.fields, Beside f := by
  cases kind with
  | progress received total =>
    have hreceived := received.toNat_lt
    have htotal := total.toNat_lt
    simpa [EventKind.fields, Beside, Fits] using ⟨hreceived, htotal⟩
  | fileProgress fileIndex fileTotal fileName received total =>
    have hreceived := received.toNat_lt
    have htotal := total.toNat_lt
    simpa [EventKind.fields, Beside, Fits] using ⟨h.1, h.2, hreceived, htotal⟩
  | record value => simp [EventKind.fields, Beside, Fits, fits_of_isValue h]
  | _ => simp [EventKind.fields, Beside, Fits]

end Fields

section RoundTrips

variable {parseUuid : String → Option Uuid} {id : Uuid} {fields : List (String × Json)}

theorem parse_line (h : ∀ f ∈ fields, Beside f) :
    Json.parse (String.ofList (print (obj (("req_id", str (toString id)) :: fields)))) =
      some (obj (("req_id", str (toString id)) :: fields)) := by
  apply parse_print
  intro f hf
  rcases List.mem_cons.mp hf with rfl | hf
  · trivial
  · exact (h f hf).2

theorem required_reqId (hid : parseUuid (toString id) = some id) (h : ∀ f ∈ fields, Beside f) :
    required (asUuid parseUuid) (("req_id", str (toString id)) :: fields) "req_id" = some id := by
  rw [required_head _ fun f hf ↦ (h f hf).1]
  exact hid

theorem filter_reqId (h : ∀ f ∈ fields, Beside f) :
    (("req_id", str (toString id)) :: fields).filter (fun f ↦ f.1 ≠ "req_id") = fields := by
  rw [List.filter_cons_of_neg (by simp), List.filter_eq_self]
  intro f hf
  exact decide_eq_true (h f hf).1

theorem text_eq_ok {r : Request} {line : String} : r.text = .ok line ↔ ∃ fields, r.op.fields = .ok fields ∧
    line = String.ofList (print (obj (("req_id", str (toString r.reqId)) :: fields))) := by
  constructor
  · intro h
    obtain ⟨fields, hop, hline⟩ := bind_eq_ok.mp h
    exact ⟨fields, hop, (Except.ok.inj hline).symm⟩
  · rintro ⟨fields, hop, rfl⟩
    exact bind_eq_ok.mpr ⟨fields, hop, rfl⟩

theorem parse_requestText {r : Request} {line : String} (hid : parseUuid (toString r.reqId) = some r.reqId)
    (h : r.text = .ok line) : Request.parse parseUuid line = some r := by
  obtain ⟨fields, hop, rfl⟩ := text_eq_ok.mp h
  have hbeside := beside_opFields hop
  rw [Request.parse, parse_line hbeside]
  change Request.ofJson parseUuid (obj _) = some r
  rw [Request.ofJson, required_reqId hid hbeside, filter_reqId hbeside]
  simp only [Option.bind_eq_bind, Option.bind_some]
  rw [Op.ofFields_fields hop]
  rfl

theorem parse_eventText {e : Event} (hid : parseUuid (toString e.reqId) = some e.reqId) (h : e.kind.InRange) :
    Event.parse parseUuid e.text = some e := by
  have hbeside := beside_eventFields h
  rw [Event.parse, Event.text, parse_line hbeside]
  change Event.ofJson parseUuid (obj _) = some e
  rw [Event.ofJson, required_reqId hid hbeside, filter_reqId hbeside]
  simp only [Option.bind_eq_bind, Option.bind_some]
  rw [EventKind.ofFields_fields h]
  rfl

end RoundTrips

end Ringdrop
