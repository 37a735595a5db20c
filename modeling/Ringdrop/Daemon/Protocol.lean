import Ringdrop.Core.Basic
import Ringdrop.Library.Json

namespace Ringdrop

open Library

structure Uuid where
  asBytes : Bytes
  length_eq : asBytes.length = 16
deriving DecidableEq

namespace Uuid

def nil : Uuid := ⟨List.replicate 16 0, List.length_replicate⟩

/-- Hyphenated lower-case hexadecimal. -/
def chars (u : Uuid) : List Char :=
  let part (i n : ℕ) : List Char := hexChars ((u.asBytes.drop i).take n)
  part 0 4 ++ '-' :: part 4 2 ++ '-' :: part 6 2 ++ '-' :: part 8 2 ++ '-' :: part 10 6

instance : ToString Uuid := ⟨fun u ↦ String.ofList u.chars⟩

end Uuid

inductive Op
  | nodeId (qrCode : Bool)
  | «import» (path : Path) (rings : List String) («open» : Bool)
  | blobList (peer : Option String) (rings : Option (List String))
  | blobRemove (target : String)
  | blobAttach (target : String) (rings : List String) («open» : Bool)
  | blobDetach (target : String) (rings : List String) («open» all : Bool)
  | ringNew (name : String)
  | ringList
  | ringAdd (ring peer : String) (expiresAt : Option UInt64)
  | ringRemove (ring peer : String)
  | ringMembers (ring : String)
  | receive (ticket : String) (dest : Option Path) (forceOverwrite : Bool)
  | grant (peer privilege : String)
  | revoke (peer privilege : String)
  | grants (peer privilege : Option String)
  | remoteBlobList (peer : String)
  | peerAdd (peer : String) (nickname : Option String)
  | peerList
  | peerRemove (peer : String)
  | shutdown

structure Request where
  reqId : Uuid
  op : Op

inductive EventKind
  | line (text : String)
  | progress (done total : UInt64)
  | fileProgress (fileIndex fileTotal : ℕ) (fileName : String) (done total : UInt64)
  | done
  | error (message : String)
  | record (value : Json)

def EventKind.isEos : EventKind → Bool
  | .done => true
  | .error _ => true
  | _ => false

structure Event where
  reqId : Uuid
  kind : EventKind

namespace Event

def line (reqId : Uuid) (text : String) : Event := ⟨reqId, .line text⟩

def blank (reqId : Uuid) : Event := line reqId ""

def progress (reqId : Uuid) (done total : UInt64) : Event := ⟨reqId, .progress done total⟩

def done (reqId : Uuid) : Event := ⟨reqId, .done⟩

def error (reqId : Uuid) (message : String) : Event := ⟨reqId, .error message⟩

def record (reqId : Uuid) (value : Json) : Event := ⟨reqId, .record value⟩

def fileProgress (reqId : Uuid) (fileIndex fileTotal : ℕ) (fileName : String)
    (done total : UInt64) : Event :=
  ⟨reqId, .fileProgress fileIndex fileTotal fileName done total⟩

end Event

def EventKind.fields : EventKind → List (String × Json)
  | .line text => [("type", .str "line"), ("text", .str text)]
  | .progress received total =>
    [("type", .str "progress"), ("done", .num received.toNat), ("total", .num total.toNat)]
  | .fileProgress fileIndex fileTotal fileName received total =>
    [("type", .str "file_progress"), ("file_index", .num fileIndex), ("file_total", .num fileTotal),
      ("file_name", .str fileName), ("done", .num received.toNat), ("total", .num total.toNat)]
  | .done => [("type", .str "done")]
  | .error message => [("type", .str "error"), ("message", .str message)]
  | .record value => [("type", .str "record"), ("value", value)]

/-- The line an event is written as, without its newline. -/
def Event.text (e : Event) : String :=
  String.ofList (Json.print (.obj (("req_id", .str (toString e.reqId)) :: e.kind.fields)))

def optStr : Option String → Json
  | none => .null
  | some s => .str s

def optField (name : String) : Option Json → List (String × Json)
  | none => []
  | some v => [(name, v)]

def strings (xs : List String) : Json := .arr (xs.map .str)

/-- A path is serialised as text, which fails when it is not UTF-8. -/
def pathJson (p : Path) : Except Error Json :=
  match Utf8.fromUtf8 p with
  | some text => .ok (.str text)
  | none => .error (.msg "path contains invalid UTF-8 characters")

def Op.fields : Op → Except Error (List (String × Json))
  | nodeId qrCode => .ok [("op", .str "node_id"), ("qr_code", .bool qrCode)]
  | «import» path rings «open» => do
    .ok [("op", .str "import"), ("path", ← pathJson path), ("rings", strings rings), ("open", .bool «open»)]
  | blobList peer rings =>
    .ok [("op", .str "blob_list"), ("peer", optStr peer), ("rings", (rings.map strings).getD .null)]
  | blobRemove target => .ok [("op", .str "blob_remove"), ("target", .str target)]
  | blobAttach target rings «open» =>
    .ok [("op", .str "blob_attach"), ("target", .str target), ("rings", strings rings),
      ("open", .bool «open»)]
  | blobDetach target rings «open» all =>
    .ok [("op", .str "blob_detach"), ("target", .str target), ("rings", strings rings),
      ("open", .bool «open»), ("all", .bool all)]
  | ringNew name => .ok [("op", .str "ring_new"), ("name", .str name)]
  | ringList => .ok [("op", .str "ring_list")]
  | ringAdd ring peer expiresAt =>
    .ok ([("op", .str "ring_add"), ("ring", .str ring), ("peer", .str peer)] ++
      optField "expires_at" (expiresAt.map (fun t ↦ .num t.toNat)))
  | ringRemove ring peer => .ok [("op", .str "ring_remove"), ("ring", .str ring), ("peer", .str peer)]
  | ringMembers ring => .ok [("op", .str "ring_members"), ("ring", .str ring)]
  | receive ticket dest forceOverwrite => do
    let dest ← match dest with
      | none => .ok .null
      | some p => pathJson p
    .ok [("op", .str "receive"), ("ticket", .str ticket), ("dest", dest),
      ("force_overwrite", .bool forceOverwrite)]
  | grant peer privilege =>
    .ok [("op", .str "grant"), ("peer", .str peer), ("privilege", .str privilege)]
  | revoke peer privilege =>
    .ok [("op", .str "revoke"), ("peer", .str peer), ("privilege", .str privilege)]
  | grants peer privilege =>
    .ok ([("op", .str "grants")] ++ optField "peer" (peer.map .str) ++
      optField "privilege" (privilege.map .str))
  | remoteBlobList peer => .ok [("op", .str "remote_blob_list"), ("peer", .str peer)]
  | peerAdd peer nickname =>
    .ok ([("op", .str "peer_add"), ("peer", .str peer)] ++ optField "nickname" (nickname.map .str))
  | peerList => .ok [("op", .str "peer_list")]
  | peerRemove peer => .ok [("op", .str "peer_remove"), ("peer", .str peer)]
  | shutdown => .ok [("op", .str "shutdown")]

def Request.text (r : Request) : Except Error String := do
  let fields ← r.op.fields
  .ok (String.ofList (Json.print (.obj (("req_id", .str (toString r.reqId)) :: fields))))

def maxLineBytes : ℕ := 512 * 1024

def fitsLine (s : String) : Bool := s.utf8ByteSize ≤ maxLineBytes

example : (Event.done Uuid.nil).text =
    "\x7b\"req_id\":\"00000000-0000-0000-0000-000000000000\",\"type\":\"done\"\x7d" := by
  decide

end Ringdrop
