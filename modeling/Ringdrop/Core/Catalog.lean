import Ringdrop.Core.Rings
import Mathlib.Data.UInt

namespace Ringdrop

open Library

namespace Catalog

def blobList : UInt8 := 0x01

def denied : UInt8 := 0x00

def allowed : UInt8 := 0x01

structure CatalogEntry where
  hash : Hash
  format : BlobFormat
  name : String
  ticket : ShareTicket
  fileCount : Option ℕ
  totalSize : Option UInt64

def statusSize (hash : Hash) : Action (Option UInt64) := do
  match ← (store (.status hash)).attempt with
  | .ok (.complete size) => return some size
  | _ => return none

/-- The sum wraps around, and stops at the first member that is not complete. -/
def sumSizes : List Hash → UInt64 → Action (Option UInt64)
  | [], sum => return some sum
  | hash :: rest, sum => do
    match ← statusSize hash with
    | some size => sumSizes rest (sum + size)
    | none => return none

def fileCountAndSize (hash : Hash) : BlobFormat → Action (Option ℕ × Option UInt64)
  | .raw => do
    let size ← statusSize hash
    return (none, size)
  | .hashSeq => do
    match ← (store (.loadCollection hash)).attempt with
    | .ok collection =>
      let size ← sumSizes (collection.map Prod.snd) 0
      return (some collection.length, size)
    | .error _ => return (none, none)

def writeLengthPrefixed (data : Bytes) : Action Unit := do
  if data.length < 2 ^ 16 then
    net (.writeAll (toLeBytes 2 data.length))
    net (.writeAll data)
  else
    throw ((Error.msg "out of range integral type conversion attempted").context
      "field too long for u16 length prefix")

def formatByte : BlobFormat → UInt8
  | .hashSeq => 1
  | .raw => 0

/-- The largest values of the two number fields stand for an unknown number. -/
def writeEntry (hash : Hash) (format : BlobFormat) (name ticketUri : String)
    (fileCount : Option ℕ) (totalSize : Option UInt64) : Action Unit := do
  context "writing hash" (net (.writeAll hash.asBytes))
  context "writing format" (net (.writeAll [formatByte format]))
  context "writing name" (writeLengthPrefixed (Utf8.toBytes name))
  context "writing ticket" (writeLengthPrefixed (Utf8.toBytes ticketUri))
  context "writing total_size" (net (.writeAll (toLeBytes 8 (totalSize.getD (2 ^ 64 - 1)).toNat)))
  context "writing file_count"
    (net (.writeAll (toLeBytes 4 ((fileCount.map (· % 2 ^ 32)).getD (2 ^ 32 - 1)))))

/-- One tag of the listing: an entry is written when the peer may read the blob. A
failed lookup counts as a refusal. -/
def streamTag (env : Env) (peer : EndpointId) (addr : EndpointAddr) (item : Except Error TagInfo) :
    Action Unit := do
  let info ← .ofExcept item
  match ← (registry (.hasPermission peer info.hash .read)).attempt with
  | .ok true =>
    let name := Utf8.fromUtf8Lossy info.name
    let ticketUri ← .ofExcept ((ShareTicket.fromFormat addr info.hash info.format (some name)).toUri env)
    let (fileCount, totalSize) ← fileCountAndSize info.hash info.format
    writeEntry info.hash info.format name ticketUri fileCount totalSize
  | _ => return ()

def handleBlobList (env : Env) (peer : EndpointId) : Action Unit := do
  if ← grants (.get .blobList peer) then
    net (.writeAll [allowed])
    let addr := relayOnlyAddr (← endpointAddr)
    let items ← store .listTags
    items.forM (streamTag env peer addr)
    net .finish
  else
    net (.writeAll [denied])
    net .finish

/-- A connection from `peer`, with the stream it opens. Any command but the one there is is
denied. -/
def handle (env : Env) (peer : EndpointId) (accepted : Except Error RecvStream) : Action Unit := do
  let stream ← context "accepting bi stream" (.ofExcept accepted)
  let (cmd, _) ← context "reading command byte" (.ofExcept (stream.readExact 1))
  if cmd = [blobList] then handleBlobList env peer
  else
    net (.writeAll [denied])
    net .finish

def readContext {α : Type} (s : String) : Except Error α → Except Error α
  | .ok v => .ok v
  | .error e => .error (e.context s)

def readLengthPrefixed (s : RecvStream) (field : String) : Except Error (Bytes × RecvStream) := do
  let (lenBuf, s) ← readContext s!"reading {field} length" (s.readExact 2)
  readContext s!"reading {field} data" (s.readExact (ofLeBytes lenBuf))

def readString (s : RecvStream) (field : String) : Except Error (String × RecvStream) := do
  let (bs, s) ← readLengthPrefixed s field
  match Utf8.fromUtf8 bs with
  | some text => .ok (text, s)
  | none => .error ((Error.msg "invalid utf-8 sequence").context s!"entry {field} is not UTF-8")

def parseFormatByte (b : UInt8) : Except Error BlobFormat :=
  if b = 0 then .ok .raw
  else if b = 1 then .ok .hashSeq
  else .error (.msg s!"unknown format byte {b}")

def decodeEntry (env : Env) (s : RecvStream) : Except Error (CatalogEntry × RecvStream) := do
  let (hashBuf, s) ← readContext "reading hash" (s.readExact 32)
  let (fmtBuf, s) ← readContext "reading format byte" (s.readExact 1)
  let format ← parseFormatByte (fmtBuf.headD 0)
  let (name, s) ← readString s "name"
  let (ticketUri, s) ← readString s "ticket"
  let ticket ← ShareTicket.fromUri env ticketUri
  let (sizeBuf, s) ← readContext "reading total_size" (s.readExact 8)
  let totalSize := if ofLeBytes sizeBuf = 2 ^ 64 - 1 then none else some (UInt64.ofNat (ofLeBytes sizeBuf))
  let (countBuf, s) ← readContext "reading file_count" (s.readExact 4)
  let fileCount := if ofLeBytes countBuf = 2 ^ 32 - 1 then none else some (ofLeBytes countBuf)
  if h : hashBuf.length = 32 then .ok (⟨⟨hashBuf, h⟩, format, name, ticket, fileCount, totalSize⟩, s)
  else .error (.msg "unreachable")

/-- Every entry takes at least one byte, so the length of the stream is fuel enough. -/
def decodeEntriesFrom (env : Env) : ℕ → RecvStream → Except Error (List CatalogEntry)
  | 0, _ => .ok []
  | fuel + 1, s => do
    match ← readContext "reading entry probe" s.readByte with
    | none => .ok []
    | some _ =>
      let (entry, s) ← decodeEntry env s
      return entry :: (← decodeEntriesFrom env fuel s)

def decodeEntries (env : Env) (s : RecvStream) : Except Error (List CatalogEntry) :=
  decodeEntriesFrom env (s.bytes.length + 1) s

end Catalog

end Ringdrop
