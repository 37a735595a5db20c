import Ringdrop.Core.Node

namespace Ringdrop

open Library

namespace Handlers

def formatRing (ring : Ring) : String :=
  if ring.isOpen then s!"  {ring.name} (open — publicly accessible)" else s!"  {ring.name}"

def sendLines (reqId : Uuid) (lines : List String) : Action Unit :=
  lines.forM (fun line ↦ send (.line reqId line))

/-- The blob an argument stands for: a path that exists is imported, anything else
is read as a hash. -/
def resolveTarget (env : Env) (target : String) : Action Hash := do
  let path := Path.ofString target
  if ← pathExists path then
    let (hash, _) ← Node.importPath env path
    return hash
  else .ofExcept (parseHash env target)

def attachLine (ring : String) : String :=
  if ring = openRingName then "Attached to open ring (publicly accessible)"
  else s!"Attached to ring '{ring}'"

def noRingsLines (hash : Hash) : List String :=
  ["Warning: not attached to any ring — this blob won't be served to any peer.",
    "Attach to a ring with:",
    s!"  rdrop blob attach {hash} <ring-name>",
    s!"  rdrop blob attach {hash} --open"]

/-- With nothing to attach, say what the blob is attached to. -/
def reportRings (reqId : Uuid) (hash : Hash) : Action Unit := do
  let existing ← registry (.listResourceRings hash)
  if existing = [] then sendLines reqId (noRingsLines hash)
  else
    send (.line reqId "Already attached to:")
    existing.forM (fun r ↦ send (.line reqId (formatRing r.1)))

def attachTo (reqId : Uuid) (hash : Hash) (said : String) (ring : String) : Action Unit := do
  registry (.addRingToResource hash ring [.read])
  send (.line reqId said)

def formatStr : BlobFormat → String
  | .hashSeq => "hash_seq"
  | .raw => "raw"

def ticketLines (ticketStr : String) : List String :=
  ["", "Ticket:", s!"  {ticketStr}", "", "Peers receive with:", s!"  rdrop receive {ticketStr}"]

def importRecord (hash : Hash) (format : BlobFormat) (displayName : Option String)
    (ticketStr : String) : Json :=
  .object [("hash", .str (toString hash)), ("format", .str (formatStr format)),
    ("name", .str (displayName.getD "")), ("ticket", .str ticketStr)]

def handleImport (env : Env) (reqId : Uuid) (path : Path) (rings : List String) («open» : Bool) :
    Action Unit := do
  let (hash, format) ← Node.importPath env path
  let effectiveRings := if «open» then [openRingName] else rings
  if effectiveRings = [] then reportRings reqId hash
  else effectiveRings.forM (fun ring ↦ attachTo reqId hash (attachLine ring) ring)
  let displayName := Node.leafName path
  let ticket ← Node.makeTicket hash format displayName
  let ticketStr ← .ofExcept (ticket.toUri env)
  sendLines reqId (ticketLines ticketStr)
  send (.record reqId (importRecord hash format displayName ticketStr))
  send (.done reqId)

def kindStr (format : BlobFormat) (fileCount : Option ℕ) : String :=
  match format with
  | .hashSeq => "dir, " ++ (fileCount.map (fun n ↦ s!"{n} files")).getD "dir"
  | .raw => "file"

def sizeStr (env : Env) (totalSize : Option UInt64) : String :=
  (totalSize.map (formatSize env)).getD "?"

def optNum : Option ℕ → Json
  | some n => .num n
  | none => .null

def ringsLine (names : List String) : String :=
  if names = [] then "    rings:  (none — inaccessible to all peers)"
  else "    rings:  " ++ String.intercalate ", " names

def listEntry (env : Env) (reqId : Uuid) (entry : Node.BlobListEntry) : Action Unit := do
  let blobRings ← registry (.listResourceRings entry.hash)
  let ticket ← Node.makeTicket entry.hash entry.format (some entry.name)
  let ticketStr ← .ofExcept (ticket.toUri env)
  let ringNames := blobRings.map (fun r ↦ r.1.name)
  let kind := kindStr entry.format entry.fileCount
  sendLines reqId
    ["", s!"  {entry.hash}  ({entry.name})", s!"    kind:   {kind}  ({sizeStr env entry.totalSize})",
      ringsLine ringNames, s!"    ticket: {ticketStr}"]
  send (.record reqId (.object
    [("hash", .str (toString entry.hash)), ("name", .str entry.name), ("kind", .str kind),
      ("file_count", optNum entry.fileCount), ("size_bytes", optNum (entry.totalSize.map UInt64.toNat)),
      ("rings", strings ringNames), ("ticket", .str ticketStr)]))

def handleBlobList (env : Env) (reqId : Uuid) (peer : Option String) (rings : Option (List String)) :
    Action Unit := do
  let blobs ← Node.listBlobs env peer rings
  if blobs.isEmpty then
    let peerStr := (peer.map (fun p ↦ s!" accessible by peer {p}")).getD ""
    send (.line reqId s!"No blobs in local store{peerStr}.")
  else
    send (.line reqId s!"{blobs.length} blobs:")
    blobs.forM (listEntry env reqId)
  send (.done reqId)

def handleBlobRemove (env : Env) (reqId : Uuid) (target : String) : Action Unit := do
  let hash ← resolveTarget env target
  registry (.removeRingFromResource hash)
  Node.deleteBlob hash
  sendLines reqId [s!"Removed {hash}", "Disk space will be reclaimed on the next GC cycle."]
  send (.record reqId (.object [("hash", .str (toString hash))]))
  send (.done reqId)

def nothingToAttach (target : String) : Error :=
  .msg s!"nothing to attach: specify at least one ring name or --open\n\nExamples:\n  rdrop blob attach {target} <ring-name>\n  rdrop blob attach {target} --open"

def handleAttach (env : Env) (reqId : Uuid) (target : String) (rings : List String) («open» : Bool) :
    Action Unit := do
  if rings = [] ∧ «open» = false then throw (nothingToAttach target)
  else
    let hash ← resolveTarget env target
    rings.forM (fun ring ↦ attachTo reqId hash s!"Attached {hash} to ring '{ring}'" ring)
    if «open» then
      attachTo reqId hash s!"Attached {hash} to open ring (publicly accessible)" openRingName
    send (.done reqId)

/-- Drop the listed rings from the associations: read them, clear them all and write
back the ones that stay. -/
def detachSelected (reqId : Uuid) (hash : Hash) (toRemove : List String) : Action Unit := do
  let current ← registry (.listResourceRings hash)
  let actuallyRemoved := toRemove.filter (fun name ↦ current.any (fun r ↦ r.1.name == name))
  if actuallyRemoved = [] then
    throw (Error.msg (s!"blob {hash} is not attached to: " ++ String.intercalate ", " toRemove))
  else
    let remaining := current.filter (fun r ↦ !toRemove.contains r.1.name)
    registry (.removeRingFromResource hash)
    remaining.forM (fun r ↦ registry (.addRingToResource hash r.1.name r.2))
    sendLines reqId (actuallyRemoved.map (fun name ↦ s!"Detached {hash} from ring '{name}'"))
    send (.done reqId)

def detachAll (reqId : Uuid) (hash : Hash) : Action Unit := do
  registry (.removeRingFromResource hash)
  send (.line reqId s!"Detached {hash} from all rings")
  send (.done reqId)

def handleDetach (env : Env) (reqId : Uuid) (target : String) (rings : List String)
    («open» all : Bool) : Action Unit := do
  let hash ← resolveTarget env target
  if all then detachAll reqId hash
  else detachSelected reqId hash (if «open» then [openRingName] else rings)

end Handlers

end Ringdrop
