import Ringdrop.Daemon.Handlers.Membership

namespace Ringdrop

open Library

namespace Handlers

def tilde : Path := Path.ofString "~"

def expandTilde (path : Path) (home : Option Path) : Path :=
  match path.stripPrefix tilde, home with
  | some rest, some home => home.join rest
  | _, _ => path

/-- Where a received blob is written, and how the path is to be interpreted. -/
inductive ResolvedDest
  /-- An existing directory (the blob is placed inside it) or an explicit file path. -/
  | explicit (dest : Path)
  /-- Always a directory, created when missing. -/
  | directory (dir : Path)
deriving DecidableEq

def resolveDest (dest defaultReceiveDir home : Option Path) : Except Error ResolvedDest :=
  match dest with
  | some dest => if dest = [] then .error (.msg "--dest must not be empty") else .ok (.explicit dest)
  | none =>
    .ok (.directory (((defaultReceiveDir.filter (· ≠ [])).map (fun d ↦ expandTilde d home)).getD
      (Path.ofString ".")))

def alreadyExists (expected : Path) : Error :=
  .msg s!"destination '{expected.toStringLossy}' already exists; use --dest to choose a different location or --force-overwrite to replace it"

def rejectExisting (expected : Path) (forceOverwrite : Bool) : Action Path := do
  if (← pathExists expected) && !forceOverwrite then throw (alreadyExists expected)
  else return expected

def blobName (name : Option String) (hashHex : String) : Path := Path.ofString (name.getD hashHex)

def checkDest (dest : Path) (name : Option String) (hashHex : String) (forceOverwrite : Bool) :
    Action Path := do
  if ← isDir dest then rejectExisting (dest.join (blobName name hashHex)) forceOverwrite
  else rejectExisting dest forceOverwrite

def notADirectory (dir : Path) : Error :=
  .msg s!"receive directory '{dir.toStringLossy}' exists but is not a directory"

def checkDirDest (dir : Path) (name : Option String) (hashHex : String) (forceOverwrite : Bool) :
    Action Path := do
  if ← pathExists dir then
    if ← isDir dir then rejectExisting (dir.join (blobName name hashHex)) forceOverwrite
    else throw (notADirectory dir)
  else rejectExisting (dir.join (blobName name hashHex)) forceOverwrite

def checkResolved (resolved : ResolvedDest) (name : Option String) (hashHex : String)
    (forceOverwrite : Bool) : Action Path :=
  match resolved with
  | .explicit dest => checkDest dest name hashHex forceOverwrite
  | .directory dir => checkDirDest dir name hashHex forceOverwrite

/-- The receive directory is created once the destination has passed its checks. -/
def createReceiveDir : ResolvedDest → Action Unit
  | .explicit _ => return ()
  | .directory dir =>
    context s!"creating receive directory '{dir.toStringLossy}'" (fs (.createDirAll dir))

def ticketDest (env : Env) (ticket : ShareTicket) (dest defaultReceiveDir : Option Path)
    (forceOverwrite : Bool) : Action Path := do
  let resolved ← .ofExcept (resolveDest dest defaultReceiveDir env.homeDir)
  let destPath ← checkResolved resolved ticket.name (toString ticket.hash) forceOverwrite
  createReceiveDir resolved
  return destPath

def fetchingLine (ticket : ShareTicket) : String :=
  s!"Fetching {ticket.hash} from {ticket.peerId}" ++ (ticket.name.map (fun n ↦ s!" ({n})")).getD ""

def contains (s sub : String) : Bool := s.toList.tails.any (sub.toList.isPrefixOf ·)

def accessHint (publicId : EndpointId) : String :=
  s!"\n\nYour peer-id: {publicId}\nAsk the file owner to run:\n  rdrop ring add <ring-name> {publicId}"

/-- The download of a request. Its progress goes to a task of its own, which is
waited for before the outcome is reported. -/
def receiveBlob (env : Env) (reqId : Uuid) (ticket : ShareTicket) (destPath : Path) : Action Unit := do
  sendLines reqId [fetchingLine ticket, s!"Destination: {destPath.toStringLossy}",
    "(If interrupted, re-run this command to resume from where it stopped.)"]
  Program.ask (Call.startProgress reqId)
  let result ← (Node.download env ticket destPath (fun e ↦ Program.ask (Call.progress e))).attempt
  Program.ask Call.joinProgress
  match result with
  | .ok _ =>
    send (.line reqId "Transfer complete.")
    send (.done reqId)
  | .error e =>
    let message := s!"Transfer failed: {e.alternate}"
    if contains (toString e) "access denied" then
      let publicId := (← endpointAddr).id
      throw (Error.msg (message ++ accessHint publicId))
    else throw (Error.msg message)

def handleReceive (env : Env) (reqId : Uuid) (ticketStr : String) (dest defaultReceiveDir : Option Path)
    (forceOverwrite : Bool) : Action Unit := do
  let ticket ← .ofExcept (ShareTicket.fromUri env ticketStr)
  let destPath ← ticketDest env ticket dest defaultReceiveDir forceOverwrite
  receiveBlob env reqId ticket destPath

def remoteEntry (env : Env) (reqId : Uuid) (entry : Catalog.CatalogEntry) : Action Unit := do
  let ticketStr ← .ofExcept (entry.ticket.toUri env)
  let kind := kindStr entry.format entry.fileCount
  sendLines reqId
    ["", s!"  {entry.hash}  ({entry.name})", s!"    kind:   {kind}  ({sizeStr env entry.totalSize})",
      s!"    ticket: {ticketStr}"]
  send (.record reqId (.object
    [("hash", .str (toString entry.hash)), ("name", .str entry.name), ("kind", .str kind),
      ("file_count", optNum entry.fileCount), ("size_bytes", optNum (entry.totalSize.map UInt64.toNat)),
      ("ticket", .str ticketStr)]))

def handleRemoteBlobList (env : Env) (reqId : Uuid) (peer : String) : Action Unit := do
  let peerId ← .ofExcept (parsePeerId env peer)
  let entries ← Node.catalogConnect env (.new peerId)
  if entries.isEmpty then send (.line reqId "No accessible blobs on remote node.")
  else
    send (.line reqId s!"{entries.length} blobs:")
    entries.forM (remoteEntry env reqId)
  send (.done reqId)

end Handlers

end Ringdrop
