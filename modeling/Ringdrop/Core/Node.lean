import Ringdrop.Core.Catalog

namespace Ringdrop

open Library

namespace PeerStore

/-- The empty string stands for no nickname. -/
def nicknameOf (stored : String) : Option String := if stored = "" then none else some stored

def upsert (peer : EndpointId) (nickname : Option String) : Action Unit :=
  peers (.insert peer (nickname.getD ""))

/-- A read transaction, and a write transaction when the peer is absent. -/
def ensure (peer : EndpointId) : Action Unit := do
  if (← peers (.get peer)).isSome then return ()
  else upsert peer none

def get (peer : EndpointId) : Action (Option (Option String)) := do
  let stored ← peers (.get peer)
  return stored.map nicknameOf

def list : Action (List (EndpointId × Option String)) := do
  let rows ← peers .list
  return rows.map (fun row ↦ (row.1, nicknameOf row.2))

def remove (peer : EndpointId) : Action Unit := peers (.remove peer)

end PeerStore

namespace Node

structure BlobListEntry where
  hash : Hash
  format : BlobFormat
  name : String
  fileCount : Option ℕ
  totalSize : Option UInt64

/-- Whether `peer` is a member of `ring`; a failed lookup counts as no members. -/
def inRing (peer : EndpointId) (ring : Ring) : Action Bool := do
  match ← (registry (.listRingPeers ring.name)).attempt with
  | .ok members => return members.any (fun m ↦ m.peer = peer)
  | .error _ => return false

def filterAction {α : Type} (keep : α → Action Bool) (xs : List α) : Action (List α) :=
  xs.foldlM (fun kept x ↦ do
    if ← keep x then return kept ++ [x] else return kept) []

def peerRingSet (env : Env) (peer : String) : Action (List String) := do
  let peerId ← .ofExcept (parsePeerId env peer)
  let rings ← registry .listRings
  let mine ← filterAction (inRing peerId) (rings.filter (fun r ↦ !r.isOpen))
  return mine.map Ring.name ++ [openRingName]

def leafName (path : Path) : Option String := path.fileName.map Path.toStringLossy

/-- Replace a temp tag by a named tag. The temp tag is dropped however that ends. -/
def pin (key : Option String) (tag : TempTag) (format : BlobFormat) (what : String) :
    Action (Hash × BlobFormat) := do
  let hash := tag.value.hash
  let pinned ← (context what
    (store (.setTag (Utf8.toBytes (key.getD (toString hash))) ⟨hash, format⟩))).attempt
  dropTempTag tag
  .ofExcept pinned
  return (hash, format)

def importFile (path : Path) : Action (Hash × BlobFormat) := do
  let path ← fs (.absolute path)
  let tag ← context "add_path" (store (.addPath path))
  pin (leafName path) tag .raw "pinning blob tag"

/-- The files of a directory with their names relative to it. What cannot be read is
left out. -/
def collectFiles (dir : Path) (entries : List (Except Error DirEntry)) : List (String × Path) :=
  entries.filterMap fun
    | .ok e =>
      if e.isFile then some (((e.path.stripPrefix dir).getD e.path).toStringLossy, e.path) else none
    | .error _ => none

/-- Add one file. Its temp tag lives until the end of the loop's iteration. -/
def addToCollection (collection : Collection) (file : String × Path) : Action Collection := do
  let path ← fs (.absolute file.2)
  let tag ← store (.addPath path)
  dropTempTag tag
  return collection ++ [(file.1, tag.value.hash)]

/-- `Collection::store`: the metadata blob and then the root that lists it and the
members. -/
def storeCollection (env : Env) (collection : Collection) : Action TempTag := do
  let metaTag ← store (.addBytes (env.collectionMeta (collection.map Prod.fst)) .raw)
  let rootTag ← (store (.addBytes
    (env.collectionRoot (metaTag.value.hash :: collection.map Prod.snd)) .hashSeq)).attempt
  dropTempTag metaTag
  .ofExcept rootTag

def importDirectory (env : Env) (dir : Path) : Action (Hash × BlobFormat) := do
  let entries ← walkDir dir
  let collection ← (collectFiles dir entries).foldlM addToCollection []
  let tag ← storeCollection env collection
  pin (leafName dir) tag .hashSeq "pinning collection tag"

def importPath (env : Env) (path : Path) : Action (Hash × BlobFormat) := do
  if ← isDir path then importDirectory env path
  else importFile path

/-- All tags of the store; the listing may break off with an error. -/
def listTags : Action (List TagInfo) := do
  let items ← store .listTags
  .ofExcept (items.mapM id)

theorem mapM_ok (infos : List TagInfo) :
    (infos.map Except.ok).mapM id = (.ok infos : Except Error (List TagInfo)) := by
  induction infos with
  | nil => rfl
  | cons info infos ih =>
    rw [List.map_cons, List.mapM_cons, ih]
    rfl

theorem mapM_broken (infos : List TagInfo) (e : Error) :
    (infos.map Except.ok ++ [Except.error e]).mapM id = (.error e : Except Error (List TagInfo)) := by
  induction infos with
  | nil => rfl
  | cons info infos ih =>
    rw [List.map_cons, List.cons_append, List.mapM_cons, ih]
    rfl

theorem answers_listTags {s s' : NodeState} {items : List (Except Error TagInfo)} {infos : List TagInfo}
    (h : Answers (.store .listTags) s (.ok items) s') (hitems : items.mapM id = .ok infos) :
    infos = s.store.listTags ∧ s' = s := by
  generalize ha : (Except.ok items : Except Error (List (Except Error TagInfo))) = a at h
  cases h with
  | exec =>
    obtain rfl := Except.ok.inj ha
    rw [mapM_ok] at hitems
    exact ⟨(Except.ok.inj hitems).symm, rfl⟩
  | refused s e hr =>
    obtain rfl := Option.some.inj hr
    cases ha
  | brokenListing s n e =>
    obtain rfl := Except.ok.inj ha
    rw [mapM_broken] at hitems
    cases hitems

/-- The two filters of `list_blobs` for one tag. A failed lookup counts as no rings. -/
def passes (peerRings ringNames : Option (List String)) (info : TagInfo) : Action Bool := do
  let blobRings ← do
    match ← (registry (.listResourceRings info.hash)).attempt with
    | .ok rings => pure rings
    | .error _ => pure []
  return ringNames.all (fun rset ↦ blobRings.any (fun r ↦ rset.contains r.1.name)) &&
    peerRings.all (fun pset ↦ blobRings.any (fun r ↦ pset.contains r.1.name && r.2.contains .read))

def describe (info : TagInfo) : Action BlobListEntry := do
  let (fileCount, totalSize) ← Catalog.fileCountAndSize info.hash info.format
  return ⟨info.hash, info.format, Utf8.fromUtf8Lossy info.name, fileCount, totalSize⟩

/-- `Vec::retain` is only reached when there is a filter. -/
def retained (peerRings ringNames : Option (List String)) (raw : List TagInfo) :
    Action (List TagInfo) :=
  if peerRings.isSome ∨ ringNames.isSome then filterAction (passes peerRings ringNames) raw
  else pure raw

def describeAll (infos : List TagInfo) : Action (List BlobListEntry) :=
  infos.foldlM (fun blobs info ↦ do return blobs ++ [← describe info]) []

def listBlobs (env : Env) (peer : Option String) (rings : Option (List String)) :
    Action (List BlobListEntry) := do
  let raw ← listTags
  let peerRings ← match peer with
    | some s => some <$> peerRingSet env s
    | none => pure none
  describeAll (← retained peerRings rings raw)

def deleteBlob (hash : Hash) : Action Unit := do
  let infos ← listTags
  let toDelete := (infos.filter (fun info ↦ info.hash = hash)).map TagInfo.name
  if toDelete = [] then throw (Error.msg s!"no tag found for hash {hash}")
  else toDelete.forM (fun name ↦ context "removing blob tag" (store (.deleteTag name)))

def makeTicket (hash : Hash) (format : BlobFormat) (name : Option String) : Action ShareTicket := do
  let addr := relayOnlyAddr (← endpointAddr)
  return .fromFormat addr hash format name

def catalogConnect (env : Env) (peerAddr : EndpointAddr) : Action (List Catalog.CatalogEntry) := do
  (net (.connect peerAddr .catalog)).mapError (fun e ↦ Error.msg s!"connecting for catalog: {e}")
  context "opening catalog stream" (net .openBi)
  context "sending catalog command" (net (.writeAll [Catalog.blobList]))
  net .finish
  let stream ← recv
  let (status, stream) ← context "reading catalog status" (.ofExcept (stream.readExact 1))
  if status ≠ [Catalog.allowed] then throw (Error.msg "catalog access denied by remote node")
  else .ofExcept (Catalog.decodeEntries env stream)

/-- Download what a ticket describes and export it. A temp tag protects the blob
until the download is over. -/
def download (env : Env) (ticket : ShareTicket) (dest : Path)
    (onProgress : RingReceiver.OnProgress) : Action Unit := do
  let skip ← if ticket.format = .raw then RingReceiver.isComplete ticket.hash else pure false
  if skip then RingReceiver.export ticket.hash ticket.format ticket.name dest
  else
    context "creating download scope" (store .batch)
    let guard ← context "creating temp tag" (store (.tempTag ⟨ticket.hash, ticket.format⟩))
    let result ← (do
      context "connecting to sender" (net (.connect ticket.addr .rings))
      RingReceiver.download env ticket.hash ticket.format ticket.name dest onProgress).attempt
    dropTempTag guard
    .ofExcept result

end Node

end Ringdrop
