import Ringdrop.Core.Call

namespace Ringdrop

open Library

namespace RecvStream

def readExact (s : RecvStream) (n : ℕ) : Except Error (Bytes × RecvStream) :=
  if n ≤ s.bytes.length then .ok (s.bytes.take n, { s with bytes := s.bytes.drop n })
  else .error (s.broken.getD (.msg "stream finished early"))

def readByte (s : RecvStream) : Except Error (Option (UInt8 × RecvStream)) :=
  match s.bytes, s.broken with
  | b :: rest, _ => .ok (some (b, { s with bytes := rest }))
  | [], none => .ok none
  | [], some e => .error e

theorem readExact_eq_ok {s s' : RecvStream} {n : ℕ} {x : Bytes} :
    s.readExact n = .ok (x, s') ↔ x.length = n ∧ s = ⟨x ++ s'.bytes, s'.broken⟩ := by
  obtain ⟨bytes, broken⟩ := s
  obtain ⟨bytes', broken'⟩ := s'
  unfold readExact
  constructor
  · intro h
    split_ifs at h with hn
    have hpair := Except.ok.inj h
    have hx : bytes.take n = x := congrArg Prod.fst hpair
    have hs : (⟨bytes.drop n, broken⟩ : RecvStream) = ⟨bytes', broken'⟩ := congrArg Prod.snd hpair
    obtain ⟨hbytes, hbroken⟩ := RecvStream.mk.inj hs
    subst hx hbytes hbroken
    exact ⟨List.length_take_of_le hn, by rw [List.take_append_drop]⟩
  · intro h
    obtain ⟨rfl, hs⟩ := h
    obtain ⟨rfl, rfl⟩ := RecvStream.mk.inj hs
    rw [if_pos (by simp), List.take_left, List.drop_left]

end RecvStream

namespace RingReceiver

/-- `matches!(status, Ok(BlobStatus::Complete { .. }))`. -/
def isComplete (hash : Hash) : Action Bool := do
  match ← (store (.status hash)).attempt with
  | .ok (.complete _) => return true
  | _ => return false

abbrev OnProgress := ProgressEvent → Action Unit

def report (onProgress : Option OnProgress) (e : ProgressEvent) : Action Unit :=
  match onProgress with
  | some p => p e
  | none => return ()

/-- Decode and import what follows the size header. An empty blob is not imported. -/
def importBao (hash : Hash) (contentSize : UInt64) (stream : RecvStream)
    (onProgress : Option OnProgress) : Action Unit := do
  if contentSize = 0 then return ()
  else
    context "starting bao import" (store (.importBao hash contentSize))
    let result ← decode hash contentSize stream
    result.leaves.forM (fun leaf ↦
      report onProgress (.bytes (leaf.1 + UInt64.ofNat leaf.2) contentSize))
    context "bao decode" (.ofExcept result.decoded)
    context "bao import" (.ofExcept result.imported)

/-- Fetch a single raw blob, unless it is complete. Whatever part of it is in the
store, all of it is asked for. -/
def fetchBlob (env : Env) (hash : Hash) (onProgress : Option OnProgress) : Action Unit := do
  if ← isComplete hash then return ()
  else
    let alreadyHave := []
    net .openBi
    net (.sendRequest hash .read)
    net (.sendRanges alreadyHave)
    net .finish
    let stream ← recv
    let (statusByte, stream) ← context "reading status" (.ofExcept (stream.readExact 1))
    match env.parseStatus (statusByte.headD 0) with
    | .error e => throw (Error.msg e)
    | .ok .denied => throw (Error.msg "access denied — not in a ring for this blob")
    | .ok .other => throw (Error.msg "unexpected status byte from sender")
    | .ok .allowed =>
      let (sizeBuf, stream) ← context "reading bao size header" (.ofExcept (stream.readExact 8))
      let contentSize := UInt64.ofNat (ofLeBytes sizeBuf)
      report onProgress (.bytes 0 contentSize)
      importBao hash contentSize stream onProgress

def createParent (target : Path) : Action Unit :=
  match target.parent with
  | some parent => fs (.createDirAll parent)
  | none => return ()

def exportMember (exportPath : Path) (member : String × Hash) : Action Unit := do
  let target := exportPath.join (Path.ofString member.1)
  createParent target
  context s!"exporting {member.1}" (store (.exportBlob member.2 target))

/-- Where a blob is exported to: inside `dest` when that is a directory. -/
def exportPath (hash : Hash) (name : Option String) (dest : Path) : Action Path := do
  if ← isDir dest then fs (.absolute (dest.join (Path.ofString (name.getD (toString hash)))))
  else fs (.absolute dest)

def «export» (hash : Hash) (format : BlobFormat) (name : Option String) (dest : Path) :
    Action Unit := do
  let path ← exportPath hash name dest
  match format with
  | .hashSeq =>
    fs (.createDirAll path)
    let collection ← context "loading collection" (store (.loadCollection hash))
    collection.forM (exportMember path)
  | .raw => context "exporting blob" (store (.exportBlob hash path))

def parseHashSeq (content : Content) : Except Error (List Hash) :=
  match content.links with
  | some links => .ok links
  | none => .error ((Error.msg "invalid hash sequence").context "parsing HashSeq")

def fetchMember (env : Env) (onProgress : OnProgress) (fileTotal : ℕ) (member : (String × Hash) × ℕ) :
    Action Unit := do
  onProgress (.fileStart (member.2 + 1) fileTotal member.1.1)
  fetchBlob env member.1.2 (some onProgress)

/-- Fetch what a collection is made of: the metadata first, then each member. -/
def fetchCollection (env : Env) (onProgress : OnProgress) (hash : Hash) : Action Unit := do
  let root ← context "reading root HashSeq" (store (.getBytes hash))
  let links ← .ofExcept (parseHashSeq root)
  links.head?.forM (fun metaHash ↦ fetchBlob env metaHash none)
  let collection ← context "loading collection" (store (.loadCollection hash))
  collection.zipIdx.forM (fetchMember env onProgress collection.length)

def download (env : Env) (hash : Hash) (format : BlobFormat) (name : Option String) (dest : Path)
    (onProgress : OnProgress) : Action Unit := do
  let rootComplete ← isComplete hash
  if !rootComplete then
    fetchBlob env hash (if format = .raw then some onProgress else none)
  if format = .hashSeq then
    fetchCollection env onProgress hash
  «export» hash format name dest

end RingReceiver

end Ringdrop
