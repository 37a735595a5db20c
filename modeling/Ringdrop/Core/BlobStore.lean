import Ringdrop.Core.Basic

namespace Ringdrop

open Std

/-- A protection that lasts until it is dropped and is not stored on disk. -/
structure TempTag where
  id : ℕ
  value : HashAndFormat
deriving DecidableEq

structure TagInfo where
  name : Bytes
  hash : Hash
  format : BlobFormat
deriving DecidableEq

inductive BlobStatus
  | notFound
  | incomplete
  | complete (size : UInt64)
deriving DecidableEq

/-- The blob store: named tags, live temp tags, the complete blobs, and the verified
chunks of the incomplete ones. -/
structure BlobStore where
  tags : ExtTreeMap Bytes HashAndFormat
  tempTags : ExtTreeMap ℕ HashAndFormat
  nextTempTag : ℕ
  blobs : ExtTreeMap Hash Content
  chunks : ExtTreeMap Hash (List ℕ)

namespace BlobStore

def empty : BlobStore := ⟨∅, ∅, 0, ∅, ∅⟩

def setTag (s : BlobStore) (key : Bytes) (value : HashAndFormat) : BlobStore :=
  { s with tags := s.tags.insert key value }

def deleteTag (s : BlobStore) (key : Bytes) : BlobStore :=
  { s with tags := s.tags.erase key }

def listTags (s : BlobStore) : List TagInfo :=
  s.tags.toList.map (fun t ↦ ⟨t.1, t.2.hash, t.2.format⟩)

def addTempTag (s : BlobStore) (value : HashAndFormat) : TempTag × BlobStore :=
  (⟨s.nextTempTag, value⟩,
    { s with
      tempTags := s.tempTags.insert s.nextTempTag value
      nextTempTag := s.nextTempTag + 1 })

def dropTempTag (s : BlobStore) (id : ℕ) : BlobStore :=
  { s with tempTags := s.tempTags.erase id }

def addBlob (s : BlobStore) (c : Content) : BlobStore :=
  { s with blobs := s.blobs.insert c.hash c, chunks := s.chunks.erase c.hash }

def addContent (s : BlobStore) (c : Content) (format : BlobFormat) : TempTag × BlobStore :=
  (s.addBlob c).addTempTag ⟨c.hash, format⟩

def status (s : BlobStore) (h : Hash) : BlobStatus :=
  match s.blobs[h]? with
  | some c => .complete c.size
  | none => if h ∈ s.chunks then .incomplete else .notFound

def getLinks (s : BlobStore) (h : Hash) : Except Error (List Hash) :=
  match s.blobs[h]? with
  | none => .error (.msg "blob not complete")
  | some c =>
    match c.links with
    | none => .error (.msg "invalid hash sequence")
    | some links => .ok links

/-- `Collection::load`: the root lists the metadata blob and then the members. -/
def loadCollection (s : BlobStore) (root : Hash) : Except Error Collection := do
  match ← s.getLinks root with
  | [] => .error (.msg "empty hash sequence")
  | metaHash :: members =>
    match (s.blobs[metaHash]?).bind Content.names with
    | none => .error (.msg "invalid collection metadata")
    | some names =>
      if names.length = members.length then .ok (names.zip members)
      else .error (.msg "names and links do not match")

/-- What a tag protects: its blob and, for a hash sequence, the blobs it lists. -/
def tagReaches (s : BlobStore) (t : HashAndFormat) (h : Hash) : Bool :=
  t.hash == h ||
    (t.format == .hashSeq && (((s.blobs[t.hash]?).bind Content.links).getD []).contains h)

def reachable (s : BlobStore) (h : Hash) : Bool :=
  s.tags.toList.any (fun t ↦ s.tagReaches t.2 h) ||
    s.tempTags.toList.any (fun t ↦ s.tagReaches t.2 h)

/-- A garbage collection deletes what no named tag and no live temp tag reaches. -/
def gc (s : BlobStore) : BlobStore :=
  { s with
    blobs := s.blobs.filter (fun h _ ↦ s.reachable h)
    chunks := s.chunks.filter (fun h _ ↦ s.reachable h) }

theorem mem_listTags {s : BlobStore} {t : TagInfo} :
    t ∈ s.listTags ↔ s.tags[t.name]? = some ⟨t.hash, t.format⟩ := by
  obtain ⟨name, hash, format⟩ := t
  simp only [listTags, List.mem_map, Prod.exists, TagInfo.mk.injEq]
  constructor
  · rintro ⟨k, v, hm, rfl, rfl, rfl⟩
    exact ExtTreeMap.mem_toList_iff_getElem?_eq_some.mp hm
  · intro h
    exact ⟨name, _, ExtTreeMap.mem_toList_iff_getElem?_eq_some.mpr h, rfl, rfl, rfl⟩

theorem nodup_tagNames (s : BlobStore) (hash : Hash) :
    ((s.listTags.filter (fun info ↦ info.hash = hash)).map TagInfo.name).Nodup := by
  have hkeys : (s.listTags.map TagInfo.name).Nodup := by
    have hnames : s.listTags.map TagInfo.name = s.tags.keys := by
      simp [listTags, ExtTreeMap.map_fst_toList_eq_keys, Function.comp_def]
    rw [hnames]
    exact ExtTreeMap.nodup_keys
  exact hkeys.sublist (List.filter_sublist.map _)

theorem mem_tagNames {s : BlobStore} {hash : Hash} {name : Bytes} :
    name ∈ (s.listTags.filter (fun info ↦ info.hash = hash)).map TagInfo.name ↔
      ∃ value, s.tags[name]? = some value ∧ value.hash = hash := by
  rw [List.mem_map]
  constructor
  · intro ⟨info, hinfo, hname⟩
    obtain ⟨hlisted, hhash⟩ := List.mem_filter.mp hinfo
    subst hname
    exact ⟨⟨info.hash, info.format⟩, mem_listTags.mp hlisted, by simpa using hhash⟩
  · intro ⟨value, hvalue, hhash⟩
    refine ⟨⟨name, value.hash, value.format⟩, List.mem_filter.mpr ⟨mem_listTags.mpr hvalue, ?_⟩, rfl⟩
    simpa using hhash

theorem getElem?_setTag (s : BlobStore) (key key' : Bytes) (value : HashAndFormat) :
    (s.setTag key value).tags[key']? = if key = key' then some value else s.tags[key']? := by
  simp [setTag, ExtTreeMap.getElem?_insert]

theorem getElem?_deleteTag (s : BlobStore) (key key' : Bytes) :
    (s.deleteTag key).tags[key']? = if key = key' then none else s.tags[key']? := by
  simp [deleteTag, ExtTreeMap.getElem?_erase]

theorem getElem?_addTempTag (s : BlobStore) (value : HashAndFormat) (id : ℕ) :
    (s.addTempTag value).2.tempTags[id]? = if s.nextTempTag = id then some value else s.tempTags[id]? := by
  simp [addTempTag, ExtTreeMap.getElem?_insert]

theorem getElem?_dropTempTag (s : BlobStore) (id id' : ℕ) :
    (s.dropTempTag id).tempTags[id']? = if id = id' then none else s.tempTags[id']? := by
  simp [dropTempTag, ExtTreeMap.getElem?_erase]

theorem getElem?_addContent (s : BlobStore) (c : Content) (format : BlobFormat) (h : Hash) :
    (s.addContent c format).2.blobs[h]? = if c.hash = h then some c else s.blobs[h]? := by
  simp [addContent, addTempTag, addBlob, ExtTreeMap.getElem?_insert]

theorem mem_addBlob {s : BlobStore} {c : Content} {h : Hash} :
    h ∈ (s.addBlob c).blobs ↔ c.hash = h ∨ h ∈ s.blobs := by
  simp [addBlob, ExtTreeMap.mem_insert]

theorem mem_addContent {s : BlobStore} {c : Content} {format : BlobFormat} {h : Hash} :
    h ∈ (s.addContent c format).2.blobs ↔ c.hash = h ∨ h ∈ s.blobs := mem_addBlob

theorem reachable_of_tag {s : BlobStore} {key : Bytes} {t : HashAndFormat} {h : Hash}
    (ht : s.tags[key]? = some t) (hr : s.tagReaches t h) : s.reachable h := by
  have hm := ExtTreeMap.mem_toList_iff_getElem?_eq_some.mpr ht
  have hany : s.tags.toList.any (fun t ↦ s.tagReaches t.2 h) = true :=
    List.any_eq_true.mpr ⟨(key, t), hm, hr⟩
  simp [reachable, hany]

theorem reachable_of_tempTag {s : BlobStore} {id : ℕ} {t : HashAndFormat} {h : Hash}
    (ht : s.tempTags[id]? = some t) (hr : s.tagReaches t h) : s.reachable h := by
  have hm := ExtTreeMap.mem_toList_iff_getElem?_eq_some.mpr ht
  have hany : s.tempTags.toList.any (fun t ↦ s.tagReaches t.2 h) = true :=
    List.any_eq_true.mpr ⟨(id, t), hm, hr⟩
  simp [reachable, hany]

theorem getElem?_blobs_gc {s : BlobStore} {h : Hash} (hr : s.reachable h) :
    s.gc.blobs[h]? = s.blobs[h]? := by
  simp only [gc, ExtTreeMap.getElem?_filter', hr]
  cases s.blobs[h]? <;> rfl

theorem mem_gc {s : BlobStore} {h : Hash} (hr : s.reachable h) : h ∈ s.gc.blobs ↔ h ∈ s.blobs := by
  rw [ExtTreeMap.mem_iff_isSome_getElem?, ExtTreeMap.mem_iff_isSome_getElem?, getElem?_blobs_gc hr]

end BlobStore

end Ringdrop
