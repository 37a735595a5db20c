import Ringdrop.Core.ExportConfinement
import Ringdrop.Core.DirectoryImport
import Ringdrop.Core.FileTree
import Ringdrop.Library.LossyText

namespace Ringdrop.Node

open Std Library Program RingReceiver

def memberName (rel : List Bytes) : String := (Path.below [] rel).toStringLossy

def listed (files : List (List Bytes × Content)) : Collection :=
  files.map fun f ↦ (memberName f.1, f.2.hash)

def metaOf (env : Env) (files : List (List Bytes × Content)) : Content :=
  env.collectionMeta ((listed files).map Prod.fst)

def rootOf (env : Env) (files : List (List Bytes × Content)) : Content :=
  env.collectionRoot ((metaOf env files).hash :: (listed files).map Prod.snd)

inductive PartOf (env : Env) (files : List (List Bytes × Content)) : Content → Prop
  | root : PartOf env files (rootOf env files)
  | «meta» : PartOf env files (metaOf env files)
  | file {f : List Bytes × Content} : f ∈ files → PartOf env files f.2

/-- No two different blobs of the import have the same hash. -/
def HashesApart (env : Env) (files : List (List Bytes × Content)) : Prop :=
  ∀ c d, PartOf env files c → PartOf env files d → c.hash = d.hash → c = d

theorem partOf_iff {env : Env} {files : List (List Bytes × Content)} {c : Content} :
    PartOf env files c ↔ c ∈ rootOf env files :: metaOf env files :: files.map Prod.snd := by
  rw [List.mem_cons, List.mem_cons, List.mem_map]
  constructor
  · rintro (_ | _ | hf)
    · exact .inl rfl
    · exact .inr (.inl rfl)
    · exact .inr (.inr ⟨_, hf, rfl⟩)
  · rintro (rfl | rfl | ⟨f, hf, rfl⟩)
    · exact .root
    · exact .meta
    · exact .file hf

instance (env : Env) (files : List (List Bytes × Content)) : Decidable (HashesApart env files) :=
  decidable_of_iff (∀ c ∈ rootOf env files :: metaOf env files :: files.map Prod.snd,
      ∀ d ∈ rootOf env files :: metaOf env files :: files.map Prod.snd, c.hash = d.hash → c = d)
    ⟨fun h c d hc hd ↦ h c (partOf_iff.mp hc) d (partOf_iff.mp hd),
      fun h c hc d hd ↦ h c d (partOf_iff.mpr hc) (partOf_iff.mpr hd)⟩

def Holds (store : BlobStore) (c : Content) : Prop := store.blobs[c.hash]? = some c

section Import

variable {env : Env} {files : List (List Bytes × Content)}

theorem Holds.addContent {store : BlobStore} {c d : Content} (format : BlobFormat)
    (h : Holds store c) (hapart : d.hash = c.hash → d = c) : Holds (store.addContent d format).2 c := by
  rw [Holds, BlobStore.getElem?_addContent]
  split
  · rename_i heq
    rw [hapart heq]
  · exact h

theorem holds_addContent (store : BlobStore) (c : Content) (format : BlobFormat) :
    Holds (store.addContent c format).2 c := by
  rw [Holds, BlobStore.getElem?_addContent, if_pos rfl]

theorem collectFiles_walkDir {fs : FileSystem} {dir : Path} (htree : fs.IsTree) (hdir : dir ≠ []) :
    collectFiles dir (fs.walkDir dir) =
      (fs.visibleFiles dir).map fun f ↦ (memberName f.1, dir.below f.1) := by
  unfold collectFiles FileSystem.walkDir FileSystem.visibleFiles
  cases fs.place dir with
  | none => rfl
  | some base =>
    dsimp only
    rw [List.filterMap_filterMap, List.map_filterMap]
    refine List.filterMap_congr fun x hx ↦ ?_
    obtain ⟨cs, node⟩ := x
    have hnode := ExtTreeMap.mem_toList_iff_getElem?_eq_some.mp hx
    by_cases hcond : base.isPrefixOf cs && fs.visible base cs
    · obtain ⟨rel, rfl⟩ := List.isPrefixOf_iff_prefix.mp (Bool.and_eq_true_iff.mp hcond).1
      have hnames : ∀ c ∈ rel, Path.IsName c :=
        fun c hc ↦ htree.names _ _ hnode c (List.mem_append_right _ hc)
      have hstrip : Path.stripPrefix (rel.foldl Path.join dir) dir = some (Path.below [] rel) :=
        Path.stripPrefix_below hdir hnames
      cases node with
      | dir r => cases r <;> simp [hcond]
      | file c r =>
        simp only [hcond, if_true, List.drop_left, Option.bind_some, hstrip, Option.getD_some, Option.map_some]
        rfl
      | link target => simp [hcond]
      | other => simp [hcond]
    · cases node with
      | dir r => simp [hcond]
      | file c r => simp [hcond]
      | link target => simp [hcond]
      | other => simp [hcond]

theorem find_absolute {fs : FileSystem} {dir path : Path} {rel : List Bytes} {content : Content}
    (htree : fs.IsTree) (hf : fs.FileAt dir rel content) (hreached : fs.Reached dir rel) (hne : rel ≠ [])
    (hpath : (dir.below rel).absolute fs.cwd = .ok path) : ∃ r, fs.find path = some (.file content r) := by
  have hnames := hf.names htree
  obtain ⟨base, hplace, r, hnode⟩ := hf
  have hcs : (dir.below rel).components = dir.components ++ rel := Path.components_below hnames
  obtain ⟨habs, hcomponents, hsteps⟩ := Path.components_absolute htree.cwd hpath
  have hpath' : path ≠ [] := by
    rintro rfl
    cases habs
  have hbase : fs.walk (fs.origin fs.cwd dir) dir.components = some base := by
    unfold FileSystem.place at hplace
    rw [if_neg (FileSystem.ne_nil_of_place hplace)] at hplace
    exact FileSystem.walk_components hplace
  have hvisible : fs.visible base (base ++ rel) := by
    rwa [FileSystem.Reached, hplace, Option.any_some] at hreached
  have hopens : ∀ anc, anc <+: rel → anc ≠ rel → fs.opensAt (base ++ anc) := fun anc hanc hneq ↦
    FileSystem.opensAt_of_visible hvisible hanc hneq
      (htree.parents _ _ hnode _ ((List.prefix_append_right_inj _).mpr hanc) (by simpa using hneq))
  have hwalk : fs.walk base rel = some (base ++ rel) := by
    refine FileSystem.walk_names ?_ hnames (fun anc hanc _ ↦ hopens anc hanc) fun _ ↦ ⟨_, hnode, by simp⟩
    simpa using hopens [] List.nil_prefix (Ne.symm hne)
  have hfind : fs.place path = some (base ++ rel) := by
    rw [FileSystem.place, if_neg hpath', hsteps (by simp [hcs, hne]) (Path.getLast?_below hne hnames), hcomponents,
      Path.isAbsolute_below hnames, hcs, FileSystem.origin, if_pos habs, FileSystem.walk_origin htree,
      FileSystem.walk_append, hbase, Option.bind_some, hwalk]
  refine ⟨r, ?_⟩
  rw [FileSystem.find, hfind, Option.bind_some, FileSystem.nodeAt_of_ne (by simp [hne]), hnode]

structure Adding (fs : FileSystem) (done : List (List Bytes × Content)) (s : NodeState) : Prop where
  fs_eq : s.fs = fs
  held : ∀ f ∈ done, Holds s.store f.2

theorem wp_addToCollection_file {fs : FileSystem} {dir : Path} {done : List (List Bytes × Content)}
    {f : List Bytes × Content} {s : NodeState} (htree : fs.IsTree) (hf : fs.FileAt dir f.1 f.2)
    (hreached : fs.Reached dir f.1) (hne : f.1 ≠ []) (hapart : ∀ g ∈ done, f.2.hash = g.2.hash → f.2 = g.2) (hs : Adding fs done s) :
    (addToCollection (listed done) (memberName f.1, dir.below f.1)).wp Answers
      (fun collection s' ↦ collection = listed (done ++ [f]) ∧ Adding fs (done ++ [f]) s')
      (fun _ _ ↦ True) s := by
  obtain ⟨rfl, hheld⟩ := hs
  unfold addToCollection
  rw [wp_bind, wp_fs]
  intro a s₁ h₁
  cases a with
  | error e => trivial
  | ok path =>
    obtain ⟨hpath, rfl⟩ : (dir.below f.1).absolute s.fs.cwd = .ok path ∧ s₁ = s := by
      rcases answers_fs h₁ with ⟨ha, hs₁⟩ | ⟨⟨e, he⟩, -⟩
      · exact ⟨ha.symm, hs₁⟩
      · cases he
    obtain ⟨r, hfind⟩ := find_absolute htree hf hreached hne hpath
    rw [outcome_ok, wp_bind, wp_store]
    intro b s₂ h₂
    cases b with
    | error e => trivial
    | ok tag =>
      obtain ⟨htag, hs₂⟩ : tag.value.hash = f.2.hash ∧
          s₂ = { s₁ with store := (s₁.store.addContent f.2 .raw).2 } := by
        rcases answers_store (by simp) h₂ with ⟨ha, hs₂⟩ | ⟨⟨e, he⟩, -⟩
        · simp only [StoreCall.exec, FileSystem.read, hfind] at ha hs₂
          cases r with
          | false => cases ha
          | true =>
            obtain rfl := Except.ok.inj ha
            exact ⟨rfl, hs₂⟩
        · cases he
      rw [outcome_ok, wp_bind, wp_dropTempTag]
      intro _ s₃ h₃
      obtain rfl := answers_dropTempTag h₃
      subst hs₂
      refine ⟨by rw [htag]; simp [listed], rfl, fun g hg ↦ ?_⟩
      rcases List.mem_append.mp hg with hg | hg
      · exact (hheld g hg).addContent .raw (hapart g hg)
      · obtain rfl := List.mem_singleton.mp hg
        exact holds_addContent _ _ .raw

theorem wp_storeCollection_listed {s : NodeState} (hapart : HashesApart env files)
    (hheld : ∀ f ∈ files, Holds s.store f.2) :
    (storeCollection env (listed files)).wp Answers
      (fun tag s' ↦ tag.value.hash = (rootOf env files).hash ∧ ∀ c, PartOf env files c → Holds s'.store c)
      (fun _ _ ↦ True) s := by
  unfold storeCollection
  rw [wp_bind, wp_store]
  intro a s₁ h₁
  cases a with
  | error e => trivial
  | ok metaTag =>
    obtain ⟨hmeta, rfl⟩ : metaTag.value.hash = (metaOf env files).hash ∧
        s₁ = { s with store := (s.store.addContent (metaOf env files) .raw).2 } := by
      rcases answers_store (by simp) h₁ with ⟨ha, hs₁⟩ | ⟨⟨e, he⟩, -⟩
      · obtain rfl := Except.ok.inj ha
        exact ⟨rfl, hs₁⟩
      · cases he
    rw [outcome_ok, wp_bind, wp_attempt, wp_store]
    intro b s₂ h₂
    cases b with
    | error e =>
      rw [outcome_error, wp_bind, wp_dropTempTag]
      intro _ _ _
      trivial
    | ok rootTag =>
      obtain ⟨hroot, hs₂⟩ : rootTag.value.hash = (rootOf env files).hash ∧ s₂.store =
          ((s.store.addContent (metaOf env files) .raw).2.addContent (rootOf env files) .hashSeq).2 := by
        rw [hmeta] at h₂
        rcases answers_store (by simp) h₂ with ⟨ha, hs₂⟩ | ⟨⟨e, he⟩, -⟩
        · obtain rfl := Except.ok.inj ha
          exact ⟨rfl, by rw [hs₂]; rfl⟩
        · cases he
      rw [outcome_ok, wp_bind, wp_dropTempTag]
      intro _ s₃ h₃
      obtain rfl := answers_dropTempTag h₃
      refine ⟨hroot, fun c hc ↦ ?_⟩
      change Holds s₂.store c
      rw [hs₂]
      cases hc with
      | root => exact holds_addContent _ _ _
      | «meta» => exact (holds_addContent _ _ _).addContent .hashSeq (hapart _ _ .root .meta)
      | file hf =>
        exact ((hheld _ hf).addContent .raw (hapart _ _ .meta (.file hf))).addContent .hashSeq
          (hapart _ _ .root (.file hf))

theorem wp_pin_held {key : Option String} {tag : TempTag} {format : BlobFormat} {what : String}
    {s : NodeState} (hheld : ∀ c, PartOf env files c → Holds s.store c) :
    (pin key tag format what).wp Answers
      (fun r s' ↦ r = (tag.value.hash, format) ∧ ∀ c, PartOf env files c → Holds s'.store c)
      (fun _ _ ↦ True) s := by
  unfold pin
  rw [wp_bind, wp_attempt, wp_context, wp_store]
  intro a s₁ h₁
  have hheld₁ : ∀ c, PartOf env files c → Holds s₁.store c := by
    rcases answers_store (by simp) h₁ with ⟨-, rfl⟩ | ⟨-, rfl⟩
    · exact hheld
    · exact hheld
  cases a with
  | error e =>
    rw [outcome_error, wp_bind, wp_dropTempTag]
    intro _ _ _
    trivial
  | ok u =>
    rw [outcome_ok, wp_bind, wp_dropTempTag]
    intro _ s₂ h₂
    obtain rfl := answers_dropTempTag h₂
    exact ⟨rfl, hheld₁⟩

theorem importDirectory_ok {dir : Path} {s s' : NodeState} {root : Hash} {format : BlobFormat}
    (htree : s.fs.IsTree) (hdir : s.fs.isDir dir) (hapart : HashesApart env (s.fs.visibleFiles dir))
    (h : Runs Answers (importDirectory env dir) s (.ok (root, format)) s') :
    root = (rootOf env (s.fs.visibleFiles dir)).hash ∧ format = .hashSeq ∧
      ∀ c, PartOf env (s.fs.visibleFiles dir) c → Holds s'.store c := by
  have hw : (importDirectory env dir).wp Answers (fun r s' ↦
      r = ((rootOf env (s.fs.visibleFiles dir)).hash, .hashSeq) ∧
        ∀ c, PartOf env (s.fs.visibleFiles dir) c → Holds s'.store c) (fun _ _ ↦ True) s := by
    unfold importDirectory
    rw [wp_bind, wp_walkDir]
    intro entries s₁ h₁
    obtain ⟨rfl, rfl⟩ := answers_walkDir h₁
    rw [collectFiles_walkDir htree (FileSystem.ne_nil_of_isDir hdir), wp_bind]
    refine wp_foldlM (I := fun rest collection x ↦ ∃ done files, done ++ files = s₁.fs.visibleFiles dir ∧
        rest = files.map (fun f ↦ (memberName f.1, dir.below f.1)) ∧ collection = listed done ∧
        Adding s₁.fs done x) ?_ ?_ ⟨[], _, rfl, rfl, rfl, rfl, by simp⟩
    · rintro file rest collection x ⟨done, files, hsplit, hrest, rfl, hx⟩
      cases files with
      | nil => cases hrest
      | cons f files =>
        obtain ⟨rfl, rfl⟩ := List.cons.inj hrest
        have hmem : ∀ g ∈ done ++ f :: files, g ∈ s₁.fs.visibleFiles dir := fun g hg ↦ hsplit ▸ hg
        obtain ⟨hf, hreached⟩ := FileSystem.mem_visibleFiles.mp (hmem f (by simp))
        refine wp_mono (wp_addToCollection_file htree hf hreached (hf.ne_nil htree hdir)
          (fun g hg ↦ hapart _ _ (.file (hmem f (by simp))) (.file (hmem g (by simp [hg])))) hx)
          ?_ (fun _ _ h ↦ h)
        rintro collection y ⟨rfl, hy⟩
        exact ⟨done ++ [f], files, by simpa using hsplit, rfl, rfl, hy⟩
    · rintro collection x ⟨done, files, hsplit, hrest, rfl, hx⟩
      obtain rfl := List.map_eq_nil_iff.mp hrest.symm
      rw [List.append_nil] at hsplit
      subst hsplit
      rw [wp_bind]
      refine wp_mono (wp_storeCollection_listed hapart hx.held) ?_ (fun _ _ h ↦ h)
      rintro tag y ⟨htag, hheld⟩
      rw [← htag]
      exact wp_pin_held hheld
  obtain ⟨hr, hheld⟩ := h.ok_of_wp hw
  obtain ⟨rfl, rfl⟩ := Prod.mk.inj hr
  exact ⟨rfl, rfl, hheld⟩

theorem tagReaches_of_partOf {store : BlobStore} {c : Content} (hroot : Holds store (rootOf env files))
    (hc : PartOf env files c) : store.tagReaches ⟨(rootOf env files).hash, .hashSeq⟩ c.hash := by
  have hlinks : (rootOf env files).links = _ := env.collectionRoot_links _
  cases hc with
  | root => simp [BlobStore.tagReaches]
  | «meta» => simp [BlobStore.tagReaches, show store.blobs[_]? = _ from hroot, hlinks]
  | file hf =>
    have hlisted : ∀ f ∈ files, f.2.hash ∈ (listed files).map Prod.snd := fun f hf ↦
      List.mem_map.mpr ⟨_, List.mem_map_of_mem hf, rfl⟩
    simp [BlobStore.tagReaches, show store.blobs[_]? = _ from hroot, hlinks, hlisted _ hf]

theorem loadCollection_listed {store : BlobStore} (h : ∀ c, PartOf env files c → Holds store c) :
    store.loadCollection (rootOf env files).hash = .ok (listed files) := by
  have hlinks : store.getLinks (rootOf env files).hash =
      .ok ((metaOf env files).hash :: (listed files).map Prod.snd) := by
    have hroot : store.blobs[(rootOf env files).hash]? = some (rootOf env files) := h _ .root
    unfold BlobStore.getLinks
    rw [hroot]
    dsimp only
    rw [show (rootOf env files).links = _ from env.collectionRoot_links _]
  have hmeta : store.blobs[(metaOf env files).hash]? = some (metaOf env files) := h _ .meta
  have hnames : (metaOf env files).names = some ((listed files).map Prod.fst) := env.collectionMeta_names _
  have hlength : ((listed files).map Prod.fst).length = ((listed files).map Prod.snd).length := by simp
  unfold BlobStore.loadCollection
  simp only [hlinks, bind, Except.bind, hmeta, Option.bind, hnames, hlength, if_true]
  rw [← List.unzip_fst, ← List.unzip_snd, List.zip_unzip]

end Import

section Export

variable {files done : List (List Bytes × Content)} {f : List Bytes × Content} {base : List Bytes}
  {cwd out : Path} {fs fs' : FileSystem}

structure Laid (files : List (List Bytes × Content)) : Prop where
  ne_nil : ∀ f ∈ files, f.1 ≠ []
  names : ∀ f ∈ files, ∀ c ∈ f.1, Path.IsName c
  apart : ∀ f ∈ files, ∀ g ∈ files, f.1 <+: g.1 → f = g

theorem laid_visibleFiles {dir : Path} (htree : fs.IsTree) (hdir : fs.isDir dir) :
    Laid (fs.visibleFiles dir) := by
  have hfile : ∀ f ∈ fs.visibleFiles dir, fs.FileAt dir f.1 f.2 :=
    fun f hf ↦ (FileSystem.mem_visibleFiles.mp hf).1
  exact ⟨fun f hf ↦ (hfile f hf).ne_nil htree hdir, fun f hf ↦ (hfile f hf).names htree,
    fun f hf g hg ↦ (hfile f hf).eq_of_below (hfile g hg) htree⟩

/-- The directory that `out` leads to holds the files written so far, and directories
above some of `files`. -/
structure Copied (files done : List (List Bytes × Content)) (out : Path) (base : List Bytes) (fs : FileSystem) :
    Prop where
  reached : fs.walk [] out.components = some base
  opens : fs.opensAt base
  subset : ∀ f ∈ done, f ∈ files
  written : ∀ f ∈ done, ∃ r, fs.nodes[base ++ f.1]? = some (.file f.2 r)
  others : ∀ (rel : List Bytes) (node : FsNode), fs.nodes[base ++ rel]? = some node →
    (∃ f ∈ done, f.1 = rel) ∨ node = .dir true ∧ (rel = [] ∨ ∃ f ∈ files, rel <+: f.1.dropLast)

theorem Copied.dirs (h : Copied files done out base fs) (hf : f ∈ files) (hmakes : fs.Makes fs')
    (hnodes : ∀ loc : List Bytes, fs'.nodes[loc]? = fs.nodes[loc]? ∨ ∃ anc, anc <+: f.1.dropLast ∧ loc = base ++ anc) :
    Copied files done out base fs' := by
  refine ⟨hmakes.grows.walk h.reached, hmakes.grows.opens _ h.opens, h.subset, fun g hg ↦ ?_, fun rel node hnode ↦ ?_⟩
  · obtain ⟨r, hr⟩ := h.written g hg
    rcases hmakes.nodes (base ++ g.1) with heq | ⟨hnone, -⟩
    · exact ⟨r, heq.trans hr⟩
    · rw [hr] at hnone
      cases hnone
  · rcases hmakes.nodes (base ++ rel) with heq | ⟨hnone, hdir⟩
    · exact h.others rel node (heq ▸ hnode)
    · obtain rfl := Option.some.inj (hdir.symm.trans hnode)
      rcases hnodes (base ++ rel) with heq | ⟨anc, hanc, heq⟩
      · rw [heq, hnone] at hnode
        cases hnode
      · rw [List.append_cancel_left heq]
        exact .inr ⟨rfl, .inr ⟨f, hf, hanc⟩⟩

theorem Copied.file (h : Copied files done out base fs) (hlaid : Laid files) (hf : f ∈ files)
    (hgrows : fs.Grows { fs with nodes := fs.nodes.insert (base ++ f.1) (.file f.2 true) }) :
    Copied files (done ++ [f]) out base { fs with nodes := fs.nodes.insert (base ++ f.1) (.file f.2 true) } := by
  have hnode : ∀ x : List Bytes, (fs.nodes.insert (base ++ f.1) (.file f.2 true))[x]? =
      if x = base ++ f.1 then some (.file f.2 true) else fs.nodes[x]? :=
    fun x ↦ FileSystem.getElem?_insert_node ..
  have hsubset : ∀ g ∈ done ++ [f], g ∈ files := by
    intro g hg
    rcases List.mem_append.mp hg with hg | hg
    · exact h.subset g hg
    · rwa [List.mem_singleton.mp hg]
  refine ⟨hgrows.walk h.reached, hgrows.opens _ h.opens, hsubset, fun g hg ↦ ?_, fun rel node hrel ↦ ?_⟩
  · rw [hnode]
    split
    · rename_i heq
      have hfg : f = g := by
        apply hlaid.apart f hf g (hsubset g hg)
        rw [List.append_cancel_left heq]
      exact ⟨true, by rw [hfg]⟩
    · rename_i hneq
      rcases List.mem_append.mp hg with hg | hg
      · exact h.written g hg
      · exact absurd (by rw [List.mem_singleton.mp hg]) hneq
  · rw [hnode] at hrel
    split at hrel
    · rename_i heq
      exact .inl ⟨f, by simp, (List.append_cancel_left heq).symm⟩
    · rcases h.others rel node hrel with ⟨g, hg, hgrel⟩ | hdir
      · exact .inl ⟨g, List.mem_append_left _ hg, hgrel⟩
      · exact .inr hdir

theorem not_prefix_dropLast {rel : List Bytes} (h : rel ≠ []) : ¬ rel <+: rel.dropLast := by
  intro hpre
  have hlen := hpre.length_le
  have hpos := List.length_pos_of_ne_nil h
  rw [List.length_dropLast] at hlen
  omega

theorem Copied.free (h : Copied files done out base fs) (hlaid : Laid files) (hf : f ∈ files) :
    ∀ anc, anc <+: f.1.dropLast → anc ≠ [] → fs.nodes[base ++ anc]? = none ∨ fs.opensAt (base ++ anc) := by
  intro anc hanc _
  cases hnode : fs.nodes[base ++ anc]? with
  | none => exact .inl rfl
  | some node =>
    rcases h.others anc node hnode with ⟨g, hg, rfl⟩ | ⟨rfl, -⟩
    · have hgf := hlaid.apart g (h.subset g hg) f hf (hanc.trans (List.dropLast_prefix _))
      rw [hgf] at hanc
      exact absurd hanc (not_prefix_dropLast (hlaid.ne_nil f hf))
    · exact .inr (FileSystem.opensAt_iff.mpr (.inr hnode))

theorem Copied.target (h : Copied files done out base fs) (hlaid : Laid files) (hf : f ∈ files) :
    fs.nodes[base ++ f.1]? = none ∨ ∃ content r, fs.nodes[base ++ f.1]? = some (.file content r) := by
  cases hnode : fs.nodes[base ++ f.1]? with
  | none => exact .inl rfl
  | some node =>
    rcases h.others f.1 node hnode with ⟨g, hg, heq⟩ | ⟨-, hnil | ⟨g, hg, hpre⟩⟩
    · obtain ⟨r', hfile⟩ := h.written g hg
      rw [heq, hnode] at hfile
      exact .inr ⟨_, _, hfile⟩
    · exact absurd hnil (hlaid.ne_nil f hf)
    · have hfg := hlaid.apart f hf g hg (hpre.trans (List.dropLast_prefix _))
      rw [hfg] at hpre
      exact absurd hpre (not_prefix_dropLast (hlaid.ne_nil g hg))

theorem Copied.fileAt_iff (h : Copied files files out base fs) {rel : List Bytes} {content : Content} :
    (∃ r, fs.nodes[base ++ rel]? = some (.file content r)) ↔ (rel, content) ∈ files := by
  constructor
  · rintro ⟨r, hnode⟩
    rcases h.others rel _ hnode with ⟨f, hf, rfl⟩ | ⟨hdir, -⟩
    · obtain ⟨r', hfile⟩ := h.written f hf
      rw [hnode] at hfile
      cases hfile
      exact hf
    · cases hdir
  · intro hmem
    exact h.written _ hmem

theorem Copied.place (h : Copied files done out base fs) (hout : out.isAbsolute) : fs.place out = some base := by
  rw [FileSystem.place, if_neg (by rintro rfl; cases hout), FileSystem.origin, if_pos hout]
  exact FileSystem.walk_steps h.reached h.opens

theorem copied_of_vacant (h : fs.Vacant out) (hout : out.isAbsolute) :
    Copied files [] out (fs.land out) (fs.createDirAll out).2 := by
  have hmakes := FileSystem.makes_createDirAll fs out
  obtain ⟨base, hwalk, hdir⟩ : ∃ base, (fs.createDirAll out).2.walk [] out.components = some base ∧
      (fs.createDirAll out).2.dirAt base := by
    have hne : out ≠ [] := by
      rintro rfl
      cases hout
    obtain ⟨base, hplace, hdir⟩ := FileSystem.isDir_iff.mp (FileSystem.isDir_of_createDirAll hne h.made)
    rw [FileSystem.place, if_neg hne, FileSystem.origin, if_pos hout] at hplace
    exact ⟨base, FileSystem.walk_components hplace, hdir⟩
  obtain rfl : fs.land out = base := by
    rw [← hmakes.grows.land out, FileSystem.land, FileSystem.origin, if_pos hout]
    exact FileSystem.land_of_walk hwalk
  have hnew : ∀ node, (fs.createDirAll out).2.nodes[fs.land out]? = some node → node = .dir true := by
    intro node hnode
    have habsent := h.absent []
    rw [List.append_nil] at habsent
    rcases hmakes.nodes (fs.land out) with heq | ⟨-, hnew⟩
    · rw [heq, habsent] at hnode
      cases hnode
    · exact Option.some.inj (hnode.symm.trans hnew)
  have hopens : (fs.createDirAll out).2.opensAt (fs.land out) := by
    refine FileSystem.opensAt_iff.mpr ((FileSystem.dirAt_iff.mp hdir).imp_right fun hthere ↦ ?_)
    obtain ⟨r, hr⟩ := hthere
    rw [hr, hnew _ hr]
  refine ⟨hwalk, hopens, by simp, by simp, fun rel node hnode ↦ ?_⟩
  by_cases hrel : rel = []
  · subst hrel
    exact .inr ⟨hnew node (by rwa [List.append_nil] at hnode), .inl rfl⟩
  · rw [h.empty rel hrel] at hnode
    cases hnode

theorem wp_exportPath_exec {t : NodeState} {hash : Hash} {name : Option String} {dest : Path}
    {Q : Path → NodeState → Prop} {Z : Error → NodeState → Prop}
    (hout : exportDir t.fs hash name dest = .ok out) (hQ : Q out t) :
    (exportPath hash name dest).wp (graph exec) Q Z t := by
  unfold exportDir at hout
  unfold exportPath
  rw [wp_bind, wp_isDir, forall_graph]
  change Program.wp _ (if t.fs.isDir dest = true then _ else _) Q Z t
  split
  · rename_i hdir
    rw [if_pos hdir] at hout
    rw [wp_fs, forall_graph]
    change Outcome Q Z (Path.absolute _ t.fs.cwd) t
    rwa [hout]
  · rename_i hdir
    rw [if_neg hdir] at hout
    rw [wp_fs, forall_graph]
    change Outcome Q Z (Path.absolute _ t.fs.cwd) t
    rwa [hout]

theorem makeDirs_below {cs rel : List Bytes} (h : fs.walk [] cs = some base) (hdir : fs.dirAt base) :
    fs.makeDirs [] (cs ++ rel) = fs.makeDirs base rel := by
  rw [FileSystem.makeDirs_append, FileSystem.makeDirs_of_walk h hdir]

theorem Copied.createDirAll {parent : Path} (h : Copied files done out base fs) (hlaid : Laid files) (hf : f ∈ files)
    (habs : parent.isAbsolute) (hcreated : parent.created = parent.components)
    (hparent : parent.components = out.components ++ f.1.dropLast) :
    (fs.createDirAll parent).1 = .ok () ∧ Copied files done out base (fs.createDirAll parent).2 ∧
      (fs.createDirAll parent).2.walk base f.1.dropLast = some (base ++ f.1.dropLast) ∧
      (fs.createDirAll parent).2.opensAt (base ++ f.1.dropLast) := by
  have hnames : ∀ c ∈ f.1.dropLast, Path.IsName c :=
    fun c hc ↦ hlaid.names f hf c ((List.dropLast_sublist _).subset hc)
  have horigin : fs.origin fs.cwd parent = [] := if_pos habs
  have hroot : fs.dirAt [] := FileSystem.dirAt_iff.mpr (.inl rfl)
  have hmake : fs.makeDirs [] parent.components = fs.makeDirs base f.1.dropLast := by
    rw [hparent]
    exact makeDirs_below h.reached (FileSystem.dirAt_of_opensAt h.opens)
  obtain ⟨hok, hlast, hnodes⟩ := FileSystem.makeDirs_names h.opens hnames (h.free hlaid hf)
  have hmakes := FileSystem.makes_makeDirs fs base f.1.dropLast
  obtain ⟨hmade, hfs⟩ := FileSystem.createDirAll_of_makeDirs (by rintro rfl; cases habs) hcreated (horigin ▸ hroot)
    (horigin ▸ hmake ▸ hok) (horigin ▸ hmake ▸ hlast)
  rw [horigin, hmake] at hfs
  rw [hfs]
  have hwalk := (FileSystem.walk_of_makeDirs (FileSystem.dirAt_of_opensAt h.opens) hok).1
  exact ⟨hmade, h.dirs hf hmakes hnodes, hwalk, hlast⟩

theorem Copied.write {content : Content} (h : Copied files done out base fs) (hlaid : Laid files) (hf : f ∈ files)
    (hout : out.isAbsolute) (hwalk : fs.walk base f.1.dropLast = some (base ++ f.1.dropLast))
    (hopens : fs.opensAt (base ++ f.1.dropLast)) : fs.write (out.below f.1) content =
      (.ok (), { fs with nodes := fs.nodes.insert (base ++ f.1) (.file content true) }) := by
  have hne := hlaid.ne_nil f hf
  have hnames := hlaid.names f hf
  obtain ⟨parent, hparent, habs, hcreated, hcs⟩ := Path.parent_below hout hne hnames
  have horigin : fs.origin fs.cwd parent = [] := if_pos habs
  have hroot : fs.dirAt [] := FileSystem.dirAt_iff.mpr (.inl rfl)
  have hmake : fs.makeDirs [] parent.components = (.ok (base ++ f.1.dropLast), fs) := by
    rw [hcs, makeDirs_below h.reached (FileSystem.dirAt_of_opensAt h.opens),
      FileSystem.makeDirs_of_walk hwalk (FileSystem.dirAt_of_opensAt hopens)]
  have hok : (fs.makeDirs (fs.origin fs.cwd parent) parent.components).1 = .ok (base ++ f.1.dropLast) := by
    rw [horigin, hmake]
  have hlast : (fs.makeDirs (fs.origin fs.cwd parent) parent.components).2.opensAt (base ++ f.1.dropLast) := by
    rwa [horigin, hmake]
  obtain ⟨hmade, hfs⟩ :=
    FileSystem.createDirAll_of_makeDirs (by rintro rfl; cases habs) hcreated (horigin ▸ hroot) hok hlast
  have hparents : fs.createParents (out.below f.1) = (.ok (), fs) := by
    rw [FileSystem.createParents, hparent]
    refine Prod.ext hmade ?_
    rw [hfs, horigin, hmake]
  obtain ⟨front, c, hfront⟩ := (List.eq_nil_or_concat' f.1).resolve_left hne
  rw [hfront, List.dropLast_concat] at hwalk hopens
  have htarget : fs.fileTarget FileSystem.linkDepth (fs.origin fs.cwd (out.below f.1)) (out.below f.1).steps =
      some (base ++ f.1) := by
    have hsteps : (out.below f.1).steps = out.components ++ f.1 :=
      Path.steps_foldl_join hne (Path.isComponent_of_isName hnames)
    rw [hsteps, FileSystem.origin, if_pos ((Path.isAbsolute_below hnames).trans hout), hfront, ← List.append_assoc,
      ← List.append_assoc]
    refine FileSystem.fileTarget_names (hnames c (by simp [hfront])) ?_ hopens ?_
    · have hreached := h.reached
      rw [← FileSystem.walk, FileSystem.walk_append, hreached, Option.bind_some, hwalk]
    · rw [List.append_assoc, ← hfront]
      exact h.target hlaid hf
  rw [FileSystem.write, hparents]
  dsimp only
  rw [htarget]

theorem wp_exportMember_copied {name : String} {s : NodeState} (hlaid : Laid files) (hf : f ∈ files)
    (hname : Path.ofString name = Path.below [] f.1) (hout : out.isAbsolute)
    (hheld : Holds s.store f.2) (hs : Copied files done out base s.fs) :
    (exportMember out (name, f.2.hash)).wp (graph exec)
      (fun _ s' ↦ s'.store = s.store ∧ Copied files (done ++ [f]) out base s'.fs) (fun _ _ ↦ False) s := by
  have hne := hlaid.ne_nil f hf
  have hnames := hlaid.names f hf
  obtain ⟨parent, hparent, habs, hcreated, hcs⟩ := Path.parent_below hout hne hnames
  obtain ⟨hmade, h₁, hwalk, hopens⟩ := hs.createDirAll hlaid hf habs hcreated hcs
  have hwrite := @Copied.write _ _ _ _ _ _ f.2 h₁ hlaid hf hout hwalk hopens
  have hgrows : ((s.fs.createDirAll parent).2).Grows _ := (FileSystem.writes_write _ (out.below f.1) f.2).grows
  rw [hwrite] at hgrows
  unfold exportMember createParent
  dsimp only
  rw [hname, Path.join_below hne hnames, hparent, wp_bind, wp_fs, forall_graph]
  have hcreate : exec (.fs (.createDirAll parent)) s = (.ok (), { s with fs := (s.fs.createDirAll parent).2 }) :=
    Prod.ext hmade rfl
  rw [hcreate, outcome_ok, wp_context, wp_store, forall_graph]
  have hblob : s.store.blobs[f.2.hash]? = some f.2 := hheld
  simp only [exec, StoreCall.exec, hblob, hwrite, outcome_ok]
  exact ⟨trivial, h₁.file hlaid hf hgrows⟩

theorem wp_export_copied {t : NodeState} {root : Hash} {name : Option String} {dest : Path}
    (hlaid : Laid files) (htext : ∀ f ∈ files, Path.ofString (memberName f.1) = Path.below [] f.1)
    (hload : t.store.loadCollection root = .ok (listed files)) (hheld : ∀ f ∈ files, Holds t.store f.2)
    (hout : exportDir t.fs root name dest = .ok out) (hvacant : t.fs.Vacant out) :
    («export» root .hashSeq name dest).wp (graph exec)
      (fun _ t' ↦ Copied files files out (t.fs.land out) t'.fs) (fun _ _ ↦ False) t := by
  have habs : out.isAbsolute := (Path.components_absolute hvacant.cwd hout).1
  unfold «export»
  rw [wp_bind]
  refine wp_exportPath_exec hout ?_
  dsimp only
  have hcreate : exec (.fs (.createDirAll out)) t = (.ok (), { t with fs := (t.fs.createDirAll out).2 }) :=
    Prod.ext hvacant.made rfl
  have hcollection : exec (.store (.loadCollection root)) { t with fs := (t.fs.createDirAll out).2 } =
      (.ok (listed files), { t with fs := (t.fs.createDirAll out).2 }) := Prod.ext hload rfl
  rw [wp_bind, wp_fs, forall_graph, hcreate, outcome_ok, wp_bind, wp_context, wp_store, forall_graph,
    hcollection, outcome_ok]
  refine wp_forM (I := fun rest s ↦ ∃ done todo, done ++ todo = files ∧ rest = listed todo ∧
    s.store = t.store ∧ Copied files done out (t.fs.land out) s.fs) ?_ ?_
    ⟨[], files, rfl, rfl, rfl, copied_of_vacant hvacant habs⟩
  · rintro member rest s ⟨done, todo, hsplit, hrest, hstore, hcopied⟩
    cases todo with
    | nil => cases hrest
    | cons f todo =>
      obtain ⟨rfl, rfl⟩ := List.cons.inj hrest
      have hf : f ∈ files := by
        rw [← hsplit]
        simp
      have hheld' : Holds s.store f.2 := by
        rw [hstore]
        exact hheld f hf
      refine wp_mono (wp_exportMember_copied hlaid hf (htext f hf) habs hheld' hcopied) ?_ (fun _ _ h ↦ h)
      rintro _ s' ⟨hstore', hcopied'⟩
      exact ⟨done ++ [f], todo, by simpa using hsplit, rfl, hstore'.trans hstore, hcopied'⟩
  · rintro s ⟨done, todo, hsplit, hrest, -, hcopied⟩
    obtain rfl := List.map_eq_nil_iff.mp hrest.symm
    rw [List.append_nil] at hsplit
    subst hsplit
    exact hcopied

def Traced (targets : List (List Bytes)) (base : List Bytes) (fs : FileSystem) : Prop :=
  ∀ rel content r, fs.nodes[base ++ rel]? = some (.file content r) → base ++ rel ∈ targets

variable {targets : List (List Bytes)}

def TracedIn (targets : List (List Bytes)) (base : List Bytes) (t s : NodeState) : Prop :=
  t.fs.Grows s.fs ∧ Traced targets base s.fs

theorem tracedIn_createDirAll (path : Path) {s t : NodeState} (h : TracedIn targets base t s) :
    TracedIn targets base t (exec (.fs (.createDirAll path)) s).2 := by
  have hmakes := FileSystem.makes_createDirAll s.fs path
  exact ⟨h.1.trans hmakes.grows, fun rel content r hnode ↦ h.2 rel content r (hmakes.file hnode)⟩

theorem wp_exportMember_traced {member : String × Hash} {s t : NodeState}
    (hmember : t.fs.land (out.join (Path.ofString member.1)) ∈ targets) (h : TracedIn targets base t s) :
    (exportMember out member).wp (graph exec) (fun _ ↦ TracedIn targets base t) (fun _ _ ↦ True) s := by
  have hwrite : ∀ s, TracedIn targets base t s →
      (context s!"exporting {member.1}"
        (store (.exportBlob member.2 (out.join (Path.ofString member.1))))).wp (graph exec)
        (fun _ ↦ TracedIn targets base t) (fun _ _ ↦ True) s := by
    rintro s ⟨hgrows, htraced⟩
    rw [wp_context, wp_store, forall_graph]
    simp only [exec, StoreCall.exec]
    split
    · trivial
    · rename_i content _
      have hwrites := FileSystem.writes_write s.fs (out.join (Path.ofString member.1)) content
      generalize (s.fs.write (out.join (Path.ofString member.1)) content) = x at hwrites ⊢
      obtain ⟨r, fs'⟩ := x
      cases r with
      | error e => trivial
      | ok u =>
        refine ⟨hgrows.trans hwrites.grows, fun rel content r hnode ↦ ?_⟩
        rcases hwrites.file _ _ _ hnode with heq | hold
        · rw [heq, hgrows.land]
          exact hmember
        · exact htraced rel content r hold
  unfold exportMember createParent
  dsimp only
  rw [wp_bind]
  split
  · rename_i parent _
    rw [wp_fs, forall_graph]
    have hs := tracedIn_createDirAll parent h
    generalize exec _ s = x at hs ⊢
    obtain ⟨a, s'⟩ := x
    cases a with
    | error e => trivial
    | ok u => exact hwrite s' hs
  · exact hwrite s h

theorem wp_export_traced {t : NodeState} {root : Hash} {name : Option String} {dest : Path}
    {collection : Collection} (hload : t.store.loadCollection root = .ok collection)
    (htargets : ∀ m ∈ collection, t.fs.land (out.join (Path.ofString m.1)) ∈ targets)
    (hout : exportDir t.fs root name dest = .ok out) (hvacant : t.fs.Vacant out) :
    («export» root .hashSeq name dest).wp (graph exec)
      (fun _ ↦ TracedIn targets (t.fs.land out) t) (fun _ _ ↦ True) t := by
  have hvacant' : TracedIn targets (t.fs.land out) t t := by
    refine ⟨FileSystem.grows_refl _, fun rel content r hnode ↦ ?_⟩
    rw [hvacant.absent] at hnode
    cases hnode
  unfold «export»
  rw [wp_bind]
  refine wp_exportPath_exec hout ?_
  dsimp only
  rw [wp_bind, wp_fs, forall_graph]
  have hs := tracedIn_createDirAll out hvacant'
  have hstore : (exec (.fs (.createDirAll out)) t).2.store = t.store := rfl
  generalize exec (.fs (.createDirAll out)) t = x at hs hstore ⊢
  obtain ⟨a, s⟩ := x
  cases a with
  | error e => trivial
  | ok u =>
    have hload' : s.store.loadCollection root = .ok collection := by
      rw [show s.store = t.store from hstore, hload]
    have hcollection : exec (.store (.loadCollection root)) s = (.ok collection, s) := Prod.ext hload' rfl
    rw [outcome_ok, wp_bind, wp_context, wp_store, forall_graph, hcollection, outcome_ok]
    refine wp_forM (I := fun (rest : Collection) s ↦ (∀ m ∈ rest, m ∈ collection) ∧
      TracedIn targets (t.fs.land out) t s) ?_ (fun s hs ↦ hs.2) ⟨fun _ h ↦ h, hs⟩
    rintro m rest s ⟨hrest, hs⟩
    exact wp_mono (wp_exportMember_traced (htargets m (hrest m (by simp))) hs)
      (fun _ s' hs' ↦ ⟨fun m' hm' ↦ hrest m' (by simp [hm']), hs'⟩) (fun _ _ h ↦ h)

theorem land_memberName {rel : List Bytes} (h : fs.Vacant out) (hnames : ∀ c ∈ rel, Path.IsName c) :
    fs.land (out.join (Path.ofString (memberName rel))) =
      fs.land out ++ (Path.ofString (memberName rel)).components := by
  have habs : (Path.ofString (memberName rel)).isAbsolute = false := by
    have hrel : (Path.below [] rel).isAbsolute = false := Path.isAbsolute_below hnames
    have hhead := @Utf8.head?_of_lossy Path.slash (Path.below [] rel) (show Path.slash < 0x80 by decide)
    unfold Path.isAbsolute LexicalPath.isAbsolute at hrel ⊢
    rw [beq_eq_false_iff_ne] at hrel ⊢
    exact fun h ↦ hrel (hhead h)
  have hup : ∀ c ∈ (Path.ofString (memberName rel)).components, Path.IsName c := by
    intro c hc
    refine ⟨LexicalPath.isComponent_of_mem hc, ?_⟩
    rintro rfl
    have hmem : [Path.period, Path.period] ∈ (Path.below [] rel).splitOn Path.slash :=
      Utf8.mem_splitOn_of_lossy (by decide) (by simp [Path.period]) (List.mem_filter.mp hc).1
    have hcs : [Path.period, Path.period] ∈ (Path.below [] rel).components :=
      List.mem_filter.mpr ⟨hmem, by decide⟩
    rw [Path.components_below hnames] at hcs
    have hrel := (List.mem_append.mp hcs).resolve_left (by decide)
    exact (hnames _ hrel).ne_parent rfl
  exact FileSystem.land_join_names habs hup fun rel target ↦ by simp [h.absent]

end Export

/-- What is in one directory is in the other: the same regular files, with their names
below it and their contents. -/
def Reproduces (fs : FileSystem) (dir : Path) (fs' : FileSystem) (out : Path) : Prop :=
  ∀ rel content, fs'.FileAt out rel content ↔ fs.FileAt dir rel content

/-- For every directory tree, every import of it that succeeds and every export of the
collection into a directory that is not there yet: the export gives back the regular files
of the tree exactly when no directory that cannot be read hides one of them and their
names are text. -/
theorem export_reproduces_iff {env : Env} {dir dest out : Path} {name : Option String}
    {s s' t : NodeState} {root : Hash} {format : BlobFormat}
    (htree : s.fs.IsTree) (hdir : s.fs.isDir dir) (hapart : HashesApart env (s.fs.visibleFiles dir))
    (himport : Runs Answers (importDirectory env dir) s (.ok (root, format)) s')
    (hheld : ∀ h, s'.store.tagReaches ⟨root, .hashSeq⟩ h → t.store.blobs[h]? = s'.store.blobs[h]?)
    (hout : exportDir t.fs root name dest = .ok out) (hvacant : t.fs.Vacant out) :
    ((run exec («export» root format name dest) t).1 = .ok () ∧
      Reproduces s.fs dir (run exec («export» root format name dest) t).2.fs out) ↔
    ∀ rel content, s.fs.FileAt dir rel content →
      s.fs.Reached dir rel ∧ ∃ text, Utf8.toBytes text = Path.below [] rel := by
  obtain ⟨rfl, rfl, hholds⟩ := importDirectory_ok htree hdir hapart himport
  have hlaid := laid_visibleFiles htree hdir
  generalize hfiles : s.fs.visibleFiles dir = files at hholds hlaid hheld hout
  have hmem : ∀ rel content, (rel, content) ∈ files ↔ s.fs.FileAt dir rel content ∧ s.fs.Reached dir rel := by
    intro rel content
    rw [← hfiles]
    exact FileSystem.mem_visibleFiles
  have hholds' : ∀ c, PartOf env files c → Holds t.store c := fun c hc ↦
    (hheld c.hash (tagReaches_of_partOf (hholds _ .root) hc)).trans (hholds c hc)
  have hload := loadCollection_listed hholds'
  have hroundTrip : ∀ rel, (∃ text, Utf8.toBytes text = Path.below [] rel) →
      Path.ofString (memberName rel) = Path.below [] rel := by
    rintro rel ⟨text, htext⟩
    rw [memberName, ← htext, Path.toStringLossy, Utf8.fromUtf8Lossy_toBytes]
    rfl
  constructor
  · rintro ⟨hok, hsame⟩
    have htargets : ∀ m ∈ listed files, t.fs.land (out.join (Path.ofString m.1)) ∈
        (listed files).map fun m ↦ t.fs.land (out.join (Path.ofString m.1)) :=
      fun m hm ↦ List.mem_map_of_mem (f := fun m : String × Hash ↦ _) hm
    have htraced := outcome_run (wp_export_traced hload htargets hout hvacant)
    rw [hok, outcome_ok] at htraced
    -- every file of the tree is where some member was written
    have htarget : ∀ rel content, s.fs.FileAt dir rel content →
        ∃ f ∈ files, (Path.ofString (memberName f.1)).components = rel := by
      intro rel content hfile
      obtain ⟨base, hplace, r, hnode⟩ := (hsame rel content).mpr hfile
      obtain rfl : t.fs.land out = base := by
        rw [← htraced.1.land out]
        exact FileSystem.land_of_place hplace
      obtain ⟨m, hm, heq⟩ := List.mem_map.mp (htraced.2 rel content r hnode)
      obtain ⟨f, hf, rfl⟩ := List.mem_map.mp hm
      rw [land_memberName hvacant (hlaid.names f hf)] at heq
      exact ⟨f, hf, List.append_cancel_left heq⟩
    have htext : ∀ rel content, s.fs.FileAt dir rel content →
        ∃ text, Utf8.toBytes text = Path.below [] rel := by
      intro rel content hfile
      obtain ⟨f, -, heq⟩ := htarget rel content hfile
      refine (Path.text_below (hfile.names htree)).mpr fun c hc ↦ ?_
      rw [← heq] at hc
      exact Utf8.exists_toBytes_of_mem_splitOn (by decide) (List.mem_filter.mp hc).1
    intro rel content hfile
    refine ⟨?_, htext rel content hfile⟩
    obtain ⟨f, hf, heq⟩ := htarget rel content hfile
    have hfile' := ((hmem f.1 f.2).mp hf).1
    rw [hroundTrip f.1 (htext f.1 f.2 hfile'), Path.components_below (hlaid.names f hf)] at heq
    obtain rfl : f.1 = rel := heq
    exact ((hmem f.1 f.2).mp hf).2
  · intro hall
    have htext : ∀ f ∈ files, Path.ofString (memberName f.1) = Path.below [] f.1 := fun f hf ↦
      hroundTrip f.1 (hall f.1 f.2 ((hmem f.1 f.2).mp hf).1).2
    have hcopied := outcome_run
      (wp_export_copied hlaid htext hload (fun f hf ↦ hholds' _ (.file hf)) hout hvacant)
    generalize run exec («export» (rootOf env files).hash .hashSeq name dest) t = x at hcopied ⊢
    obtain ⟨r, t'⟩ := x
    cases r with
    | error e => exact hcopied.elim
    | ok u =>
      have hcopied : Copied files files out (t.fs.land out) t'.fs := hcopied
      have hplace := hcopied.place (Path.components_absolute hvacant.cwd hout).1
      refine ⟨rfl, fun rel content ↦ ?_⟩
      have hfileAt : t'.fs.FileAt out rel content ↔ (rel, content) ∈ files := by
        rw [← hcopied.fileAt_iff, FileSystem.FileAt, hplace]
        simp
      rw [hfileAt, hmem]
      exact ⟨fun h ↦ h.1, fun h ↦ ⟨h, (hall rel content h).1⟩⟩

def nested (readable : Bool) : NodeState :=
  { emptyNode with
    fs := .ofNodes [([[0x64]], .dir true), ([[0x64], [0x61]], .file ⟨.fromByte 1, 5, none, none⟩ true),
      ([[0x64], [0x73]], .dir readable), ([[0x64], [0x73], [0x62]], .file ⟨.fromByte 2, 7, none, none⟩ true)] }

theorem isTree_nested (readable : Bool) : (nested readable).fs.IsTree := by
  apply FileSystem.isTree_ofNodes
  cases readable <;> decide +kernel

theorem vacant_nested (readable : Bool) : (nested readable).fs.Vacant (Path.ofString "/out") := by
  apply FileSystem.vacant_ofNodes
  · rfl
  · decide +kernel
  · decide +kernel
  · cases readable <;> decide +kernel
  · cases readable <;> decide +kernel

def importedNode (readable : Bool) : NodeState :=
  (run exec (importDirectory (.plain []) (Path.ofString "/d")) (nested readable)).2

theorem fs_importedNode (readable : Bool) : (importedNode readable).fs = (nested readable).fs := by
  cases readable <;> rfl

theorem runs_nested (readable : Bool) : Runs Answers (importDirectory (.plain []) (Path.ofString "/d"))
    (nested readable) (.ok (.fromByte 0xDD, .hashSeq)) (importedNode readable) := by
  have hrun := runs_exec (importDirectory (.plain []) (Path.ofString "/d")) (nested readable)
  cases readable <;> exact hrun

/-- Where all can be read, the files of the directory come to be where they were. -/
theorem export_reproduces_nested : Reproduces (nested true).fs (Path.ofString "/d")
    (run exec («export» (.fromByte 0xDD) .hashSeq none (Path.ofString "/out")) (importedNode true)).2.fs
    (Path.ofString "/out") := by
  have hvacant : (importedNode true).fs.Vacant (Path.ofString "/out") := by
    rw [fs_importedNode]
    exact vacant_nested true
  refine ((export_reproduces_iff (isTree_nested true) (by decide +kernel) (by decide +kernel)
    (runs_nested true) (fun _ _ ↦ rfl) (by decide +kernel) hvacant).mpr ?_).2
  rintro rel content ⟨base, hplace, r, hnode⟩
  have hdir : (nested true).fs.place (Path.ofString "/d") = some [[0x64]] := by decide +kernel
  obtain rfl := Option.some.inj (hdir.symm.trans hplace)
  have hmem : ([0x64] :: rel, FsNode.file content r) ∈ _ := FileSystem.mem_of_getElem?_ofNodes hnode
  simp only [List.mem_cons, Prod.mk.injEq, List.cons.injEq, reduceCtorEq, and_false, true_and, false_or,
    or_false, List.not_mem_nil] at hmem
  rcases hmem with ⟨rfl, -⟩ | ⟨rfl, -⟩
  · exact ⟨by decide +kernel, "a", rfl⟩
  · exact ⟨by decide +kernel, "s/b", rfl⟩

/-- What a subdirectory holds that cannot be read is left out, and nothing fails. -/
theorem export_leaves_out : ∃ s' t', (nested false).fs.IsTree ∧
    Runs Answers (importDirectory (.plain []) (Path.ofString "/d")) (nested false)
      (.ok (.fromByte 0xDD, .hashSeq)) s' ∧ s'.fs.Vacant (Path.ofString "/out") ∧
    Runs Answers («export» (.fromByte 0xDD) .hashSeq none (Path.ofString "/out")) s' (.ok ()) t' ∧
    ¬ Reproduces (nested false).fs (Path.ofString "/d") t'.fs (Path.ofString "/out") := by
  have hrun := runs_exec («export» (.fromByte 0xDD) .hashSeq none (Path.ofString "/out")) (importedNode false)
  have hok : (run exec («export» (.fromByte 0xDD) .hashSeq none (Path.ofString "/out"))
      (importedNode false)).1 = .ok () := by decide +kernel
  rw [hok] at hrun
  refine ⟨importedNode false, _, isTree_nested false, runs_nested false, ?_, hrun, fun hsame ↦ ?_⟩
  · rw [fs_importedNode]
    exact vacant_nested false
  · obtain ⟨base, hplace, r, hnode⟩ := (hsame [[0x73], [0x62]] ⟨.fromByte 2, 7, none, none⟩).mpr
      ⟨[[0x64]], by decide +kernel, true, by decide +kernel⟩
    have hout : (run exec («export» (.fromByte 0xDD) .hashSeq none (Path.ofString "/out"))
        (importedNode false)).2.fs.place (Path.ofString "/out") = some [Path.ofString "out"] := by
      decide +kernel
    have hnone : (run exec («export» (.fromByte 0xDD) .hashSeq none (Path.ofString "/out"))
        (importedNode false)).2.fs.nodes[[Path.ofString "out", [0x73], [0x62]]]? = none := by
      decide +kernel
    obtain rfl := Option.some.inj (hplace.symm.trans hout)
    cases hnode.symm.trans hnone

end Ringdrop.Node
