import Ringdrop.Core.FilePlaces

namespace Ringdrop

open Std Library

namespace FileSystem

variable {fs : FileSystem} {loc : List Bytes} {c : Bytes} {cs : List Bytes}

/-- The file system is a tree: names are names, and what lies below something lies below
a directory. The root is no entry of any directory. The process works in a directory that
is there, and knows its path. -/
structure IsTree (fs : FileSystem) : Prop where
  cwd : fs.cwd.isAbsolute
  working : fs.walk [] fs.cwd.components = some (fs.workingDir fs.cwd)
  root : fs.nodes[([] : List Bytes)]? = none
  names : ∀ (loc : List Bytes) (node : FsNode), fs.nodes[loc]? = some node → ∀ c ∈ loc, Path.IsName c
  parents : ∀ (loc : List Bytes) (node : FsNode), fs.nodes[loc]? = some node →
    ∀ anc, anc <+: loc → anc ≠ loc → fs.dirAt anc

theorem IsTree.names_of_dirAt (h : fs.IsTree) (hdir : fs.dirAt loc) : ∀ c ∈ loc, Path.IsName c := by
  rcases dirAt_iff.mp hdir with rfl | ⟨r, hr⟩
  · simp
  · exact h.names loc _ hr

theorem IsTree.parents_of_dirAt (h : fs.IsTree) (hdir : fs.dirAt loc) {anc : List Bytes} (hanc : anc <+: loc) :
    fs.dirAt anc := by
  by_cases heq : anc = loc
  · rwa [heq]
  · rcases dirAt_iff.mp hdir with rfl | ⟨r, hr⟩
    · exact absurd (List.prefix_nil.mp hanc) heq
    · exact h.parents loc _ hr anc hanc heq

theorem IsTree.insert {dir : List Bytes} {node : FsNode} (h : fs.IsTree) (hdir : fs.dirAt dir) (hc : Path.IsName c)
    (hgrows : fs.Grows { fs with nodes := fs.nodes.insert (dir ++ [c]) node }) :
    ({ fs with nodes := fs.nodes.insert (dir ++ [c]) node } : FileSystem).IsTree := by
  have hnode : ∀ x : List Bytes, (fs.nodes.insert (dir ++ [c]) node)[x]? =
      if x = dir ++ [c] then some node else fs.nodes[x]? := fun x ↦ getElem?_insert_node ..
  constructor
  · exact h.cwd
  · rw [hgrows.workingDir]
    exact hgrows.walk h.working
  · exact (hnode []).trans ((if_neg (by simp)).trans h.root)
  · intro loc node' hloc d hd
    rw [hnode] at hloc
    split at hloc
    · rename_i heq
      subst heq
      rcases List.mem_append.mp hd with hd | hd
      · exact h.names_of_dirAt hdir d hd
      · rwa [List.mem_singleton.mp hd]
    · exact h.names loc node' hloc d hd
  · intro loc node' hloc anc hanc hne
    apply hgrows.dirs
    rw [hnode] at hloc
    split at hloc
    · rename_i heq
      subst heq
      rcases List.prefix_concat_iff.mp hanc with heq | hpre
      · exact absurd heq hne
      · exact h.parents_of_dirAt hdir hpre
    · exact h.parents loc node' hloc anc hanc hne

theorem IsTree.makeDirs (h : fs.IsTree)
    (hcs : ∀ c ∈ cs, LexicalPath.IsComponent Path.slash Path.period c) : (fs.makeDirs loc cs).2.IsTree := by
  induction cs generalizing fs loc with
  | nil => exact h
  | cons c cs ih =>
    have hrest : ∀ d ∈ cs, LexicalPath.IsComponent Path.slash Path.period d :=
      fun d hd ↦ hcs d (List.mem_cons_of_mem _ hd)
    rw [makeDirs_cons]
    rcases enterDir_cases fs loc c with ⟨next, -, -, henter⟩ | ⟨hopens, hc, hnone, henter⟩ | ⟨e, henter⟩
    · rw [henter]
      exact ih h hrest
    · rw [henter]
      have hname : Path.IsName c := ⟨hcs c List.mem_cons_self, hc.2.2⟩
      exact ih (h.insert (dirAt_of_opensAt hopens) hname (makes_insert hnone).grows) hrest
    · rwa [henter]

theorem IsTree.createDirAll (h : fs.IsTree) (p : Path) : (fs.createDirAll p).2.IsTree := by
  have hmake : (fs.makeDirs (fs.origin fs.cwd p) p.created).2.IsTree :=
    h.makeDirs fun _ ↦ Path.mem_created
  unfold FileSystem.createDirAll
  split
  · exact h
  · split
    · rename_i heq
      rw [heq] at hmake
      split <;> exact hmake
    · rename_i heq
      rwa [heq] at hmake

theorem IsTree.write (h : fs.IsTree) (p : Path) (content : Content) : (fs.write p content).2.IsTree := by
  have hparents : (fs.createParents p).2.IsTree := by
    unfold createParents
    split
    · exact h.createDirAll _
    · exact h
  unfold FileSystem.write
  generalize fs.createParents p = x at hparents ⊢
  obtain ⟨r, fs₁⟩ := x
  cases r with
  | error e => exact hparents
  | ok u =>
    dsimp only
    split
    · rename_i loc htarget
      obtain ⟨-, htargets⟩ := targets_of_fileTarget (fun _ ↦ Path.mem_steps) htarget
      obtain ⟨c, hc, hname⟩ := htargets.name
      have hgrows := @grows_insert_file _ _ content htargets
      rw [hc] at hgrows ⊢
      exact hparents.insert htargets.dir hname hgrows
    · exact hparents

theorem walk_origin (h : fs.IsTree) (p : Path) (cs : List Bytes) :
    fs.walk [] ((if p.isAbsolute then [] else fs.cwd.components) ++ cs) = fs.walk (fs.origin fs.cwd p) cs := by
  unfold origin
  split
  · rfl
  · rw [walk_append, h.working, Option.bind_some]

theorem land_absolute {p q : Path} (hcwd : fs.cwd.isAbsolute) (h : p.absolute fs.cwd = .ok q) : fs.land q = fs.land p := by
  obtain ⟨habs, hcs, -⟩ := Path.components_absolute hcwd h
  rw [land, land, origin, if_pos habs, hcs, List.foldl_append]
  congr 1
  unfold origin
  split
  · rfl
  · rfl

theorem isDir_iff {p : Path} : fs.isDir p ↔ ∃ base, fs.place p = some base ∧ fs.dirAt base := by
  unfold isDir find
  cases fs.place p with
  | none => simp
  | some base =>
    simp only [Option.bind_some, Option.some.injEq, exists_eq_left']
    rfl

theorem ne_nil_of_place {p : Path} (h : fs.place p = some loc) : p ≠ [] := by
  rintro rfl
  cases h

theorem ne_nil_of_isDir {p : Path} (h : fs.isDir p) : p ≠ [] := by
  rintro rfl
  cases h

def FileAt (fs : FileSystem) (p : Path) (rel : List Bytes) (content : Content) : Prop :=
  ∃ base, fs.place p = some base ∧ ∃ r, fs.nodes[base ++ rel]? = some (.file content r)

/-- No directory above it that cannot be read keeps the file from being seen. -/
def Reached (fs : FileSystem) (p : Path) (rel : List Bytes) : Prop :=
  (fs.place p).any fun base ↦ fs.visible base (base ++ rel)

instance (fs : FileSystem) (p : Path) (rel : List Bytes) : Decidable (fs.Reached p rel) :=
  inferInstanceAs (Decidable ((fs.place p).any _ = true))

/-- Nothing is at the path or below it, and it can be made an empty directory. -/
structure Vacant (fs : FileSystem) (p : Path) : Prop where
  cwd : fs.cwd.isAbsolute
  absent : ∀ rel, fs.nodes[fs.land p ++ rel]? = none
  made : (fs.createDirAll p).1 = .ok ()
  empty : ∀ rel, rel ≠ [] → (fs.createDirAll p).2.nodes[fs.land p ++ rel]? = none

/-- The regular files that a walk of a directory gets to, with their names below it. -/
def visibleFiles (fs : FileSystem) (p : Path) : List (List Bytes × Content) :=
  match fs.place p with
  | none => []
  | some base =>
    fs.nodes.toList.filterMap fun (cs, node) ↦
      match node with
      | .file content _ =>
        if base.isPrefixOf cs && fs.visible base cs then some (cs.drop base.length, content) else none
      | _ => none

variable {p : Path} {rel : List Bytes} {content : Content}

theorem mem_visibleFiles : (rel, content) ∈ fs.visibleFiles p ↔ fs.FileAt p rel content ∧ fs.Reached p rel := by
  unfold visibleFiles FileAt Reached
  cases hplace : fs.place p with
  | none => simp
  | some base =>
    simp only [Option.some.injEq, exists_eq_left', Option.any_some]
    rw [List.mem_filterMap]
    constructor
    · rintro ⟨⟨cs, node⟩, hmem, hsome⟩
      cases node with
      | dir r => cases hsome
      | link target => cases hsome
      | other => cases hsome
      | file c r =>
        dsimp only at hsome
        split at hsome
        · rename_i hcond
          obtain ⟨hpre, hvisible⟩ := Bool.and_eq_true_iff.mp hcond
          obtain ⟨rel', rfl⟩ := List.isPrefixOf_iff_prefix.mp hpre
          rw [List.drop_left] at hsome
          obtain ⟨rfl, rfl⟩ := Prod.mk.inj (Option.some.inj hsome)
          exact ⟨⟨r, ExtTreeMap.mem_toList_iff_getElem?_eq_some.mp hmem⟩, hvisible⟩
        · cases hsome
    · rintro ⟨⟨r, hnode⟩, hvisible⟩
      refine ⟨(base ++ rel, .file content r), ExtTreeMap.mem_toList_iff_getElem?_eq_some.mpr hnode, ?_⟩
      have hpre : base.isPrefixOf (base ++ rel) = true :=
        List.isPrefixOf_iff_prefix.mpr (List.prefix_append _ _)
      dsimp only
      rw [hpre, hvisible, List.drop_left]
      rfl

/-- The directories that a walk has come through can be passed through. -/
theorem opensAt_of_visible {base anc : List Bytes} (h : fs.visible base (base ++ rel)) (hanc : anc <+: rel)
    (hne : anc ≠ rel) (hdir : fs.dirAt (base ++ anc)) : fs.opensAt (base ++ anc) := by
  refine opensAt_iff.mpr ((dirAt_iff.mp hdir).imp_right fun ⟨r, hr⟩ ↦ ?_)
  have hinits : base ++ anc ∈ (base ++ rel).inits := by
    rw [List.mem_inits]
    exact (List.prefix_append_right_inj _).mpr hanc
  have hlen : anc.length ≠ rel.length := fun h ↦ hne (hanc.eq_of_length h)
  have hnode := List.all_eq_true.mp h _ hinits
  rw [List.isPrefixOf_iff_prefix.mpr (List.prefix_append base anc), hr] at hnode
  cases r with
  | true => exact hr
  | false => simp [hlen] at hnode

theorem FileAt.names (h : fs.FileAt p rel content) (htree : fs.IsTree) : ∀ c ∈ rel, Path.IsName c := by
  obtain ⟨base, -, r, hnode⟩ := h
  exact fun c hc ↦ htree.names _ _ hnode c (List.mem_append_right _ hc)

theorem not_dirAt_of_file {r : Bool} (htree : fs.IsTree) (h : fs.nodes[loc]? = some (.file content r)) :
    ¬ fs.dirAt loc := by
  rw [dirAt_iff]
  rintro (rfl | ⟨r', hdir⟩)
  · rw [htree.root] at h
    cases h
  · rw [h] at hdir
    cases hdir

theorem FileAt.ne_nil (h : fs.FileAt p rel content) (htree : fs.IsTree) (hdir : fs.isDir p) : rel ≠ [] := by
  rintro rfl
  obtain ⟨base, hplace, r, hnode⟩ := h
  obtain ⟨base', hplace', hbase⟩ := isDir_iff.mp hdir
  rw [List.append_nil] at hnode
  rw [hplace] at hplace'
  exact not_dirAt_of_file htree hnode (Option.some.inj hplace' ▸ hbase)

theorem FileAt.eq_of_below {rel' : List Bytes} {content' : Content} (h : fs.FileAt p rel content)
    (h' : fs.FileAt p rel' content') (htree : fs.IsTree) (hpre : rel <+: rel') :
    (rel, content) = (rel', content') := by
  obtain ⟨base, hplace, r, hnode⟩ := h
  obtain ⟨base', hplace', r', hnode'⟩ := h'
  obtain rfl := Option.some.inj (hplace.symm.trans hplace')
  by_cases heq : rel = rel'
  · subst heq
    rw [hnode] at hnode'
    cases hnode'
    rfl
  · have hdir := htree.parents _ _ hnode' (base ++ rel) ((List.prefix_append_right_inj _).mpr hpre) (by simpa using heq)
    exact absurd hdir (not_dirAt_of_file htree hnode)

theorem createDirAll_of_makeDirs (hp : p ≠ []) (hcreated : p.created = p.components)
    (hdir : fs.dirAt (fs.origin fs.cwd p)) (h : (fs.makeDirs (fs.origin fs.cwd p) p.components).1 = .ok loc)
    (hopens : (fs.makeDirs (fs.origin fs.cwd p) p.components).2.opensAt loc) :
    (fs.createDirAll p).1 = .ok () ∧ (fs.createDirAll p).2 = (fs.makeDirs (fs.origin fs.cwd p) p.components).2 := by
  have hwalk := (walk_of_makeDirs hdir h).1
  have hgrows := (makes_makeDirs fs (fs.origin fs.cwd p) p.components).grows
  have hisDir : (fs.makeDirs (fs.origin fs.cwd p) p.components).2.isDir p := by
    refine isDir_iff.mpr ⟨loc, ?_, dirAt_of_opensAt hopens⟩
    rw [place, if_neg hp, hgrows.origin, hgrows.cwd]
    exact walk_steps hwalk hopens
  unfold createDirAll
  rw [if_neg hp, hcreated]
  generalize fs.makeDirs (fs.origin fs.cwd p) p.components = x at h hisDir
  obtain ⟨r, fs₁⟩ := x
  obtain rfl : r = .ok loc := h
  dsimp only
  rw [if_pos hisDir]
  exact ⟨rfl, rfl⟩

theorem isDir_of_createDirAll (hp : p ≠ []) (h : (fs.createDirAll p).1 = .ok ()) : (fs.createDirAll p).2.isDir p := by
  unfold createDirAll at h ⊢
  rw [if_neg hp] at h ⊢
  generalize fs.makeDirs (fs.origin fs.cwd p) p.created = x at h ⊢
  obtain ⟨r, fs'⟩ := x
  cases r with
  | error e => cases h
  | ok next =>
    dsimp only at h ⊢
    split at h
    · rename_i hdir
      rwa [if_pos hdir]
    · cases h

/-- A path without `..` that meets nothing but readable directories is vacant when nothing is
there. -/
theorem vacant_of_names (hcwd : fs.cwd.isAbsolute) (hp : p.isAbsolute) (hcreated : p.created = p.components)
    (hnames : ∀ c ∈ p.components, Path.IsName c)
    (hfree : ∀ anc, anc <+: p.components → anc ≠ [] → fs.nodes[anc]? = none ∨ fs.opensAt anc)
    (habsent : ∀ rel, fs.nodes[p.components ++ rel]? = none) : fs.Vacant p := by
  have horigin : fs.origin fs.cwd p = [] := if_pos hp
  have hroot : fs.opensAt [] := opensAt_iff.mpr (.inl rfl)
  have hne : p ≠ [] := by
    rintro rfl
    cases hp
  obtain ⟨hok, hlast, hnodes⟩ := makeDirs_names hroot hnames hfree
  have hland : fs.land p = p.components := by
    have hwalk := (walk_of_makeDirs (dirAt_of_opensAt hroot) hok).1
    have hgrows := (makes_makeDirs fs [] p.components).grows
    rw [← hgrows.land p]
    unfold land
    rw [hgrows.origin, hgrows.cwd, horigin]
    exact land_of_walk hwalk
  obtain ⟨hmade, hfs⟩ := createDirAll_of_makeDirs hne hcreated (horigin ▸ dirAt_of_opensAt hroot)
    (horigin ▸ hok) (horigin ▸ hlast)
  rw [horigin] at hfs
  refine ⟨hcwd, fun rel ↦ by rw [hland]; exact habsent rel, hmade, fun rel hrel ↦ ?_⟩
  rw [hland, hfs]
  rcases hnodes (p.components ++ rel) with heq | ⟨anc, hanc, heq⟩
  · rw [heq]
    exact habsent rel
  · have hlen := hanc.length_le
    have hlen' := congrArg List.length heq
    have hpos := List.length_pos_of_ne_nil hrel
    rw [List.length_append, List.nil_append] at hlen'
    omega

def ofNodes (nodes : List (List Bytes × FsNode)) : FileSystem :=
  ⟨[Path.slash], nodes.foldl (fun ns x ↦ ns.insert x.1 x.2) ∅⟩

theorem mem_of_getElem?_ofNodes {nodes : List (List Bytes × FsNode)} {cs : List Bytes} {node : FsNode}
    (h : (ofNodes nodes).nodes[cs]? = some node) : (cs, node) ∈ nodes := by
  suffices hfold : ∀ ns : ExtTreeMap (List Bytes) FsNode,
      (nodes.foldl (fun ns x ↦ ns.insert x.1 x.2) ns)[cs]? = some node →
        ns[cs]? = some node ∨ (cs, node) ∈ nodes by
    rcases hfold ∅ h with hempty | hmem
    · simp at hempty
    · exact hmem
  clear h
  induction nodes with
  | nil => exact fun ns h ↦ .inl h
  | cons x nodes ih =>
    intro ns h
    rcases ih _ h with hns | hmem
    · rw [getElem?_insert_node] at hns
      split at hns
      · rename_i heq
        obtain rfl := Option.some.inj hns
        exact .inr (by rw [heq]; exact List.mem_cons_self)
      · exact .inl hns
    · exact .inr (List.mem_cons_of_mem _ hmem)

instance : DecidablePred Path.IsName := fun c ↦
  decidable_of_iff ((c ≠ [] ∧ c ≠ [Path.period] ∧ Path.slash ∉ c) ∧ c ≠ [Path.period, Path.period])
    ⟨fun h ↦ ⟨⟨h.1.1, h.1.2.1, h.1.2.2⟩, h.2⟩,
      fun h ↦ ⟨⟨h.ne_nil, h.ne_dot, h.sep_not_mem⟩, h.ne_parent⟩⟩

theorem isTree_ofNodes {nodes : List (List Bytes × FsNode)}
    (h : ∀ x ∈ nodes, x.1 ≠ [] ∧ (∀ c ∈ x.1, Path.IsName c) ∧
      ∀ anc ∈ x.1.inits, anc ≠ x.1 → (ofNodes nodes).dirAt anc) :
    (ofNodes nodes).IsTree where
  cwd := rfl
  working := rfl
  root := by
    cases hroot : (ofNodes nodes).nodes[([] : List Bytes)]? with
    | none => rfl
    | some node => exact absurd rfl (h _ (mem_of_getElem?_ofNodes hroot)).1
  names loc node hnode := (h _ (mem_of_getElem?_ofNodes hnode)).2.1
  parents loc node hnode anc hanc :=
    (h _ (mem_of_getElem?_ofNodes hnode)).2.2 anc ((List.mem_inits _ _).mpr hanc)

theorem vacant_ofNodes {nodes : List (List Bytes × FsNode)} (hp : p.isAbsolute)
    (hcreated : p.created = p.components) (hnames : ∀ c ∈ p.components, Path.IsName c) (hnone : ∀ x ∈ nodes, ¬ p.components <+: x.1)
    (hfree : ∀ anc ∈ p.components.inits, anc ≠ [] →
      (ofNodes nodes).nodes[anc]? = none ∨ (ofNodes nodes).opensAt anc) :
    (ofNodes nodes).Vacant p := by
  refine vacant_of_names rfl hp hcreated hnames (fun anc hanc ↦ hfree anc ((List.mem_inits _ _).mpr hanc)) fun rel ↦ ?_
  cases hnode : (ofNodes nodes).nodes[p.components ++ rel]? with
  | none => rfl
  | some node => exact absurd (List.prefix_append _ _) (hnone _ (mem_of_getElem?_ofNodes hnode))

end FileSystem

end Ringdrop
