import Ringdrop.Core.Node

namespace Ringdrop

open Library Program

namespace Node

def tagFor (name : Option String) (value : HashAndFormat) : Bytes × HashAndFormat :=
  (Utf8.toBytes (name.getD (toString value.hash)), value)

def hashFiles (fs : FileSystem) : List (String × Path) → Except Error Collection
  | [] => .ok []
  | file :: rest => do
    let path ← file.2.absolute fs.cwd
    let content ← fs.read path
    return (file.1, content.hash) :: (← hashFiles fs rest)

def collectionHash (env : Env) (collection : Collection) : Hash :=
  (env.collectionRoot ((env.collectionMeta (collection.map Prod.fst)).hash :: collection.map Prod.snd)).hash

def importedTag (env : Env) (fs : FileSystem) (path : Path) : Except Error (Bytes × HashAndFormat) :=
  if fs.isDir path then do
    let collection ← hashFiles fs (collectFiles path (fs.walkDir path))
    return tagFor (leafName path) ⟨collectionHash env collection, .hashSeq⟩
  else do
    let path ← path.absolute fs.cwd
    let content ← fs.read path
    return tagFor (leafName path) ⟨content.hash, .raw⟩

structure SameTags (s s' : NodeState) : Prop where
  registry : s'.registry = s.registry
  fs : s'.fs = s.fs
  tags : s'.store.tags = s.store.tags

theorem SameTags.refl (s : NodeState) : SameTags s s := ⟨rfl, rfl, rfl⟩

theorem SameTags.trans {s s₁ s₂ : NodeState} (h : SameTags s s₁) (h' : SameTags s₁ s₂) : SameTags s s₂ :=
  ⟨h'.registry.trans h.registry, h'.fs.trans h.fs, h'.tags.trans h.tags⟩

structure TagSet (tag : Bytes × HashAndFormat) (s s' : NodeState) : Prop where
  registry : s'.registry = s.registry
  fs : s'.fs = s.fs
  tags : s'.store.tags = s.store.tags.insert tag.1 tag.2

theorem SameTags.tagSet {tag : Bytes × HashAndFormat} {s s₁ s₂ : NodeState} (h : SameTags s s₁)
    (h' : TagSet tag s₁ s₂) : TagSet tag s s₂ :=
  ⟨h'.registry.trans h.registry, h'.fs.trans h.fs, by rw [h'.tags, h.tags]⟩

section Answers

variable {s s' : NodeState}

theorem sameTags_absolute {path : Path} {a : Except Error Path} (h : Answers (.fs (.absolute path)) s a s') :
    s' = s ∧ ∀ p, a = .ok p → path.absolute s.fs.cwd = .ok p := by
  rcases answers_fs h with ⟨ha, hs⟩ | ⟨⟨e, ha⟩, hs⟩
  · exact ⟨hs, fun p hp ↦ ha.symm.trans hp⟩
  · refine ⟨hs, fun p hp ↦ ?_⟩
    rw [ha] at hp
    cases hp

theorem sameTags_addPath {path : Path} {a : Except Error TempTag}
    (h : Answers (.store (.addPath path)) s a s') :
    SameTags s s' ∧ ∀ tag, a = .ok tag → ∃ content, s.fs.read path = .ok content ∧
      tag.value = ⟨content.hash, .raw⟩ := by
  rcases answers_store (by simp) h with ⟨ha, hs⟩ | ⟨⟨e, ha⟩, hs⟩
  · simp only [StoreCall.exec] at ha hs
    cases hread : s.fs.read path with
    | error e =>
      rw [hread] at ha hs
      subst hs
      exact ⟨.refl s', fun tag htag ↦ by rw [ha] at htag; cases htag⟩
    | ok content =>
      rw [hread] at ha hs
      subst hs
      refine ⟨⟨rfl, rfl, rfl⟩, fun tag htag ↦ ⟨content, rfl, ?_⟩⟩
      rw [ha] at htag
      rw [← Except.ok.inj htag]
      rfl
  · subst hs
    exact ⟨.refl s', fun tag htag ↦ by rw [ha] at htag; cases htag⟩

theorem sameTags_addBytes {content : Content} {format : BlobFormat} {a : Except Error TempTag}
    (h : Answers (.store (.addBytes content format)) s a s') :
    SameTags s s' ∧ ∀ tag, a = .ok tag → tag.value = ⟨content.hash, format⟩ := by
  rcases answers_store (by simp) h with ⟨ha, hs⟩ | ⟨⟨e, ha⟩, hs⟩
  · subst hs
    refine ⟨⟨rfl, rfl, rfl⟩, fun tag htag ↦ ?_⟩
    rw [ha] at htag
    rw [← Except.ok.inj htag]
    rfl
  · subst hs
    exact ⟨.refl s', fun tag htag ↦ by rw [ha] at htag; cases htag⟩

theorem sameTags_dropTempTag {tag : TempTag} {a : Unit} (h : Answers (.dropTempTag tag) s a s') :
    SameTags s s' := by
  rw [answers_dropTempTag h]
  exact ⟨rfl, rfl, rfl⟩

end Answers

section Specs

variable {env : Env} {s : NodeState}

theorem wp_pin_tag (key : Option String) (tag : TempTag) (format : BlobFormat) (what : String) :
    (pin key tag format what).wp Answers
      (fun r s' ↦ r = (tag.value.hash, format) ∧ TagSet (tagFor key ⟨tag.value.hash, format⟩) s s')
      (fun _ s' ↦ SameTags s s') s := by
  unfold pin
  rw [wp_bind, wp_attempt, wp_context, wp_store]
  intro a s₁ h₁
  rcases answers_store (by simp) h₁ with ⟨rfl, rfl⟩ | ⟨⟨e, rfl⟩, rfl⟩
  · change wp _ (dropTempTag tag >>= _) _ _ _
    rw [wp_bind, wp_dropTempTag]
    intro _ s₂ h₂
    rw [answers_dropTempTag h₂]
    exact ⟨rfl, rfl, rfl, rfl⟩
  · change wp _ (dropTempTag tag >>= _) _ _ _
    rw [wp_bind, wp_dropTempTag]
    intro _ s₂ h₂
    exact sameTags_dropTempTag h₂

theorem wp_importFile_tag (path : Path) :
    (importFile path).wp Answers
      (fun r s' ↦ ∃ key, (do
          let path ← path.absolute s.fs.cwd
          let content ← s.fs.read path
          return tagFor (leafName path) ⟨content.hash, .raw⟩) = .ok (key, ⟨r.1, r.2⟩) ∧
        TagSet (key, ⟨r.1, r.2⟩) s s')
      (fun _ s' ↦ SameTags s s') s := by
  unfold importFile
  rw [wp_bind, wp_fs]
  intro a s₁ h₁
  obtain ⟨hsame, hpath⟩ := sameTags_absolute h₁
  subst hsame
  cases a with
  | error e => exact .refl s₁
  | ok p =>
    rw [outcome_ok, wp_bind, wp_context, wp_store]
    intro a s₂ h₂
    obtain ⟨hadded, hread⟩ := sameTags_addPath h₂
    cases a with
    | error e => exact hadded
    | ok tag =>
      obtain ⟨content, hcontent, hvalue⟩ := hread tag rfl
      rw [outcome_ok]
      refine wp_mono (wp_pin_tag _ tag .raw _) ?_ (fun _ _ hpinned ↦ hadded.trans hpinned)
      intro r s₃ h
      obtain ⟨rfl, hpinned⟩ := h
      rw [hvalue] at hpinned ⊢
      rw [hpath p rfl]
      refine ⟨_, ?_, hadded.tagSet hpinned⟩
      simp only [bind, Except.bind, hcontent]
      rfl

theorem wp_addToCollection_hash {files rest : List (String × Path)} {file : String × Path}
    {collection : Collection} {s₀ : NodeState} (hs : SameTags s₀ s)
    (h : hashFiles s₀.fs files = (hashFiles s₀.fs (file :: rest)).map (collection ++ ·)) :
    (addToCollection collection file).wp Answers
      (fun collection' s' ↦ SameTags s₀ s' ∧
        hashFiles s₀.fs files = (hashFiles s₀.fs rest).map (collection' ++ ·))
      (fun _ s' ↦ SameTags s₀ s') s := by
  unfold addToCollection
  rw [wp_bind, wp_fs]
  intro a s₁ h₁
  obtain ⟨hsame, hpath⟩ := sameTags_absolute h₁
  subst hsame
  cases a with
  | error e => exact hs
  | ok p =>
    rw [outcome_ok, wp_bind, wp_store]
    intro a s₂ h₂
    obtain ⟨hadded, hread⟩ := sameTags_addPath h₂
    cases a with
    | error e => exact hs.trans hadded
    | ok tag =>
      obtain ⟨content, hcontent, hvalue⟩ := hread tag rfl
      rw [outcome_ok, wp_bind, wp_dropTempTag]
      intro _ s₃ h₃
      refine ⟨hs.trans (hadded.trans (sameTags_dropTempTag h₃)), ?_⟩
      have hp := hpath p rfl
      rw [hs.fs] at hp hcontent
      rw [h, hvalue]
      simp only [hashFiles, hp, hcontent, bind, Except.bind]
      cases hashFiles s₀.fs rest with
      | error e => rfl
      | ok more => simp [Except.map, pure, Except.pure]

theorem wp_storeCollection_hash (collection : Collection) :
    (storeCollection env collection).wp Answers
      (fun tag s' ↦ tag.value = ⟨collectionHash env collection, .hashSeq⟩ ∧ SameTags s s')
      (fun _ s' ↦ SameTags s s') s := by
  unfold storeCollection
  rw [wp_bind, wp_store]
  intro a s₁ h₁
  obtain ⟨hmeta, hvalue⟩ := sameTags_addBytes h₁
  cases a with
  | error e => exact hmeta
  | ok metaTag =>
    rw [outcome_ok, wp_bind, wp_attempt, wp_store]
    intro a s₂ h₂
    obtain ⟨hroot, hrootValue⟩ := sameTags_addBytes h₂
    have hboth := hmeta.trans hroot
    cases a with
    | error e =>
      change wp _ (dropTempTag metaTag >>= _) _ _ _
      rw [wp_bind, wp_dropTempTag]
      intro _ s₃ h₃
      exact hboth.trans (sameTags_dropTempTag h₃)
    | ok rootTag =>
      change wp _ (dropTempTag metaTag >>= _) _ _ _
      rw [wp_bind, wp_dropTempTag]
      intro _ s₃ h₃
      refine ⟨?_, hboth.trans (sameTags_dropTempTag h₃)⟩
      rw [hrootValue rootTag rfl, hvalue metaTag rfl]
      rfl

theorem wp_importDirectory_tag (dir : Path) :
    (importDirectory env dir).wp Answers
      (fun r s' ↦ ∃ key, (do
          let collection ← hashFiles s.fs (collectFiles dir (s.fs.walkDir dir))
          return tagFor (leafName dir) ⟨collectionHash env collection, .hashSeq⟩) = .ok (key, ⟨r.1, r.2⟩) ∧
        TagSet (key, ⟨r.1, r.2⟩) s s')
      (fun _ s' ↦ SameTags s s') s := by
  unfold importDirectory
  rw [wp_bind, wp_walkDir]
  intro entries s₁ h₁
  obtain ⟨rfl, rfl⟩ := answers_walkDir h₁
  rw [wp_bind]
  refine wp_foldlM (I := fun rest collection s' ↦ SameTags s₁ s' ∧
      hashFiles s₁.fs (collectFiles dir (s₁.fs.walkDir dir)) =
        (hashFiles s₁.fs rest).map (collection ++ ·)) ?_ ?_ ⟨.refl s₁, ?_⟩
  · intro file rest collection s₂ ⟨hs, h⟩
    refine wp_mono (wp_addToCollection_hash hs h) (fun _ _ h' ↦ h') ?_
    intro e s₃ h₃
    exact h₃
  · intro collection s₂ ⟨hs, h⟩
    have hcollection : hashFiles s₁.fs (collectFiles dir (s₁.fs.walkDir dir)) = .ok collection := by
      simpa [hashFiles, Except.map] using h
    rw [wp_bind]
    refine wp_mono (wp_storeCollection_hash collection) ?_ (fun _ _ hstored ↦ hs.trans hstored)
    intro tag s₃ ⟨hvalue, hstored⟩
    refine wp_mono (wp_pin_tag _ tag .hashSeq _) ?_ (fun _ _ hpinned ↦ hs.trans (hstored.trans hpinned))
    intro r s₄ h
    obtain ⟨rfl, hpinned⟩ := h
    rw [hvalue] at hpinned ⊢
    exact ⟨_, by rw [hcollection]; rfl, (hs.trans hstored).tagSet hpinned⟩
  · cases hashFiles s₁.fs (collectFiles dir (s₁.fs.walkDir dir)) with
    | error e => rfl
    | ok collection => simp [Except.map]

theorem wp_importPath_tag (path : Path) :
    (importPath env path).wp Answers
      (fun r s' ↦ ∃ key, importedTag env s.fs path = .ok (key, ⟨r.1, r.2⟩) ∧ TagSet (key, ⟨r.1, r.2⟩) s s')
      (fun _ s' ↦ SameTags s s') s := by
  unfold importPath importedTag
  rw [wp_bind, wp_isDir]
  intro isDirectory s₁ h₁
  obtain ⟨rfl, rfl⟩ := answers_isDir h₁
  split
  · exact wp_importDirectory_tag path
  · exact wp_importFile_tag path

end Specs

section Execution

variable {env : Env} {s : NodeState}

theorem wp_absolute_exec {path : Path} {Q : Path → NodeState → Prop} {Z : Error → NodeState → Prop} :
    (fs (.absolute path)).wp (graph exec) Q Z s ↔ Outcome Q Z (path.absolute s.fs.cwd) s := by
  rw [wp_fs, forall_graph]
  rfl

theorem wp_pin_exec (key : Option String) (tag : TempTag) (format : BlobFormat) (what : String) :
    (pin key tag format what).wp (graph exec) (fun _ _ ↦ True) (fun _ _ ↦ False) s := by
  unfold pin
  rw [wp_bind, wp_attempt, wp_context, wp_store, forall_graph]
  change wp _ (dropTempTag tag >>= _) _ _ _
  rw [wp_bind, wp_dropTempTag, forall_graph]
  trivial

theorem wp_addToCollection_exec {fs₀ : FileSystem} {rest : List (String × Path)} {file : String × Path}
    (collection : Collection) (hs : s.fs = fs₀) :
    (addToCollection collection file).wp (graph exec)
      (fun _ s' ↦ s'.fs = fs₀ ∧
        ((∃ e, hashFiles fs₀ rest = .error e) → ∃ e, hashFiles fs₀ (file :: rest) = .error e))
      (fun _ _ ↦ ∃ e, hashFiles fs₀ (file :: rest) = .error e) s := by
  subst hs
  unfold addToCollection
  rw [wp_bind, wp_absolute_exec, hashFiles]
  cases habs : file.2.absolute s.fs.cwd with
  | error e => exact ⟨e, rfl⟩
  | ok p =>
    rw [outcome_ok, wp_bind, wp_store, forall_graph]
    simp only [exec, StoreCall.exec]
    cases hread : s.fs.read p with
    | error e => exact ⟨e, by simp [hread, bind, Except.bind]⟩
    | ok content =>
      rw [outcome_ok, wp_bind, wp_dropTempTag, forall_graph]
      refine ⟨rfl, fun ⟨e, he⟩ ↦ ⟨e, ?_⟩⟩
      simp [hread, he, bind, Except.bind]

theorem wp_importPath_exec (path : Path) :
    (importPath env path).wp (graph exec) (fun _ _ ↦ True)
      (fun _ _ ↦ ∃ e, importedTag env s.fs path = .error e) s := by
  unfold importPath importedTag
  rw [wp_bind, wp_isDir, forall_graph]
  change wp _ (if s.fs.isDir path = true then _ else _) _ _ s
  split
  · unfold importDirectory
    rw [wp_bind, wp_walkDir, forall_graph]
    change wp _ ((collectFiles path (s.fs.walkDir path)).foldlM addToCollection [] >>= _) _ _ s
    generalize collectFiles path (s.fs.walkDir path) = files
    rw [wp_bind]
    refine wp_foldlM (I := fun rest _ s' ↦ s'.fs = s.fs ∧
      ((∃ e, hashFiles s.fs rest = .error e) → ∃ e, hashFiles s.fs files = .error e)) ?_ ?_ ⟨rfl, id⟩
    · intro file rest collection s₁ ⟨hfs, hfails⟩
      have hadd := @wp_addToCollection_exec s₁ s.fs rest file collection hfs
      refine wp_mono hadd ?_ ?_
      · intro _ s₂ ⟨hfs₂, hstep⟩
        exact ⟨hfs₂, fun h ↦ hfails (hstep h)⟩
      · intro _ _ h
        obtain ⟨e, he⟩ := hfails h
        exact ⟨e, by rw [he]; rfl⟩
    · intro collection s₁ _
      unfold storeCollection
      rw [wp_bind, wp_bind, wp_store, forall_graph]
      simp only [exec, StoreCall.exec, outcome_ok]
      rw [wp_bind, wp_attempt, wp_store, forall_graph]
      simp only [exec, StoreCall.exec, outcome_ok]
      rw [wp_bind, wp_dropTempTag, forall_graph, Program.ofExcept_ok, wp_ret]
      exact wp_mono (wp_pin_exec _ _ _ _) (fun _ _ h ↦ h) (fun _ _ h ↦ h.elim)
  · unfold importFile
    rw [wp_bind, wp_absolute_exec]
    cases habs : path.absolute s.fs.cwd with
    | error e => exact ⟨e, rfl⟩
    | ok p =>
      rw [outcome_ok, wp_bind, wp_context, wp_store, forall_graph]
      simp only [exec, StoreCall.exec]
      cases hread : s.fs.read p with
      | error e => exact ⟨e, by simp [hread, bind, Except.bind]⟩
      | ok content => exact wp_mono (wp_pin_exec _ _ _ _) (fun _ _ h ↦ h) (fun _ _ h ↦ h.elim)

end Execution

end Node

end Ringdrop
