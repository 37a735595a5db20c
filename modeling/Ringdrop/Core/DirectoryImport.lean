import Ringdrop.Core.Node
import Ringdrop.Library.Output

namespace Ringdrop.Node

open Library Program

def gcStep (s s' : NodeState) : Prop := s' = { s with store := s.store.gc }

def addedBy : (c : Call) → c.Ans → List Hash
  | .store (.addPath _), .ok tag => [tag.value.hash]
  | _, _ => []

def added (log : Trace Call.Ans) : List Hash := output addedBy log

/-- A run of the garbage collector while every file added so far is under some tag. -/
def gcProtected (x y : NodeState × Trace Call.Ans) : Prop :=
  (∀ h ∈ added x.2, x.1.store.reachable h) ∧ gcStep x.1 y.1 ∧ y.2 = x.2

/-- The root is a hash sequence, and all it lists is in the store. -/
structure Whole (store : BlobStore) (root : Hash) (links : List Hash) : Prop where
  root : (store.blobs[root]?).bind Content.links = some links
  members : ∀ h ∈ links, h ∈ store.blobs

theorem Whole.loadCollection {store : BlobStore} {root : Hash} {links : List Hash}
    (h : Whole store root links) {collection : Collection}
    (hc : store.loadCollection root = .ok collection) : ∀ m ∈ collection, m.2 ∈ store.blobs := by
  have hlinks : store.getLinks root = .ok links := by
    obtain ⟨c, hc, hl⟩ := Option.bind_eq_some_iff.mp h.root
    rw [BlobStore.getLinks, hc]
    simp only [hl]
  rw [BlobStore.loadCollection, hlinks] at hc
  cases links with
  | nil => cases hc
  | cons metaHash members =>
    simp only [bind, Except.bind] at hc
    split at hc
    · cases hc
    · split at hc
      · obtain rfl := Except.ok.inj hc
        intro m hm
        exact h.members m.2 (List.mem_cons_of_mem _ (List.of_mem_zip hm).2)
      · cases hc

theorem Whole.gc {store : BlobStore} {root : Hash} {links : List Hash} (h : Whole store root links)
    (hr : ∀ k, store.tagReaches ⟨root, .hashSeq⟩ k → store.reachable k) : Whole store.gc root links := by
  have hroot : store.reachable root := hr root (by simp [BlobStore.tagReaches])
  have hmembers : ∀ k ∈ links, store.reachable k := by
    intro k hk
    refine hr k ?_
    simp [BlobStore.tagReaches, h.root, hk]
  constructor
  · rw [BlobStore.getElem?_blobs_gc hroot, h.root]
  · intro k hk
    exact (BlobStore.mem_gc (hmembers k hk)).mpr (h.members k hk)

theorem exec_blobs {c : Call} {s : NodeState} {h : Hash} (hh : h ∈ s.store.blobs) :
    h ∈ (exec c s).2.store.blobs := by
  cases c with
  | store c =>
    cases c with
    | addPath path =>
      simp only [exec, StoreCall.exec]
      split
      · exact BlobStore.mem_addContent.mpr (.inr hh)
      · exact hh
    | addBytes content format => exact BlobStore.mem_addContent.mpr (.inr hh)
    | getBytes hash =>
      simp only [exec, StoreCall.exec]
      split <;> exact hh
    | exportBlob hash target =>
      simp only [exec, StoreCall.exec]
      split <;> exact hh
    | _ => exact hh
  | net c => cases c <;> exact hh
  | _ => exact hh

theorem answers_blobs {c : Call} {s s' : NodeState} {a : c.Ans} (h : Answers c s a s') {k : Hash}
    (hk : k ∈ s.store.blobs) : k ∈ s'.store.blobs := by
  cases h with
  | exec => exact exec_blobs hk
  | decoded ht =>
    cases ht with
    | complete c => exact BlobStore.mem_addBlob.mpr (.inr hk)
    | incomplete => exact hk
    | nothing => exact hk
  | _ => exact hk

def Kept (x : NodeState × Trace Call.Ans) : Prop := ∀ h ∈ added x.2, h ∈ x.1.store.blobs

theorem kept_gc {x y : NodeState × Trace Call.Ans} (hx : Kept x) (h : gcProtected x y) : Kept y := by
  obtain ⟨hr, hs, hlog⟩ := h
  intro k hk
  rw [hlog] at hk
  rw [show y.1 = _ from hs]
  exact (BlobStore.mem_gc (hr k hk)).mpr (hx k hk)

theorem mem_addedBy {c : Call} {s s' : NodeState} {a : c.Ans} (h : Answers c s a s') {k : Hash}
    (hk : k ∈ addedBy c a) : k ∈ s'.store.blobs := by
  unfold addedBy at hk
  split at hk
  next path tag =>
    obtain rfl := List.mem_singleton.mp hk
    rcases answers_store (by simp) h with ⟨ha, rfl⟩ | ⟨⟨e, he⟩, -⟩
    · simp only [StoreCall.exec] at ha ⊢
      split at ha
      · obtain rfl := Except.ok.inj ha
        exact BlobStore.mem_addContent.mpr (.inl rfl)
      · cases ha
    · cases he
  next => cases hk

theorem kept_answer {c : Call} {x y : NodeState × Trace Call.Ans} {a : c.Ans} (hx : Kept x)
    (h : logged Answers c x a y) : Kept y := by
  intro k hk
  rw [added, h.2, output_concat] at hk
  rcases List.mem_append.mp hk with hk | hk
  · exact answers_blobs h.1 (hx k hk)
  · exact mem_addedBy h.1 hk

section Interleaved

abbrev Collected := interfered gcProtected (logged Answers)

theorem gcStable {J : NodeState × Trace Call.Ans → Prop} (hJ : ∀ x y, J x → gcProtected x y → J y)
    {x y : NodeState × Trace Call.Ans} (hx : J x) (h : Relation.ReflTransGen gcProtected x y) : J y := by
  induction h with
  | refl => exact hx
  | tail _ hstep ih => exact hJ _ _ ih hstep

theorem kept_collected {c : Call} {x y : NodeState × Trace Call.Ans} {a : c.Ans} (hx : Kept x)
    (h : Collected c x a y) : Kept y := by
  obtain ⟨z, hxz, hzy⟩ := h
  exact kept_answer (gcStable (fun _ _ ↦ kept_gc) hx hxz) hzy

theorem added_collected {c : Call} {x y : NodeState × Trace Call.Ans} {a : c.Ans}
    (h : Collected c x a y) : added y.2 = added x.2 ++ addedBy c a := by
  obtain ⟨z, hxz, hzy⟩ := h
  have hlog : z.2 = x.2 := gcStable (J := fun z ↦ z.2 = x.2) (fun _ _ hz h ↦ h.2.2.trans hz) rfl hxz
  rw [added, hzy.2, output_concat, hlog]
  rfl

variable {x : NodeState × Trace Call.Ans}

/-- What is known of a loop iteration: the files listed were added, and are in the store. -/
def Listed (collection : Collection) (x : NodeState × Trace Call.Ans) : Prop :=
  Kept x ∧ ∀ m ∈ collection, m.2 ∈ added x.2

theorem listed_collected {c : Call} {y : NodeState × Trace Call.Ans} {a : c.Ans}
    {collection : Collection} (hx : Listed collection x) (h : Collected c x a y) :
    Listed collection y := by
  refine ⟨kept_collected hx.1 h, fun m hm ↦ ?_⟩
  rw [added_collected h]
  exact List.mem_append_left _ (hx.2 m hm)

theorem wp_addToCollection {collection : Collection} (file : String × Path)
    (hx : Listed collection x) :
    (addToCollection collection file).wp Collected Listed (fun _ _ ↦ True) x := by
  unfold addToCollection
  rw [wp_bind, wp_fs]
  intro a y hy
  cases a with
  | error e => trivial
  | ok path =>
    have hy' := listed_collected hx hy
    rw [outcome_ok, wp_bind, wp_store]
    intro a z hz
    cases a with
    | error e => trivial
    | ok tag =>
      have hz' := listed_collected hy' hz
      have htag : tag.value.hash ∈ added z.2 := by
        rw [added_collected hz]
        exact List.mem_append_right _ (List.mem_singleton.mpr rfl)
      have hlisted : Listed (collection ++ [(file.1, tag.value.hash)]) z := by
        refine ⟨hz'.1, fun m hm ↦ ?_⟩
        rcases List.mem_append.mp hm with hm | hm
        · exact hz'.2 m hm
        · obtain rfl := List.mem_singleton.mp hm
          exact htag
      rw [outcome_ok, wp_bind, wp_dropTempTag]
      intro _ w hw
      exact listed_collected hlisted hw

structure Held (tag : TempTag) (s : NodeState) : Prop where
  tempTag : s.store.tempTags[tag.id]? = some tag.value
  fresh : tag.id < s.store.nextTempTag
  present : tag.value.hash ∈ s.store.blobs

theorem Held.gc {tag : TempTag} {y : NodeState × Trace Call.Ans} (h : Held tag x.1)
    (hgc : gcProtected x y) : Held tag y.1 := by
  have hr : x.1.store.reachable tag.value.hash :=
    BlobStore.reachable_of_tempTag h.tempTag (by simp [BlobStore.tagReaches])
  rw [show y.1 = _ from hgc.2.1]
  exact ⟨h.tempTag, h.fresh, (BlobStore.mem_gc hr).mpr h.present⟩

structure WholeHeld (tag : TempTag) (links : List Hash) (s : NodeState) : Prop where
  tempTag : s.store.tempTags[tag.id]? = some tag.value
  format : tag.value.format = .hashSeq
  whole : Whole s.store tag.value.hash links

theorem WholeHeld.gc {tag : TempTag} {links : List Hash} {y : NodeState × Trace Call.Ans}
    (h : WholeHeld tag links x.1) (hgc : gcProtected x y) : WholeHeld tag links y.1 := by
  have hvalue : tag.value = ⟨tag.value.hash, .hashSeq⟩ := by rw [← h.format]
  rw [show y.1 = _ from hgc.2.1]
  refine ⟨h.tempTag, h.format, h.whole.gc fun k hk ↦ ?_⟩
  exact BlobStore.reachable_of_tempTag h.tempTag (hvalue ▸ hk)

structure WholeTagged (key : Bytes) (root : Hash) (links : List Hash) (s : NodeState) : Prop where
  tag : s.store.tags[key]? = some ⟨root, .hashSeq⟩
  whole : Whole s.store root links

theorem WholeTagged.gc {key : Bytes} {root : Hash} {links : List Hash}
    {y : NodeState × Trace Call.Ans} (h : WholeTagged key root links x.1) (hgc : gcProtected x y) :
    WholeTagged key root links y.1 := by
  rw [show y.1 = _ from hgc.2.1]
  exact ⟨h.tag, h.whole.gc fun k hk ↦ BlobStore.reachable_of_tag h.tag hk⟩

theorem held_addContent (s : NodeState) (c : Content) (format : BlobFormat) :
    Held (s.store.addContent c format).1 { s with store := (s.store.addContent c format).2 } where
  tempTag := by simp [BlobStore.addContent, BlobStore.addTempTag, BlobStore.addBlob]
  fresh := Nat.lt_succ_self _
  present := BlobStore.mem_addContent.mpr (.inl rfl)

theorem wp_storeCollection {env : Env} {collection : Collection} (hx : Listed collection x) :
    (storeCollection env collection).wp Collected
      (fun tag y ↦ ∃ links, WholeHeld tag links y.1) (fun _ _ ↦ True) x := by
  unfold storeCollection
  rw [wp_bind, wp_store]
  intro a y hy
  cases a with
  | error e => trivial
  | ok metaTag =>
    have hy' := listed_collected hx hy
    have hheld : Held metaTag y.1 := by
      obtain ⟨z, -, hzy⟩ := hy
      rcases answers_store (by simp) hzy.1 with ⟨ha, hs⟩ | ⟨⟨e, he⟩, -⟩
      · obtain rfl := Except.ok.inj ha
        rw [hs]
        exact held_addContent z.1 _ _
      · cases he
    rw [outcome_ok, wp_bind, wp_attempt, wp_store]
    intro b z hz
    -- the root is added while the metadata is still under its temp tag
    have hroot : ∀ rootTag, b = .ok rootTag → metaTag.id ≠ rootTag.id ∧
        ∃ links, WholeHeld rootTag links z.1 := by
      rintro rootTag rfl
      obtain ⟨w, hyw, hwz⟩ := hz
      have hw := gcStable (J := fun w ↦ Listed collection w ∧ Held metaTag w.1)
        (fun u v hu huv ↦ ⟨⟨kept_gc hu.1.1 huv, by rw [huv.2.2]; exact hu.1.2⟩, hu.2.gc huv⟩)
        ⟨hy', hheld⟩ hyw
      rcases answers_store (by simp) hwz.1 with ⟨ha, hs⟩ | ⟨⟨e, he⟩, -⟩
      · obtain rfl := Except.ok.inj ha
        rw [hs]
        refine ⟨Nat.ne_of_lt hw.2.fresh, metaTag.value.hash :: collection.map Prod.snd, ?_, rfl, ?_, ?_⟩
        · exact (held_addContent w.1 _ _).tempTag
        · change ((w.1.store.addContent _ _).2.blobs[(env.collectionRoot _).hash]?).bind _ = _
          rw [BlobStore.getElem?_addContent, if_pos rfl]
          exact env.collectionRoot_links _
        · intro k hk
          refine BlobStore.mem_addContent.mpr (.inr ?_)
          rcases List.mem_cons.mp hk with rfl | hk
          · exact hw.2.present
          · obtain ⟨m, hm, rfl⟩ := List.mem_map.mp hk
            exact hw.1.1 _ (hw.1.2 m hm)
      · cases he
    have hdrop : (do dropTempTag metaTag; Program.ofExcept b : Action TempTag).wp Collected
        (fun tag y ↦ ∃ links, WholeHeld tag links y.1) (fun _ _ ↦ True) z := by
      rw [wp_bind, wp_dropTempTag]
      intro _ w hw
      cases b with
      | error e => trivial
      | ok rootTag =>
        obtain ⟨hne, links, hwhole⟩ := hroot rootTag rfl
        obtain ⟨v, hzv, hvw⟩ := hw
        have hv := gcStable (J := fun v ↦ WholeHeld rootTag links v.1)
          (fun _ _ hu ↦ hu.gc) hwhole hzv
        refine ⟨links, ?_, hv.format, ?_⟩
        · rw [answers_dropTempTag hvw.1]
          exact (BlobStore.getElem?_dropTempTag _ _ _).trans ((if_neg hne).trans hv.tempTag)
        · rw [answers_dropTempTag hvw.1]
          exact ⟨hv.whole.root, hv.whole.members⟩
    cases b with
    | error e => exact hdrop
    | ok rootTag => exact hdrop

theorem wp_pin {key : Option String} {tag : TempTag} {what : String} {links : List Hash}
    (hx : WholeHeld tag links x.1) :
    (pin key tag .hashSeq what).wp Collected (fun r y ↦ Whole y.1.store r.1 links) (fun _ _ ↦ True) x := by
  unfold pin
  rw [wp_bind, wp_attempt, wp_context, wp_store]
  intro a y hy
  have hset : ∀ u, a = .ok u →
      WholeTagged (Utf8.toBytes (key.getD (toString tag.value.hash))) tag.value.hash links y.1 := by
    rintro u rfl
    obtain ⟨z, hxz, hzy⟩ := hy
    have hz := gcStable (J := fun z ↦ WholeHeld tag links z.1) (fun _ _ hu ↦ hu.gc) hx hxz
    rcases answers_store (by simp) hzy.1 with ⟨-, hs⟩ | ⟨⟨e, he⟩, -⟩
    · rw [hs]
      exact ⟨(BlobStore.getElem?_setTag _ _ _ _).trans (if_pos rfl), hz.whole.root, hz.whole.members⟩
    · cases he
  cases a with
  | error e =>
    rw [outcome_error, wp_bind, wp_dropTempTag]
    intro _ w _
    trivial
  | ok u =>
    rw [outcome_ok, wp_bind, wp_dropTempTag]
    intro _ w hw
    obtain ⟨v, hyv, hvw⟩ := hw
    have hv := gcStable (J := fun v ↦ WholeTagged _ tag.value.hash links v.1) (fun _ _ hu ↦ hu.gc)
      (hset u rfl) hyv
    change Whole w.1.store tag.value.hash links
    rw [answers_dropTempTag hvw.1]
    exact ⟨hv.whole.root, hv.whole.members⟩

end Interleaved

/-- For every directory and every interleaving of the import with garbage collections,
whatever fails: if each collection runs while the files added so far are under some
tag, an import that succeeds leaves the root and all it lists in the store. -/
theorem importDirectory_whole {env : Env} {dir : Path} {s s' : NodeState} {root : Hash}
    {format : BlobFormat} {log : Trace Call.Ans}
    (h : Runs (interfered gcProtected (logged Answers)) (importDirectory env dir) (s, [])
      (.ok (root, format)) (s', log)) :
    (∃ links, Whole s'.store root links) ∧
      ∀ collection, s'.store.loadCollection root = .ok collection →
        ∀ m ∈ collection, m.2 ∈ s'.store.blobs := by
  have hw : (importDirectory env dir).wp Collected (fun r y ↦ ∃ links, Whole y.1.store r.1 links)
      (fun _ _ ↦ True) (s, []) := by
    unfold importDirectory
    rw [wp_bind, wp_walkDir]
    intro entries y hy
    have hy' : Listed [] y := listed_collected ⟨by simp [Kept, added, output], by simp⟩ hy
    rw [wp_bind]
    refine wp_foldlM (I := fun _ collection z ↦ Listed collection z)
      (fun file rest collection z hz ↦ wp_addToCollection file hz) (fun collection z hz ↦ ?_) hy'
    rw [wp_bind]
    refine wp_mono (wp_storeCollection hz) (fun tag w hw ↦ ?_) (fun _ _ h ↦ h)
    obtain ⟨links, hwhole⟩ := hw
    exact wp_mono (wp_pin hwhole) (fun _ _ h ↦ ⟨links, h⟩) (fun _ _ h ↦ h)
  obtain ⟨links, hwhole⟩ := h.ok_of_wp hw
  exact ⟨⟨links, hwhole⟩, fun collection hc ↦ hwhole.loadCollection hc⟩

def albumDir : Path := Path.ofString "/home/u/album"

def withAlbum : NodeState where
  endpoint := .new (.fromByte 9)
  clock := 0
  registry := .empty
  localStore := .empty
  store := .empty
  fs := FileSystem.home.holding [("/home/u/album", .dir true),
    ("/home/u/album/a", .file ⟨.fromByte 1, 5, none, none⟩ true),
    ("/home/u/album/b", .file ⟨.fromByte 2, 5, none, none⟩ true)]

def withLitter : NodeState := { withAlbum with store := BlobStore.empty.addBlob ⟨.fromByte 7, 5, none, none⟩ }

def setsTag : Call → Bool
  | .store (.setTag _ _) => true
  | _ => false

def execSwept (c : Call) (x : NodeState × Trace Call.Ans) : c.Ans × NodeState × Trace Call.Ans :=
  execLogged c (if setsTag c then { x.1 with store := x.1.store.gc } else x.1, x.2)

/-- The collection is whole, and the litter is gone. -/
theorem importDirectory_whole_album : ∃ s' : NodeState, (∃ links, Whole s'.store (.fromByte 0xDD) links) ∧
    s'.store.blobs[Hash.fromByte 7]? = none := by
  have hswept : checked execSwept (fun c x ↦ !setsTag c || (added x.2).all x.1.store.reachable)
      (importDirectory (.plain []) albumDir) (withLitter, []) = true := by
    decide +kernel
  have hgone : (run execSwept (importDirectory (.plain []) albumDir)
      (withLitter, [])).2.1.store.blobs[Hash.fromByte 7]? = none := by
    decide +kernel
  have hok : (run execSwept (importDirectory (.plain []) albumDir) (withLitter, [])).1 =
      .ok (.fromByte 0xDD, .hashSeq) := by
    decide +kernel
  have hrun : Runs (interfered gcProtected (logged Answers)) (importDirectory (.plain []) albumDir) (withLitter, [])
      (run execSwept (importDirectory (.plain []) albumDir) (withLitter, [])).1
      (run execSwept (importDirectory (.plain []) albumDir) (withLitter, [])).2 := by
    refine (runs_checked _ _ hswept).mono ?_
    intro c x a y h
    obtain ⟨hstep, hc⟩ := h
    obtain ⟨rfl, rfl⟩ : (execSwept c x).1 = a ∧ (execSwept c x).2 = y :=
      ⟨congrArg Prod.fst hstep, congrArg Prod.snd hstep⟩
    refine ⟨(if setsTag c then { x.1 with store := x.1.store.gc } else x.1, x.2), ?_, .exec c _, rfl⟩
    cases hsets : setsTag c with
    | true =>
      rw [hsets, Bool.not_true, Bool.false_or, List.all_eq_true] at hc
      exact .single ⟨hc, rfl, rfl⟩
    | false => exact .refl
  generalize run execSwept (importDirectory (.plain []) albumDir) (withLitter, []) = x at hrun hgone hok
  obtain ⟨r, s', log⟩ := x
  obtain rfl : r = .ok (.fromByte 0xDD, .hashSeq) := hok
  exact ⟨s', (importDirectory_whole hrun).1, hgone⟩

def execCollected (c : Call) (s : NodeState) : c.Ans × NodeState :=
  exec c { s with store := s.store.gc }

/-- Collections between the files delete what was added before them. -/
theorem importDirectory_loses : ∃ s' collection,
    Runs (interfered gcStep Answers) (importDirectory (.plain []) albumDir) withAlbum
      (.ok (.fromByte 0xDD, .hashSeq)) s' ∧
    s'.store.loadCollection (.fromByte 0xDD) = .ok collection ∧
    ∃ m ∈ collection, m.2 ∉ s'.store.blobs := by
  have hbetween : ∀ r s', Runs (graph execCollected) (importDirectory (.plain []) albumDir) withAlbum r s' →
      Runs (interfered gcStep Answers) (importDirectory (.plain []) albumDir) withAlbum r s' := by
    intro r s' hr
    refine hr.mono ?_
    intro c s a s' h
    obtain ⟨rfl, rfl⟩ : (execCollected c s).1 = a ∧ (execCollected c s).2 = s' :=
      ⟨congrArg Prod.fst h, congrArg Prod.snd h⟩
    exact ⟨{ s with store := s.store.gc }, .single rfl, .exec c _⟩
  exact ⟨_, [("a", .fromByte 1), ("b", .fromByte 2)], hbetween _ _ (runs_run _ _), by decide +kernel,
    by decide +kernel⟩

end Ringdrop.Node
