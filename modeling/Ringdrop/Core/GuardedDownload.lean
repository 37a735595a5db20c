import Ringdrop.Core.FetchedBlob

namespace Ringdrop

open Library Program

abbrev History := List (NodeState × (c : Call) × c.Ans)

/-- All that a call reads of the store is there. -/
def Call.Present (store : BlobStore) : Call → Prop
  | .store (.getBytes hash) => hash ∈ store.blobs
  | .store (.exportBlob hash _) => hash ∈ store.blobs
  | .store (.loadCollection root) =>
    root ∈ store.blobs ∧ ∀ metaHash rest, store.getLinks root = .ok (metaHash :: rest) → metaHash ∈ store.blobs
  | _ => True

namespace Node

/-- Whatever was read of the store was there. -/
def Unbroken (history : History) : Prop := ∀ e ∈ history, e.2.1.Present e.1.store

/-- A download has found its blob complete and exports it at once. -/
def FastPath (ticket : ShareTicket) (history : History) : Prop :=
  ticket.format = .raw ∧ ∃ s size rest, history = (s, ⟨.store (.status ticket.hash), .ok (.complete size)⟩) :: rest

def asked (history : History) : Option Hash :=
  (history.filterMap fun e ↦ match e.2.1 with
    | .net (.sendRequest hash _) => some hash
    | _ => none).getLast?

/-- A run of the garbage collector at any point of a download. -/
def collects (x y : NodeState × History) : Prop := gcStep x.1 y.1 ∧ y.2 = x.2

/-- A run of the garbage collector that comes between the look at a complete blob and
its export only while some tag reaches the blob. -/
def collectsGuarded (ticket : ShareTicket) (x y : NodeState × History) : Prop :=
  (FastPath ticket x.2 → x.1.store.reachable ticket.hash) ∧ collects x y

/-- What a download is answered: the bytes under a hash never change, and no sender
waives a blob that is not in the store. -/
def Supplied (env : Env) (c : Call) (x : NodeState × History) (a : c.Ans) (y : NodeState × History) : Prop :=
  recorded Answers c x a y ∧
    (∀ (hash : Hash) (content : Content), x.1.store.blobs[hash]? = some content → y.1.store.blobs[hash]? = some content) ∧
    match c, a with
    | .recv, stream => RingReceiver.Waived env stream → ∀ hash, asked x.2 = some hash → hash ∈ x.1.store.blobs
    | _, _ => True

/-- A blob that the temp tag of a download protects, once the content of the root is known. -/
def Covered (guard : TempTag) (root : Option Content) (hash : Hash) : Prop :=
  hash = guard.value.hash ∨
    guard.value.format = .hashSeq ∧ ∃ content links, root = some content ∧ content.links = some links ∧ hash ∈ links

/-- A download that holds its temp tag: what it has learned of the root and the blobs
it has made sure of. -/
structure Guarded (guard : TempTag) (root : Option Content) (held : List Hash) (x : NodeState × History) :
    Prop where
  tempTag : x.1.store.tempTags[guard.id]? = some guard.value
  fresh : guard.id < x.1.store.nextTempTag
  rooted : ∀ content, root = some content → x.1.store.blobs[guard.value.hash]? = some content
  covered : ∀ hash ∈ held, Covered guard root hash
  kept : ∀ hash ∈ held, hash ∈ x.1.store.blobs
  unbroken : Unbroken x.2

section Guard

variable {env : Env} {guard : TempTag} {root : Option Content} {held : List Hash} {x y : NodeState × History}

theorem Guarded.reachable (h : Guarded guard root held x) {hash : Hash} (hc : Covered guard root hash) :
    x.1.store.reachable hash := by
  refine BlobStore.reachable_of_tempTag h.tempTag ?_
  rcases hc with rfl | ⟨hformat, content, links, hroot, hlinks, hmem⟩
  · simp [BlobStore.tagReaches]
  · simp [BlobStore.tagReaches, hformat, h.rooted content hroot, hlinks, hmem]

theorem Guarded.collects (h : Guarded guard root held x) (hgc : collects x y) : Guarded guard root held y := by
  obtain ⟨hstep, hhistory⟩ := hgc
  rw [show y = ({ x.1 with store := x.1.store.gc }, x.2) from Prod.ext hstep hhistory]
  refine ⟨h.tempTag, h.fresh, ?_, h.covered, ?_, h.unbroken⟩
  · intro content hcontent
    have hr : x.1.store.reachable guard.value.hash := h.reachable (.inl rfl)
    exact (BlobStore.getElem?_blobs_gc hr).trans (h.rooted content hcontent)
  · intro hash hhash
    exact (BlobStore.mem_gc (h.reachable (h.covered hash hhash))).mpr (h.kept hash hhash)

theorem exec_tempTags {c : Call} {s : NodeState} {id : ℕ} {value : HashAndFormat}
    (hc : ∀ tag, c ≠ .dropTempTag tag) (hvalue : s.store.tempTags[id]? = some value)
    (hid : id < s.store.nextTempTag) :
    (exec c s).2.store.tempTags[id]? = some value ∧ id < (exec c s).2.store.nextTempTag := by
  have hadd : ∀ (store : BlobStore) (value' : HashAndFormat), store.tempTags[id]? = some value → id < store.nextTempTag →
      (store.addTempTag value').2.tempTags[id]? = some value ∧ id < (store.addTempTag value').2.nextTempTag := by
    intro store value' hvalue hid
    refine ⟨?_, Nat.lt_succ_of_lt hid⟩
    rw [BlobStore.getElem?_addTempTag, if_neg (by omega)]
    exact hvalue
  cases c with
  | store c =>
    cases c with
    | addPath path =>
      simp only [exec, StoreCall.exec]
      split
      · exact hadd _ _ hvalue hid
      · exact ⟨hvalue, hid⟩
    | addBytes content format => exact hadd _ _ hvalue hid
    | tempTag value' => exact hadd _ _ hvalue hid
    | getBytes hash =>
      simp only [exec, StoreCall.exec]
      split <;> exact ⟨hvalue, hid⟩
    | exportBlob hash target =>
      simp only [exec, StoreCall.exec]
      split <;> exact ⟨hvalue, hid⟩
    | _ => exact ⟨hvalue, hid⟩
  | net c => cases c <;> exact ⟨hvalue, hid⟩
  | dropTempTag tag => exact absurd rfl (hc tag)
  | _ => exact ⟨hvalue, hid⟩

theorem answers_tempTags {c : Call} {s s' : NodeState} {a : c.Ans} (h : Answers c s a s') {id : ℕ}
    {value : HashAndFormat} (hc : ∀ tag, c ≠ .dropTempTag tag) (hvalue : s.store.tempTags[id]? = some value)
    (hid : id < s.store.nextTempTag) :
    s'.store.tempTags[id]? = some value ∧ id < s'.store.nextTempTag := by
  cases h with
  | exec => exact exec_tempTags hc hvalue hid
  | decoded ht => cases ht <;> exact ⟨hvalue, hid⟩
  | _ => exact ⟨hvalue, hid⟩

theorem Unbroken.concat {history : History} (h : Unbroken history) {s : NodeState} {c : Call} (a : c.Ans)
    (hp : c.Present s.store) : Unbroken (history ++ [(s, ⟨c, a⟩)]) := by
  intro e he
  rcases List.mem_append.mp he with he | he
  · exact h e he
  · obtain rfl := List.mem_singleton.mp he
    exact hp

theorem Guarded.supplied (h : Guarded guard root held x) {c : Call} {a : c.Ans} (hxy : Supplied env c x a y)
    (hc : ∀ tag, c ≠ .dropTempTag tag) (hp : c.Present x.1.store) : Guarded guard root held y := by
  obtain ⟨⟨hanswer, hhistory⟩, hsame, -⟩ := hxy
  obtain ⟨htag, hfresh⟩ := answers_tempTags hanswer hc h.tempTag h.fresh
  refine ⟨htag, hfresh, ?_, h.covered, ?_, ?_⟩
  · intro content hcontent
    exact hsame _ _ (h.rooted content hcontent)
  · intro hash hhash
    exact answers_blobs hanswer (h.kept hash hhash)
  · rw [hhistory]
    exact h.unbroken.concat a hp

abbrev Downloading (env : Env) (ticket : ShareTicket) := interfered (collectsGuarded ticket) (Supplied env)

variable {ticket : ShareTicket}

theorem history_of_collects (h : Relation.ReflTransGen (collectsGuarded ticket) x y) : y.2 = x.2 := by
  induction h with
  | refl => rfl
  | tail _ hstep ih => exact hstep.2.2.trans ih

theorem Guarded.before (h : Guarded guard root held x) {c : Call} {a : c.Ans}
    (hxy : Downloading env ticket c x a y) :
    ∃ z, Guarded guard root held z ∧ z.2 = x.2 ∧ Supplied env c z a y := by
  obtain ⟨z, hxz, hzy⟩ := hxy
  have hz : Guarded guard root held z := by
    clear hzy
    induction hxz with
    | refl => exact h
    | tail _ hstep ih => exact ih.collects hstep.2
  exact ⟨z, hz, history_of_collects hxz, hzy⟩

theorem Guarded.step (h : Guarded guard root held x) {c : Call} {a : c.Ans}
    (hxy : Downloading env ticket c x a y) (hc : ∀ tag, c ≠ .dropTempTag tag)
    (hp : ∀ z, Guarded guard root held z → c.Present z.1.store) : Guarded guard root held y := by
  obtain ⟨z, hz, _, hzy⟩ := h.before hxy
  exact hz.supplied hzy hc (hp z hz)

theorem Guarded.hold (h : Guarded guard root held x) {hash : Hash} (hc : Covered guard root hash)
    (hmem : hash ∈ x.1.store.blobs) : Guarded guard root (hash :: held) x where
  tempTag := h.tempTag
  fresh := h.fresh
  rooted := h.rooted
  covered := List.forall_mem_cons.mpr ⟨hc, h.covered⟩
  kept := List.forall_mem_cons.mpr ⟨hmem, h.kept⟩
  unbroken := h.unbroken

theorem present_of_fetches {c : Call} (hc : c.Fetches) (store : BlobStore) : c.Present store := by
  cases c with
  | store c => cases c <;> trivial
  | _ => trivial

theorem fetchRules_downloading {hash : Hash} (hcovered : Covered guard root hash) :
    RingReceiver.FetchRules (Downloading env ticket) env hash (Guarded guard root held)
      (fun x ↦ asked x.2 = some hash) (fun x ↦ hash ∈ x.1.store.blobs) where
  invariant hx hxy hc := by
    refine hx.step hxy ?_ (fun z _ ↦ present_of_fetches hc _)
    rintro tag rfl
    exact hc
  kept hx hmem hxy _ := by
    obtain ⟨z, hz, _, hzy⟩ := (hx.hold hcovered hmem).before hxy
    exact answers_blobs hzy.1.1 (hz.kept hash (by simp))
  complete hx hxy := by
    obtain ⟨z, _, _, hzy⟩ := hx.before hxy
    exact RingReceiver.mem_of_status hzy.1.1
  asked hx hxy := by
    obtain ⟨z, _, _, hzy⟩ := hx.before hxy
    rw [hzy.1.2]
    simp [asked]
  waiting hx hasked hxy hc := by
    obtain ⟨z, _, hhistory, hzy⟩ := hx.before hxy
    rw [hzy.1.2, hhistory]
    rcases hc with rfl | rfl
    · simpa [asked] using hasked
    · simpa [asked] using hasked
  waived hx hasked hxy hwaived := by
    obtain ⟨z, _, hhistory, hzy⟩ := hx.before hxy
    rw [← hhistory] at hasked
    exact answers_blobs hzy.1.1 (hzy.2.2 hwaived hash hasked)
  imported hx hxy hdecoded himported := by
    obtain ⟨z, _, _, hzy⟩ := hx.before hxy
    exact RingReceiver.mem_of_decode hzy.1.1 hdecoded himported

theorem members_of_loadCollection {store : BlobStore} {hash : Hash} {content : Content} {links : List Hash}
    {collection : Collection} (hroot : store.blobs[hash]? = some content) (hlinks : content.links = some links)
    (h : store.loadCollection hash = .ok collection) : collection.map Prod.snd = links.tail := by
  have hget : store.getLinks hash = .ok links := by
    rw [BlobStore.getLinks, hroot]
    simp only [hlinks]
  rw [BlobStore.loadCollection, hget] at h
  cases links with
  | nil => cases h
  | cons metaHash members =>
    simp only [bind, Except.bind] at h
    split at h
    · cases h
    · split at h
      · next names _ hlength =>
        obtain rfl := Except.ok.inj h
        exact List.map_snd_zip (by omega)
      · cases h

variable {content : Content} {links : List Hash}

theorem Guarded.wp_loadCollection {Z : Error → NodeState × History → Prop} {m : String}
    (hx : Guarded guard (some content) held x) (hlinks : content.links = some links)
    (hheld : guard.value.hash ∈ held ∧ ∀ metaHash ∈ links.head?, metaHash ∈ held)
    {Q : Collection → NodeState × History → Prop}
    (hQ : ∀ collection y, Guarded guard (some content) held y → collection.map Prod.snd = links.tail → Q collection y)
    (hZ : ∀ e y, Guarded guard (some content) held y → Z e y) :
    (context m (store (.loadCollection guard.value.hash))).wp (Downloading env ticket) Q Z x := by
  have hpresent : ∀ z, Guarded guard (some content) held z →
      (Call.store (.loadCollection guard.value.hash)).Present z.1.store := by
    intro z hz
    refine ⟨hz.kept _ hheld.1, ?_⟩
    intro metaHash rest hget
    have hroot := hz.rooted content rfl
    rw [BlobStore.getLinks, hroot] at hget
    simp only [hlinks] at hget
    obtain rfl := Except.ok.inj hget
    exact hz.kept metaHash (hheld.2 metaHash rfl)
  rw [wp_context, wp_store]
  intro a y hxy
  have hy := hx.step hxy (by rintro tag ⟨⟩) hpresent
  cases a with
  | error e => exact hZ _ y hy
  | ok collection =>
    refine hQ collection y hy ?_
    obtain ⟨z, hz, _, hzy⟩ := hx.before hxy
    rcases answers_store (by simp) hzy.1.1 with ⟨ha, _⟩ | ⟨⟨e, he⟩, _⟩
    · exact members_of_loadCollection (hz.rooted content rfl) hlinks ha.symm
    · cases he

def Idle (c : Call) : Prop := (∀ store, c.Present store) ∧ ∀ tag, c ≠ .dropTempTag tag

theorem Guarded.wp_idle {α : Type} {p : Action α} (hp : p.Uses Idle) (hx : Guarded guard root held x) :
    p.wp (Downloading env ticket) (fun _ ↦ Guarded guard root held) (fun _ ↦ Guarded guard root held) x :=
  hp.wp_invariant (fun _ _ _ _ hc hx hxy ↦ hx.step hxy hc.2 (fun _ _ ↦ hc.1 _)) hx

theorem Guarded.wp_fetchBlob {hash : Hash} (hx : Guarded guard root held x) (reported : Bool)
    (hcovered : Covered guard root hash) :
    (RingReceiver.fetchBlob env hash (if reported then some RingReceiver.progress else none)).wp
      (Downloading env ticket) (fun _ ↦ Guarded guard root (hash :: held)) (fun _ y ↦ Unbroken y.2) x := by
  refine wp_mono ((fetchRules_downloading hcovered).wp_fetchBlob hx) ?_ ?_
  · intro _ y hy
    exact hy.1.hold hcovered hy.2
  · intro _ y hy
    exact hy.unbroken

def Gathered (guard : TempTag) (x : NodeState × History) : Prop :=
  ∃ content links held, content.links = some links ∧ Guarded guard (some content) held x ∧
    guard.value.hash ∈ held ∧ ∀ hash ∈ links, hash ∈ held

theorem Guarded.learn (hx : Guarded guard none held x)
    (hroot : x.1.store.blobs[guard.value.hash]? = some content) : Guarded guard (some content) held x where
  tempTag := hx.tempTag
  fresh := hx.fresh
  rooted := by
    rintro _ ⟨⟩
    exact hroot
  covered := by
    intro hash hhash
    rcases hx.covered hash hhash with heq | ⟨_, _, _, hnone, _⟩
    · exact .inl heq
    · cases hnone
  kept := hx.kept
  unbroken := hx.unbroken

theorem Guarded.wp_getBytes {m : String} (hx : Guarded guard none held x) (hheld : guard.value.hash ∈ held) :
    (context m (store (.getBytes guard.value.hash))).wp (Downloading env ticket)
      (fun content y ↦ Guarded guard (some content) held y) (fun _ y ↦ Unbroken y.2) x := by
  rw [wp_context, wp_store]
  intro a y hxy
  have hy := hx.step hxy (by rintro tag ⟨⟩) (fun z hz ↦ hz.kept _ hheld)
  cases a with
  | error e => exact hy.unbroken
  | ok content =>
    refine hy.learn ?_
    obtain ⟨z, _, _, hzy⟩ := hx.before hxy
    rcases answers_store (by simp) hzy.1.1 with ⟨ha, _⟩ | ⟨⟨e, he⟩, _⟩
    · simp only [StoreCall.exec] at ha
      split at ha
      · next hcontent =>
        obtain rfl := Except.ok.inj ha
        exact hzy.2.1 _ _ hcontent
      · cases ha
    · cases he

theorem Guarded.wp_members {collection : Collection} (hx : Guarded guard (some content) held x)
    (hformat : guard.value.format = .hashSeq) (hlinks : content.links = some links)
    (hheld : guard.value.hash ∈ held ∧ ∀ metaHash ∈ links.head?, metaHash ∈ held)
    (hmembers : collection.map Prod.snd = links.tail) :
    (collection.zipIdx.forM (RingReceiver.fetchMember env RingReceiver.progress collection.length)).wp
      (Downloading env ticket) (fun _ ↦ Gathered guard) (fun _ y ↦ Unbroken y.2) x := by
  apply wp_forM (I := fun rest y ↦ (∀ member ∈ rest, member.1.2 ∈ links) ∧ ∃ held,
    Guarded guard (some content) held y ∧ guard.value.hash ∈ held ∧ (∀ metaHash ∈ links.head?, metaHash ∈ held) ∧
      ∀ hash ∈ links.tail, hash ∈ held ∨ ∃ member ∈ rest, member.1.2 = hash)
  · intro member rest y hy
    obtain ⟨hrest, held, hy, hroot, hmeta, htail⟩ := hy
    have hcovered : Covered guard (some content) member.1.2 :=
      .inr ⟨hformat, content, links, rfl, hlinks, hrest member (by simp)⟩
    rw [RingReceiver.fetchMember, wp_bind]
    have hstart : (RingReceiver.progress (.fileStart (member.2 + 1) collection.length member.1.1)).Uses Idle :=
      uses_ask ⟨fun _ ↦ trivial, by rintro tag ⟨⟩⟩
    refine wp_mono (hy.wp_idle hstart) ?_ (fun _ _ hz ↦ hz.unbroken)
    intro _ z hz
    refine wp_mono (hz.wp_fetchBlob true hcovered) ?_ (fun _ _ hw ↦ hw)
    intro _ w hw
    refine ⟨fun m hm ↦ hrest m (by simp [hm]), member.1.2 :: held, hw, by simp [hroot], ?_, ?_⟩
    · intro metaHash hmem
      exact List.mem_cons_of_mem _ (hmeta metaHash hmem)
    · intro hash hhash
      rcases htail hash hhash with hmem | ⟨m, hm, rfl⟩
      · exact .inl (List.mem_cons_of_mem _ hmem)
      · rcases List.mem_cons.mp hm with rfl | hm
        · exact .inl (by simp)
        · exact .inr ⟨m, hm, rfl⟩
  · intro y hy
    obtain ⟨_, held, hy, hroot, hmeta, htail⟩ := hy
    refine ⟨content, links, held, hlinks, hy, hroot, ?_⟩
    intro hash hhash
    cases links with
    | nil => cases hhash
    | cons metaHash members =>
      rcases List.mem_cons.mp hhash with rfl | hhash
      · exact hmeta _ rfl
      · rcases htail hash hhash with hmem | ⟨m, hm, _⟩
        · exact hmem
        · cases hm
  · have hhashes : collection.zipIdx.map (fun member ↦ member.1.2) = links.tail := by
      rw [← hmembers, ← List.zipIdx_map_fst 0 collection, List.map_map, List.zipIdx_map_fst]
      rfl
    refine ⟨?_, held, hx, hheld.1, hheld.2, ?_⟩
    · intro member hmember
      have hmem : member.1.2 ∈ links.tail := hhashes ▸ List.mem_map_of_mem hmember
      exact List.mem_of_mem_tail hmem
    · intro hash hhash
      rw [← hhashes] at hhash
      exact .inr (List.mem_map.mp hhash)

theorem Guarded.wp_fetchCollection (hx : Guarded guard none held x) (hformat : guard.value.format = .hashSeq)
    (hheld : guard.value.hash ∈ held) :
    (RingReceiver.fetchCollection env RingReceiver.progress guard.value.hash).wp (Downloading env ticket)
      (fun _ ↦ Gathered guard) (fun _ y ↦ Unbroken y.2) x := by
  rw [RingReceiver.fetchCollection, wp_bind]
  refine wp_mono (hx.wp_getBytes hheld) ?_ (fun _ _ hy ↦ hy)
  intro content y hy
  rw [wp_bind, wp_ofExcept, RingReceiver.parseHashSeq]
  cases hlinks : content.links with
  | none => exact hy.unbroken
  | some links =>
    rw [outcome_ok, wp_bind]
    have hmeta : (links.head?.forM (fun metaHash ↦ RingReceiver.fetchBlob env metaHash none)).wp
        (Downloading env ticket) (fun _ z ↦ ∃ held, Guarded guard (some content) held z ∧
          guard.value.hash ∈ held ∧ ∀ metaHash ∈ links.head?, metaHash ∈ held) (fun _ z ↦ Unbroken z.2) y := by
      cases hhead : links.head? with
      | none => exact ⟨held, hy, hheld, by rintro _ ⟨⟩⟩
      | some metaHash =>
        have hcovered : Covered guard (some content) metaHash :=
          .inr ⟨hformat, content, links, rfl, hlinks, List.mem_of_head? hhead⟩
        refine wp_mono (hy.wp_fetchBlob false hcovered) ?_ (fun _ _ hz ↦ hz)
        intro _ z hz
        refine ⟨metaHash :: held, hz, by simp [hheld], ?_⟩
        rintro _ ⟨⟩
        exact List.mem_cons_self
    refine wp_mono hmeta ?_ (fun _ _ hz ↦ hz)
    intro _ z hz
    obtain ⟨held, hz, hheld⟩ := hz
    rw [wp_bind]
    refine hz.wp_loadCollection hlinks hheld ?_ (fun _ _ hw ↦ hw.unbroken)
    intro collection w hw hmembers
    exact hw.wp_members hformat hlinks hheld hmembers

theorem uses_exportPath_idle (hash : Hash) (name : Option String) (dest : Path) :
    (RingReceiver.exportPath hash name dest).Uses Idle := by
  have habsolute : ∀ path, (fs (.absolute path)).Uses Idle :=
    fun path ↦ uses_asking (.fs (.absolute path)) id ⟨fun _ ↦ trivial, by rintro tag ⟨⟩⟩
  apply Uses.bind (uses_ask ⟨fun _ ↦ trivial, by rintro tag ⟨⟩⟩)
  intro inside
  split
  · exact habsolute _
  · exact habsolute _

theorem uses_createParent_idle (target : Path) : (RingReceiver.createParent target).Uses Idle := by
  unfold RingReceiver.createParent
  cases target.parent with
  | some parent => exact uses_asking (.fs (.createDirAll parent)) id ⟨fun _ ↦ trivial, by rintro tag ⟨⟩⟩
  | none => trivial

theorem Gathered.wp_export {name : Option String} {dest : Path} (hx : Gathered guard x) :
    (RingReceiver.export guard.value.hash .hashSeq name dest).wp (Downloading env ticket)
      (fun _ y ↦ Unbroken y.2) (fun _ y ↦ Unbroken y.2) x := by
  obtain ⟨content, links, held, hlinks, hx, hroot, hall⟩ := hx
  rw [RingReceiver.export, wp_bind]
  refine wp_mono (hx.wp_idle (uses_exportPath_idle _ _ _)) ?_ (fun _ _ hy ↦ hy.unbroken)
  intro path y hy
  dsimp only
  rw [wp_bind]
  have hcreate : (fs (.createDirAll path)).Uses Idle :=
    uses_asking (.fs (.createDirAll path)) id ⟨fun _ ↦ trivial, by rintro tag ⟨⟩⟩
  refine wp_mono (hy.wp_idle hcreate) ?_ (fun _ _ hz ↦ hz.unbroken)
  intro _ z hz
  rw [wp_bind]
  have hhead : ∀ metaHash ∈ links.head?, metaHash ∈ held :=
    fun metaHash hmem ↦ hall metaHash (List.mem_of_head? hmem)
  refine hz.wp_loadCollection hlinks ⟨hroot, hhead⟩ ?_ (fun _ _ hw ↦ hw.unbroken)
  intro collection w hw hmembers
  apply wp_forM (I := fun rest w ↦ Guarded guard (some content) held w ∧ ∀ m ∈ rest, m.2 ∈ held)
  · intro m rest u hu
    obtain ⟨hu, hrest⟩ := hu
    rw [RingReceiver.exportMember, wp_bind]
    refine wp_mono (hu.wp_idle (uses_createParent_idle _)) ?_ (fun _ _ hv ↦ hv.unbroken)
    intro _ v hv
    rw [wp_context, wp_store]
    intro a y' hxy
    have hy' := hv.step hxy (by rintro tag ⟨⟩) (fun z' hz' ↦ hz'.kept _ (hrest m (by simp)))
    cases a with
    | error e => exact hy'.unbroken
    | ok _ => exact ⟨hy', fun m' hm ↦ hrest m' (by simp [hm])⟩
  · exact fun _ hu ↦ hu.1.unbroken
  · refine ⟨hw, ?_⟩
    intro m hm
    have hmem : m.2 ∈ links.tail := hmembers ▸ List.mem_map_of_mem hm
    exact hall m.2 (List.mem_of_mem_tail hmem)

theorem wp_exportRaw {J : NodeState × History → Prop} {hash : Hash} {name : Option String} {dest : Path}
    (hunbroken : ∀ x, J x → Unbroken x.2)
    (hidle : ∀ c x a y, Idle c → J x → Downloading env ticket c x a y → J y)
    (hexport : ∀ x target a y, J x → Downloading env ticket (.store (.exportBlob hash target)) x a y → Unbroken y.2)
    (hx : J x) :
    (RingReceiver.export hash .raw name dest).wp (Downloading env ticket) (fun _ y ↦ Unbroken y.2)
      (fun _ y ↦ Unbroken y.2) x := by
  rw [RingReceiver.export, wp_bind]
  refine wp_mono ((uses_exportPath_idle hash name dest).wp_invariant hidle hx) ?_ (fun _ y hy ↦ hunbroken y hy)
  intro path y hy
  rw [wp_context, wp_store]
  intro a z hyz
  have hz := hexport y path a z hy hyz
  cases a with
  | error e => exact hz
  | ok _ => exact hz

theorem Guarded.wp_export {name : Option String} {dest : Path} (hx : Guarded guard root held x)
    (hheld : guard.value.hash ∈ held) :
    (RingReceiver.export guard.value.hash .raw name dest).wp (Downloading env ticket) (fun _ y ↦ Unbroken y.2)
      (fun _ y ↦ Unbroken y.2) x := by
  apply wp_exportRaw (J := Guarded guard root held) (fun _ hy ↦ hy.unbroken)
  · intro c y a z hc hy hyz
    exact hy.step hyz hc.2 (fun _ _ ↦ hc.1 _)
  · intro y target a z hy hyz
    exact (hy.step hyz (by rintro tag ⟨⟩) (fun w hw ↦ hw.kept _ hheld)).unbroken
  · exact hx

theorem Guarded.wp_download (env : Env) (ticket : ShareTicket) (name : Option String) (dest : Path)
    (hx : Guarded guard none [] x) :
    (RingReceiver.download env guard.value.hash guard.value.format name dest RingReceiver.progress).wp
      (Downloading env ticket) (fun _ y ↦ Unbroken y.2) (fun _ y ↦ Unbroken y.2) x := by
  have hcovered : Covered guard none guard.value.hash := .inl rfl
  have hrest : ∀ y, Guarded guard none [guard.value.hash] y → (do
      if guard.value.format = .hashSeq then
        RingReceiver.fetchCollection env RingReceiver.progress guard.value.hash
      RingReceiver.export guard.value.hash guard.value.format name dest : Action Unit).wp
        (Downloading env ticket) (fun _ y ↦ Unbroken y.2) (fun _ y ↦ Unbroken y.2) y := by
    intro y hy
    dsimp only
    cases hformat : guard.value.format with
    | raw =>
      rw [if_neg (by decide)]
      exact hy.wp_export (List.mem_singleton_self _)
    | hashSeq =>
      rw [if_pos rfl, wp_bind]
      refine wp_mono (hy.wp_fetchCollection hformat (List.mem_singleton_self _)) ?_ (fun _ _ hz ↦ hz)
      intro _ z hz
      exact hz.wp_export
  rw [RingReceiver.download, wp_bind]
  refine wp_mono ((fetchRules_downloading hcovered).wp_isComplete hx) ?_ (fun _ _ hy ↦ hy.unbroken)
  intro complete y hy
  cases complete with
  | true => exact hrest y (hy.1.hold hcovered (hy.2 rfl))
  | false =>
    refine (wp_bind _ _).mpr ?_
    have hreported : (if guard.value.format = .raw then some RingReceiver.progress else none) =
        if decide (guard.value.format = .raw) then some RingReceiver.progress else none := by
      simp only [decide_eq_true_eq]
    rw [hreported]
    refine wp_mono (hy.1.wp_fetchBlob _ hcovered) ?_ (fun _ _ hz ↦ hz)
    intro _ z hz
    exact hrest z hz

theorem unbroken_of_step {c : Call} {a : c.Ans} (hx : Unbroken x.2) (hxy : Downloading env ticket c x a y)
    (hp : ∀ store, c.Present store) : Unbroken y.2 := by
  obtain ⟨z, hxz, hzy⟩ := hxy
  rw [hzy.1.2, history_of_collects hxz]
  exact hx.concat a (hp z.1.store)

/-- A raw blob that was found complete, with nothing but the guard of the collector to
protect it. -/
structure Quick (ticket : ShareTicket) (x : NodeState × History) : Prop where
  fast : FastPath ticket x.2
  kept : ticket.hash ∈ x.1.store.blobs
  unbroken : Unbroken x.2

theorem Quick.before (h : Quick ticket x) {c : Call} {a : c.Ans} (hxy : Downloading env ticket c x a y) :
    ∃ z, Quick ticket z ∧ Supplied env c z a y := by
  obtain ⟨z, hxz, hzy⟩ := hxy
  have hz : Quick ticket z := by
    clear hzy
    induction hxz with
    | refl => exact h
    | tail _ hstep ih =>
      obtain ⟨hguard, hgc, hhistory⟩ := hstep
      refine ⟨?_, ?_, ?_⟩
      · rw [hhistory]
        exact ih.fast
      · rw [hgc]
        exact (BlobStore.mem_gc (hguard ih.fast)).mpr ih.kept
      · rw [hhistory]
        exact ih.unbroken
  exact ⟨z, hz, hzy⟩

theorem Quick.step (h : Quick ticket x) {c : Call} {a : c.Ans} (hxy : Downloading env ticket c x a y)
    (hp : ∀ z, Quick ticket z → c.Present z.1.store) : Quick ticket y := by
  obtain ⟨z, hz, hzy⟩ := h.before hxy
  obtain ⟨hformat, s, size, rest, hhistory⟩ := hz.fast
  refine ⟨⟨hformat, s, size, rest ++ [(z.1, ⟨c, a⟩)], ?_⟩, answers_blobs hzy.1.1 hz.kept, ?_⟩
  · rw [hzy.1.2, hhistory]
    rfl
  · rw [hzy.1.2]
    exact hz.unbroken.concat a (hp z hz)

theorem Quick.wp_export {name : Option String} {dest : Path} (hx : Quick ticket x) :
    (RingReceiver.export ticket.hash .raw name dest).wp (Downloading env ticket) (fun _ y ↦ Unbroken y.2)
      (fun _ y ↦ Unbroken y.2) x := by
  apply wp_exportRaw (J := Quick ticket) (fun _ hy ↦ hy.unbroken)
  · intro c y a z hc hy hyz
    exact hy.step hyz (fun _ _ ↦ hc.1 _)
  · intro y target a z hy hyz
    exact (hy.step hyz (fun w hw ↦ hw.kept)).unbroken
  · exact hx

theorem held_tempTag {value : HashAndFormat} {guard : TempTag} (hx : Unbroken x.2)
    (hxy : Downloading env ticket (.store (.tempTag value)) x (.ok guard) y) :
    guard.value = value ∧ Guarded guard none [] y := by
  obtain ⟨z, hxz, hzy⟩ := hxy
  rcases answers_store (by simp) hzy.1.1 with ⟨ha, hs⟩ | ⟨⟨e, he⟩, _⟩
  · obtain rfl := Except.ok.inj ha
    refine ⟨rfl, ?_⟩
    constructor
    · rw [hs]
      exact (BlobStore.getElem?_addTempTag _ _ _).trans (if_pos rfl)
    · rw [hs]
      exact Nat.lt_succ_self _
    · rintro _ ⟨⟩
    · rintro _ ⟨⟩
    · rintro _ ⟨⟩
    · rw [hzy.1.2, history_of_collects hxz]
      exact hx.concat _ trivial
  · cases he

theorem wp_download_fetch (env : Env) (ticket : ShareTicket) (dest : Path) (hx : Unbroken x.2) : (do
    context "creating download scope" (store .batch)
    let guard ← context "creating temp tag" (store (.tempTag ⟨ticket.hash, ticket.format⟩))
    let result ← (do
      context "connecting to sender" (net (.connect ticket.addr .rings))
      RingReceiver.download env ticket.hash ticket.format ticket.name dest RingReceiver.progress).attempt
    dropTempTag guard
    .ofExcept result : Action Unit).wp (Downloading env ticket) (fun _ y ↦ Unbroken y.2) (fun _ y ↦ Unbroken y.2) x := by
  rw [wp_bind, wp_context, wp_store]
  intro a y hxy
  have hy := unbroken_of_step hx hxy (fun _ ↦ trivial)
  cases a with
  | error e => exact hy
  | ok _ =>
    rw [outcome_ok, wp_bind, wp_context, wp_store]
    intro b z hyz
    cases b with
    | error e => exact unbroken_of_step hy hyz (fun _ ↦ trivial)
    | ok guard =>
      obtain ⟨hvalue, hz⟩ := held_tempTag hy hyz
      have hdrop : ∀ (r : Except Error Unit) w, Unbroken w.2 → (do
          dropTempTag guard
          .ofExcept r : Action Unit).wp (Downloading env ticket) (fun _ y ↦ Unbroken y.2)
            (fun _ y ↦ Unbroken y.2) w := by
        intro r w hw
        rw [wp_bind, wp_dropTempTag]
        intro _ u hwu
        have hu := unbroken_of_step hw hwu (fun _ ↦ trivial)
        cases r with
        | error e => exact hu
        | ok _ => exact hu
      rw [outcome_ok, wp_bind, wp_attempt, wp_bind]
      have hconnect : (context "connecting to sender" (net (.connect ticket.addr .rings))).Uses Idle :=
        uses_context (uses_asking (.net (.connect ticket.addr .rings)) id ⟨fun _ ↦ trivial, by rintro tag ⟨⟩⟩)
      refine wp_mono (hz.wp_idle hconnect) ?_ (fun e w hw ↦ hdrop (.error e) w hw.unbroken)
      intro _ w hw
      have hdownload := hw.wp_download env ticket ticket.name dest
      rw [hvalue] at hdownload
      refine wp_mono hdownload ?_ (fun e u hu ↦ hdrop (.error e) u hu)
      intro _ u hu
      exact hdrop (.ok ()) u hu

end Guard

/-- Whatever a download reads of the store is there, whatever fails and however the
garbage collector comes in between, if no collection hits an unprotected blob between
the look at it and its export, and no sender waives a blob that is needed. -/
theorem download_unbroken {env : Env} {ticket : ShareTicket} {dest : Path} {s s' : NodeState}
    {r : Except Error Unit} {history : History}
    (h : Runs (interfered (collectsGuarded ticket) (Supplied env))
      (Node.download env ticket dest RingReceiver.progress) (s, []) r (s', history)) :
    ∀ e ∈ history, e.2.1.Present e.1.store := by
  have hstart : Unbroken ((s, []) : NodeState × History).2 := by rintro e ⟨⟩
  have hw : (Node.download env ticket dest RingReceiver.progress).wp (Downloading env ticket)
      (fun _ y ↦ Unbroken y.2) (fun _ y ↦ Unbroken y.2) (s, []) := by
    rw [Node.download]
    cases hformat : ticket.format with
    | hashSeq =>
      have hfetch := wp_download_fetch env ticket dest hstart
      rw [hformat] at hfetch
      exact hfetch
    | raw =>
      have hfetch := fun (y : NodeState × History) (hy : Unbroken y.2) ↦ wp_download_fetch env ticket dest hy
      rw [hformat] at hfetch
      rw [if_pos rfl, wp_bind, RingReceiver.isComplete, wp_bind, wp_attempt, wp_store]
      intro a y hxy
      have hy := unbroken_of_step hstart hxy (fun _ ↦ trivial)
      obtain ⟨z, hxz, hzy⟩ := hxy
      cases a with
      | error e => exact hfetch y hy
      | ok status =>
        cases status with
        | notFound => exact hfetch y hy
        | incomplete => exact hfetch y hy
        | complete size =>
          have hhistory : y.2 = [(z.1, ⟨.store (.status ticket.hash), .ok (.complete size)⟩)] := by
            rw [hzy.1.2, history_of_collects hxz]
            rfl
          have hquick : Quick ticket y :=
            ⟨⟨hformat, z.1, size, [], hhistory⟩, RingReceiver.mem_of_status hzy.1.1, hy⟩
          exact hquick.wp_export
  cases r with
  | ok v => exact h.ok_of_wp hw
  | error e => exact h.error_of_wp hw

def collecting (chosen : Call → Bool) (c : Call) (x : NodeState × History) : c.Ans × NodeState × History :=
  let z := if chosen c then { x.1 with store := x.1.store.gc } else x.1
  ((RingReceiver.answering ⟨[], none⟩ c z).1, (RingReceiver.answering ⟨[], none⟩ c z).2,
    x.2 ++ [(z, ⟨c, (RingReceiver.answering ⟨[], none⟩ c z).1⟩)])

def importless (c : Call) : Bool :=
  match c with
  | .store (.addPath _) => false
  | .store (.addBytes _ _) => false
  | _ => true

theorem answering_blobs {stream : RecvStream} {c : Call} {s : NodeState} (hc : importless c = true) :
    (RingReceiver.answering stream c s).2.store.blobs = s.store.blobs := by
  cases c with
  | store c =>
    cases c with
    | addPath path => cases hc
    | addBytes content format => cases hc
    | getBytes hash =>
      simp only [RingReceiver.answering, exec, StoreCall.exec]
      split <;> rfl
    | exportBlob hash target =>
      simp only [RingReceiver.answering, exec, StoreCall.exec]
      split <;> rfl
    | _ => rfl
  | _ => rfl

theorem runs_collecting {env : Env} {α : Type} {p : Action α} {s : NodeState} (chosen : Call → Bool)
    (hp : checked (collecting chosen) (fun c _ ↦ importless c) p (s, [])) :
    Runs (interfered collects (Supplied env)) p (s, []) (run (collecting chosen) p (s, [])).1
      (run (collecting chosen) p (s, [])).2 := by
  refine (runs_checked p (s, []) hp).mono ?_
  intro c x a y hxy
  obtain ⟨hstep, hc⟩ := hxy
  obtain ⟨rfl, rfl⟩ : (collecting chosen c x).1 = a ∧ (collecting chosen c x).2 = y :=
    ⟨congrArg Prod.fst hstep, congrArg Prod.snd hstep⟩
  refine ⟨(if chosen c then { x.1 with store := x.1.store.gc } else x.1, x.2), ?_, ⟨?_, rfl⟩, ?_, ?_⟩
  · split_ifs
    · exact .single ⟨rfl, rfl⟩
    · exact .refl
  · exact (RingReceiver.receiving_answering rfl).1
  · intro hash content hcontent
    exact (congrArg (·[hash]?) (answering_blobs hc)).trans hcontent
  · cases c with
    | recv =>
      rintro ⟨b, rest, hbytes, _⟩
      cases hbytes
    | _ => trivial

def sharedTicket : ShareTicket := ⟨.new (.fromByte 9), .fromByte 1, .hashSeq, some "a"⟩

def withCollection : NodeState :=
  { emptyNode with
    store := ((BlobStore.empty.addBlob ⟨.fromByte 1, 64, some [.fromByte 2, .fromByte 3], none⟩).addBlob
      ⟨.fromByte 2, 10, none, some ["b"]⟩).addBlob ⟨.fromByte 3, 5, none, none⟩ }

def fromTempTag : Call → Bool
  | .store .batch => false
  | .store (.tempTag _) => false
  | _ => true

/-- A collection that only the temp tag protects, with the garbage collector at work
before each later call. -/
theorem download_unbroken_collection : ∃ history : History, history.length = 16 ∧
    ∀ e ∈ history, e.2.1.Present e.1.store := by
  have hrun : Runs (interfered collects (Supplied (.plain [])))
      (Node.download (.plain []) sharedTicket (Path.ofString "a") RingReceiver.progress) (withCollection, []) _ _ :=
    runs_collecting fromTempTag (by decide +kernel)
  have hlength : (run (collecting fromTempTag) (Node.download (.plain []) sharedTicket (Path.ofString "a")
      RingReceiver.progress) (withCollection, [])).2.2.length = 16 := by
    decide +kernel
  refine ⟨_, hlength, download_unbroken (hrun.mono ?_)⟩
  intro c x a y hxy
  obtain ⟨z, hxz, hzy⟩ := hxy
  have hguarded : ∀ u v, collects u v → collectsGuarded sharedTicket u v := by
    intro u v huv
    refine ⟨?_, huv⟩
    rintro ⟨hraw, _⟩
    cases hraw
  exact ⟨z, Relation.ReflTransGen.mono hguarded _ _ hxz, hzy⟩

def withRawBlob : NodeState :=
  { emptyNode with store := BlobStore.empty.addBlob ⟨.fromByte 1, 5, none, none⟩ }

def fromExport : Call → Bool
  | .store (.status _) => false
  | _ => true

def exportsMissing (e : NodeState × (c : Call) × c.Ans) : Bool :=
  match e.2.1 with
  | .store (.exportBlob hash _) => e.1.store.blobs[hash]?.isNone
  | _ => false

theorem not_present_of_exportsMissing {e : NodeState × (c : Call) × c.Ans} (h : exportsMissing e = true) :
    ¬ e.2.1.Present e.1.store := by
  obtain ⟨s, c, a⟩ := e
  unfold exportsMissing at h
  dsimp only at h
  split at h
  · intro hpresent
    rw [Std.ExtTreeMap.getElem?_eq_some_getElem hpresent] at h
    cases h
  · cases h

/-- A raw blob that was found complete is collected before it is exported. -/
theorem download_collected : ¬ ∀ (env : Env) (ticket : ShareTicket) (dest : Path) (s s' : NodeState)
    (r : Except Error Unit) (history : History),
    Runs (interfered collects (Supplied env)) (Node.download env ticket dest RingReceiver.progress) (s, []) r
      (s', history) →
    ∀ e ∈ history, e.2.1.Present e.1.store := by
  intro h
  have hrun : Runs (interfered collects (Supplied (.plain [])))
      (Node.download (.plain []) (namedTicket "a") (Path.ofString "a") RingReceiver.progress) (withRawBlob, []) _ _ :=
    runs_collecting fromExport (by decide +kernel)
  have hmissing : (run (collecting fromExport) (Node.download (.plain []) (namedTicket "a") (Path.ofString "a")
      RingReceiver.progress) (withRawBlob, [])).2.2.any exportsMissing = true := by
    decide +kernel
  obtain ⟨e, he, hexports⟩ := List.any_eq_true.mp hmissing
  exact not_present_of_exportsMissing hexports (h _ _ _ _ _ _ _ hrun e he)

end Node

end Ringdrop
