import Ringdrop.Core.CatalogNoninterference
import Ringdrop.Core.Node

namespace Ringdrop.Node

open Library Program Catalog

def peerRings (r : Registry) (now : SystemTime) (peer : EndpointId) : List String :=
  ((r.listRings.filter (fun ring ↦ !ring.isOpen)).filter
    (fun ring ↦ r.isLiveMember now ring.name peer)).map Ring.name ++ [openRingName]

def inSomeRing (r : Registry) (rings : List String) (hash : Hash) : Bool :=
  (r.listResourceRings hash).any (fun a ↦ rings.contains a.1.name)

def readableIn (r : Registry) (rings : List String) (hash : Hash) : Bool :=
  (r.listResourceRings hash).any (fun a ↦ rings.contains a.1.name && a.2.contains .read)

def tagsIn (s : NodeState) (rings : List String) : List TagInfo :=
  s.store.listTags.filter (fun t ↦ inSomeRing s.registry rings t.hash)

def blobEntry (store : BlobStore) (info : TagInfo) : BlobListEntry :=
  ⟨info.hash, info.format, Utf8.fromUtf8Lossy info.name, (countAndSize store info.hash info.format).1,
    (countAndSize store info.hash info.format).2⟩

theorem mem_peerRings {r : Registry} {now : SystemTime} {peer : EndpointId} {ring : String}
    (h : ring ∈ r.rings) :
    ring ∈ peerRings r now peer ↔ ring = openRingName ∨ r.isLiveMember now ring peer := by
  have hmem : (⟨ring⟩ : Ring) ∈ r.listRings := Registry.mem_listRings.mpr h
  unfold peerRings
  constructor
  · intro hr
    rcases List.mem_append.mp hr with hr | hr
    · obtain ⟨x, hx, rfl⟩ := List.mem_map.mp hr
      exact .inr (List.mem_filter.mp hx).2
    · exact .inl (List.mem_singleton.mp hr)
  · intro hr
    by_cases hopen : ring = openRingName
    · exact List.mem_append_right _ (by simp [hopen])
    · have hlive : r.isLiveMember now ring peer := hr.resolve_left hopen
      apply List.mem_append_left
      refine List.mem_map.mpr ⟨⟨ring⟩, List.mem_filter.mpr ⟨List.mem_filter.mpr ⟨hmem, ?_⟩, hlive⟩, rfl⟩
      simp [Ring.isOpen, hopen]

theorem readableIn_peerRings (r : Registry) (now : SystemTime) (peer : EndpointId) (hash : Hash) :
    readableIn r (peerRings r now peer) hash = r.hasPermission now peer hash .read := by
  have hone : ∀ a ∈ r.listResourceRings hash,
      ((peerRings r now peer).contains a.1.name && a.2.contains .read) =
        (a.2.contains .read && (a.1.isOpen || r.isLiveMember now a.1.name peer)) := by
    intro a ha
    have hassoc : a.1.name ∈ r.associations hash :=
      Std.ExtTreeMap.mem_iff_isSome_getElem?.mpr (by simp [Registry.mem_listResourceRings.mp ha])
    have hring : a.1.name ∈ peerRings r now peer ↔ _ :=
      mem_peerRings (Registry.mem_rings_of_mem_associations hassoc)
    have hopen : a.1.isOpen = decide (a.1.name = openRingName) := rfl
    rw [Bool.eq_iff_iff]
    simp only [Bool.and_eq_true, Bool.or_eq_true, List.contains_iff_mem, hring, hopen, decide_eq_true_eq]
    exact and_comm
  unfold readableIn Registry.hasPermission
  rw [Bool.eq_iff_iff, List.any_eq_true, List.any_eq_true]
  exact exists_congr fun a ↦ and_congr_right fun ha ↦ by rw [hone a ha]

section Reading

variable {ω : Type} {R : (c : Call) → NodeState → c.Ans → NodeState → Prop} {out : (c : Call) → c.Ans → List ω}
  {s : NodeState}

theorem emits_filterAction {α : Type} {keep : α → Action Bool} {p : α → Bool} {o : α → List ω}
    (h : ∀ x, Emits R out s (keep x) (o x) (some (p x))) (xs : List α) :
    Emits R out s (filterAction keep xs) (xs.flatMap o) (some (xs.filter p)) := by
  have hfold : ∀ kept, xs.foldl (fun kept x ↦ if p x then kept ++ [x] else kept) kept =
      kept ++ xs.filter p := by
    induction xs with
    | nil => simp
    | cons x xs ih =>
      intro kept
      cases hx : p x <;> simp [hx, ih]
  have hsteps : Emits R out s (filterAction keep xs) (xs.flatMap o)
      (some (xs.foldl (fun kept x ↦ if p x then kept ++ [x] else kept) [])) := by
    refine Emits.foldlM_flatMap fun kept x ↦ ?_
    rw [← List.append_nil (o x)]
    refine (h x).bind ?_
    cases p x <;> exact emits_ret _
  rwa [hfold, List.nil_append] at hsteps

theorem emits_filterAction_quiet {α : Type} {keep : α → Action Bool} {p : α → Bool}
    (h : ∀ x, Emits R out s (keep x) [] (some (p x))) (xs : List α) :
    Emits R out s (filterAction keep xs) [] (some (xs.filter p)) := by
  have hall := emits_filterAction h xs
  rwa [List.flatMap_eq_nil_iff.mpr fun _ _ ↦ rfl] at hall

theorem emits_describe (h : ReadsStore R out) (info : TagInfo) :
    Emits R out s (describe info) [] (some (blobEntry s.store info)) := by
  unfold describe
  refine (emits_fileCountAndSize h info.hash info.format).bind (d := []) ?_
  exact emits_ret _

theorem emits_describeAll (h : ReadsStore R out) (infos : List TagInfo) :
    Emits R out s (describeAll infos) [] (some (infos.map (blobEntry s.store))) := by
  have hfold : ∀ blobs, infos.foldl (fun blobs info ↦ blobs ++ [blobEntry s.store info]) blobs =
      blobs ++ infos.map (blobEntry s.store) := by
    induction infos with
    | nil => simp
    | cons info infos ih => simp [ih]
  rw [← List.nil_append (infos.map _), ← hfold]
  refine Emits.foldlM fun blobs info ↦ ?_
  exact (emits_describe h info).bind (emits_ret _)

theorem emits_listTags (h : ReadsStore R out) : Emits R out s Node.listTags [] (some s.store.listTags) := by
  have hitems : Emits R out s (store .listTags) [] (some (s.store.listTags.map .ok)) := emits_store h rfl
  refine hitems.bind (d := []) ?_
  rw [mapM_ok]
  exact emits_ret _

end Reading

section Listing

variable {peer : EndpointId} {s : NodeState}

theorem emits_registry {c : RegistryCall} {v : c.Reply}
    (hc : c.exec s.clock s.registry = (.ok v, s.registry))
    (hp : ∀ hash, c ≠ .hasPermission peer hash .read) :
    Emits (Serving peer) sentBytes s (registry c) [] (some v) := by
  refine emits_call fun a s' h ↦ ?_
  obtain ⟨rfl, rfl⟩ : s' = s ∧ a = .ok v := by
    cases h with
    | exec => exact ⟨by simp [exec, hc], by simp [exec, hc]⟩
    | failed s hash e => exact absurd rfl (hp hash)
  exact ⟨rfl, [], rfl, emits_ret v⟩

theorem emits_inRing (ring : Ring) :
    Emits (Serving peer) sentBytes s (inRing peer ring) []
      (some (s.registry.isLiveMember s.clock ring.name peer)) := by
  refine emits_call fun a s' h ↦ ?_
  obtain ⟨rfl, rfl⟩ : s' = s ∧ a = s.registry.listRingPeers s.clock ring.name := by
    cases h with
    | exec => exact ⟨rfl, rfl⟩
  refine ⟨rfl, [], rfl, ?_⟩
  cases hms : s'.registry.listRingPeers s'.clock ring.name with
  | ok ms =>
    have hlive : ms.any (fun m ↦ m.peer = peer) = s'.registry.isLiveMember s'.clock ring.name peer := by
      rw [Bool.eq_iff_iff, ← Registry.mem_listRingPeers hms peer]
      simp
    rw [← hlive]
    exact emits_ret _
  | error e =>
    -- a ring that is not there has no members
    have hnone : s'.registry.isLiveMember s'.clock ring.name peer = false := by
      unfold Registry.listRingPeers at hms
      split at hms
      · cases hms
      · next hr =>
        simp [Registry.isLiveMember, Registry.members, Std.ExtTreeMap.getD_eq_fallback hr]
    rw [hnone]
    exact emits_ret _

theorem emits_peerRingSet {env : Env} {ps : String} (hp : parsePeerId env ps = .ok peer) :
    Emits (Serving peer) sentBytes s (peerRingSet env ps) []
      (some (peerRings s.registry s.clock peer)) := by
  unfold peerRingSet
  rw [hp]
  have hrings : Emits (Serving peer) sentBytes s (registry .listRings) [] (some s.registry.listRings) :=
    emits_registry rfl (by simp)
  exact hrings.bind ((emits_filterAction_quiet emits_inRing _).bind (emits_ret _))

theorem emits_passes (pset rset : Option (List String)) (info : TagInfo) :
    Emits (Serving peer) sentBytes s (passes pset rset info) []
      (some (rset.all (fun rings ↦ inSomeRing s.registry rings info.hash) &&
        pset.all (fun rings ↦ readableIn s.registry rings info.hash))) := by
  have hrings : Emits (Serving peer) sentBytes s (registry (.listResourceRings info.hash)) []
      (some (s.registry.listResourceRings info.hash)) := emits_registry rfl (by simp)
  refine hrings.attempt (d := []) ?_ (by simp)
  intro v hv
  obtain rfl := Option.some.inj hv
  exact emits_ret _

theorem emits_retained (pset rset : Option (List String)) (raw : List TagInfo) :
    Emits (Serving peer) sentBytes s (retained pset rset raw) []
      (some (raw.filter (fun info ↦ rset.all (fun rings ↦ inSomeRing s.registry rings info.hash) &&
        pset.all (fun rings ↦ readableIn s.registry rings info.hash)))) := by
  unfold retained
  split
  next h => exact emits_filterAction_quiet (emits_passes pset rset) raw
  next h =>
    obtain ⟨rfl, rfl⟩ : pset = none ∧ rset = none := by simpa using h
    have hraw : raw.filter (fun _ ↦ true) = raw := List.filter_eq_self.mpr (fun _ _ ↦ rfl)
    exact (congrArg (fun tags ↦ Emits (Serving peer) sentBytes s (ret raw) [] (some tags)) hraw).mpr
      (emits_ret raw)

theorem emits_listBlobs {env : Env} {ps : Option String} {pset : Option (List String)}
    (rset : Option (List String))
    (hp : ∀ q, ps = some q → parsePeerId env q = .ok peer)
    (hpset : pset = ps.map (fun _ ↦ peerRings s.registry s.clock peer)) :
    Emits (Serving peer) sentBytes s (listBlobs env ps rset) []
      (some ((s.store.listTags.filter (fun info ↦
        rset.all (fun rings ↦ inSomeRing s.registry rings info.hash) &&
          pset.all (fun rings ↦ readableIn s.registry rings info.hash))).map (blobEntry s.store))) := by
  have hend : Emits (Serving peer) sentBytes s (retained pset rset s.store.listTags >>= describeAll) [] _ :=
    (emits_retained pset rset s.store.listTags).bind (emits_describeAll readsStore_serving _)
  unfold listBlobs
  refine (emits_listTags readsStore_serving).bind (d := []) ?_
  cases ps with
  | none =>
    subst hpset
    exact hend
  | some q =>
    have hset : Emits (Serving peer) sentBytes s (some <$> peerRingSet env q) [] (some pset) := by
      subst hpset
      rw [map_eq_pure_bind]
      exact (emits_peerRingSet (hp q rfl)).bind (emits_ret _)
    exact hset.bind hend

end Listing

/-- For every node and peer: the audit view of what a peer may read lists the tags that
are streamed to the peer, with order and multiplicity. The streamed frames end early
with an error only at a tag whose frame cannot be written. The rings of a further
filter cut both views down in the same way. -/
theorem listBlobs_streamed {env : Env} {ps : String} {peer : EndpointId} {s : NodeState}
    (hp : parsePeerId env ps = .ok peer) (hg : s.localStore.hasGrant .blobList peer)
    (rings : List String) :
    (∀ r s' log, Runs (logged (Serving peer)) (handleBlobList env peer) (s, []) r (s', log) →
      output sentBytes log = allowed :: (loopOutput (tagFrame env (relayOnlyAddr s.endpoint) s.store)
          (permittedTags s peer)).1 ∧
        r.toOption = unitIf (loopOutput (tagFrame env (relayOnlyAddr s.endpoint) s.store)
          (permittedTags s peer)).2) ∧
    (∀ r s' log, Runs (logged (Serving peer)) (listBlobs env (some ps) none) (s, []) r (s', log) →
      r = .ok ((permittedTags s peer).map (blobEntry s.store))) ∧
    (∀ r s' log, Runs (logged (Serving peer)) (listBlobs env none (some rings)) (s, []) r (s', log) →
      r = .ok ((tagsIn s rings).map (blobEntry s.store))) ∧
    (∀ r s' log, Runs (logged (Serving peer)) (listBlobs env (some ps) (some rings)) (s, []) r (s', log) →
      r = .ok (((permittedTags s peer).filter (· ∈ tagsIn s rings)).map (blobEntry s.store))) := by
  have hread : ∀ info : TagInfo, readableIn s.registry (peerRings s.registry s.clock peer) info.hash =
      s.registry.hasPermission s.clock peer info.hash .read :=
    fun info ↦ readableIn_peerRings s.registry s.clock peer info.hash
  have hok : ∀ {α : Type} {r : Except Error α} {v : α}, r.toOption = some v → r = .ok v := by
    intro α r v h
    cases r with
    | ok w => exact congrArg Except.ok (Option.some.inj h)
    | error e => cases h
  refine ⟨?_, ?_, ?_, ?_⟩
  · intro r s' log hr
    obtain ⟨hout, -, hres⟩ := (emits_handleBlobList env).output_eq hr
    rw [response, hg] at hout hres
    exact ⟨hout, hres⟩
  · intro r s' log hr
    obtain ⟨-, -, hres⟩ := (emits_listBlobs none (by rintro q ⟨⟩; exact hp) rfl).output_eq hr
    rw [hok hres]
    simp only [Option.map_some, Option.all_none, Option.all_some, Bool.true_and, hread, permittedTags]
  · intro r s' log hr
    obtain ⟨-, -, hres⟩ := (emits_listBlobs (some rings) (by simp) rfl).output_eq hr
    rw [hok hres]
    simp only [Option.map_none, Option.all_none, Option.all_some, Bool.and_true, tagsIn]
  · intro r s' log hr
    obtain ⟨-, -, hres⟩ := (emits_listBlobs (some rings) (by rintro q ⟨⟩; exact hp) rfl).output_eq hr
    rw [hok hres]
    have hfilter : (permittedTags s peer).filter (· ∈ tagsIn s rings) =
        s.store.listTags.filter (fun info ↦ inSomeRing s.registry rings info.hash &&
          s.registry.hasPermission s.clock peer info.hash .read) := by
      rw [permittedTags, List.filter_filter]
      refine List.filter_congr fun info hinfo ↦ ?_
      simp [tagsIn, hinfo]
    simp only [Option.map_some, Option.all_some, hread, hfilter]

/-- A node that serves a single blob to everybody, under a tag of the given name. -/
def sharingUnder (name : Bytes) : NodeState where
  endpoint := .new (.fromByte 9)
  clock := 0
  registry := sharedRegistry
  localStore := LocalStore.empty.insertGrant .blobList (.fromByte 7)
  store := (BlobStore.empty.addBlob ⟨.fromByte 1, 5, none, none⟩).setTag name ⟨.fromByte 1, .raw⟩
  fs := .home

theorem permittedTags_sharingUnder (name : Bytes) :
    permittedTags (sharingUnder name) (.fromByte 7) = [⟨name, .fromByte 1, .raw⟩] := by
  have hp : sharedRegistry.hasPermission 0 (.fromByte 7) (.fromByte 1) .read = true := by
    decide
  exact List.filter_cons_of_pos hp

/-- A node with two tags of a shared blob and one of a blob that is not shared. -/
def hidingNode : NodeState := servingNode (.fromByte 7) [([97], .fromByte 2), ([122], .fromByte 1)]

/-- The views agree on the two tags. -/
theorem listBlobs_streamed_hiding :
    output sentBytes (run execLogged (handleBlobList (.plain []) (.fromByte 7)) (hidingNode, [])).2.2 =
      allowed :: (loopOutput (tagFrame (.plain []) (relayOnlyAddr hidingNode.endpoint) hidingNode.store)
        [⟨[104, 105], .fromByte 1, .raw⟩, ⟨[122], .fromByte 1, .raw⟩]).1 ∧
    (run execLogged (listBlobs (.plain []) (some (toString (EndpointId.fromByte 7))) (some ["open"]))
        (hidingNode, [])).1 =
      .ok ([⟨[104, 105], .fromByte 1, .raw⟩, ⟨[122], .fromByte 1, .raw⟩].map (blobEntry hidingNode.store)) := by
  have hp : parsePeerId (.plain []) (toString (EndpointId.fromByte 7)) = .ok (.fromByte 7) := rfl
  have hgrant : hidingNode.localStore.hasGrant .blobList (.fromByte 7) = true := by decide
  have hpermitted : permittedTags hidingNode (.fromByte 7) =
      [⟨[104, 105], .fromByte 1, .raw⟩, ⟨[122], .fromByte 1, .raw⟩] := by
    decide +kernel
  have hopen : (permittedTags hidingNode (.fromByte 7)).filter (· ∈ tagsIn hidingNode ["open"]) =
      [⟨[104, 105], .fromByte 1, .raw⟩, ⟨[122], .fromByte 1, .raw⟩] := by
    decide +kernel
  obtain ⟨hstream, -, -, hboth⟩ := listBlobs_streamed hp hgrant ["open"]
  rw [hopen] at hboth
  rw [hpermitted] at hstream
  have hserved : Runs (logged (Serving (.fromByte 7))) (handleBlobList (.plain []) (.fromByte 7)) (hidingNode, []) _ _ :=
    runs_execLogged .exec _ _
  have hlisted : Runs (logged (Serving (.fromByte 7)))
      (listBlobs (.plain []) (some (toString (EndpointId.fromByte 7))) (some ["open"])) (hidingNode, []) _ _ :=
    runs_execLogged .exec _ _
  obtain ⟨⟨r, s', log⟩, hx⟩ : ∃ x, run execLogged (handleBlobList (.plain []) (.fromByte 7)) (hidingNode, []) = x :=
    ⟨_, rfl⟩
  obtain ⟨⟨r', t', log'⟩, hy⟩ : ∃ y, run execLogged (listBlobs (.plain []) (some (toString (EndpointId.fromByte 7)))
      (some ["open"])) (hidingNode, []) = y :=
    ⟨_, rfl⟩
  rw [hx] at hserved ⊢
  rw [hy] at hlisted ⊢
  exact ⟨(hstream r s' log hserved).1, hboth r' t' log' hlisted⟩

theorem tagFrame_longName (addr : EndpointAddr) (store : BlobStore) {n : ℕ} (hn : 2 ^ 16 ≤ n) :
    tagFrame (.plain []) addr store ⟨List.replicate n 97, .fromByte 1, .raw⟩ =
      ((Hash.fromByte 1).asBytes ++ [formatByte .raw], false) := by
  have hname : Utf8.toBytes (Utf8.fromUtf8Lossy (List.replicate n 97)) = List.replicate n 97 :=
    Utf8.toBytes_fromUtf8Lossy (by intro b hb; rw [List.eq_of_mem_replicate hb]; decide)
  have hlong : lengthPrefixed (List.replicate n 97) = ([], false) :=
    if_neg (by rw [List.length_replicate]; omega)
  change frame (.fromByte 1) .raw (Utf8.fromUtf8Lossy (List.replicate n 97)) _ _ _ = _
  rw [frame, hname, hlong]
  rfl

/-- A name of 65536 bytes is listed by the audit and breaks the stream off. -/
theorem listBlobs_longName : ∃ s : NodeState, s.localStore.hasGrant .blobList (.fromByte 7) = true ∧
    (∃ s' log, Runs (logged (Serving (.fromByte 7)))
      (listBlobs (.plain []) (some (toString (EndpointId.fromByte 7))) none) (s, [])
      (.ok [blobEntry s.store ⟨List.replicate (2 ^ 16) 97, .fromByte 1, .raw⟩]) (s', log)) ∧
    ∃ e s' log, Runs (logged (Serving (.fromByte 7))) (handleBlobList (.plain []) (.fromByte 7)) (s, [])
      (.error e) (s', log) ∧
      output sentBytes log = allowed :: ((Hash.fromByte 1).asBytes ++ [formatByte .raw]) := by
  let s := sharingUnder (List.replicate (2 ^ 16) 97)
  have hg : s.localStore.hasGrant .blobList (.fromByte 7) = true :=
    show (LocalStore.empty.insertGrant .blobList (.fromByte 7)).hasGrant .blobList (.fromByte 7) = true by
      decide
  have hpermitted : permittedTags s (.fromByte 7) = _ := permittedTags_sharingUnder _
  have hanswers : ∀ c s, ∃ a s', Serving (.fromByte 7) c s a s' := fun c s ↦ ⟨_, _, .exec c s⟩
  refine ⟨s, hg, ?_, ?_⟩
  · have hlist : Emits (Serving (.fromByte 7)) sentBytes s (listBlobs (.plain [])
        (some (toString (EndpointId.fromByte 7))) none) [] _ :=
      emits_listBlobs none (by rintro q ⟨⟩; rfl) rfl
    obtain ⟨v, log, hr, -, hv⟩ := hlist.exists_runs hanswers
    simp only [Option.map_some, Option.all_none, Option.all_some, Bool.true_and, readableIn_peerRings] at hv
    change v.toOption = some ((permittedTags s (.fromByte 7)).map (blobEntry s.store)) at hv
    rw [hpermitted] at hv
    cases v with
    | ok tags =>
      obtain rfl := Option.some.inj hv
      exact ⟨s, log, hr⟩
    | error e => cases hv
  · obtain ⟨v, log, hr, hout, hv⟩ := (emits_handleBlobList (.plain [])).exists_runs hanswers (s := s)
    have hframes : response (.plain []) s (.fromByte 7) = _ := if_pos hg
    rw [hframes, hpermitted, loopOutput, tagFrame_longName _ _ (Nat.le_refl _)] at hout hv
    cases v with
    | ok u => cases hv
    | error e => exact ⟨e, s, log, hr, hout⟩

end Ringdrop.Node
