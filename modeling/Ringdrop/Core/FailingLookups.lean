import Ringdrop.Core.CatalogAudit

namespace Ringdrop.Node

open Library Program Catalog

def lookup (fails : RegistryCall → Option Error) (s : NodeState) (c : RegistryCall) : Except Error c.Reply :=
  match fails c with
  | some e => .error e
  | none => (c.exec s.clock s.registry).1

/-- A node whose registry fails on some lookups. A lookup that fails changes nothing. -/
def failing (fails : RegistryCall → Option Error) : (c : Call) → NodeState → c.Ans × NodeState
  | .registry c, s => (lookup fails s c, if (fails c).isSome then s else (exec (.registry c) s).2)
  | c, s => exec c s

def failures : (c : Call) → c.Ans → List RegistryCall
  | .registry c, .error _ => [c]
  | _, _ => []

def failed (fails : RegistryCall → Option Error) (s : NodeState) (c : RegistryCall) : List RegistryCall :=
  match lookup fails s c with
  | .ok _ => []
  | .error _ => [c]

/-- The lookups of a listing with a filter that fail behind its back. -/
def swallowed (fails : RegistryCall → Option Error) (s : NodeState) (peer : Option String) : List RegistryCall :=
  (if peer.isSome then
    (s.registry.listRings.filter (fun ring ↦ !ring.isOpen)).flatMap (fun ring ↦ failed fails s (.listRingPeers ring.name))
  else []) ++ s.store.listTags.flatMap (fun info ↦ failed fails s (.listResourceRings info.hash))

section Listing

variable {fails : RegistryCall → Option Error} {s : NodeState}

theorem readsStore_failing : ReadsStore (graph (failing fails)) failures where
  answers _ _ _ _ h := ⟨(congrArg Prod.fst h).symm, (congrArg Prod.snd h).symm⟩
  quiet _ _ := rfl

theorem failing_registry {c : RegistryCall} (hc : (c.exec s.clock s.registry).2 = s.registry) :
    failing fails (.registry c) s = (lookup fails s c, s) := by
  have hsame : (exec (.registry c) s).2 = s := by
    change { s with registry := (c.exec s.clock s.registry).2 } = s
    rw [hc]
  change (lookup fails s c, if (fails c).isSome then s else (exec (.registry c) s).2) = _
  rw [hsame, ite_self]

theorem failures_lookup (c : RegistryCall) : failures (.registry c) (lookup fails s c) = failed fails s c := by
  unfold failed
  cases lookup fails s c <;> rfl

theorem emits_registry_failing {c : RegistryCall} (hc : (c.exec s.clock s.registry).2 = s.registry) :
    Emits (graph (failing fails)) failures s (registry c) (failed fails s c) (lookup fails s c).toOption := by
  refine emits_call fun a s' h ↦ ?_
  obtain ⟨rfl, rfl⟩ := Prod.mk.inj ((failing_registry hc).symm.trans h)
  refine ⟨rfl, [], ?_, ?_⟩
  · rw [failures_lookup, List.append_nil]
  · change Emits _ _ _ (Program.ofExcept (lookup fails s c)) _ _
    cases lookup fails s c with
    | ok v => exact emits_ret v
    | error e => exact emits_fail e

theorem emits_attempt_failing {α : Type} {c : RegistryCall} (hc : (c.exec s.clock s.registry).2 = s.registry)
    {f : Except Error c.Reply → Action α} {v : α}
    (hf : f (lookup fails s c) = .ret v) :
    Emits (graph (failing fails)) failures s ((registry c).attempt >>= f) (failed fails s c) (some v) := by
  refine emits_call fun a s' h ↦ ?_
  obtain ⟨rfl, rfl⟩ := Prod.mk.inj ((failing_registry hc).symm.trans h)
  refine ⟨rfl, [], ?_, ?_⟩
  · rw [failures_lookup, List.append_nil]
  · have hdone : ((Program.ofExcept (lookup fails s c) : Action c.Reply).attempt >>= f) = .ret v := by
      rw [← hf]
      cases lookup fails s c <;> rfl
    change Emits _ _ _ ((Program.ofExcept (lookup fails s c)).attempt >>= f) _ _
    rw [hdone]
    exact emits_ret v

def foundIn (peer : EndpointId) : Except Error (List Member) → Bool
  | .ok members => members.any (fun m ↦ m.peer = peer)
  | .error _ => false

theorem emits_inRing_failing (peer : EndpointId) (ring : Ring) :
    Emits (graph (failing fails)) failures s (inRing peer ring) (failed fails s (.listRingPeers ring.name))
      (some (foundIn peer (lookup fails s (.listRingPeers ring.name)))) := by
  refine emits_attempt_failing rfl ?_
  unfold foundIn
  cases lookup fails s (.listRingPeers ring.name) <;> rfl

def orNone (blobRings : Except Error (List (Ring × List Permission))) : List (Ring × List Permission) :=
  blobRings.toOption.getD []

theorem emits_passes_failing (pset rset : Option (List String)) (info : TagInfo) :
    Emits (graph (failing fails)) failures s (passes pset rset info) (failed fails s (.listResourceRings info.hash))
      (some (rset.all (fun rings ↦ (orNone (lookup fails s (.listResourceRings info.hash))).any
          (fun r ↦ rings.contains r.1.name)) &&
        pset.all (fun rings ↦ (orNone (lookup fails s (.listResourceRings info.hash))).any
          (fun r ↦ rings.contains r.1.name && r.2.contains .read)))) := by
  refine emits_attempt_failing rfl ?_
  cases lookup fails s (.listResourceRings info.hash) <;> rfl

theorem emits_peerRingSet_failing {env : Env} {text : String} {peer : EndpointId} {rings : List Ring}
    (hparse : parsePeerId env text = .ok peer) (hrings : lookup fails s .listRings = .ok rings) :
    ∃ pset, Emits (graph (failing fails)) failures s (peerRingSet env text)
      ((rings.filter (fun ring ↦ !ring.isOpen)).flatMap (fun ring ↦ failed fails s (.listRingPeers ring.name)))
      (some pset) := by
  have hlist : Emits (graph (failing fails)) failures s (registry .listRings) [] (some rings) := by
    have hlookup : Emits (graph (failing fails)) failures s (registry .listRings) (failed fails s .listRings)
        (lookup fails s .listRings).toOption := emits_registry_failing rfl
    rwa [failed, hrings] at hlookup
  have hmine : Emits (graph (failing fails)) failures s _ _ _ :=
    emits_filterAction (emits_inRing_failing peer) (rings.filter (fun ring ↦ !ring.isOpen))
  have hend : Emits (graph (failing fails)) failures s _ _ _ :=
    hmine.bind (f := fun mine ↦ return mine.map Ring.name ++ [openRingName]) (emits_ret _)
  rw [List.append_nil] at hend
  unfold peerRingSet
  rw [hparse]
  exact ⟨_, hlist.bind hend⟩

theorem lookup_listRings (hrings : fails .listRings = none) :
    lookup fails s .listRings = .ok s.registry.listRings := by
  unfold lookup
  rw [hrings]
  rfl

theorem emits_describedTags (pset rset : Option (List String)) (hfilter : pset.isSome ∨ rset.isSome) :
    ∃ blobs, Emits (graph (failing fails)) failures s (retained pset rset s.store.listTags >>= describeAll)
      (s.store.listTags.flatMap (fun info ↦ failed fails s (.listResourceRings info.hash))) (some blobs) := by
  have hkept : ∃ infos, Emits (graph (failing fails)) failures s (retained pset rset s.store.listTags)
      (s.store.listTags.flatMap (fun info ↦ failed fails s (.listResourceRings info.hash))) (some infos) := by
    unfold retained
    rw [if_pos hfilter]
    exact ⟨_, emits_filterAction (emits_passes_failing pset rset) s.store.listTags⟩
  obtain ⟨infos, hkept⟩ := hkept
  have hend : Emits (graph (failing fails)) failures s _ _ _ :=
    hkept.bind (emits_describeAll readsStore_failing infos)
  rw [List.append_nil] at hend
  exact ⟨_, hend⟩

theorem emits_listBlobs_failing {env : Env} {peer : Option String} {rings : Option (List String)}
    (hfilter : peer.isSome ∨ rings.isSome)
    (hpeer : ∀ text, peer = some text → (∃ id, parsePeerId env text = .ok id) ∧ fails .listRings = none) :
    ∃ blobs, Emits (graph (failing fails)) failures s (listBlobs env peer rings) (swallowed fails s peer)
      (some blobs) := by
  unfold listBlobs swallowed
  cases peer with
  | none =>
    obtain ⟨blobs, hend⟩ : ∃ blobs, Emits (graph (failing fails)) failures s _ _ (some blobs) :=
      emits_describedTags none rings hfilter
    exact ⟨blobs, (emits_listTags readsStore_failing).bind ((emits_ret none).bind hend)⟩
  | some text =>
    obtain ⟨⟨id, hid⟩, hrings⟩ := hpeer text rfl
    obtain ⟨pset, hset⟩ := emits_peerRingSet_failing hid (lookup_listRings (s := s) hrings)
    obtain ⟨blobs, hend⟩ : ∃ blobs, Emits (graph (failing fails)) failures s _ _ (some blobs) :=
      emits_describedTags (some pset) rings (.inl rfl)
    have hsome : Emits (graph (failing fails)) failures s _ _ _ := hset.bind (f := fun v ↦ ret (some v)) (emits_ret _)
    rw [List.append_nil] at hsome
    exact ⟨blobs, (emits_listTags readsStore_failing).bind (hsome.bind hend)⟩

theorem emits_listBlobs_error {env : Env} {text : String} {rings : Option (List String)}
    (hpeer : (∀ id, parsePeerId env text ≠ .ok id) ∨ fails .listRings ≠ none) :
    ∃ fs, Emits (graph (failing fails)) failures s (listBlobs env (some text) rings) fs none := by
  have hset : ∃ fs, Emits (graph (failing fails)) failures s (peerRingSet env text) fs none := by
    unfold peerRingSet
    cases hparse : parsePeerId env text with
    | error e => exact ⟨[], emits_fail e⟩
    | ok id =>
      obtain ⟨e, he⟩ := Option.ne_none_iff_exists'.mp (hpeer.resolve_left fun h ↦ h id hparse)
      have hfail : Emits (graph (failing fails)) failures s (registry .listRings) (failed fails s .listRings)
          (lookup fails s .listRings).toOption := emits_registry_failing rfl
      have hnone : (lookup fails s .listRings).toOption = none := by
        unfold lookup
        rw [he]
        rfl
      rw [hnone] at hfail
      exact ⟨_, hfail.bind_none⟩
  obtain ⟨fs, hset⟩ := hset
  exact ⟨[] ++ fs, (emits_listTags readsStore_failing).bind (hset.bind_none.bind_none)⟩

theorem failed_eq_nil {c : RegistryCall} {v : c.Reply} (hc : (c.exec s.clock s.registry).1 = .ok v) :
    failed fails s c = [] ↔ fails c = none := by
  unfold failed lookup
  cases fails c with
  | some e => simp
  | none => simp [hc]

theorem failed_listRingPeers {ring : Ring} (hring : ring ∈ s.registry.listRings) :
    failed fails s (.listRingPeers ring.name) = [] ↔ fails (.listRingPeers ring.name) = none := by
  refine failed_eq_nil (v := ((s.registry.members ring.name).toList.filter (fun m ↦ live s.clock m.2)).map
    (fun m ↦ ⟨m.1, m.2⟩)) ?_
  exact if_pos (Registry.mem_listRings.mp hring)

theorem swallowed_eq_nil {peer : Option String} : swallowed fails s peer = [] ↔
    (peer.isSome → ∀ ring ∈ s.registry.listRings, ring.isOpen = false → fails (.listRingPeers ring.name) = none) ∧
      ∀ info ∈ s.store.listTags, fails (.listResourceRings info.hash) = none := by
  have hrings : ((s.registry.listRings.filter (fun ring ↦ !ring.isOpen)).flatMap
      (fun ring ↦ failed fails s (.listRingPeers ring.name)) = []) ↔
      ∀ ring ∈ s.registry.listRings, ring.isOpen = false → fails (.listRingPeers ring.name) = none := by
    rw [List.flatMap_eq_nil_iff]
    constructor
    · intro h ring hring hopen
      exact (failed_listRingPeers hring).mp (h ring (List.mem_filter.mpr ⟨hring, by simp [hopen]⟩))
    · intro h ring hring
      obtain ⟨hring, hopen⟩ := List.mem_filter.mp hring
      exact (failed_listRingPeers hring).mpr (h ring hring (by simpa using hopen))
  have htags : (s.store.listTags.flatMap (fun info ↦ failed fails s (.listResourceRings info.hash)) = []) ↔
      ∀ info ∈ s.store.listTags, fails (.listResourceRings info.hash) = none := by
    rw [List.flatMap_eq_nil_iff]
    exact forall₂_congr fun info _ ↦ failed_eq_nil (v := s.registry.listResourceRings info.hash) rfl
  unfold swallowed
  rw [List.append_eq_nil_iff, htags]
  cases peer with
  | none => simp
  | some text => simp [hrings]

theorem output_failures_eq_nil {log : Trace Call.Ans} : output failures log = [] ↔
    ¬ ∃ (c : RegistryCall) (e : Error), (⟨.registry c, .error e⟩ : (c : Call) × c.Ans) ∈ log := by
  unfold output
  rw [List.flatMap_eq_nil_iff]
  constructor
  · rintro h ⟨c, e, hlog⟩
    cases h _ hlog
  · rintro h ⟨c, a⟩ hlog
    cases c with
    | registry c =>
      cases a with
      | ok v => rfl
      | error e => exact absurd ⟨c, e, hlog⟩ h
    | _ => rfl

/-- A listing with a filter fails when one of its lookups does, or lists too little: the
lookups of the members of a ring and of the rings of a blob do not end it. -/
theorem listBlobs_failing_iff {env : Env} {peer : Option String} {rings : Option (List String)}
    {r : Except Error (List BlobListEntry)} {s' : NodeState} {log : Trace Call.Ans}
    (hfilter : peer.isSome ∨ rings.isSome)
    (h : Runs (logged (graph (failing fails))) (listBlobs env peer rings) (s, []) r (s', log)) :
    ((∃ (c : RegistryCall) (e : Error), (⟨.registry c, .error e⟩ : (c : Call) × c.Ans) ∈ log) → ∃ e, r = .error e) ↔
      (∃ text, peer = some text ∧ ((∀ id, parsePeerId env text ≠ .ok id) ∨ fails .listRings ≠ none)) ∨
      ((peer.isSome → ∀ ring ∈ s.registry.listRings, ring.isOpen = false → fails (.listRingPeers ring.name) = none) ∧
        ∀ info ∈ s.store.listTags, fails (.listResourceRings info.hash) = none) := by
  rw [← swallowed_eq_nil]
  by_cases hearly : ∃ text, peer = some text ∧ ((∀ id, parsePeerId env text ≠ .ok id) ∨ fails .listRings ≠ none)
  · obtain ⟨text, rfl, hpeer⟩ := hearly
    obtain ⟨fs, hemits⟩ : ∃ fs, Emits (graph (failing fails)) failures s (listBlobs env (some text) rings) fs none :=
      emits_listBlobs_error hpeer
    obtain ⟨-, -, hr⟩ := hemits.output_eq h
    refine iff_of_true (fun _ ↦ ?_) (.inl ⟨text, rfl, hpeer⟩)
    cases r with
    | ok blobs => cases hr
    | error e => exact ⟨e, rfl⟩
  · have hpeer : ∀ text, peer = some text → (∃ id, parsePeerId env text = .ok id) ∧ fails .listRings = none := by
      intro text htext
      constructor
      · by_contra hparse
        exact hearly ⟨text, htext, .inl fun id hid ↦ hparse ⟨id, hid⟩⟩
      · by_contra hrings
        exact hearly ⟨text, htext, .inr hrings⟩
    obtain ⟨blobs, hemits⟩ := emits_listBlobs_failing (s := s) hfilter hpeer
    obtain ⟨hout, -, hr⟩ := hemits.output_eq h
    have hok : ¬ ∃ e, r = .error e := by
      rintro ⟨e, rfl⟩
      cases hr
    rw [← hout, output_failures_eq_nil]
    constructor
    · intro hfails
      exact .inr fun hlog ↦ hok (hfails hlog)
    · intro hnone hlog
      exact absurd hlog (hnone.resolve_left hearly)

end Listing

def failsFor (hash : Hash) : RegistryCall → Option Error
  | .listResourceRings res => if res = hash then some (.msg "storage error") else none
  | _ => none

def failsToList : RegistryCall → Option Error
  | .listRings => some (.msg "storage error")
  | _ => none

/-- The rings of the peer cannot be looked up, and the listing fails. -/
theorem listBlobs_failing_iff_unlisted : ∃ r s' log,
    Runs (logged (graph (failing failsToList)))
      (listBlobs (.plain []) (some (toString (EndpointId.fromByte 7))) (some ["open"])) (sharingUnder [104, 105], [])
      r (s', log) ∧
    (⟨.registry .listRings, .error (.msg "storage error")⟩ : (c : Call) × c.Ans) ∈ log ∧ ∃ e, r = .error e := by
  have hrun : Runs (logged (graph (failing failsToList)))
      (listBlobs (.plain []) (some (toString (EndpointId.fromByte 7))) (some ["open"])) (sharingUnder [104, 105], [])
      _ _ := runs_logging _ _
  have hlog : (run (logging (failing failsToList)) (listBlobs (.plain []) (some (toString (EndpointId.fromByte 7)))
      (some ["open"])) (sharingUnder [104, 105], [])).2.2.getLast? =
      some ⟨.registry .listRings, .error (.msg "storage error")⟩ := rfl
  have hmem := List.mem_of_getLast? hlog
  have hfails := (listBlobs_failing_iff (.inl rfl) hrun).mpr (.inl ⟨_, rfl, .inr (by simp [failsToList])⟩)
  exact ⟨_, _, _, hrun, hmem, hfails ⟨_, _, hmem⟩⟩

/-- The rings of a shared blob cannot be read, and the listing comes out empty. -/
theorem listBlobs_failing_shared : ∃ s' log,
    Runs (logged (graph (failing (failsFor (.fromByte 1))))) (listBlobs (.plain []) none (some ["open"]))
      (sharingUnder [104, 105], []) (.ok []) (s', log) ∧
    (∃ (c : RegistryCall) (e : Error), (⟨.registry c, .error e⟩ : (c : Call) × c.Ans) ∈ log) ∧
    (run exec (listBlobs (.plain []) none (some ["open"])) (sharingUnder [104, 105])).1 =
      .ok [blobEntry (sharingUnder [104, 105]).store ⟨[104, 105], .fromByte 1, .raw⟩] := by
  have hrun : Runs (logged (graph (failing (failsFor (.fromByte 1))))) (listBlobs (.plain []) none (some ["open"]))
      (sharingUnder [104, 105], []) _ _ := runs_logging _ _
  have hempty : (run (logging (failing (failsFor (.fromByte 1)))) (listBlobs (.plain []) none (some ["open"]))
      (sharingUnder [104, 105], [])).1 = .ok [] := rfl
  obtain ⟨blobs, hemits⟩ : ∃ blobs, Emits (graph (failing (failsFor (.fromByte 1)))) failures (sharingUnder [104, 105])
      (listBlobs (.plain []) none (some ["open"])) _ (some blobs) := emits_listBlobs_failing (.inr rfl) (by simp)
  obtain ⟨hout, -, -⟩ := hemits.output_eq hrun
  rw [hempty] at hrun
  refine ⟨_, _, hrun, ?_, rfl⟩
  by_contra hnone
  rw [← output_failures_eq_nil, hout, swallowed_eq_nil] at hnone
  have hread := hnone.2 ⟨[104, 105], .fromByte 1, .raw⟩ (by decide +kernel)
  cases hread

end Ringdrop.Node
