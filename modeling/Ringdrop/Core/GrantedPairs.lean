import Ringdrop.Core.Call
import Ringdrop.Library.SinceLast

namespace Ringdrop

open Library Std

section Keys

variable {privilege privilege' : Privilege} {peer peer' : EndpointId}

/-- The name of a privilege has no NUL in it and is the name of no other. -/
theorem zero_notMem_asStr (privilege : Privilege) : (0 : UInt8) ∉ Utf8.toBytes privilege.asStr := by
  cases privilege
  decide +kernel

theorem find_privilege (privilege : Privilege) :
    Privilege.all.find? (fun p ↦ Utf8.toBytes p.asStr == Utf8.toBytes privilege.asStr) = some privilege := by
  cases privilege
  decide +kernel

/-- The NUL bytes in the peer come after the one that ends the name. -/
theorem idxOf_grantKey (privilege : Privilege) (peer : EndpointId) :
    (grantKey privilege peer).idxOf? 0 = some (Utf8.toBytes privilege.asStr).length := by
  have hname : (Utf8.toBytes privilege.asStr).findIdx? (fun b ↦ b == (0 : UInt8)) = none := by
    rw [List.findIdx?_eq_none_iff]
    intro b hb
    exact beq_eq_false_iff_ne.mpr fun h ↦ zero_notMem_asStr privilege (h ▸ hb)
  rw [grantKey, List.idxOf?, List.findIdx?_append, hname, List.findIdx?_cons]
  simp

theorem decodeGrantKey_grantKey (privilege : Privilege) (peer : EndpointId) :
    decodeGrantKey (grantKey privilege peer) = .ok (privilege, peer) := by
  have hname : (grantKey privilege peer).take (Utf8.toBytes privilege.asStr).length = Utf8.toBytes privilege.asStr :=
    List.take_left
  have hpeer : (grantKey privilege peer).drop ((Utf8.toBytes privilege.asStr).length + 1) = peer.asBytes := by
    rw [grantKey, List.drop_append]
    simp
  unfold decodeGrantKey
  simp only [idxOf_grantKey, hname, find_privilege, hpeer, peer.length_eq, dif_pos]

theorem grantKey_inj (h : grantKey privilege peer = grantKey privilege' peer') :
    privilege = privilege' ∧ peer = peer' := by
  have hdecode := decodeGrantKey_grantKey privilege peer
  rw [h, decodeGrantKey_grantKey] at hdecode
  exact Prod.mk.inj (Except.ok.inj hdecode).symm

theorem compare_grantKey : (compare (grantKey privilege peer) (grantKey privilege' peer') == .eq) =
    (privilege = privilege' && peer = peer') := by
  rw [Bool.eq_iff_iff, beq_iff_eq, LawfulEqOrd.compare_eq_iff_eq, Bool.and_eq_true, decide_eq_true_eq,
    decide_eq_true_eq]
  constructor
  · exact grantKey_inj
  · intro ⟨hprivilege, hpeer⟩
    rw [hprivilege, hpeer]

end Keys

def grantsPair (privilege : Privilege) (peer : EndpointId) : GrantsCall → Bool
  | .insert privilege' peer' => privilege' = privilege && peer' = peer
  | _ => false

def revokesPair (privilege : Privilege) (peer : EndpointId) : GrantsCall → Bool
  | .remove privilege' peer' => privilege' = privilege && peer' = peer
  | _ => false

def stillGranted (calls : List GrantsCall) (privilege : Privilege) (peer : EndpointId) : Bool :=
  startedSince (grantsPair privilege peer) (revokesPair privilege peer) calls

theorem stillGranted_concat (calls : List GrantsCall) (c : GrantsCall) (privilege : Privilege) (peer : EndpointId) :
    stillGranted (calls ++ [c]) privilege peer =
      (!revokesPair privilege peer c && (grantsPair privilege peer c || stillGranted calls privilege peer)) :=
  startedSince_concat

namespace LocalStore

def afterGrants (s : LocalStore) (calls : List GrantsCall) : LocalStore := calls.foldl (fun s c ↦ (c.exec s).2) s

theorem afterGrants_concat (s : LocalStore) (calls : List GrantsCall) (c : GrantsCall) :
    s.afterGrants (calls ++ [c]) = (c.exec (s.afterGrants calls)).2 := by
  rw [afterGrants, List.foldl_append]
  rfl

def KeysDecode (s : LocalStore) : Prop :=
  ∀ key, key ∈ s.grants → ∃ privilege peer, key = grantKey privilege peer

variable {s : LocalStore} {privilege : Privilege} {peer : EndpointId}

theorem KeysDecode.exec (h : s.KeysDecode) (c : GrantsCall) : (c.exec s).2.KeysDecode := by
  intro key hkey
  cases c with
  | insert privilege peer =>
    rcases ExtTreeMap.mem_insert.mp hkey with hnew | hold
    · exact ⟨privilege, peer, (LawfulEqOrd.eq_of_compare hnew).symm⟩
    · exact h key hold
  | remove privilege peer => exact h key (ExtTreeMap.mem_of_mem_erase hkey)
  | get privilege peer => exact h key hkey
  | list => exact h key hkey

theorem hasGrant_insertGrant (privilege' : Privilege) (peer' : EndpointId) :
    (s.insertGrant privilege' peer').hasGrant privilege peer =
      ((privilege' = privilege && peer' = peer) || s.hasGrant privilege peer) := by
  rw [hasGrant, insertGrant, ExtTreeMap.contains_insert, compare_grantKey, hasGrant]

theorem hasGrant_removeGrant (privilege' : Privilege) (peer' : EndpointId) :
    (s.removeGrant privilege' peer').hasGrant privilege peer =
      (!(privilege' = privilege && peer' = peer) && s.hasGrant privilege peer) := by
  rw [hasGrant, removeGrant, ExtTreeMap.contains_erase, bne, compare_grantKey, hasGrant]

theorem hasGrant_afterGrants (h : s.grants = ∅) (calls : List GrantsCall) :
    (s.afterGrants calls).hasGrant privilege peer = stillGranted calls privilege peer := by
  induction calls using List.reverseRecOn with
  | nil =>
    change s.grants.contains (grantKey privilege peer) = _
    rw [h, ExtTreeMap.contains_empty, stillGranted, startedSince_nil]
  | append_singleton calls c ih =>
    rw [afterGrants_concat]
    cases c with
    | insert privilege' peer' =>
      change ((s.afterGrants calls).insertGrant privilege' peer').hasGrant privilege peer = _
      rw [hasGrant_insertGrant, ih, stillGranted_concat]
      rfl
    | remove privilege' peer' =>
      change ((s.afterGrants calls).removeGrant privilege' peer').hasGrant privilege peer = _
      rw [hasGrant_removeGrant, ih, stillGranted_concat]
      rfl
    | get privilege' peer' =>
      rw [stillGranted_concat]
      exact ih
    | list =>
      rw [stillGranted_concat]
      exact ih

theorem keysDecode_afterGrants (h : s.grants = ∅) (calls : List GrantsCall) : (s.afterGrants calls).KeysDecode := by
  induction calls using List.reverseRecOn with
  | nil =>
    intro key hkey
    change key ∈ s.grants at hkey
    rw [h] at hkey
    exact absurd hkey ExtTreeMap.not_mem_empty
  | append_singleton calls c ih =>
    rw [afterGrants_concat]
    exact ih.exec c

theorem exists_pairs {keys : List Bytes} (h : ∀ key ∈ keys, ∃ privilege peer, key = grantKey privilege peer) :
    ∃ pairs, keys.mapM decodeGrantKey = .ok pairs ∧ pairs.map (fun pair ↦ grantKey pair.1 pair.2) = keys := by
  induction keys with
  | nil => exact ⟨[], rfl, rfl⟩
  | cons key keys ih =>
    obtain ⟨pairs, hpairs, hkeys⟩ := ih fun k hk ↦ h k (List.mem_cons_of_mem _ hk)
    obtain ⟨privilege, peer, rfl⟩ := h key List.mem_cons_self
    refine ⟨(privilege, peer) :: pairs, ?_, ?_⟩
    · rw [List.mapM_cons, decodeGrantKey_grantKey, hpairs]
      rfl
    · rw [List.map_cons, hkeys]

theorem KeysDecode.listGrants (h : s.KeysDecode) : ∃ pairs, s.listGrants = .ok pairs ∧ pairs.Nodup ∧
    ∀ privilege peer, (privilege, peer) ∈ pairs ↔ s.hasGrant privilege peer = true := by
  obtain ⟨pairs, hpairs, hkeys⟩ := exists_pairs fun key hkey ↦ h key (ExtTreeMap.mem_keys.mp hkey)
  have hnodup : (pairs.map (fun pair ↦ grantKey pair.1 pair.2)).Nodup := by
    rw [hkeys]
    exact ExtTreeMap.nodup_keys
  refine ⟨pairs, hpairs, hnodup.of_map, fun privilege peer ↦ ?_⟩
  have hkey : grantKey privilege peer ∈ s.grants.keys ↔ s.hasGrant privilege peer = true := ExtTreeMap.mem_keys
  rw [← hkey, ← hkeys, List.mem_map]
  constructor
  · intro hmem
    exact ⟨(privilege, peer), hmem, rfl⟩
  · intro ⟨⟨privilege', peer'⟩, hmem, hsame⟩
    obtain ⟨rfl, rfl⟩ := grantKey_inj hsame
    exact hmem

/-- The table of grants is the set of pairs granted and not revoked since. -/
theorem grants_refine (peers : ExtTreeMap EndpointId String) (calls : List GrantsCall) :
    (∃ pairs, (afterGrants ⟨peers, ∅⟩ calls).listGrants = .ok pairs ∧ pairs.Nodup ∧
      ∀ privilege peer, (privilege, peer) ∈ pairs ↔ stillGranted calls privilege peer = true) ∧
    (∀ privilege peer, (afterGrants ⟨peers, ∅⟩ calls).hasGrant privilege peer = stillGranted calls privilege peer) ∧
    (∀ privilege peer, decodeGrantKey (grantKey privilege peer) = .ok (privilege, peer)) ∧
    ∀ privilege privilege' peer peer', grantKey privilege peer = grantKey privilege' peer' →
      privilege = privilege' ∧ peer = peer' := by
  obtain ⟨pairs, hpairs, hnodup, hmem⟩ := (keysDecode_afterGrants (s := ⟨peers, ∅⟩) rfl calls).listGrants
  refine ⟨⟨pairs, hpairs, hnodup, fun privilege peer ↦ ?_⟩, fun privilege peer ↦ ?_, decodeGrantKey_grantKey,
    fun _ _ _ _ ↦ grantKey_inj⟩
  · rw [hmem, hasGrant_afterGrants rfl]
  · exact hasGrant_afterGrants rfl calls

end LocalStore

end Ringdrop
