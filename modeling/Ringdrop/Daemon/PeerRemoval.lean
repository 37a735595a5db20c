import Ringdrop.Daemon.Handlers.Membership
import Ringdrop.Core.GrantedPairs

namespace Ringdrop

open Library Program Std

theorem live_of_le {now later : SystemTime} {expiresAt : Option SystemTime} (h : now ≤ later)
    (hlive : live later expiresAt) : live now expiresAt := by
  cases expiresAt with
  | none => rfl
  | some t =>
    have hlater : later < t := by simpa [live] using hlive
    have hnow : now < t := Int.lt_of_le_of_lt h hlater
    simpa [live] using hnow

namespace Registry

/-- `r'` is `r`, except that `peer` may have left named rings. -/
structure LeftBy (peer : EndpointId) (r r' : Registry) : Prop where
  rings : ∀ ring, ring ∈ r'.rings ↔ ring ∈ r.rings
  resources : r'.resources = r.resources
  others : ∀ ring other, other ≠ peer → (r'.members ring)[other]? = (r.members ring)[other]?
  openRing : r'.members openRingName = r.members openRingName

theorem LeftBy.refl (peer : EndpointId) (r : Registry) : LeftBy peer r r where
  rings _ := Iff.rfl
  resources := rfl
  others _ _ _ := rfl
  openRing := rfl

theorem isLiveMember_of_le {r : Registry} {now later : SystemTime} {ring : String} {peer : EndpointId}
    (h : now ≤ later) (hlive : r.isLiveMember later ring peer) : r.isLiveMember now ring peer := by
  obtain ⟨expiresAt, hmember, hexpiry⟩ := isLiveMember_iff.mp hlive
  exact isLiveMember_iff.mpr ⟨expiresAt, hmember, live_of_le h hexpiry⟩

theorem mem_rings_of_isLiveMember {r : Registry} {now : SystemTime} {ring : String} {peer : EndpointId}
    (h : r.isLiveMember now ring peer) : ring ∈ r.rings := by
  obtain ⟨expiresAt, hmember, -⟩ := isLiveMember_iff.mp h
  by_contra hring
  rw [members, ExtTreeMap.getD_eq_fallback hring] at hmember
  simp at hmember

theorem hasPermission_outsider {r : Registry} {now : SystemTime} {peer : EndpointId} (res : Hash)
    (perm : Permission) (h : ∀ ring, ring ≠ openRingName → ¬ r.isLiveMember now ring peer) :
    r.hasPermission now peer res perm ↔
      ∃ perms, (r.associations res)[openRingName]? = some perms ∧ perm ∈ perms := by
  rw [hasPermission, List.any_eq_true]
  constructor
  · intro ⟨⟨⟨ring⟩, perms⟩, hmem, hallowed⟩
    obtain ⟨hperm, hring⟩ := Bool.and_eq_true_iff.mp hallowed
    have hopen : ring = openRingName := by
      rcases Bool.or_eq_true_iff.mp hring with hopen | hlive
      · exact beq_iff_eq.mp hopen
      · by_contra hne
        exact h ring hne hlive
    subst hopen
    exact ⟨perms, mem_listResourceRings.mp hmem, by simpa using hperm⟩
  · intro ⟨perms, hassoc, hperm⟩
    refine ⟨(⟨openRingName⟩, perms), mem_listResourceRings.mpr hassoc, ?_⟩
    simp [hperm, Ring.isOpen]

theorem exists_removePeerFromRing {r : Registry} {now : SystemTime} {ring : String} {peer : EndpointId}
    (hopen : ring ≠ openRingName) (h : r.isLiveMember now ring peer) :
    ∃ r', r.removePeerFromRing ring peer = .ok r' ∧ (∀ r₀, LeftBy peer r₀ r → LeftBy peer r₀ r') ∧
      ∀ other, r'.isLiveMember now other peer → other ≠ ring ∧ r.isLiveMember now other peer := by
  have hring := mem_rings_of_isLiveMember h
  refine ⟨r.setMembers ring ((r.members ring).erase peer), ?_, ?_, ?_⟩
  · rw [removePeerFromRing, if_pos hring]
  · intro r₀ h₀
    refine ⟨?_, h₀.resources, ?_, ?_⟩
    · intro other
      have hinsert : other ∈ r.rings.insert ring ((r.members ring).erase peer) ↔ other ∈ r.rings := by
        rw [ExtTreeMap.mem_insert]
        constructor
        · rintro (hc | hmem)
          · rwa [← LawfulEqOrd.eq_of_compare hc]
          · exact hmem
        · exact Or.inr
      exact hinsert.trans (h₀.rings other)
    · intro ring' other hne
      rw [members_setMembers]
      split
      · rename_i hsame
        subst hsame
        rw [ExtTreeMap.getElem?_erase, if_neg (by simpa using fun h ↦ hne h.symm)]
        exact h₀.others ring other hne
      · exact h₀.others ring' other hne
    · rw [members_setMembers, if_neg hopen]
      exact h₀.openRing
  · intro other hlive
    obtain ⟨expiry, hstill, hexpiry⟩ := isLiveMember_iff.mp hlive
    rw [members_setMembers] at hstill
    split at hstill
    · simp at hstill
    · rename_i hne
      exact ⟨fun h ↦ hne h.symm, isLiveMember_iff.mpr ⟨expiry, hstill, hexpiry⟩⟩

end Registry

namespace Handlers

structure Leaving (peer : EndpointId) (s : NodeState) (rest : List Ring) (s' : NodeState) : Prop where
  same : s' = { s with registry := s'.registry }
  left : s.registry.LeftBy peer s'.registry
  remaining : ∀ ring, ring ≠ openRingName → s'.registry.isLiveMember s.clock ring peer → ⟨ring⟩ ∈ rest

theorem mem_of_mem_cons {ring : Ring} {rest : List Ring} {other : String}
    (h : (⟨other⟩ : Ring) ∈ ring :: rest) (hne : other ≠ ring.name) : (⟨other⟩ : Ring) ∈ rest := by
  rcases List.mem_cons.mp h with hsame | hrest
  · exact absurd (congrArg Ring.name hsame) hne
  · exact hrest

theorem wp_leaveRing {peer : EndpointId} {s s' : NodeState} {ring : Ring} {rest : List Ring}
    (removedFrom : List String) (hring : ring.name ∈ s.registry.rings) (h : Leaving peer s (ring :: rest) s') :
    (leaveRing peer removedFrom ring).wp (graph exec) (fun _ ↦ Leaving peer s rest) (fun _ _ ↦ False) s' := by
  have hclock : s'.clock = s.clock := by rw [h.same]
  have hlisted := (h.left.rings ring.name).mpr hring
  unfold leaveRing
  split
  · rename_i hopen
    have hname : ring.name = openRingName := beq_iff_eq.mp hopen
    refine ⟨h.same, h.left, fun other hne hlive ↦ ?_⟩
    exact mem_of_mem_cons (h.remaining other hne hlive) (hname ▸ hne)
  · rename_i hnamed
    have hopen : ring.name ≠ openRingName := fun hopen ↦ hnamed (beq_iff_eq.mpr hopen)
    rw [wp_bind, wp_registry_exec]
    change Outcome _ _ (s'.registry.listRingPeers s'.clock ring.name) s'
    cases hms : s'.registry.listRingPeers s'.clock ring.name with
    | error e => simp [Registry.listRingPeers, hlisted] at hms
    | ok ms =>
      rw [outcome_ok]
      have hmem := Registry.mem_listRingPeers hms peer
      rw [hclock] at hmem
      split
      · rename_i hany
        have hin : ∃ m ∈ ms, m.peer = peer := by simpa using hany
        obtain ⟨r', hr', hleft, hlive⟩ := Registry.exists_removePeerFromRing hopen (hmem.mp hin)
        rw [wp_bind, wp_registry_exec]
        simp only [RegistryCall.exec, hr', outcome_ok]
        refine ⟨by rw [h.same], hleft _ h.left, fun other hne hother ↦ ?_⟩
        obtain ⟨hdistinct, hbefore⟩ := hlive other hother
        exact mem_of_mem_cons (h.remaining other hne hbefore) hdistinct
      · rename_i hany
        have hout : ¬ ∃ m ∈ ms, m.peer = peer := by simpa using hany
        refine ⟨h.same, h.left, fun other hne hlive ↦ ?_⟩
        refine mem_of_mem_cons (h.remaining other hne hlive) fun hname ↦ ?_
        rw [hname] at hlive
        exact hout (hmem.mpr hlive)

/-- `s'` is `s` without any trace of `peer` in the tables, save expired memberships. -/
structure Removed (peer : EndpointId) (s s' : NodeState) : Prop where
  unknown : peer ∉ s'.localStore.peers
  outside : ∀ t, s.clock ≤ t → ∀ ring, ring ≠ openRingName → ¬ s'.registry.isLiveMember t ring peer
  ungranted : ∀ privilege, s'.localStore.hasGrant privilege peer = false
  readable : ∀ t, s.clock ≤ t → ∀ blob, s'.registry.hasPermission t peer blob .read ↔
    ∃ perms, (s'.registry.associations blob)[openRingName]? = some perms ∧ Permission.read ∈ perms
  registry : s.registry.LeftBy peer s'.registry
  peers : ∀ other, other ≠ peer → s'.localStore.peers[other]? = s.localStore.peers[other]?
  grants : ∀ privilege other, other ≠ peer →
    s'.localStore.hasGrant privilege other = s.localStore.hasGrant privilege other
  same : s' = { s with registry := s'.registry, localStore := s'.localStore }

structure Revoked (peer : EndpointId) (privileges : List Privilege) (s s' : NodeState) : Prop where
  same : s' = { s with localStore := s'.localStore }
  peers : s'.localStore.peers = s.localStore.peers
  held : ∀ privilege, s'.localStore.hasGrant privilege peer → privilege ∈ privileges
  others : ∀ privilege other, other ≠ peer →
    s'.localStore.hasGrant privilege other = s.localStore.hasGrant privilege other

section Revoking

variable {ls : LocalStore} {peer : EndpointId} {privilege : Privilege} {rest : List Privilege}

theorem held_removeGrant (h : ∀ other, ls.hasGrant other peer → other ∈ privilege :: rest) {other : Privilege}
    (hheld : (ls.removeGrant privilege peer).hasGrant other peer) : other ∈ rest := by
  rw [LocalStore.hasGrant_removeGrant, Bool.and_eq_true] at hheld
  rcases List.mem_cons.mp (h other hheld.2) with hsame | hrest
  · simp [hsame] at hheld
  · exact hrest

theorem held_of_not_hasGrant (h : ∀ other, ls.hasGrant other peer → other ∈ privilege :: rest)
    (hnot : ¬ ls.hasGrant privilege peer) {other : Privilege} (hheld : ls.hasGrant other peer) : other ∈ rest := by
  rcases List.mem_cons.mp (h other hheld) with hsame | hrest
  · rw [hsame] at hheld
    exact absurd hheld hnot
  · exact hrest

end Revoking

theorem wp_revokeHeld {peer : EndpointId} {s s' : NodeState} {privilege : Privilege} {rest : List Privilege}
    (revoked : List String) (h : Revoked peer (privilege :: rest) s s') :
    (revokeHeld peer revoked privilege).wp (graph exec) (fun _ ↦ Revoked peer rest s) (fun _ _ ↦ False) s' := by
  unfold revokeHeld
  rw [wp_bind, wp_grants_exec]
  simp only [GrantsCall.exec, outcome_ok]
  split
  · rw [wp_bind, wp_grants_exec]
    simp only [GrantsCall.exec, outcome_ok]
    refine ⟨by rw [h.same], h.peers, fun other ↦ held_removeGrant h.held, fun other peer' hne ↦ ?_⟩
    rw [LocalStore.hasGrant_removeGrant, h.others other peer' hne]
    simp [hne.symm]
  · rename_i hnot
    exact ⟨h.same, h.peers, fun other ↦ held_of_not_hasGrant h.held hnot, h.others⟩

theorem wp_peerRemoveLines {env : Env} {peer : String} {peerId : EndpointId} {s : NodeState}
    (hparse : parsePeerId env peer = .ok peerId) (hknown : peerId ∈ s.localStore.peers) :
    (peerRemoveLines env peer).wp (graph exec) (fun _ ↦ Removed peerId s) (fun _ _ ↦ False) s := by
  unfold peerRemoveLines PeerStore.get PeerStore.remove
  rw [hparse, Program.ofExcept_ok, ret_bind, wp_bind, wp_bind, wp_peers_exec]
  simp only [PeersCall.exec, outcome_ok, pure_def, wp_ret]
  rw [ExtTreeMap.getElem?_eq_some_getElem hknown, if_neg (by simp), wp_bind, wp_registry_exec]
  simp only [RegistryCall.exec, outcome_ok]
  rw [wp_bind]
  have hleave : (s.registry.listRings.foldlM (leaveRing peerId) []).wp (graph exec)
      (fun _ ↦ Leaving peerId s []) (fun _ _ ↦ False) s := by
    refine wp_foldlM (I := fun rest _ s' ↦ Leaving peerId s rest s' ∧ ∀ ring ∈ rest, ring.name ∈ s.registry.rings)
      ?_ (fun _ _ h ↦ h.1) ⟨⟨rfl, .refl peerId s.registry, ?_⟩, fun ring h ↦ Registry.mem_listRings.mp h⟩
    · intro ring rest removedFrom s' hleaving
      obtain ⟨h, hrings⟩ := hleaving
      refine wp_mono (wp_leaveRing removedFrom (hrings ring (by simp)) h) ?_ (fun _ _ hz ↦ hz)
      intro _ s'' h''
      exact ⟨h'', fun other hother ↦ hrings other (by simp [hother])⟩
    · intro ring _ hlive
      exact Registry.mem_listRings.mpr (Registry.mem_rings_of_isLiveMember hlive)
  refine wp_mono hleave ?_ (fun _ _ hz ↦ hz)
  intro removedFrom s₁ h₁
  rw [wp_bind]
  have hrevoke : (Privilege.all.foldlM (revokeHeld peerId) []).wp (graph exec)
      (fun _ ↦ Revoked peerId [] s₁) (fun _ _ ↦ False) s₁ := by
    refine wp_foldlM (I := fun rest _ ↦ Revoked peerId rest s₁) ?_ (fun _ _ h ↦ h) ⟨rfl, rfl, ?_, ?_⟩
    · intro privilege rest revoked s' h
      exact wp_revokeHeld revoked h
    · intro privilege _
      cases privilege
      simp [Privilege.all]
    · intro _ _ _
      rfl
  refine wp_mono hrevoke ?_ (fun _ _ hz ↦ hz)
  intro revoked s₂ h₂
  have hstore : s₁.localStore = s.localStore := by rw [h₁.same]
  have hregistry : s₂.registry = s₁.registry := by rw [h₂.same]
  have hstill : peerId ∈ s₂.localStore.peers := by rwa [h₂.peers, hstore]
  rw [wp_bind, wp_peers_exec]
  simp only [PeersCall.exec, LocalStore.removePeer, hstill, if_true, outcome_ok, wp_ret]
  have houtside : ∀ t, s.clock ≤ t → ∀ ring, ring ≠ openRingName → ¬ s₂.registry.isLiveMember t ring peerId := by
    intro t ht ring hne hlive
    rw [hregistry] at hlive
    have hmem := h₁.remaining ring hne (Registry.isLiveMember_of_le ht hlive)
    simp at hmem
  refine ⟨by simp, houtside, ?_, ?_, ?_, ?_, ?_, ?_⟩
  · intro privilege
    rw [Bool.eq_false_iff]
    intro hheld
    have hmem := h₂.held privilege hheld
    simp at hmem
  · intro t ht blob
    exact Registry.hasPermission_outsider blob .read (houtside t ht)
  · rw [hregistry]
    exact h₁.left
  · intro other hne
    rw [ExtTreeMap.getElem?_erase, if_neg (by simpa using fun h ↦ hne h.symm), h₂.peers, hstore]
  · intro privilege other hne
    rw [← hstore]
    exact h₂.others privilege other hne
  · rw [h₂.same, h₁.same]

/-- Removing a peer that is in the store removes it everywhere; removing any other is an
error that changes nothing. -/
theorem peerRemoveLines_exact (env : Env) (peer : String) (peerId : EndpointId) (s : NodeState)
    (hparse : parsePeerId env peer = .ok peerId) :
    (peerId ∈ s.localStore.peers →
      (∃ lines, (run exec (peerRemoveLines env peer) s).1 = .ok lines) ∧
        Removed peerId s (run exec (peerRemoveLines env peer) s).2) ∧
    (peerId ∉ s.localStore.peers →
      (∃ e, (run exec (peerRemoveLines env peer) s).1 = .error e) ∧
        (run exec (peerRemoveLines env peer) s).2 = s) := by
  constructor
  · intro hknown
    have hout := outcome_run (wp_peerRemoveLines hparse hknown)
    generalize run exec (peerRemoveLines env peer) s = x at hout ⊢
    obtain ⟨r, s'⟩ := x
    cases r with
    | ok lines => exact ⟨⟨lines, rfl⟩, hout⟩
    | error e => exact hout.elim
  · intro hunknown
    have hwp : (peerRemoveLines env peer).wp (graph exec) (fun _ _ ↦ False) (fun _ s' ↦ s' = s) s := by
      unfold peerRemoveLines PeerStore.get
      rw [hparse, Program.ofExcept_ok, ret_bind, wp_bind, wp_bind, wp_peers_exec]
      simp only [PeersCall.exec, outcome_ok, pure_def, wp_ret]
      rw [ExtTreeMap.getElem?_eq_none hunknown, if_pos (by simp)]
      simp
    have hout := outcome_run hwp
    generalize run exec (peerRemoveLines env peer) s = x at hout ⊢
    obtain ⟨r, s'⟩ := x
    cases r with
    | ok lines => exact hout.elim
    | error e => exact ⟨⟨e, rfl⟩, hout⟩

def withFriend : NodeState :=
  { emptyNode with
    registry := Registry.empty.setMembers "friends" ((∅ : Members).insert (.fromByte 1) none)
    localStore := (LocalStore.empty.insertPeer (.fromByte 1) "ann").insertGrant .blobList (.fromByte 1) }

theorem peerRemoveLines_friend :
    (withFriend.registry.isLiveMember 0 "friends" (.fromByte 1) ∧
      withFriend.localStore.hasGrant .blobList (.fromByte 1)) ∧
    ((∃ lines, (run exec (peerRemoveLines (.plain []) (toString (EndpointId.fromByte 1))) withFriend).1 = .ok lines) ∧
      Removed (.fromByte 1) withFriend
        (run exec (peerRemoveLines (.plain []) (toString (EndpointId.fromByte 1))) withFriend).2) :=
  ⟨by decide +kernel, (peerRemoveLines_exact (.plain []) _ (.fromByte 1) withFriend (by decide +kernel)).1
    (by decide +kernel)⟩

end Handlers

end Ringdrop
