import Ringdrop.Daemon.PeerRemoval

namespace Ringdrop

open Library Program Std Relation

/-- Time may pass before a call. The call is answered as it should be or, where calls may
fail, with an error that changes nothing. -/
inductive Faulty (fails : Prop) (c : Call) (s : NodeState) (a : c.Ans) (s' : NodeState) : Prop
  | done (t : SystemTime) : s.clock ≤ t → graph exec c { s with clock := t } a s' → Faulty fails c s a s'
  | failed (t : SystemTime) (e : Error) :
      fails → s.clock ≤ t → c.refused e = some a → s' = { s with clock := t } → Faulty fails c s a s'

section Rules

variable {fails : Prop} {s : NodeState} {Z : Error → NodeState → Prop}

theorem wp_registry_faulty {c : RegistryCall} {Q : c.Reply → NodeState → Prop}
    (hdone : ∀ t, s.clock ≤ t →
      Outcome Q Z (c.exec t s.registry).1 { s with clock := t, registry := (c.exec t s.registry).2 })
    (hfailed : fails → ∀ e t, s.clock ≤ t → Z e { s with clock := t }) :
    (registry c).wp (Faulty fails) Q Z s := by
  rw [wp_registry]
  intro a s' h
  cases h with
  | done t ht h =>
    cases h
    exact hdone t ht
  | failed t e hf ht ha hs =>
    obtain rfl := Option.some.inj ha
    rw [hs]
    exact hfailed hf e t ht

theorem wp_peers_faulty {c : PeersCall} {Q : c.Reply → NodeState → Prop}
    (hdone : ∀ t, s.clock ≤ t →
      Outcome Q Z (c.exec s.localStore).1 { s with clock := t, localStore := (c.exec s.localStore).2 })
    (hfailed : fails → ∀ e t, s.clock ≤ t → Z e { s with clock := t }) :
    (peers c).wp (Faulty fails) Q Z s := by
  rw [wp_peers]
  intro a s' h
  cases h with
  | done t ht h =>
    cases h
    exact hdone t ht
  | failed t e hf ht ha hs =>
    obtain rfl := Option.some.inj ha
    rw [hs]
    exact hfailed hf e t ht

theorem wp_grants_faulty {c : GrantsCall} {Q : c.Reply → NodeState → Prop}
    (hdone : ∀ t, s.clock ≤ t →
      Outcome Q Z (c.exec s.localStore).1 { s with clock := t, localStore := (c.exec s.localStore).2 })
    (hfailed : fails → ∀ e t, s.clock ≤ t → Z e { s with clock := t }) :
    (grants c).wp (Faulty fails) Q Z s := by
  rw [wp_grants]
  intro a s' h
  cases h with
  | done t ht h =>
    cases h
    exact hdone t ht
  | failed t e hf ht ha hs =>
    obtain rfl := Option.some.inj ha
    rw [hs]
    exact hfailed hf e t ht

end Rules

namespace Handlers

def GrantOf (peer : EndpointId) (key : Bytes) : Prop := ∃ privilege, key = grantKey privilege peer

/-- `peer` is still in the store, whatever grants it has lost and rings it has left. -/
structure Partly (peer : EndpointId) (s s' : NodeState) : Prop where
  clock : s.clock ≤ s'.clock
  registry : s.registry.LeftBy peer s'.registry
  peers : s'.localStore.peers = s.localStore.peers
  grants : ∀ key, ¬ GrantOf peer key → s'.localStore.grants[key]? = s.localStore.grants[key]?

/-- `peer` is gone from the store, the grants and the rings it was a live member of. -/
structure Gone (peer : EndpointId) (s s' : NodeState) : Prop where
  clock : s.clock ≤ s'.clock
  registry : s.registry.LeftBy peer s'.registry
  outside : ∀ ring, ring ≠ openRingName → ¬ s'.registry.isLiveMember s'.clock ring peer
  peers : s'.localStore.peers = s.localStore.peers.erase peer
  grants : ∀ key, ¬ GrantOf peer key → s'.localStore.grants[key]? = s.localStore.grants[key]?
  ungranted : ∀ key, GrantOf peer key → s'.localStore.grants[key]? = none

/-- Of the named rings, `peer` is a live member of those of `rest` at most. -/
structure Departing (peer : EndpointId) (s : NodeState) (rest : List Ring) (s' : NodeState) : Prop
    extends Partly peer s s' where
  remaining : ∀ ring, ring ≠ openRingName → s'.registry.isLiveMember s'.clock ring peer → ⟨ring⟩ ∈ rest

/-- `peer` has left the named rings and holds none but the given privileges. -/
structure Revoking (peer : EndpointId) (s : NodeState) (privileges : List Privilege) (s' : NodeState) : Prop
    extends Partly peer s s' where
  outside : ∀ ring, ring ≠ openRingName → ¬ s'.registry.isLiveMember s'.clock ring peer
  held : ∀ privilege, s'.localStore.hasGrant privilege peer → privilege ∈ privileges

variable {fails : Prop} {peer : EndpointId} {s s' : NodeState} {t : SystemTime}

theorem Partly.refl : Partly peer s s := ⟨Int.le_refl _, .refl peer s.registry, rfl, fun _ _ ↦ rfl⟩

theorem Partly.later (h : Partly peer s s') (ht : s'.clock ≤ t) : Partly peer s { s' with clock := t } :=
  ⟨Int.le_trans h.clock ht, h.registry, h.peers, h.grants⟩

theorem Departing.later {rest : List Ring} (h : Departing peer s rest s') (ht : s'.clock ≤ t) :
    Departing peer s rest { s' with clock := t } :=
  ⟨h.toPartly.later ht, fun ring hne hlive ↦ h.remaining ring hne (Registry.isLiveMember_of_le ht hlive)⟩

theorem Revoking.later {privileges : List Privilege} (h : Revoking peer s privileges s') (ht : s'.clock ≤ t) :
    Revoking peer s privileges { s' with clock := t } :=
  ⟨h.toPartly.later ht, fun ring hne hlive ↦ h.outside ring hne (Registry.isLiveMember_of_le ht hlive), h.held⟩

theorem Partly.failed (h : Partly peer s s') :
    fails → ∀ (_ : Error) t, s'.clock ≤ t → fails ∧ Partly peer s { s' with clock := t } :=
  fun hf _ _ ht ↦ ⟨hf, h.later ht⟩

theorem wp_leaveRing_faulty {ring : Ring} {rest : List Ring} (removedFrom : List String)
    (hring : ring.name ∈ s.registry.rings) (h : Departing peer s (ring :: rest) s') :
    (leaveRing peer removedFrom ring).wp (Faulty fails) (fun _ ↦ Departing peer s rest)
      (fun _ s'' ↦ fails ∧ Partly peer s s'') s' := by
  unfold leaveRing
  split
  · rename_i hopen
    have hname : ring.name = openRingName := beq_iff_eq.mp hopen
    refine ⟨h.toPartly, fun other hne hlive ↦ ?_⟩
    exact mem_of_mem_cons (h.remaining other hne hlive) (hname ▸ hne)
  · rename_i hnamed
    have hopen : ring.name ≠ openRingName := fun hopen ↦ hnamed (beq_iff_eq.mpr hopen)
    have hlisted := (h.registry.rings ring.name).mpr hring
    rw [wp_bind]
    apply wp_registry_faulty
    · intro t ht
      have h₁ := h.later ht
      change Outcome _ _ (s'.registry.listRingPeers t ring.name) { s' with clock := t }
      cases hms : s'.registry.listRingPeers t ring.name with
      | error e => simp [Registry.listRingPeers, hlisted] at hms
      | ok ms =>
        have hmem := Registry.mem_listRingPeers hms peer
        rw [outcome_ok]
        split
        · rename_i hany
          have hin : ∃ m ∈ ms, m.peer = peer := by simpa using hany
          obtain ⟨r', hr', hleft, hlive⟩ := Registry.exists_removePeerFromRing hopen (hmem.mp hin)
          rw [wp_bind]
          apply wp_registry_faulty
          · intro t' ht'
            simp only [RegistryCall.exec, hr', outcome_ok]
            have hpartly := h₁.toPartly.later ht'
            refine ⟨⟨hpartly.clock, hleft _ h.registry, h.peers, h.grants⟩, fun other hne hother ↦ ?_⟩
            obtain ⟨hdistinct, hbefore⟩ := hlive other (Registry.isLiveMember_of_le ht' hother)
            exact mem_of_mem_cons (h₁.remaining other hne hbefore) hdistinct
          · exact h₁.toPartly.failed
        · rename_i hany
          have hout : ¬ ∃ m ∈ ms, m.peer = peer := by simpa using hany
          refine ⟨h₁.toPartly, fun other hne hlive ↦ ?_⟩
          refine mem_of_mem_cons (h₁.remaining other hne hlive) fun hname ↦ ?_
          rw [hname] at hlive
          exact hout (hmem.mpr hlive)
    · exact h.toPartly.failed

theorem wp_leaveRings_faulty (h : Partly peer s s') :
    (s'.registry.listRings.foldlM (leaveRing peer) []).wp (Faulty fails) (fun _ ↦ Departing peer s [])
      (fun _ s'' ↦ fails ∧ Partly peer s s'') s' := by
  apply wp_foldlM
    (I := fun rest _ s'' ↦ Departing peer s rest s'' ∧ ∀ ring ∈ rest, ring.name ∈ s.registry.rings)
  · intro ring rest removedFrom s'' h
    obtain ⟨hdeparting, hrings⟩ := h
    apply wp_mono (wp_leaveRing_faulty removedFrom (hrings ring (by simp)) hdeparting)
    · intro _ _ h
      exact ⟨h, fun other hother ↦ hrings other (by simp [hother])⟩
    · intro _ _ hz
      exact hz
  · intro _ _ h
    exact h.1
  · refine ⟨⟨h, fun ring _ hlive ↦ ?_⟩, fun ring hring ↦ ?_⟩
    · exact Registry.mem_listRings.mpr (Registry.mem_rings_of_isLiveMember hlive)
    · exact (h.registry.rings ring.name).mp (Registry.mem_listRings.mp hring)

theorem wp_revokeHeld_faulty {privilege : Privilege} {rest : List Privilege} (revoked : List String)
    (h : Revoking peer s (privilege :: rest) s') :
    (revokeHeld peer revoked privilege).wp (Faulty fails) (fun _ ↦ Revoking peer s rest)
      (fun _ s'' ↦ fails ∧ Partly peer s s'') s' := by
  unfold revokeHeld
  rw [wp_bind]
  apply wp_grants_faulty
  · intro t ht
    have h₁ := h.later ht
    simp only [GrantsCall.exec, outcome_ok]
    split
    · rw [wp_bind]
      apply wp_grants_faulty
      · intro t' ht'
        have h₂ := h₁.later ht'
        simp only [GrantsCall.exec, outcome_ok]
        refine ⟨⟨h₂.clock, h.registry, h.peers, fun key hkey ↦ ?_⟩, h₂.outside, fun other ↦ held_removeGrant h.held⟩
        have hne : grantKey privilege peer ≠ key := fun heq ↦ hkey ⟨privilege, heq.symm⟩
        rw [← h.grants key hkey]
        simp [LocalStore.removeGrant, ExtTreeMap.getElem?_erase, hne]
      · exact h₁.toPartly.failed
    · rename_i hnot
      exact ⟨h₁.toPartly, h₁.outside, fun other ↦ held_of_not_hasGrant h.held hnot⟩
  · exact h.toPartly.failed

theorem wp_revokeAll_faulty (h : Departing peer s [] s') :
    (Privilege.all.foldlM (revokeHeld peer) []).wp (Faulty fails) (fun _ ↦ Revoking peer s [])
      (fun _ s'' ↦ fails ∧ Partly peer s s'') s' := by
  apply wp_foldlM (I := fun rest _ ↦ Revoking peer s rest)
  · intro privilege rest revoked s'' h
    exact wp_revokeHeld_faulty revoked h
  · intro _ _ h
    exact h
  · refine ⟨h.toPartly, fun ring hne hlive ↦ ?_, fun privilege _ ↦ ?_⟩
    · have hmem := h.remaining ring hne hlive
      simp at hmem
    · cases privilege
      simp [Privilege.all]

/-- Begun anywhere on its way, the removal comes to its end or stops short of it. -/
theorem wp_peerRemoveLines_faulty {env : Env} {text : String} (hparse : parsePeerId env text = .ok peer)
    (hknown : peer ∈ s.localStore.peers) (h : Partly peer s s') :
    (peerRemoveLines env text).wp (Faulty fails) (fun _ ↦ Gone peer s)
      (fun _ s'' ↦ fails ∧ Partly peer s s'') s' := by
  have hstill : ∀ {s''}, Partly peer s s'' → peer ∈ s''.localStore.peers := by
    intro s'' h
    rwa [h.peers]
  unfold peerRemoveLines PeerStore.get PeerStore.remove
  rw [hparse, Program.ofExcept_ok, ret_bind, wp_bind, wp_bind]
  apply wp_peers_faulty
  · intro t ht
    have h₁ := h.later ht
    simp only [PeersCall.exec, outcome_ok, pure_def, wp_ret]
    rw [ExtTreeMap.getElem?_eq_some_getElem (hstill h), if_neg (by simp), wp_bind]
    apply wp_registry_faulty
    · intro t' ht'
      have h₂ := h₁.later ht'
      simp only [RegistryCall.exec, outcome_ok]
      rw [wp_bind]
      apply wp_mono (wp_leaveRings_faulty h₂) _ (fun _ _ hz ↦ hz)
      intro removedFrom s₁ hleft
      rw [wp_bind]
      apply wp_mono (wp_revokeAll_faulty hleft) _ (fun _ _ hz ↦ hz)
      intro revoked s₂ hrevoked
      rw [wp_bind]
      apply wp_peers_faulty
      · intro t'' ht''
        have h₃ := hrevoked.later ht''
        simp only [PeersCall.exec, LocalStore.removePeer, hstill hrevoked.toPartly, if_true, outcome_ok, wp_ret]
        refine ⟨h₃.clock, h₃.registry, h₃.outside, ?_, h₃.grants, ?_⟩
        · rw [hrevoked.peers]
        · intro key hkey
          obtain ⟨privilege, rfl⟩ := hkey
          have hnot : ¬ s₂.localStore.hasGrant privilege peer := by
            intro hheld
            have hmem := hrevoked.held privilege hheld
            simp at hmem
          exact ExtTreeMap.getElem?_eq_none hnot
      · exact hrevoked.toPartly.failed
    · exact h₁.failed
  · exact h.failed

theorem Gone.tables_eq {s₁ s₂ : NodeState} (h₁ : Gone peer s s₁) (h₂ : Gone peer s s₂) :
    s₁.localStore.peers = s₂.localStore.peers ∧ s₁.localStore.grants = s₂.localStore.grants := by
  refine ⟨h₁.peers.trans h₂.peers.symm, ?_⟩
  apply ExtTreeMap.ext_getElem?
  intro key
  by_cases hkey : GrantOf peer key
  · rw [h₁.ungranted key hkey, h₂.ungranted key hkey]
  · rw [h₁.grants key hkey, h₂.grants key hkey]

theorem Gone.isLiveMember_eq {s₁ s₂ : NodeState} (h₁ : Gone peer s s₁) (h₂ : Gone peer s s₂)
    (ht₁ : s₁.clock ≤ t) (ht₂ : s₂.clock ≤ t) (ring : String) (other : EndpointId) :
    s₁.registry.isLiveMember t ring other = s₂.registry.isLiveMember t ring other := by
  by_cases hopen : ring = openRingName
  · subst hopen
    rw [Registry.isLiveMember, Registry.isLiveMember, h₁.registry.openRing, h₂.registry.openRing]
  · by_cases hother : other = peer
    · subst hother
      have hout₁ : ¬ s₁.registry.isLiveMember t ring other :=
        fun hlive ↦ h₁.outside ring hopen (Registry.isLiveMember_of_le ht₁ hlive)
      have hout₂ : ¬ s₂.registry.isLiveMember t ring other :=
        fun hlive ↦ h₂.outside ring hopen (Registry.isLiveMember_of_le ht₂ hlive)
      rw [Bool.eq_false_iff.mpr hout₁, Bool.eq_false_iff.mpr hout₂]
    · rw [Registry.isLiveMember, Registry.isLiveMember, h₁.registry.others ring other hother,
        h₂.registry.others ring other hother]

def Interrupted (env : Env) (text : String) (s s' : NodeState) : Prop :=
  ∃ e, Runs (Faulty True) (peerRemoveLines env text) s (.error e) s'

theorem partly_of_interrupted {env : Env} {text : String} (hparse : parsePeerId env text = .ok peer)
    (hknown : peer ∈ s.localStore.peers) (h : ReflTransGen (Interrupted env text) s s') : Partly peer s s' := by
  induction h with
  | refl => exact .refl
  | tail _ hrun ih =>
    obtain ⟨e, hrun⟩ := hrun
    exact (hrun.error_of_wp (wp_peerRemoveLines_faulty hparse hknown ih)).2

theorem gone_of_run {env : Env} {text : String} {r : Except Error (List String)} {s'' : NodeState}
    (hparse : parsePeerId env text = .ok peer) (hknown : peer ∈ s.localStore.peers) (h : Partly peer s s')
    (hrun : Runs (Faulty False) (peerRemoveLines env text) s' r s'') : (∃ lines, r = .ok lines) ∧ Gone peer s s'' := by
  have hwp : (peerRemoveLines env text).wp (Faulty False) (fun _ ↦ Gone peer s)
      (fun _ s'' ↦ False ∧ Partly peer s s'') s' := wp_peerRemoveLines_faulty hparse hknown h
  cases r with
  | ok lines => exact ⟨⟨lines, rfl⟩, hrun.ok_of_wp hwp⟩
  | error e => exact (hrun.error_of_wp hwp).1.elim

/-- However often the removal is cut short, the peer is still in the store, and the run that
is not cut short ends where it would have ended at once. -/
theorem peerRemoveLines_resumes {env : Env} {text : String} (hparse : parsePeerId env text = .ok peer)
    (hknown : peer ∈ s.localStore.peers) (h : ReflTransGen (Interrupted env text) s s') :
    peer ∈ s'.localStore.peers ∧
      ∀ r s₁ r₀ s₀, Runs (Faulty False) (peerRemoveLines env text) s' r s₁ →
        Runs (Faulty False) (peerRemoveLines env text) s r₀ s₀ →
        ((∃ lines, r = .ok lines) ∧ ∃ lines, r₀ = .ok lines) ∧
          s₁.localStore.peers = s₀.localStore.peers ∧ s₁.localStore.grants = s₀.localStore.grants ∧
          ∀ t, s₁.clock ≤ t → s₀.clock ≤ t → ∀ ring other,
            s₁.registry.isLiveMember t ring other = s₀.registry.isLiveMember t ring other := by
  have hpartly := partly_of_interrupted hparse hknown h
  refine ⟨by rwa [hpartly.peers], fun r s₁ r₀ s₀ hrun hrun₀ ↦ ?_⟩
  obtain ⟨hok, hgone⟩ := gone_of_run hparse hknown hpartly hrun
  obtain ⟨hok₀, hgone₀⟩ := gone_of_run hparse hknown .refl hrun₀
  obtain ⟨hpeers, hgrants⟩ := hgone.tables_eq hgone₀
  exact ⟨⟨hok, hok₀⟩, hpeers, hgrants, fun t ht ht₀ ↦ hgone.isLiveMember_eq hgone₀ ht ht₀⟩

def failingRevoke (c : Call) (s : NodeState) : c.Ans × NodeState :=
  match c with
  | .grants (.remove _ _) => (.error (.msg "disk full"), s)
  | c => exec c s

theorem faulty_failingRevoke (c : Call) (s : NodeState) (a : c.Ans) (s' : NodeState)
    (h : graph failingRevoke c s a s') : Faulty True c s a s' := by
  unfold graph failingRevoke at h
  split at h
  · cases h
    exact .failed s.clock _ trivial (Int.le_refl _) rfl rfl
  · exact .done s.clock (Int.le_refl _) h

theorem runs_faultless (p : Action (List String)) (s : NodeState) :
    Runs (Faulty False) p s (run exec p s).1 (run exec p s).2 :=
  (runs_run p s).mono fun _ _ _ _ h ↦ .done _ (Int.le_refl _) h

/-- A friend who has left the ring and is still there with the grant is removed after all. -/
theorem peerRemoveLines_resumes_friend :
    EndpointId.fromByte 1 ∈ (run failingRevoke
        (peerRemoveLines (.plain []) (toString (EndpointId.fromByte 1))) withFriend).2.localStore.peers ∧
      ∃ lines, (run exec (peerRemoveLines (.plain []) (toString (EndpointId.fromByte 1)))
        (run failingRevoke (peerRemoveLines (.plain []) (toString (EndpointId.fromByte 1))) withFriend).2).1 =
        .ok lines := by
  have hrun := (runs_run (h := failingRevoke) (peerRemoveLines (.plain []) (toString (EndpointId.fromByte 1)))
    withFriend).mono faulty_failingRevoke
  have herror : ∃ e, (run failingRevoke (peerRemoveLines (.plain []) (toString (EndpointId.fromByte 1)))
      withFriend).1 = .error e := ⟨.msg "disk full", by decide +kernel⟩
  obtain ⟨e, he⟩ := herror
  rw [he] at hrun
  have hparse : parsePeerId (.plain []) (toString (EndpointId.fromByte 1)) = .ok (.fromByte 1) := by decide +kernel
  have hresumes := peerRemoveLines_resumes hparse (by decide +kernel) (.single ⟨e, hrun⟩)
  exact ⟨hresumes.1, (hresumes.2 _ _ _ _ (runs_faultless _ _) (runs_faultless _ _)).1.1⟩

end Handlers

end Ringdrop
