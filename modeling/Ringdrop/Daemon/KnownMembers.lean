import Ringdrop.Daemon.HandlerCalls
import Ringdrop.Daemon.PeerRemoval
import Ringdrop.Library.Interleaving

namespace Ringdrop

open Library Program Std

/-- Every live member of every named ring is in the peer store. -/
def NodeState.MembersKnown (s : NodeState) : Prop :=
  ∀ ring, ring ≠ openRingName → ∀ peer, s.registry.isLiveMember s.clock ring peer → peer ∈ s.localStore.peers

namespace Handlers

/-- A request that changes the members of a ring or the peer store. -/
inductive MembershipRequest
  | ringAdd (ring peer : String) (expiresAt : Option UInt64)
  | ringRemove (ring peer : String)
  | peerAdd (peer : String) (nickname : Option String)
  | peerRemove (peer : String)

def MembershipRequest.op : MembershipRequest → Op
  | ringAdd ring peer expiresAt => .ringAdd ring peer expiresAt
  | ringRemove ring peer => .ringRemove ring peer
  | peerAdd peer nickname => .peerAdd peer nickname
  | peerRemove peer => .peerRemove peer

abbrev MembershipRequests (ι : Type) := Pool ι NodeState Error Call Call.Ans Unit

section Logs

def joins (ring : String) (peer : EndpointId) : (c : Call) × c.Ans → Bool
  | ⟨.registry (.addPeerToRing ring' peer' _), .ok _⟩ => ring' = ring && peer' = peer
  | _ => false

/-- `PeerStore::ensure` has come to an end: the peer has been found, or put, in the store. -/
def ensures (peer : EndpointId) : (c : Call) × c.Ans → Bool
  | ⟨.peers (.get peer'), .ok (some _)⟩ => peer' = peer
  | ⟨.peers (.insert peer' _), .ok _⟩ => peer' = peer
  | _ => false

/-- The peer has not been found in the ring, or has been taken out of it. -/
def passes (ring : String) (peer : EndpointId) : (c : Call) × c.Ans → Bool
  | ⟨.registry (.listRingPeers ring'), .ok members⟩ => ring' = ring && members.all (fun m ↦ m.peer ≠ peer)
  | ⟨.registry (.removePeerFromRing ring' peer'), .ok _⟩ => ring' = ring && peer' = peer
  | _ => false

def Joined (log : Trace Call.Ans) (ring : String) (peer : EndpointId) : Prop := log.any (joins ring peer) = true

def Ensured (log : Trace Call.Ans) (peer : EndpointId) : Prop := log.any (ensures peer) = true

def Passed (log : Trace Call.Ans) (ring : String) (peer : EndpointId) : Prop := log.any (passes ring peer) = true

/-- The peer has been put in the ring and is still to be put in the store. -/
def Pending (log : Trace Call.Ans) (ring : String) (peer : EndpointId) : Prop :=
  Joined log ring peer ∧ ¬ Ensured log peer

variable {log : Trace Call.Ans} {ring : String} {peer : EndpointId} {x : (c : Call) × c.Ans}

theorem joined_concat : Joined (log ++ [x]) ring peer ↔ Joined log ring peer ∨ joins ring peer x = true := by
  simp [Joined]

theorem ensured_concat : Ensured (log ++ [x]) peer ↔ Ensured log peer ∨ ensures peer x = true := by
  simp [Ensured]

theorem passed_concat : Passed (log ++ [x]) ring peer ↔ Passed log ring peer ∨ passes ring peer x = true := by
  simp [Passed]

end Logs

/-- What the requests call, besides putting peers in rings and taking them off the store. -/
def Plain : Call → Prop
  | .registry .listRings => True
  | .registry (.listRingPeers _) => True
  | .registry (.removePeerFromRing _ _) => True
  | .registry _ => False
  | .peers (.remove _) => False
  | .peers _ => True
  | .grants _ => True
  | .endpointAddr => True
  | .now => True
  | .send _ => True
  | _ => False

/-- A peer is put in a ring before it is looked up, and taken off the store after all
rings have been gone through. -/
def InOrder (known : String → Prop) (log : Trace Call.Ans) : Call → Prop
  | .registry (.addPeerToRing _ peer _) => ¬ Ensured log peer
  | .peers (.remove peer) => ∀ ring, known ring → ring ≠ openRingName → Passed log ring peer
  | c => Plain c

/-- What a request can be answered where no call fails and the rings are those of `known`. -/
def Told (known : String → Prop) (_ : Trace Call.Ans) : (c : Call) → c.Ans → Prop
  | .registry .listRings, .ok rings => ∀ ring, known ring → ⟨ring⟩ ∈ rings
  | .peers (.get _), .error _ => False
  | .peers (.insert _ _), .error _ => False
  | _, _ => True

theorem inOrder_of_plain {known : String → Prop} {log : Trace Call.Ans} {c : Call} (h : Plain c) :
    InOrder known log c := by
  cases c with
  | registry c => cases c <;> first | exact h | exact h.elim
  | peers c => cases c <;> first | exact h | exact h.elim
  | _ => exact h

section Effects

/-- What a call of these requests does to the tables, and what its answer says of them. -/
structure Effect (c : Call) (a : c.Ans) (s s' : NodeState) : Prop where
  clock : s'.clock = s.clock
  rings : ∀ ring, ring ∈ s'.registry.rings ↔ ring ∈ s.registry.rings
  live : ∀ ring peer, s'.registry.isLiveMember s.clock ring peer →
    s.registry.isLiveMember s.clock ring peer ∨ joins ring peer ⟨c, a⟩
  kept : ∀ peer, peer ∈ s.localStore.peers → peer ∈ s'.localStore.peers ∨ c = .peers (.remove peer)
  ensured : ∀ peer, ensures peer ⟨c, a⟩ → peer ∈ s'.localStore.peers
  passed : ∀ ring peer, passes ring peer ⟨c, a⟩ → ¬ s'.registry.isLiveMember s.clock ring peer

theorem effect_of_eq {c : Call} {a : c.Ans} {s : NodeState}
    (hensures : ∀ peer, ensures peer ⟨c, a⟩ → peer ∈ s.localStore.peers)
    (hpasses : ∀ ring peer, passes ring peer ⟨c, a⟩ → ¬ s.registry.isLiveMember s.clock ring peer) : Effect c a s s where
  clock := rfl
  rings _ := Iff.rfl
  live _ _ h := .inl h
  kept _ h := .inl h
  ensured := hensures
  passed := hpasses

theorem mem_rings_setMembers {r : Registry} {ring : String} {ms : Members} (h : ring ∈ r.rings) (other : String) :
    other ∈ (r.setMembers ring ms).rings ↔ other ∈ r.rings := by
  change other ∈ r.rings.insert ring ms ↔ _
  rw [ExtTreeMap.mem_insert]
  constructor
  · rintro (hc | hmem)
    · rwa [← LawfulEqOrd.eq_of_compare hc]
    · exact hmem
  · exact Or.inr

theorem effect_addPeerToRing (s : NodeState) (ring : String) (peer : EndpointId) (expiresAt : Option SystemTime) :
    Effect (.registry (.addPeerToRing ring peer expiresAt)) (exec (.registry (.addPeerToRing ring peer expiresAt)) s).1 s
      (exec (.registry (.addPeerToRing ring peer expiresAt)) s).2 := by
  by_cases hring : ring ∈ s.registry.rings
  · simp only [exec, RegistryCall.exec, Registry.addPeerToRing, hring, if_true]
    refine ⟨rfl, mem_rings_setMembers hring, ?_, fun _ h ↦ .inl h, ?_, ?_⟩
    · intro other peer' hlive
      obtain ⟨expiry, hmember, hexpiry⟩ := Registry.isLiveMember_iff.mp hlive
      rw [Registry.members_setMembers] at hmember
      split at hmember
      · rename_i hsame
        subst hsame
        rw [ExtTreeMap.getElem?_insert] at hmember
        split at hmember
        · rename_i hpeer
          refine .inr ?_
          simp [joins, LawfulEqOrd.eq_of_compare hpeer]
        · exact .inl (Registry.isLiveMember_iff.mpr ⟨expiry, hmember, hexpiry⟩)
      · exact .inl (Registry.isLiveMember_iff.mpr ⟨expiry, hmember, hexpiry⟩)
    · intro peer' h
      cases h
    · intro other peer' h
      cases h
  · simp only [exec, RegistryCall.exec, Registry.addPeerToRing, hring, if_false]
    apply effect_of_eq
    · intro peer' h
      cases h
    · intro other peer' h
      cases h

theorem effect_removePeerFromRing (s : NodeState) (ring : String) (peer : EndpointId) :
    Effect (.registry (.removePeerFromRing ring peer)) (exec (.registry (.removePeerFromRing ring peer)) s).1 s
      (exec (.registry (.removePeerFromRing ring peer)) s).2 := by
  cases hremove : s.registry.removePeerFromRing ring peer with
  | error e =>
    simp only [exec, RegistryCall.exec, hremove]
    apply effect_of_eq
    · intro peer' h
      cases h
    · intro other peer' h
      cases h
  | ok r' =>
    simp only [exec, RegistryCall.exec, hremove]
    unfold Registry.removePeerFromRing at hremove
    split_ifs at hremove with hring
    obtain rfl := Except.ok.inj hremove
    have hlive : ∀ other peer', (s.registry.setMembers ring ((s.registry.members ring).erase peer)).isLiveMember s.clock
        other peer' → s.registry.isLiveMember s.clock other peer' ∧ ¬ (ring = other ∧ peer = peer') := by
      intro other peer' h
      obtain ⟨expiry, hmember, hexpiry⟩ := Registry.isLiveMember_iff.mp h
      rw [Registry.members_setMembers] at hmember
      split at hmember
      · rename_i hsame
        subst hsame
        rw [ExtTreeMap.getElem?_erase] at hmember
        split at hmember
        · cases hmember
        · rename_i hpeer
          exact ⟨Registry.isLiveMember_iff.mpr ⟨expiry, hmember, hexpiry⟩, fun h ↦ hpeer (by rw [h.2, compare_self])⟩
      · rename_i hne
        exact ⟨Registry.isLiveMember_iff.mpr ⟨expiry, hmember, hexpiry⟩, fun h ↦ hne h.1⟩
    refine ⟨rfl, mem_rings_setMembers hring, fun other peer' h ↦ .inl (hlive other peer' h).1, fun _ h ↦ .inl h, ?_, ?_⟩
    · intro peer' h
      cases h
    · intro other peer' h hstill
      exact (hlive other peer' hstill).2 (by simpa [passes] using h)

theorem effect_listRingPeers (s : NodeState) (ring : String) :
    Effect (.registry (.listRingPeers ring)) (exec (.registry (.listRingPeers ring)) s).1 s s := by
  apply effect_of_eq
  · intro peer' h
    cases h
  · intro other peer' h hlive
    change passes other peer' ⟨.registry (.listRingPeers ring), s.registry.listRingPeers s.clock ring⟩ = true at h
    cases hms : s.registry.listRingPeers s.clock ring with
    | error e =>
      rw [hms] at h
      cases h
    | ok members =>
      rw [hms] at h
      obtain ⟨rfl, habsent⟩ : ring = other ∧ ∀ m ∈ members, m.peer ≠ peer' := by simpa [passes] using h
      obtain ⟨m, hm, hpeer⟩ := (Registry.mem_listRingPeers hms peer').mpr hlive
      exact habsent m hm hpeer

theorem effect_peers (c : PeersCall) (s : NodeState) :
    Effect (.peers c) (exec (.peers c) s).1 s (exec (.peers c) s).2 := by
  cases c with
  | get peer =>
    apply effect_of_eq
    · intro peer' h
      change ensures peer' ⟨.peers (.get peer), .ok s.localStore.peers[peer]?⟩ = true at h
      cases hget : s.localStore.peers[peer]? with
      | none =>
        rw [hget] at h
        cases h
      | some nickname =>
        rw [hget] at h
        obtain rfl : peer = peer' := by simpa [ensures] using h
        rw [ExtTreeMap.mem_iff_isSome_getElem?, hget]
        rfl
    · intro other peer' h
      cases h
  | insert peer nickname =>
    refine ⟨rfl, fun _ ↦ Iff.rfl, fun _ _ h ↦ .inl h, fun other h ↦ .inl ?_, fun other h ↦ ?_, fun _ _ h ↦ (by cases h)⟩
    · exact ExtTreeMap.mem_insert.mpr (.inr h)
    · obtain rfl : peer = other := by simpa [ensures, exec, PeersCall.exec] using h
      exact ExtTreeMap.mem_insert.mpr (.inl compare_self)
  | remove peer =>
    simp only [exec, PeersCall.exec, LocalStore.removePeer]
    split
    · rename_i s' hremove
      split at hremove
      · obtain rfl := Except.ok.inj hremove
        refine ⟨rfl, fun _ ↦ Iff.rfl, fun _ _ h ↦ .inl h, fun other h ↦ ?_, fun _ h ↦ (by cases h), fun _ _ h ↦ (by cases h)⟩
        by_cases hother : peer = other
        · subst hother
          exact .inr rfl
        · refine .inl (ExtTreeMap.mem_erase.mpr ⟨?_, h⟩)
          exact fun hc ↦ hother (LawfulEqOrd.eq_of_compare hc)
      · cases hremove
    · exact effect_of_eq (fun _ h ↦ by cases h) (fun _ _ h ↦ by cases h)
  | list => exact effect_of_eq (fun _ h ↦ by cases h) (fun _ _ h ↦ by cases h)

theorem effect_exec {known : String → Prop} {log : Trace Call.Ans} {c : Call} (s : NodeState) (h : InOrder known log c) :
    Effect c (exec c s).1 s (exec c s).2 := by
  cases c with
  | registry c =>
    cases c with
    | addPeerToRing ring peer expiresAt => exact effect_addPeerToRing s ring peer expiresAt
    | removePeerFromRing ring peer => exact effect_removePeerFromRing s ring peer
    | listRingPeers ring => exact effect_listRingPeers s ring
    | listRings => exact effect_of_eq (fun _ h ↦ by cases h) (fun _ _ h ↦ by cases h)
    | _ => exact h.elim
  | peers c => exact effect_peers c s
  | grants c =>
    have hpeers : (c.exec s.localStore).2.peers = s.localStore.peers := by cases c <;> rfl
    refine ⟨rfl, fun _ ↦ Iff.rfl, fun _ _ h ↦ .inl h, fun peer h ↦ .inl ?_, fun _ h ↦ (by cases h), fun _ _ h ↦ (by cases h)⟩
    exact hpeers ▸ h
  | endpointAddr => exact effect_of_eq (fun _ h ↦ by cases h) (fun _ _ h ↦ by cases h)
  | now => exact effect_of_eq (fun _ h ↦ by cases h) (fun _ _ h ↦ by cases h)
  | send e => exact effect_of_eq (fun _ h ↦ by cases h) (fun _ _ h ↦ by cases h)
  | _ => exact h.elim

end Effects

section Steps

variable {ι : Type} [DecidableEq ι] {known : String → Prop} {x : MembershipRequests ι} {i : ι}

def WillRemove (x : MembershipRequests ι) (i : ι) (peer : EndpointId) : Prop :=
  ¬ (x.threads i).prog.Uses (fun c ↦ c ≠ .peers (.remove peer))

/-- No ring that request `j` has put the peer in, and in which the peer still is, has been
passed by a request that is still to take the peer off the store. -/
def Undropped (x : MembershipRequests ι) (j : ι) (peer : EndpointId) : Prop :=
  ∀ ring, Joined (x.threads j).log ring peer → x.state.registry.isLiveMember x.state.clock ring peer →
    ∀ i, WillRemove x i peer → ¬ Passed (x.threads i).log ring peer

/-- `PeerStore::ensure` does not come to an end between the last look of a removal at the ring
and the end of that removal. -/
def Unraced (x : MembershipRequests ι) (j : ι) : Call → Prop
  | .peers (.get peer) => peer ∈ x.state.localStore.peers → Undropped x j peer
  | .peers (.insert peer _) => Undropped x j peer
  | _ => True

omit [DecidableEq ι] in
theorem undropped_of_ensures {c : Call} {peer : EndpointId} (hc : Unraced x i c)
    (h : ensures peer ⟨c, (exec c x.state).1⟩) : Undropped x i peer := by
  cases c with
  | peers c =>
    cases c with
    | get peer' =>
      have hfound : ensures peer ⟨.peers (.get peer'), .ok x.state.localStore.peers[peer']?⟩ = true := h
      cases hget : x.state.localStore.peers[peer']? with
      | none =>
        rw [hget] at hfound
        cases hfound
      | some nickname =>
        rw [hget] at hfound
        obtain rfl : peer' = peer := by simpa [ensures] using hfound
        refine hc ?_
        rw [ExtTreeMap.mem_iff_isSome_getElem?, hget]
        rfl
    | insert peer' nickname =>
      obtain rfl : peer' = peer := by simpa [ensures, exec, PeersCall.exec] using h
      exact hc
    | remove peer' => cases h
    | list => cases h
  | _ => cases h

/-- The rings stay the same; every live member is in the store or on the way to it; and a
peer that is to be taken off the store is on the way to it where it is back in a ring. -/
structure Tracked (known : String → Prop) (x : MembershipRequests ι) : Prop where
  rings : ∀ ring, ring ∈ x.state.registry.rings ↔ known ring
  accounted : ∀ ring, ring ≠ openRingName → ∀ peer, x.state.registry.isLiveMember x.state.clock ring peer →
    peer ∈ x.state.localStore.peers ∨ ∃ j, Pending (x.threads j).log ring peer
  passed : ∀ i peer, WillRemove x i peer → ∀ ring, Passed (x.threads i).log ring peer →
    x.state.registry.isLiveMember x.state.clock ring peer → ∃ j, Pending (x.threads j).log ring peer

variable {c : Call} {k : c.Ans → Action Unit} {a : c.Ans} {s : NodeState}

theorem willRemove_of_resume {j : ι} {peer : EndpointId} (hp : (x.threads i).prog = .call c k)
    (h : WillRemove (x.resume i c a k s) j peer) : WillRemove x j peer := by
  unfold WillRemove at h ⊢
  by_cases hij : j = i
  · subst hij
    rw [Pool.resume_self] at h
    rw [hp]
    exact fun huses ↦ h (huses.2 a)
  · rwa [Pool.resume_of_ne _ hij] at h

theorem pending_resume {j : ι} {ring : String} {peer : EndpointId} (h : Pending (x.threads j).log ring peer) :
    Pending ((x.resume i c a k s).threads j).log ring peer ∨
      j = i ∧ ensures peer ⟨c, a⟩ ∧ Joined (x.threads i).log ring peer := by
  by_cases hij : j = i
  · subst hij
    rw [Pool.resume_self]
    by_cases hensures : ensures peer ⟨c, a⟩ = true
    · exact .inr ⟨rfl, hensures, h.1⟩
    · refine .inl ⟨joined_concat.mpr (.inl h.1), fun hdone ↦ ?_⟩
      rcases ensured_concat.mp hdone with hbefore | hnow
      · exact h.2 hbefore
      · exact hensures hnow
  · rw [Pool.resume_of_ne _ hij]
    exact .inl h

theorem pending_of_joins {ring : String} {peer : EndpointId} (hc : InOrder known (x.threads i).log c)
    (h : joins ring peer ⟨c, a⟩) : Pending ((x.resume i c a k s).threads i).log ring peer := by
  rw [Pool.resume_self]
  refine ⟨joined_concat.mpr (.inr h), fun hdone ↦ ?_⟩
  unfold joins at h
  split at h
  · rename_i ring' peer' expiresAt u heq
    cases heq
    obtain ⟨-, rfl⟩ : ring' = ring ∧ peer' = peer := by simpa using h
    rcases ensured_concat.mp hdone with hbefore | hnow
    · exact hc hbefore
    · cases hnow
  · cases h

theorem Tracked.step (h : Tracked known x) (hc : InOrder known (x.threads i).log c) (hg : Unraced x i c)
    (hp : (x.threads i).prog = .call c k) (ha : graph exec c x.state a s) : Tracked known (x.resume i c a k s) := by
  have heffect : Effect c a x.state s := by
    have heffect := effect_exec x.state hc
    rwa [show exec c x.state = (a, s) from ha] at heffect
  have hundropped : ∀ peer, ensures peer ⟨c, a⟩ → Undropped x i peer := by
    intro peer hensures
    apply undropped_of_ensures hg
    rwa [show exec c x.state = (a, s) from ha]
  have hlive : ∀ ring peer, s.registry.isLiveMember s.clock ring peer →
      x.state.registry.isLiveMember x.state.clock ring peer ∨
        ∃ j, Pending ((x.resume i c a k s).threads j).log ring peer := by
    intro ring peer hnow
    rw [heffect.clock] at hnow
    rcases heffect.live ring peer hnow with hbefore | hjoins
    · exact .inl hbefore
    · exact .inr ⟨i, pending_of_joins hc hjoins⟩
  constructor
  · intro ring
    exact (heffect.rings ring).trans (h.rings ring)
  · intro ring hne peer hnow
    rcases hlive ring peer hnow with hbefore | hpending
    · have haway : (∃ j, Pending (x.threads j).log ring peer) → peer ∈ s.localStore.peers ∨
          ∃ j, Pending ((x.resume i c a k s).threads j).log ring peer := by
        intro haway
        obtain ⟨j, hj⟩ := haway
        rcases pending_resume hj with hstill | ⟨-, hensures, -⟩
        · exact .inr ⟨j, hstill⟩
        · exact .inl (heffect.ensured peer hensures)
      rcases h.accounted ring hne peer hbefore with hin | hpending
      · rcases heffect.kept peer hin with hkept | rfl
        · exact .inl hkept
        · have hknown := (h.rings ring).mp (Registry.mem_rings_of_isLiveMember hbefore)
          have hwill : WillRemove x i peer := by
            unfold WillRemove
            rw [hp]
            exact fun huses ↦ huses.1 rfl
          exact haway (h.passed i peer hwill ring (hc ring hknown hne) hbefore)
      · exact haway hpending
    · exact .inr hpending
  · intro j peer hwill ring hpassed hnow
    have hbefore := willRemove_of_resume hp hwill
    have hold : Passed (x.threads j).log ring peer := by
      by_cases hij : j = i
      · subst hij
        rw [Pool.resume_self] at hpassed
        rcases passed_concat.mp hpassed with hold | hpasses
        · exact hold
        · have hnow' : s.registry.isLiveMember s.clock ring peer := hnow
          rw [heffect.clock] at hnow'
          exact absurd hnow' (heffect.passed ring peer hpasses)
      · rwa [Pool.resume_of_ne _ hij] at hpassed
    rcases hlive ring peer hnow with hthen | hpending
    · obtain ⟨l, hl⟩ := h.passed j peer hbefore ring hold hthen
      rcases pending_resume hl with hstill | ⟨-, hensures, hjoined⟩
      · exact ⟨l, hstill⟩
      · exact absurd hold (hundropped peer hensures ring hjoined hthen j hbefore)
    · exact hpending

end Steps

section Threads

variable {known : String → Prop} {log : Trace Call.Ans} {reqId : Uuid}

theorem uses_finish_plain (lines : List String) : (finish reqId lines).Uses Plain := by
  refine Uses.bind (Uses.forM (fun line ↦ uses_ask ?_) _) fun _ ↦ uses_ask ?_
  · trivial
  · trivial

theorem uses_ensure_plain (peer : EndpointId) : (PeerStore.ensure peer).Uses Plain := by
  refine (uses_asking (.peers (.get peer)) id trivial).bind fun stored ↦ ?_
  split
  · trivial
  · exact uses_asking (.peers (.insert peer _)) id trivial

theorem uses_get_plain (peer : EndpointId) : (PeerStore.get peer).Uses Plain :=
  (uses_asking (.peers (.get peer)) id trivial).bind fun _ ↦ trivial

theorem uses_leaveRing_plain (peer : EndpointId) (removedFrom : List String) (ring : Ring) :
    (leaveRing peer removedFrom ring).Uses Plain := by
  unfold leaveRing
  split
  · trivial
  · refine (uses_asking (.registry (.listRingPeers ring.name)) id trivial).bind fun members ↦ ?_
    split
    · exact (uses_asking (.registry (.removePeerFromRing ring.name peer)) id trivial).bind fun _ ↦ trivial
    · trivial

theorem uses_revokeHeld_plain (peer : EndpointId) (revoked : List String) (privilege : Privilege) :
    (revokeHeld peer revoked privilege).Uses Plain := by
  refine (uses_asking (.grants (.get privilege peer)) id trivial).bind fun held ↦ ?_
  split
  · exact (uses_asking (.grants (.remove privilege peer)) id trivial).bind fun _ ↦ trivial
  · trivial

theorem uses_futureExpiry_now (unixSecs : UInt64) : (futureExpiry unixSecs).Uses (· = .now) := by
  unfold futureExpiry
  split
  · trivial
  · refine (uses_ask (P := (· = Call.now)) rfl).bind fun t ↦ ?_
    split <;> trivial

theorem wpc_plain {α : Type} {prog : Action α} (h : prog.Uses Plain) (hlog : Follows (InOrder known) log) :
    prog.wpc (Pool.heard (Told known)) (Follows (InOrder known)) (fun _ _ ↦ True) log := by
  refine h.wpc_invariant (fun c log a log' hc _ hheard ↦ ?_) hlog
  rw [hheard.2]
  exact follows_concat.mpr (inOrder_of_plain hc)

theorem wpc_plain_bind {α β : Type} {prog : Action α} {f : α → Action β} (h : prog.Uses Plain)
    (hlog : Follows (InOrder known) log) (hf : ∀ v log, Follows (InOrder known) log →
      (f v).wpc (Pool.heard (Told known)) (Follows (InOrder known)) (fun _ _ ↦ True) log) :
    (prog >>= f).wpc (Pool.heard (Told known)) (Follows (InOrder known)) (fun _ _ ↦ True) log :=
  wpc_bind (wpc_mono (wpc_plain h hlog) fun v log' hlog' _ ↦ hf v log' hlog')

theorem not_ensured_of_now {prog : Action Expiry} (h : prog.Uses (· = .now)) {peer : EndpointId}
    (hlog : ¬ Ensured log peer) :
    prog.wp (Pool.heard (Told known)) (fun _ log' ↦ ¬ Ensured log' peer) (fun _ _ ↦ True) log := by
  refine wp_mono (h.wp_invariant (I := fun log' ↦ ¬ Ensured log' peer) (fun c log a log' hc hbefore hheard ↦ ?_) hlog)
    (fun _ _ h ↦ h) (fun _ _ _ ↦ trivial)
  subst hc
  rw [hheard.2, ensured_concat]
  exact fun h ↦ h.elim hbefore (by simp [ensures])

theorem wpc_addPeerToRing {α : Type} {ring : String} {peer : EndpointId} {expiresAt : Option SystemTime}
    {f : Unit → Action α} (hf : (f ()).Uses Plain) (hlog : Follows (InOrder known) log) (hnot : ¬ Ensured log peer) :
    (registry (.addPeerToRing ring peer expiresAt) >>= f).wpc (Pool.heard (Told known)) (Follows (InOrder known))
      (fun _ _ ↦ True) log := by
  apply wpc_bind
  apply wpc_bind
  apply wpc_ask hlog
  intro a log' hheard
  have hlog' : Follows (InOrder known) log' := by
    rw [hheard.2]
    exact follows_concat.mpr hnot
  refine ⟨hlog', wpc_ofExcept hlog' fun u _ ↦ ?_⟩
  exact wpc_plain hf hlog'

theorem wpc_ringAddLines {env : Env} {publicId : EndpointId} {ring peer : String} {expiresAt : Option UInt64}
    (hlog : Follows (InOrder known) log) (hnot : ∀ peer, ¬ Ensured log peer) :
    (ringAddLines env publicId ring peer expiresAt).wpc (Pool.heard (Told known)) (Follows (InOrder known))
      (fun _ _ ↦ True) log := by
  unfold ringAddLines
  split
  · exact ⟨hlog, trivial⟩
  · apply wpc_bind
    refine wpc_ofExcept hlog fun peerId _ ↦ ?_
    split
    · exact hlog
    · cases expiresAt with
      | none =>
        exact wpc_addPeerToRing ((uses_ensure_plain peerId).bind fun _ ↦ trivial) hlog (hnot peerId)
      | some secs =>
        dsimp only
        rw [map_eq_pure_bind]
        apply wpc_bind
        apply wpc_bind
        have hplain : (futureExpiry secs).Uses Plain := by
          refine (uses_futureExpiry_now secs).mono ?_
          rintro c rfl
          trivial
        refine wpc_mono (wpc_of_wp (wpc_plain hplain hlog)
          (not_ensured_of_now (uses_futureExpiry_now secs) (hnot peerId))) ?_
        intro expiry log' hlog' hnot'
        refine ⟨hlog', ?_⟩
        refine wpc_addPeerToRing ((uses_ensure_plain peerId).bind fun _ ↦ ?_) hlog' hnot'
        trivial

theorem passed_heard {c : Call} {a : c.Ans} {log' : Trace Call.Ans} {ring : String} {peer : EndpointId}
    (hheard : Pool.heard (Told known) c log a log') (h : Passed log ring peer) : Passed log' ring peer := by
  rw [hheard.2]
  exact passed_concat.mpr (.inl h)

def PassedBut (known : String → Prop) (peer : EndpointId) (rest : List Ring) (log : Trace Call.Ans) : Prop :=
  ∀ ring, known ring → ring ≠ openRingName → ⟨ring⟩ ∈ rest ∨ Passed log ring peer

theorem wp_leaveRing_passed {peer : EndpointId} {ring : Ring} (removedFrom : List String) {rest : List Ring}
    (hlog : PassedBut known peer (ring :: rest) log) :
    (leaveRing peer removedFrom ring).wp (Pool.heard (Told known)) (fun _ ↦ PassedBut known peer rest)
      (fun _ _ ↦ True) log := by
  have hpassed : ∀ log', (∀ other, Passed log other peer → Passed log' other peer) →
      (ring.name ≠ openRingName → Passed log' ring.name peer) → PassedBut known peer rest log' := by
    intro log' hkept hnow other hknown hne
    rcases hlog other hknown hne with hmem | hbefore
    · rcases List.mem_cons.mp hmem with hsame | hrest
      · have hname : other = ring.name := congrArg Ring.name hsame
        subst hname
        exact .inr (hnow hne)
      · exact .inl hrest
    · exact .inr (hkept other hbefore)
  unfold leaveRing
  split
  · rename_i hopen
    exact hpassed log (fun _ h ↦ h) (fun hne ↦ absurd (beq_iff_eq.mp hopen) hne)
  · rw [wp_bind, wp_registry]
    intro a log₁ h₁
    cases a with
    | error e => trivial
    | ok members =>
      rw [outcome_ok]
      split
      · rw [wp_bind, wp_registry]
        intro b log₂ h₂
        cases b with
        | error e => trivial
        | ok u =>
          refine hpassed log₂ (fun other h ↦ passed_heard h₂ (passed_heard h₁ h)) fun _ ↦ ?_
          rw [h₂.2]
          exact passed_concat.mpr (.inr (by simp [passes]))
      · rename_i habsent
        refine hpassed log₁ (fun other h ↦ passed_heard h₁ h) fun _ ↦ ?_
        rw [h₁.2]
        exact passed_concat.mpr (.inr (by simpa [passes] using habsent))

/-- A removal has passed every ring by the time it takes the peer off the store. -/
theorem wpc_peerRemoveLines {env : Env} {peer : String} (hlog : Follows (InOrder known) log) :
    (peerRemoveLines env peer).wpc (Pool.heard (Told known)) (Follows (InOrder known)) (fun _ _ ↦ True) log := by
  unfold peerRemoveLines
  apply wpc_bind
  refine wpc_ofExcept hlog fun peerId _ ↦ ?_
  refine wpc_plain_bind (uses_get_plain peerId) hlog fun stored log₁ hlog₁ ↦ ?_
  split
  · exact hlog₁
  · apply wpc_bind
    apply wpc_bind
    apply wpc_ask hlog₁
    intro a log₂ h₂
    have hlog₂ : Follows (InOrder known) log₂ := by
      rw [h₂.2]
      exact follows_concat.mpr trivial
    refine ⟨hlog₂, wpc_ofExcept hlog₂ fun rings hrings ↦ ?_⟩
    subst hrings
    have hstart : PassedBut known peerId rings log₂ := fun ring hknown _ ↦ .inl (h₂.1 ring hknown)
    have hleave : (rings.foldlM (leaveRing peerId) []).wp (Pool.heard (Told known))
        (fun _ ↦ PassedBut known peerId []) (fun _ _ ↦ True) log₂ :=
      wp_foldlM (I := fun rest _ ↦ PassedBut known peerId rest)
        (fun ring rest removedFrom _ h ↦ wp_leaveRing_passed removedFrom h) (fun _ _ h ↦ h) hstart
    apply wpc_bind
    refine wpc_mono (wpc_of_wp (wpc_plain (Uses.foldlM (uses_leaveRing_plain peerId) _ _) hlog₂) hleave) ?_
    intro removedFrom log₃ hlog₃ hpassed
    apply wpc_bind
    have hrevoke : (Privilege.all.foldlM (revokeHeld peerId) []).wp (Pool.heard (Told known))
        (fun _ ↦ PassedBut known peerId []) (fun _ _ ↦ True) log₃ := by
      refine wp_mono ((uses_true _).wp_invariant (I := PassedBut known peerId [])
        (fun c log a log' _ h hheard ring hknown hne ↦ ?_) hpassed) (fun _ _ h ↦ h) (fun _ _ _ ↦ trivial)
      exact (h ring hknown hne).imp id (passed_heard hheard)
    refine wpc_mono (wpc_of_wp (wpc_plain (Uses.foldlM (uses_revokeHeld_plain peerId) _ _) hlog₃) hrevoke) ?_
    intro revoked log₄ hlog₄ hpassed₄
    apply wpc_bind
    apply wpc_bind
    apply wpc_ask hlog₄
    intro b log₅ h₅
    have hlog₅ : Follows (InOrder known) log₅ := by
      rw [h₅.2]
      refine follows_concat.mpr fun ring hknown hne ↦ ?_
      exact (hpassed₄ ring hknown hne).resolve_left List.not_mem_nil
    exact ⟨hlog₅, wpc_ofExcept hlog₅ fun _ _ ↦ ⟨hlog₅, trivial⟩⟩

theorem uses_handleRingRemove_plain (env : Env) (ring peer : String) :
    (Server.handleRingRemove env reqId ring peer).Uses Plain := by
  refine Uses.bind ?_ fun lines ↦ uses_finish_plain lines
  unfold ringRemoveLines
  split
  · trivial
  · refine (uses_ofExcept _).bind fun peerId ↦ ?_
    exact (uses_asking (.registry (.removePeerFromRing ring peerId)) id trivial).bind fun _ ↦ trivial

theorem uses_handlePeerAdd_plain (env : Env) (peer : String) (nickname : Option String) :
    (Server.handlePeerAdd env reqId peer nickname).Uses Plain := by
  have hlines : (peerAddLines env peer nickname).Uses Plain := by
    refine (uses_ofExcept _).bind fun peerId ↦ ?_
    cases nickname with
    | some nick => exact (uses_asking (.peers (.insert peerId _)) id trivial).bind fun _ ↦ trivial
    | none => exact (uses_ensure_plain peerId).bind fun _ ↦ trivial
  refine hlines.bind fun lines ↦ ?_
  refine Uses.bind (Uses.forM (fun line ↦ uses_ask ?_) _) fun _ ↦ (uses_ask ?_).bind fun _ ↦ uses_ask ?_
  · trivial
  · trivial
  · trivial

theorem wpc_handleOp (env : Env) (defaultReceiveDir : Option Path) (reqId : Uuid) (r : MembershipRequest) :
    (Server.handleOp env defaultReceiveDir reqId r.op).wpc (Pool.heard (Told known)) (Follows (InOrder known))
      (fun _ _ ↦ True) [] := by
  have hfinish : ∀ lines log, Follows (InOrder known) log → (finish reqId lines).wpc (Pool.heard (Told known))
      (Follows (InOrder known)) (fun _ _ ↦ True) log := fun lines _ hlog ↦ wpc_plain (uses_finish_plain lines) hlog
  cases r with
  | ringAdd ring peer expiresAt =>
    apply wpc_bind
    apply wpc_ask follows_nil
    intro addr log h
    have hlog : Follows (InOrder known) log := by
      rw [h.2]
      exact follows_concat.mpr trivial
    refine ⟨hlog, wpc_bind ?_⟩
    refine wpc_mono (wpc_ringAddLines hlog fun peer hensured ↦ ?_) fun lines log' hlog' _ ↦ hfinish lines log' hlog'
    rw [h.2] at hensured
    cases hensured
  | ringRemove ring peer => exact wpc_plain (uses_handleRingRemove_plain env ring peer) follows_nil
  | peerAdd peer nickname => exact wpc_plain (uses_handlePeerAdd_plain env peer nickname) follows_nil
  | peerRemove peer =>
    apply wpc_bind
    exact wpc_mono (wpc_peerRemoveLines follows_nil) fun lines log hlog _ ↦ hfinish lines log hlog

/-- Every peer that has been put in a ring is in the store. -/
def Ended (log : Trace Call.Ans) : Prop := ∀ ring peer, Joined log ring peer → Ensured log peer

def Quiet (c : Call) : Prop := ∀ a ring peer, joins ring peer ⟨c, a⟩ = false

theorem quiet_of_plain {c : Call} (h : Plain c) : Quiet c := by
  intro a ring peer
  unfold joins
  split
  · rename_i heq
    cases heq
    exact h.elim
  · rfl

theorem joined_quiet {c : Call} {a : c.Ans} (hc : Quiet c) {ring : String} {peer : EndpointId} :
    Joined (log ++ [⟨c, a⟩]) ring peer ↔ Joined log ring peer := by
  rw [joined_concat, hc a ring peer]
  simp

theorem Ended.heard {c : Call} {a : c.Ans} {log' : Trace Call.Ans} (hc : Quiet c) (h : Ended log)
    (hheard : Pool.heard (Told known) c log a log') : Ended log' := by
  intro ring peer hjoined
  rw [hheard.2] at hjoined ⊢
  exact ensured_concat.mpr (.inl (h ring peer ((joined_quiet hc).mp hjoined)))

theorem wp_quiet {α : Type} {prog : Action α} (hprog : prog.Uses Quiet) (h : Ended log) :
    prog.wp (Pool.heard (Told known)) (fun _ ↦ Ended) (fun _ ↦ Ended) log :=
  hprog.wp_invariant (fun _ _ _ _ hc hlog hheard ↦ hlog.heard hc hheard) h

theorem uses_peerRemoveLines_quiet (env : Env) (peer : String) : (peerRemoveLines env peer).Uses Quiet := by
  have hplain : ∀ c : Call, Plain c → Quiet c := fun _ ↦ quiet_of_plain
  refine (uses_ofExcept _).bind fun peerId ↦ ?_
  refine ((uses_get_plain peerId).mono hplain).bind fun stored ↦ ?_
  split
  · trivial
  · refine (uses_asking (.registry .listRings) id (hplain _ trivial)).bind fun rings ↦ ?_
    refine (Uses.foldlM (fun acc ring ↦ (uses_leaveRing_plain peerId acc ring).mono hplain) _ _).bind fun removedFrom ↦ ?_
    refine (Uses.foldlM (fun acc privilege ↦ (uses_revokeHeld_plain peerId acc privilege).mono hplain) _ _).bind
      fun revoked ↦ ?_
    refine Uses.bind (uses_asking (.peers (.remove peerId)) id ?_) fun _ ↦ trivial
    exact fun _ _ _ ↦ rfl

theorem wp_ensure_ended {peer : EndpointId} (h : ∀ ring other, Joined log ring other → other = peer) :
    (PeerStore.ensure peer).wp (Pool.heard (Told known)) (fun _ ↦ Ended) (fun _ ↦ Ended) log := by
  have hended : ∀ {c : PeersCall} {a : (Call.peers c).Ans} {log'},
      (∀ ring other, Joined log' ring other → other = peer) → ensures peer ⟨.peers c, a⟩ →
      Ended (log' ++ [⟨.peers c, a⟩]) := by
    intro c a log' hjoined hensures ring other hother
    rcases joined_concat.mp hother with hbefore | hnow
    · obtain rfl := hjoined ring other hbefore
      exact ensured_concat.mpr (.inr hensures)
    · cases hnow
  unfold PeerStore.ensure PeerStore.upsert
  rw [wp_bind, wp_peers]
  intro stored log₁ h₁
  cases stored with
  | error e => exact h₁.1.elim
  | ok stored =>
    rw [outcome_ok]
    cases stored with
    | some nickname =>
      rw [h₁.2]
      exact hended h (by simp [ensures])
    | none =>
      have hjoined : ∀ ring other, Joined log₁ ring other → other = peer := by
        intro ring other hother
        rw [h₁.2] at hother
        exact h ring other ((joined_quiet (quiet_of_plain (c := .peers (.get peer)) trivial)).mp hother)
      rw [if_neg (by simp), wp_peers]
      intro a log₂ h₂
      cases a with
      | error e => exact h₂.1.elim
      | ok u =>
        rw [outcome_ok, h₂.2]
        exact hended hjoined (by simp [ensures])

def NoneJoined (log : Trace Call.Ans) : Prop := ∀ ring peer, ¬ Joined log ring peer

theorem NoneJoined.ended (h : NoneJoined log) : Ended log := fun ring peer hjoined ↦ (h ring peer hjoined).elim

theorem NoneJoined.heard {c : Call} {a : c.Ans} {log' : Trace Call.Ans} (hc : Quiet c) (h : NoneJoined log)
    (hheard : Pool.heard (Told known) c log a log') : NoneJoined log' := by
  intro ring peer hjoined
  rw [hheard.2] at hjoined
  exact h ring peer ((joined_quiet hc).mp hjoined)

theorem wp_addPeerToRing_ended {α : Type} {ring : String} {peer : EndpointId} {expiresAt : Option SystemTime}
    {f : Unit → Action α} (hf : (f ()).Uses Quiet) (hlog : NoneJoined log) :
    (do registry (.addPeerToRing ring peer expiresAt)
        PeerStore.ensure peer
        f () : Action α).wp (Pool.heard (Told known)) (fun _ ↦ Ended) (fun _ ↦ Ended) log := by
  rw [wp_bind, wp_registry]
  intro a log₁ h₁
  cases a with
  | error e =>
    intro other peer' hjoined
    rw [h₁.2] at hjoined
    rcases joined_concat.mp hjoined with hbefore | hnow
    · exact (hlog other peer' hbefore).elim
    · cases hnow
  | ok u =>
    rw [outcome_ok, wp_bind]
    refine wp_mono (wp_ensure_ended fun other peer' hjoined ↦ ?_) ?_ (fun _ _ h ↦ h)
    · rw [h₁.2] at hjoined
      rcases joined_concat.mp hjoined with hbefore | hnow
      · exact (hlog other peer' hbefore).elim
      · obtain ⟨-, rfl⟩ : ring = other ∧ peer = peer' := by simpa [joins] using hnow
        rfl
    · intro _ log₂ hended
      exact wp_quiet hf hended

theorem wp_ringAddLines_ended {env : Env} {publicId : EndpointId} {ring peer : String} {expiresAt : Option UInt64}
    (hlog : NoneJoined log) : (ringAddLines env publicId ring peer expiresAt).wp (Pool.heard (Told known))
      (fun _ ↦ Ended) (fun _ ↦ Ended) log := by
  unfold ringAddLines
  split
  · exact hlog.ended
  · rw [wp_bind, wp_ofExcept]
    cases parsePeerId env peer with
    | error e => exact hlog.ended
    | ok peerId =>
      rw [outcome_ok]
      split
      · exact hlog.ended
      · cases expiresAt with
        | none =>
          exact wp_addPeerToRing_ended (f := fun _ ↦ pure _) trivial hlog
        | some secs =>
          dsimp only
          rw [map_eq_pure_bind, wp_bind, wp_bind]
          have hquiet : (futureExpiry secs).Uses Quiet := by
            refine (uses_futureExpiry_now secs).mono ?_
            rintro c rfl
            exact quiet_of_plain (c := .now) trivial
          refine wp_mono (hquiet.wp_invariant (fun _ _ _ _ hc h hheard ↦ NoneJoined.heard hc h hheard) hlog) ?_
            (fun _ _ h ↦ h.ended)
          intro expiry log' hlog'
          exact wp_addPeerToRing_ended (f := fun _ ↦ pure _) trivial hlog'

theorem wp_handleOp_ended (env : Env) (defaultReceiveDir : Option Path) (reqId : Uuid) (r : MembershipRequest) :
    (Server.handleOp env defaultReceiveDir reqId r.op).wp (Pool.heard (Told known)) (fun _ ↦ Ended)
      (fun _ ↦ Ended) [] := by
  have hnone : NoneJoined [] := fun ring peer hjoined ↦ by cases hjoined
  have hfinish : ∀ lines, (finish reqId lines).Uses Quiet := fun lines ↦
    (uses_finish_plain lines).mono fun _ ↦ quiet_of_plain
  cases r with
  | ringAdd ring peer expiresAt =>
    change (endpointAddr >>= fun addr ↦ ringAddLines env addr.id ring peer expiresAt >>= finish reqId).wp _ _ _ _
    rw [wp_bind, wp_endpointAddr]
    intro addr log h
    rw [wp_bind]
    refine wp_mono (wp_ringAddLines_ended (hnone.heard (quiet_of_plain (c := .endpointAddr) trivial) h)) ?_
      (fun _ _ h ↦ h)
    intro lines log' hlog'
    exact wp_quiet (hfinish lines) hlog'
  | ringRemove ring peer =>
    exact wp_quiet ((uses_handleRingRemove_plain env ring peer).mono fun _ ↦ quiet_of_plain) hnone.ended
  | peerAdd peer nickname =>
    exact wp_quiet ((uses_handlePeerAdd_plain env peer nickname).mono fun _ ↦ quiet_of_plain) hnone.ended
  | peerRemove peer =>
    exact wp_quiet ((uses_peerRemoveLines_quiet env peer).bind hfinish) hnone.ended

end Threads

section Runs

variable {ι : Type}

def membershipRequests (env : Env) (defaultReceiveDir : Option Path) (reqId : ι → Uuid)
    (reqs : ι → MembershipRequest) (s : NodeState) : MembershipRequests ι :=
  Pool.start s fun i ↦ Server.handleOp env defaultReceiveDir (reqId i) (reqs i).op

def ClockMoves (s s' : NodeState) : Prop := ∃ t, s.clock ≤ t ∧ s' = { s with clock := t }

/-- No request is in progress: each has come to an end or has not called anything yet. -/
def Idle (x : MembershipRequests ι) : Prop :=
  ∀ i, (x.threads i).log = [] ∨ ∀ c k, (x.threads i).prog ≠ .call c k

variable {env : Env} {defaultReceiveDir : Option Path} {reqId : ι → Uuid} {reqs : ι → MembershipRequest}
  {s : NodeState} {x : MembershipRequests ι}

theorem tracked_start (h : s.MembersKnown) :
    Tracked (· ∈ s.registry.rings) (membershipRequests env defaultReceiveDir reqId reqs s) where
  rings _ := Iff.rfl
  accounted ring hne peer hlive := .inl (h ring hne peer hlive)
  passed _ _ _ _ hpassed _ := by cases hpassed

theorem Tracked.later {known : String → Prop} {s' : NodeState} (h : Tracked known x) (hs : ClockMoves x.state s') :
    Tracked known { x with state := s' } := by
  obtain ⟨t, ht, rfl⟩ := hs
  refine ⟨h.rings, ?_, ?_⟩
  · intro ring hne peer hlive
    exact h.accounted ring hne peer (Registry.isLiveMember_of_le ht hlive)
  · intro i peer hwill ring hpassed hlive
    exact h.passed i peer hwill ring hpassed (Registry.isLiveMember_of_le ht hlive)

theorem told_of_tracked {known : String → Prop} {c : Call} {a : c.Ans} {s' : NodeState} {log : Trace Call.Ans}
    (h : Tracked known x) (ha : graph exec c x.state a s') : Told known log c a := by
  obtain rfl : (exec c x.state).1 = a := congrArg Prod.fst ha
  cases c with
  | registry c =>
    cases c with
    | listRings => exact fun ring hknown ↦ Registry.mem_listRings.mpr ((h.rings ring).mpr hknown)
    | _ => trivial
  | peers c => cases c <;> trivial
  | _ => trivial

variable [DecidableEq ι]

/-- The threads keep to the order of their calls, and what they have begun they bring to an end. -/
def Orderly (known : String → Prop) (prog : Action Unit) (log : Trace Call.Ans) : Prop :=
  prog.wpc (Pool.heard (Told known)) (Follows (InOrder known)) (fun _ _ ↦ True) log ∧
    prog.wp (Pool.heard (Told known)) (fun _ ↦ Ended) (fun _ ↦ Ended) log

theorem reached_orderly (hs : s.MembersKnown)
    (h : Pool.Reaches (graph exec) ClockMoves Unraced (membershipRequests env defaultReceiveDir reqId reqs s) x) :
    Tracked (· ∈ s.registry.rings) x ∧ ∀ i, Orderly (· ∈ s.registry.rings) (x.threads i).prog (x.threads i).log := by
  refine h.invariant (I := fun x : MembershipRequests ι ↦ Tracked (· ∈ s.registry.rings) x ∧
    ∀ i, Orderly (· ∈ s.registry.rings) (x.threads i).prog (x.threads i).log) ?_ ?_ ?_
  · exact ⟨tracked_start hs, fun i ↦ ⟨wpc_handleOp env defaultReceiveDir (reqId i) (reqs i),
      wp_handleOp_ended env defaultReceiveDir (reqId i) (reqs i)⟩⟩
  · intro y i c k a s' hy hguard hp ha
    obtain ⟨htracked, horderly⟩ := hy
    have htold : Told (· ∈ s.registry.rings) (y.threads i).log c a := told_of_tracked htracked ha
    obtain ⟨hcalls, hends⟩ := horderly i
    rw [hp] at hcalls hends
    have hnext := hcalls.2 a _ ⟨htold, rfl⟩
    have horder : InOrder (· ∈ s.registry.rings) (y.threads i).log c := follows_concat.mp (wpc_invariant hnext)
    refine ⟨htracked.step horder hguard hp ha, ?_⟩
    exact Pool.forall_resume (J := fun _ ↦ Orderly (· ∈ s.registry.rings)) horderly ⟨hnext, hends a _ ⟨htold, rfl⟩⟩
  · intro y s' hy hclock
    exact ⟨hy.1.later hclock, hy.2⟩

/-- In every interleaving of RingAdd, RingRemove, PeerAdd and PeerRemove requests in which no
peer is put in a ring and found in the store behind the back of a removal: whenever no
request is in progress, all live members of named rings are in the store. -/
theorem members_known (hs : s.MembersKnown)
    (h : Pool.Reaches (graph exec) ClockMoves Unraced (membershipRequests env defaultReceiveDir reqId reqs s) x)
    (hidle : Idle x) : x.state.MembersKnown := by
  obtain ⟨htracked, horderly⟩ := reached_orderly hs h
  intro ring hne peer hlive
  rcases htracked.accounted ring hne peer hlive with hin | ⟨j, hjoined, hnot⟩
  · exact hin
  · have hended : Ended (x.threads j).log := by
      rcases hidle j with hlog | hdone
      · rw [hlog] at hjoined
        cases hjoined
      · have hends := (horderly j).2
        cases hprog : (x.threads j).prog with
        | ret v =>
          rw [hprog] at hends
          exact hends
        | fail e =>
          rw [hprog] at hends
          exact hends
        | call c k => exact (hdone c k hprog).elim
    exact absurd (hended ring peer hjoined) hnot

end Runs

section TwoRequests

def knowingOne : NodeState :=
  { emptyNode with
    registry := Registry.empty.setMembers "friends" ∅
    localStore := LocalStore.empty.insertPeer (.fromByte 1) "ann" }

def addAndRemove : Bool → MembershipRequest
  | false => .ringAdd "friends" (toString (EndpointId.fromByte 1)) none
  | true => .peerRemove (toString (EndpointId.fromByte 1))

def addedAndRemoved (order : List Bool) : MembershipRequests Bool :=
  Pool.schedule exec order (membershipRequests (.plain []) none (fun _ ↦ .nil) addAndRemove knowingOne)

/-- The removal starts, then the peer is put in the ring, then the removal looks there. -/
def joinsBefore : List Bool := [true, true, false, false, false] ++ List.replicate 7 true ++ [false, false]

def joinsAfter : List Bool := List.replicate 4 true ++ [false, false, false] ++ List.replicate 3 true ++ [false, false]

def looks : (c : Call) × c.Ans → Bool
  | ⟨.registry (.listRingPeers _), _⟩ => true
  | ⟨.registry (.removePeerFromRing _ _), _⟩ => true
  | _ => false

theorem looks_of_passes {ring : String} {peer : EndpointId} {e : (c : Call) × c.Ans} (h : passes ring peer e) :
    looks e := by
  unfold passes at h
  split at h
  · rfl
  · rfl
  · cases h

def looksNowhere (x : MembershipRequests Bool) (_ : Bool) : Call → Bool
  | .peers (.get _) => [false, true].all fun i ↦ (x.threads i).log.all fun e ↦ !looks e
  | .peers (.insert _ _) => false
  | _ => true

theorem unraced_of_check {x : MembershipRequests Bool} {j : Bool} {c : Call} (h : looksNowhere x j c = true) :
    Unraced x j c := by
  cases c with
  | peers c =>
    cases c with
    | get peer =>
      intro _ ring _ _ i _ hpassed
      obtain ⟨e, he, hpasses⟩ := List.any_eq_true.mp hpassed
      have hnot : ∀ i : Bool, ∀ e ∈ (x.threads i).log, looks e = false := by simpa [looksNowhere] using h
      have hlooks := looks_of_passes hpasses
      rw [hnot i e he] at hlooks
      cases hlooks
    | insert peer nickname => cases h
    | _ => trivial
  | _ => trivial

theorem knowingOne_membersKnown : knowingOne.MembersKnown := by
  intro ring _ peer hlive
  obtain ⟨expiry, hmember, -⟩ := Registry.isLiveMember_iff.mp hlive
  have hempty : ∀ other, Registry.empty.members other = ∅ := by
    intro other
    simp [Registry.members, Registry.empty, ExtTreeMap.getD_insert]
  have hnone : knowingOne.registry.members ring = ∅ := by
    change (Registry.empty.setMembers "friends" ∅).members ring = ∅
    rw [Registry.members_setMembers, hempty, ite_self]
  rw [hnone] at hmember
  simp at hmember

theorem idle_of_returned {x : MembershipRequests Bool} (h : [false, true].all (fun i ↦ (x.threads i).prog.returned)) :
    Idle x := by
  have hall : ∀ i : Bool, (x.threads i).prog.returned = true := by simpa using h
  intro i
  refine .inr fun c k hcall ↦ ?_
  have hi := hall i
  rw [hcall] at hi
  cases hi

/-- A peer that is put in the ring before the removal looks there is taken out again. -/
theorem members_known_joinsBefore : (addedAndRemoved joinsBefore).state.MembersKnown := by
  have hchecked : Pool.scheduleChecked exec looksNowhere joinsBefore
      (membershipRequests (.plain []) none (fun _ ↦ .nil) addAndRemove knowingOne) = true := by
    decide +kernel
  have hreached : Pool.Reaches (graph exec) ClockMoves Unraced
      (membershipRequests (.plain []) none (fun _ ↦ .nil) addAndRemove knowingOne) (addedAndRemoved joinsBefore) :=
    (Pool.reaches_schedule _ _ hchecked).mono (fun _ _ _ _ h ↦ h) (fun _ _ _ ↦ unraced_of_check)
  exact members_known knowingOne_membersKnown hreached (idle_of_returned (by decide +kernel))

/-- A peer that is put in the ring after the removal has looked there stays in it and is not
in the store. -/
theorem members_unknown : ∃ x : MembershipRequests Bool, knowingOne.MembersKnown ∧
    Pool.Reaches (graph exec) ClockMoves (fun _ _ _ ↦ True)
      (membershipRequests (.plain []) none (fun _ ↦ .nil) addAndRemove knowingOne) x ∧
    Idle x ∧ (x.threads true).prog = .ret () ∧ ¬ x.state.MembersKnown := by
  have hchecked : Pool.scheduleChecked exec (fun _ _ _ ↦ true) joinsAfter
      (membershipRequests (.plain []) none (fun _ ↦ .nil) addAndRemove knowingOne) = true := by
    decide +kernel
  have hlive : (addedAndRemoved joinsAfter).state.registry.isLiveMember (addedAndRemoved joinsAfter).state.clock
      "friends" (.fromByte 1) = true := by
    decide +kernel
  have hunknown : (addedAndRemoved joinsAfter).state.localStore.peers[EndpointId.fromByte 1]? = none := by
    decide +kernel
  refine ⟨addedAndRemoved joinsAfter, knowingOne_membersKnown, ?_, idle_of_returned (by decide +kernel),
    eq_ret_of_returned (by decide +kernel), fun hknown ↦ ?_⟩
  · exact (Pool.reaches_schedule _ _ hchecked).mono (fun _ _ _ _ h ↦ h) (fun _ _ _ _ ↦ trivial)
  · have hin := hknown "friends" (by decide) (.fromByte 1) hlive
    rw [ExtTreeMap.mem_iff_isSome_getElem?, hunknown] at hin
    cases hin

end TwoRequests

end Handlers

end Ringdrop
