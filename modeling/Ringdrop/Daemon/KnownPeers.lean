import Ringdrop.Daemon.Detachment
import Ringdrop.Daemon.Nicknames
import Ringdrop.Library.SinceLast

namespace Ringdrop

open Library Program Std

namespace Handlers

/-- A request that writes the table of peers. -/
inductive PeerRequest
  | peerAdd (peer : String) (nickname : Option String)
  | ringAdd (ring peer : String) (expiresAt : Option UInt64)
  | peerRemove (peer : String)

def PeerRequest.op : PeerRequest → Op
  | peerAdd peer nickname => .peerAdd peer nickname
  | ringAdd ring peer expiresAt => .ringAdd ring peer expiresAt
  | peerRemove peer => .peerRemove peer

abbrev PeerEvent := PeerRequest × Bool

def isId (env : Env) (arg : String) (peer : EndpointId) : Bool :=
  match parsePeerId env arg with
  | .ok peerId => peerId = peer
  | .error _ => false

section Events

variable (env : Env) (peer : EndpointId)

/-- A PeerAdd of the peer, or a successful RingAdd of it to a named ring. -/
def adds : PeerEvent → Bool
  | (.peerAdd arg _, _) => isId env arg peer
  | (.ringAdd ring arg _, ok) => ok && ring ≠ openRingName && isId env arg peer
  | (.peerRemove _, _) => false

def removes : PeerEvent → Bool
  | (.peerRemove arg, ok) => ok && isId env arg peer
  | _ => false

def gives : PeerEvent → Option String
  | (.peerAdd arg nickname, _) => if isId env arg peer then nickname else none
  | _ => none

/-- The nickname given last since the peer was last removed. -/
def lastNickname (events : List PeerEvent) : Option String :=
  ((sinceLast (removes env peer) events).filterMap (gives env peer)).getLast?

/-- What an event does to the nickname that is stored for the peer. -/
def afterEvent (e : PeerEvent) (stored : Option String) : Option String :=
  if removes env peer e then none
  else if adds env peer e then some ((gives env peer e).getD (stored.getD ""))
  else stored

variable {env peer}

theorem gives_eq_none {e : PeerEvent} (h : adds env peer e = false) : gives env peer e = none := by
  obtain ⟨request, ok⟩ := e
  cases request with
  | peerAdd arg nickname => exact if_neg (by rw [show isId env arg peer = false from h]; exact Bool.false_ne_true)
  | ringAdd ring arg expiresAt => rfl
  | peerRemove arg => rfl

theorem lastNickname_concat_of_not_removes {events : List PeerEvent} {e : PeerEvent} (h : removes env peer e = false) :
    lastNickname env peer (events ++ [e]) = (gives env peer e).or (lastNickname env peer events) := by
  rw [lastNickname, sinceLast_concat, h, if_neg Bool.false_ne_true, List.filterMap_append, lastNickname]
  cases hgives : gives env peer e with
  | none => simp [hgives]
  | some nick => simp [hgives]

theorem lastNickname_eq_none {events : List PeerEvent}
    (h : startedSince (adds env peer) (removes env peer) events = false) : lastNickname env peer events = none := by
  have hall : ∀ e ∈ sinceLast (removes env peer) events, adds env peer e = false := by
    simpa [startedSince] using h
  rw [lastNickname, List.filterMap_eq_nil_iff.mpr fun e he ↦ gives_eq_none (hall e he), List.getLast?_nil]

def storedAfter (env : Env) (peer : EndpointId) (events : List PeerEvent) : Option String :=
  if startedSince (adds env peer) (removes env peer) events then some ((lastNickname env peer events).getD "") else none

theorem storedAfter_concat (events : List PeerEvent) (e : PeerEvent) :
    storedAfter env peer (events ++ [e]) = afterEvent env peer e (storedAfter env peer events) := by
  unfold storedAfter afterEvent
  rw [startedSince_concat]
  cases hremoves : removes env peer e with
  | true => rfl
  | false =>
    rw [lastNickname_concat_of_not_removes hremoves]
    cases hadds : adds env peer e with
    | false =>
      rw [gives_eq_none hadds]
      rfl
    | true =>
      cases hstarted : startedSince (adds env peer) (removes env peer) events with
      | true => cases gives env peer e <;> rfl
      | false =>
        rw [lastNickname_eq_none hstarted]
        cases gives env peer e <;> rfl

end Events

section Requests

variable {env : Env} {arg : String} {peerId : EndpointId} {e : PeerEvent} {s s' : NodeState}

theorem isId_of_ok (h : parsePeerId env arg = .ok peerId) (peer : EndpointId) :
    isId env arg peer = decide (peerId = peer) := by
  rw [isId, h]

theorem isId_of_error {err : Error} (h : parsePeerId env arg = .error err) (peer : EndpointId) :
    isId env arg peer = false := by
  rw [isId, h]

/-- The table of peers is the one before with the event applied. -/
def Applied (env : Env) (e : PeerEvent) (s s' : NodeState) : Prop :=
  ∀ peer : EndpointId, s'.localStore.peers[peer]? = afterEvent env peer e s.localStore.peers[peer]?

theorem applied_of_idle (h : s'.localStore.peers = s.localStore.peers) (hadds : ∀ peer, adds env peer e = false)
    (hremoves : ∀ peer, removes env peer e = false) : Applied env e s s' := by
  intro peer
  rw [h, afterEvent, hadds, hremoves]
  rfl

theorem applied_insert {nick : String} (hadds : ∀ peer, adds env peer e = decide (peerId = peer))
    (hremoves : ∀ peer, removes env peer e = false)
    (hnick : nick = (gives env peerId e).getD (s.localStore.peers[peerId]?.getD ""))
    (h : s'.localStore = s.localStore.insertPeer peerId nick) : Applied env e s s' := by
  intro peer
  rw [h, LocalStore.insertPeer, ExtTreeMap.getElem?_insert, afterEvent, hadds, hremoves]
  by_cases hpeer : peerId = peer
  · subst hpeer
    simp [hnick]
  · simp [hpeer]

theorem applied_present {stored : String} (hadds : ∀ peer, adds env peer e = decide (peerId = peer))
    (hremoves : ∀ peer, removes env peer e = false) (hgives : gives env peerId e = none)
    (hstored : s.localStore.peers[peerId]? = some stored) (h : s'.localStore = s.localStore) : Applied env e s s' := by
  intro peer
  rw [h, afterEvent, hadds, hremoves]
  by_cases hpeer : peerId = peer
  · subst hpeer
    simp [hgives, hstored]
  · simp [hpeer]

theorem wp_ensure_applied (hadds : ∀ peer, adds env peer e = decide (peerId = peer))
    (hremoves : ∀ peer, removes env peer e = false) (hgives : gives env peerId e = none)
    (h : s'.localStore = s.localStore) :
    (PeerStore.ensure peerId).wp (graph exec) (fun _ ↦ Applied env e s) (fun _ _ ↦ False) s' := by
  unfold PeerStore.ensure PeerStore.upsert
  rw [wp_bind, wp_peers_exec]
  simp only [PeersCall.exec, outcome_ok]
  rw [h]
  cases hstored : s.localStore.peers[peerId]? with
  | some stored =>
    rw [Option.isSome_some, if_pos rfl]
    exact applied_present hadds hremoves hgives hstored rfl
  | none =>
    rw [Option.isSome_none, if_neg Bool.false_ne_true, wp_peers_exec]
    simp only [PeersCall.exec, outcome_ok]
    refine applied_insert hadds hremoves ?_ rfl
    rw [hgives, hstored]
    rfl

theorem wp_peerAddLines_applied (nickname : Option String) :
    (peerAddLines env arg nickname).wp (graph exec) (fun _ ↦ Applied env (.peerAdd arg nickname, true) s)
      (fun _ ↦ Applied env (.peerAdd arg nickname, false) s) s := by
  unfold peerAddLines
  cases hparse : parsePeerId env arg with
  | error err => exact applied_of_idle rfl (isId_of_error hparse) fun _ ↦ rfl
  | ok peerId =>
    have hself : isId env arg peerId = true := by rw [isId_of_ok hparse, decide_eq_true rfl]
    rw [ofExcept_ok, ret_bind]
    cases nickname with
    | some nick =>
      dsimp only [PeerStore.upsert]
      rw [wp_bind, wp_peers_exec]
      simp only [PeersCall.exec, outcome_ok, pure_def, wp_ret]
      refine applied_insert (isId_of_ok hparse) (fun _ ↦ rfl) ?_ rfl
      rw [gives, hself]
      rfl
    | none =>
      dsimp only
      rw [wp_bind]
      have hgives : gives env peerId (.peerAdd arg none, true) = none := by rw [gives, ite_self]
      exact wp_mono (wp_ensure_applied (e := (.peerAdd arg none, true)) (isId_of_ok hparse) (fun _ ↦ rfl) hgives rfl)
        (fun _ _ h ↦ h) fun _ _ h ↦ h.elim

theorem wp_futureExpiry_untouched (t : UInt64) :
    (futureExpiry t).wp (graph exec) (fun _ s' ↦ s' = s) (fun _ s' ↦ s' = s) s := by
  refine (uses_futureExpiry_now t).wp_invariant (I := fun s' ↦ s' = s) (fun c s' a s'' hc hs h ↦ ?_) rfl
  subst hc hs
  exact (congrArg Prod.snd h).symm

theorem wp_ringAddLines_applied (publicId : EndpointId) (ring : String) (expiresAt : Option UInt64) :
    (ringAddLines env publicId ring arg expiresAt).wp (graph exec)
      (fun _ ↦ Applied env (.ringAdd ring arg expiresAt, true) s)
      (fun _ ↦ Applied env (.ringAdd ring arg expiresAt, false) s) s := by
  have hfailed : ∀ s' : NodeState, s'.localStore = s.localStore →
      Applied env (.ringAdd ring arg expiresAt, false) s s' := by
    intro s' h
    exact applied_of_idle (by rw [h]) (fun _ ↦ rfl) fun _ ↦ rfl
  unfold ringAddLines
  split
  · rename_i hopen
    refine applied_of_idle rfl (fun peer ↦ ?_) fun _ ↦ rfl
    simp [adds, hopen]
  · rename_i hnamed
    cases hparse : parsePeerId env arg with
    | error err => exact hfailed s rfl
    | ok peerId =>
      have hadds : ∀ peer, adds env peer (.ringAdd ring arg expiresAt, true) = decide (peerId = peer) := by
        intro peer
        rw [adds, isId_of_ok hparse, decide_eq_true hnamed]
        rfl
      have hadd : ∀ (expiry : Option Expiry) (lines : List String),
          ((registry (.addPeerToRing ring peerId (expiry.map Expiry.instant)) >>= fun _ ↦
            PeerStore.ensure peerId >>= fun _ ↦ pure lines : Action (List String))).wp (graph exec)
            (fun _ ↦ Applied env (.ringAdd ring arg expiresAt, true) s)
            (fun _ ↦ Applied env (.ringAdd ring arg expiresAt, false) s) s := by
        intro expiry lines
        rw [wp_bind, wp_registry_exec]
        cases ((RegistryCall.addPeerToRing ring peerId (expiry.map Expiry.instant)).exec s.clock s.registry).1 with
        | error err => exact hfailed _ rfl
        | ok _ =>
          rw [outcome_ok, wp_bind]
          exact wp_mono (wp_ensure_applied hadds (fun _ ↦ rfl) rfl rfl) (fun _ _ h ↦ h) fun _ _ h ↦ h.elim
      rw [ofExcept_ok, ret_bind]
      split
      · exact hfailed s rfl
      · cases expiresAt with
        | none => exact hadd none _
        | some t =>
          dsimp only
          rw [map_eq_pure_bind, wp_bind, wp_bind]
          refine wp_mono (wp_futureExpiry_untouched t) (fun expiry s' hs ↦ ?_)
            fun err s' hs ↦ hfailed s' (by rw [hs])
          subst hs
          exact hadd (some expiry) _

theorem wp_peerRemoveLines_applied :
    (peerRemoveLines env arg).wp (graph exec) (fun _ ↦ Applied env (.peerRemove arg, true) s)
      (fun _ ↦ Applied env (.peerRemove arg, false) s) s := by
  have hfailed : Applied env (.peerRemove arg, false) s s := applied_of_idle rfl (fun _ ↦ rfl) fun _ ↦ rfl
  cases hparse : parsePeerId env arg with
  | error err =>
    unfold peerRemoveLines
    rw [hparse]
    exact hfailed
  | ok peerId =>
    by_cases hknown : peerId ∈ s.localStore.peers
    · refine wp_mono (wp_peerRemoveLines hparse hknown) (fun _ s' h peer ↦ ?_) fun _ _ h ↦ h.elim
      have hremoves : removes env peer (.peerRemove arg, true) = decide (peerId = peer) := isId_of_ok hparse peer
      rw [afterEvent, hremoves]
      by_cases hpeer : peerId = peer
      · subst hpeer
        rw [decide_eq_true rfl, if_pos rfl]
        exact ExtTreeMap.getElem?_eq_none h.unknown
      · rw [decide_eq_false hpeer, h.peers peer (fun h ↦ hpeer h.symm)]
        rfl
    · unfold peerRemoveLines PeerStore.get
      rw [hparse, ofExcept_ok, ret_bind, wp_bind, wp_bind, wp_peers_exec]
      simp only [PeersCall.exec, outcome_ok, pure_def, wp_ret]
      rw [ExtTreeMap.getElem?_eq_none hknown, if_pos (by simp)]
      exact hfailed

theorem wp_finish_exec (reqId : Uuid) (lines : List String) (s : NodeState) :
    (finish reqId lines).wp (graph exec) (fun _ s' ↦ s' = s) (fun _ _ ↦ False) s := by
  unfold finish
  rw [wp_bind]
  refine wp_mono wp_sendLines_exec (fun _ s' hs ↦ ?_) fun _ _ h ↦ h
  rw [wp_send_exec]
  exact hs

theorem wp_handleOp_applied (env : Env) (defaultReceiveDir : Option Path) (reqId : Uuid) (r : PeerRequest)
    (s : NodeState) :
    (Server.handleOp env defaultReceiveDir reqId r.op).wp (graph exec) (fun _ ↦ Applied env (r, true) s)
      (fun _ ↦ Applied env (r, false) s) s := by
  have hfinish : ∀ (lines : List String) (s' : NodeState), Applied env (r, true) s s' →
      (finish reqId lines).wp (graph exec) (fun _ ↦ Applied env (r, true) s)
        (fun _ ↦ Applied env (r, false) s) s' := by
    intro lines s' h
    refine wp_mono (wp_finish_exec reqId lines s') (fun _ s'' hs ↦ ?_) fun _ _ h ↦ h.elim
    rwa [hs]
  cases r with
  | peerAdd arg nickname =>
    change (Server.handlePeerAdd env reqId arg nickname).wp _ _ _ _
    unfold Server.handlePeerAdd
    rw [wp_bind]
    refine wp_mono (wp_peerAddLines_applied nickname) (fun lines s' h ↦ ?_) fun _ _ h ↦ h
    rw [wp_bind]
    refine wp_mono wp_sendLines_exec (fun _ s'' hs ↦ ?_) fun _ _ h ↦ h.elim
    subst hs
    rw [wp_bind, wp_send_exec, wp_send_exec]
    exact h
  | ringAdd ring arg expiresAt =>
    change (Server.handleRingAdd env reqId ring arg expiresAt).wp _ _ _ _
    unfold Server.handleRingAdd
    rw [wp_bind, wp_endpointAddr, forall_graph]
    rw [wp_bind]
    exact wp_mono (wp_ringAddLines_applied _ ring expiresAt) hfinish fun _ _ h ↦ h
  | peerRemove arg =>
    change (Server.handlePeerRemove env reqId arg).wp _ _ _ _
    unfold Server.handlePeerRemove
    rw [wp_bind]
    exact wp_mono wp_peerRemoveLines_applied hfinish fun _ _ h ↦ h

end Requests

section Runs

/-- A node that started without peers, and the requests it has handled one after the other.
Between them, whatever leaves the table of peers alone can happen. -/
inductive PeersRun (env : Env) (defaultReceiveDir : Option Path) : List PeerEvent → NodeState → Prop
  | start {s : NodeState} : s.localStore.peers = ∅ → PeersRun env defaultReceiveDir [] s
  | request {events : List PeerEvent} {s : NodeState} (reqId : Uuid) (r : PeerRequest) :
      PeersRun env defaultReceiveDir events s →
      PeersRun env defaultReceiveDir
        (events ++ [(r, (run exec (Server.handleOp env defaultReceiveDir reqId r.op) s).1.toOption.isSome)])
        (run exec (Server.handleOp env defaultReceiveDir reqId r.op) s).2
  | other {events : List PeerEvent} {s s' : NodeState} :
      PeersRun env defaultReceiveDir events s → PeersUntouched s s' → PeersRun env defaultReceiveDir events s'

variable {env : Env} {defaultReceiveDir : Option Path} {events : List PeerEvent} {s : NodeState}

theorem applied_run (env : Env) (defaultReceiveDir : Option Path) (reqId : Uuid) (r : PeerRequest) (s : NodeState) :
    Applied env (r, (run exec (Server.handleOp env defaultReceiveDir reqId r.op) s).1.toOption.isSome) s
      (run exec (Server.handleOp env defaultReceiveDir reqId r.op) s).2 := by
  have hout := outcome_run (wp_handleOp_applied env defaultReceiveDir reqId r s)
  cases hres : (run exec (Server.handleOp env defaultReceiveDir reqId r.op) s).1 with
  | ok u =>
    rw [hres] at hout
    exact hout
  | error err =>
    rw [hres] at hout
    exact hout

theorem PeersRun.stored (h : PeersRun env defaultReceiveDir events s) (peer : EndpointId) :
    s.localStore.peers[peer]? = storedAfter env peer events := by
  induction h with
  | start hempty =>
    rw [hempty, ExtTreeMap.getElem?_empty]
    rfl
  | request reqId r h ih => rw [storedAfter_concat, ← ih, applied_run env defaultReceiveDir reqId r _ peer]
  | other h huntouched ih =>
    have hpeers := huntouched
    unfold PeersUntouched at hpeers
    rw [hpeers, ih]

theorem run_get (peer : EndpointId) (s : NodeState) :
    (run exec (PeerStore.get peer) s).1 = .ok (s.localStore.peers[peer]?.map PeerStore.nicknameOf) := rfl

theorem run_list (s : NodeState) : (run exec PeerStore.list s).1 =
    .ok (s.localStore.peers.toList.map fun row ↦ (row.1, PeerStore.nicknameOf row.2)) := rfl

/-- The listing has a row for each peer in the store, with the nickname it is looked up with. -/
theorem run_list_exact (s : NodeState) : ∃ rows, (run exec PeerStore.list s).1 = .ok rows ∧
    (rows.map Prod.fst).Nodup ∧ ∀ peer nick, (peer, nick) ∈ rows ↔
      (run exec (PeerStore.get peer) s).1 = .ok (some nick) := by
  refine ⟨_, run_list s, ?_, fun peer nick ↦ ?_⟩
  · rw [List.map_map]
    change (s.localStore.peers.toList.map Prod.fst).Nodup
    rw [ExtTreeMap.map_fst_toList_eq_keys]
    exact ExtTreeMap.nodup_keys
  · rw [run_get, List.mem_map, Except.ok.injEq, Option.map_eq_some_iff]
    constructor
    · intro ⟨⟨peer', stored⟩, hmem, hrow⟩
      obtain ⟨rfl, hnick⟩ := Prod.mk.inj hrow
      exact ⟨stored, ExtTreeMap.mem_toList_iff_getElem?_eq_some.mp hmem, hnick⟩
    · intro ⟨stored, hstored, hnick⟩
      exact ⟨(peer, stored), ExtTreeMap.mem_toList_iff_getElem?_eq_some.mpr hstored, by rw [hnick]⟩

/-- After any requests one after the other: the peers in the store are those added since they
were last removed, with the nickname given last since then. -/
theorem knownPeers_since (h : PeersRun env defaultReceiveDir events s) :
    (∀ peer, peer ∈ s.localStore.peers ↔ startedSince (adds env peer) (removes env peer) events = true) ∧
    (∀ peer, (run exec (PeerStore.get peer) s).1 = .ok (
      if startedSince (adds env peer) (removes env peer) events then
        some ((lastNickname env peer events).bind PeerStore.nicknameOf)
      else none)) ∧
    ∃ rows, (run exec PeerStore.list s).1 = .ok rows ∧ (rows.map Prod.fst).Nodup ∧
      ∀ peer nick, (peer, nick) ∈ rows ↔ (run exec (PeerStore.get peer) s).1 = .ok (some nick) := by
  refine ⟨fun peer ↦ ?_, fun peer ↦ ?_, run_list_exact s⟩
  · rw [ExtTreeMap.mem_iff_isSome_getElem?, h.stored, storedAfter]
    cases startedSince (adds env peer) (removes env peer) events <;> simp
  · rw [run_get, h.stored, storedAfter]
    cases startedSince (adds env peer) (removes env peer) events with
    | false => rfl
    | true => cases lastNickname env peer events <;> rfl

/-- Known as ann, then added again without a nickname, then put in a ring that there is not. -/
def annAgain : List PeerRequest :=
  [.peerAdd (toString (EndpointId.fromByte 1)) (some "ann"), .peerAdd (toString (EndpointId.fromByte 1)) none,
    .ringAdd "friends" (toString (EndpointId.fromByte 1)) none]

def annNode : NodeState :=
  annAgain.foldl (fun s r ↦ (run exec (Server.handleOp (.plain []) none .nil r.op) s).2) emptyNode

theorem knownPeers_since_ann : (run exec (PeerStore.get (.fromByte 1)) annNode).1 = .ok (some (some "ann")) := by
  have hrun : PeersRun (.plain []) none _ annNode :=
    .request .nil annAgain[2] (.request .nil annAgain[1] (.request .nil annAgain[0] (.start rfl)))
  rw [(knownPeers_since hrun).2.1]
  refine congrArg Except.ok ?_
  decide +kernel

end Runs

end Handlers

end Ringdrop
