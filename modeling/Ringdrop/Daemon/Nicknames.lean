import Ringdrop.Daemon.KnownMembers

namespace Ringdrop

open Library Program Std

def NodeState.nickname (s : NodeState) (peer : EndpointId) : Option String :=
  s.localStore.peers[peer]?.bind PeerStore.nicknameOf

theorem NodeState.nickname_congr {s s' : NodeState} (h : s'.localStore.peers = s.localStore.peers)
    (peer : EndpointId) : s'.nickname peer = s.nickname peer := by
  rw [nickname, nickname, h]

theorem NodeState.nickname_insert (s : NodeState) (peer other : EndpointId) (nick : String) :
    { s with localStore := s.localStore.insertPeer peer nick }.nickname other =
      if peer = other then PeerStore.nicknameOf nick else s.nickname other := by
  simp only [nickname, LocalStore.insertPeer, ExtTreeMap.getElem?_insert, LawfulEqOrd.compare_eq_iff_eq]
  split <;> rfl

namespace Handlers

inductive NicknameRequest
  | peerAdd (peer : String) (nickname : Option String)
  | ringAdd (ring peer : String) (expiresAt : Option UInt64)

def NicknameRequest.op : NicknameRequest → Op
  | peerAdd peer nickname => .peerAdd peer nickname
  | ringAdd ring peer expiresAt => .ringAdd ring peer expiresAt

def NicknameRequest.names : NicknameRequest → Bool
  | peerAdd _ nickname => nickname.isSome
  | ringAdd _ _ _ => false

def Unnaming : Call → Prop
  | .peers (.insert _ _) => False
  | .peers (.remove _) => False
  | _ => True

/-- The last thing heard is that the peer is not in the store. -/
def FoundAbsent (log : Trace Call.Ans) (peer : EndpointId) : Prop :=
  ∃ before, log = before ++ [⟨.peers (.get peer), .ok none⟩]

/-- Without a nickname to give, a peer is inserted right after it has been found absent. -/
def Ensures (names : Bool) (log : Trace Call.Ans) : Call → Prop
  | .peers (.insert peer nick) => names = true ∨ (nick = "" ∧ FoundAbsent log peer)
  | .peers (.remove _) => False
  | _ => True

theorem ensures_of_unnaming {names : Bool} {log : Trace Call.Ans} {c : Call} (h : Unnaming c) :
    Ensures names log c := by
  cases c with
  | peers c =>
    cases c with
    | insert peer nick => exact h.elim
    | remove peer => exact h
    | _ => trivial
  | _ => trivial

section Threads

variable {names : Bool} {log : Trace Call.Ans} {α β : Type}

theorem wpc_unnaming {p : Action α} (hp : p.Uses Unnaming) (hlog : Follows (Ensures names) log) :
    p.wpc Pool.hearing (Follows (Ensures names)) (fun _ _ ↦ True) log := by
  refine hp.wpc_invariant (fun c log a log' hc hbefore hheard ↦ ?_) hlog
  rw [hheard.2]
  exact follows_concat.mpr (ensures_of_unnaming hc)

theorem wpc_unnaming_bind {p : Action α} {f : α → Action β} (hp : p.Uses Unnaming)
    (hlog : Follows (Ensures names) log)
    (hf : ∀ v log, Follows (Ensures names) log →
      (f v).wpc Pool.hearing (Follows (Ensures names)) (fun _ _ ↦ True) log) :
    (p >>= f).wpc Pool.hearing (Follows (Ensures names)) (fun _ _ ↦ True) log := by
  apply wpc_bind
  apply wpc_mono (wpc_unnaming hp hlog)
  intro v log' hlog' _
  exact hf v log' hlog'

theorem wpc_insert {peer : EndpointId} {nick : String} (hlog : Follows (Ensures names) log)
    (h : names = true ∨ (nick = "" ∧ FoundAbsent log peer)) :
    (peers (.insert peer nick)).wpc Pool.hearing (Follows (Ensures names)) (fun _ _ ↦ True) log := by
  apply wpc_bind
  apply wpc_ask hlog
  intro a log' hheard
  have hlog' : Follows (Ensures names) log' := by
    rw [hheard.2]
    exact follows_concat.mpr h
  exact ⟨hlog', wpc_ofExcept hlog' fun _ _ ↦ trivial⟩

theorem wpc_ensure (peer : EndpointId) (hlog : Follows (Ensures names) log) :
    (PeerStore.ensure peer).wpc Pool.hearing (Follows (Ensures names)) (fun _ _ ↦ True) log := by
  apply wpc_bind
  apply wpc_bind
  apply wpc_ask hlog
  intro a log' hheard
  have hlog' : Follows (Ensures names) log' := by
    rw [hheard.2]
    exact follows_concat.mpr trivial
  refine ⟨hlog', wpc_ofExcept hlog' fun stored hstored ↦ ?_⟩
  split
  · exact ⟨hlog', trivial⟩
  · rename_i hnone
    apply wpc_insert hlog'
    refine .inr ⟨rfl, log, ?_⟩
    have habsent : stored = none := by simpa using hnone
    rw [hheard.2, hstored, habsent]

theorem uses_registry_unnaming (c : RegistryCall) : (registry c).Uses Unnaming := uses_asking (.registry c) id trivial

theorem uses_finish_unnaming (reqId : Uuid) (lines : List String) : (finish reqId lines).Uses Unnaming :=
  (Uses.forM (fun _ ↦ uses_ask trivial) _).bind fun _ ↦ uses_ask trivial

theorem wpc_ringAddLines_ensures {env : Env} {publicId : EndpointId} {ring peer : String} {expiresAt : Option UInt64}
    (hlog : Follows (Ensures names) log) :
    (ringAddLines env publicId ring peer expiresAt).wpc Pool.hearing (Follows (Ensures names)) (fun _ _ ↦ True) log := by
  have hensure : ∀ (peerId : EndpointId) (lines : List String) log, Follows (Ensures names) log →
      (PeerStore.ensure peerId >>= fun _ ↦ pure lines).wpc Pool.hearing (Follows (Ensures names)) (fun _ _ ↦ True) log := by
    intro peerId lines log hlog
    apply wpc_bind
    apply wpc_mono (wpc_ensure peerId hlog)
    intro _ log' hlog' _
    exact ⟨hlog', trivial⟩
  unfold ringAddLines
  split
  · exact ⟨hlog, trivial⟩
  · apply wpc_bind
    refine wpc_ofExcept hlog fun peerId _ ↦ ?_
    split
    · exact hlog
    · cases expiresAt with
      | none =>
        apply wpc_unnaming_bind (uses_registry_unnaming _) hlog
        intro _ log' hlog'
        exact hensure peerId _ log' hlog'
      | some secs =>
        dsimp only
        rw [map_eq_pure_bind]
        have hexpiry : (futureExpiry secs).Uses Unnaming := by
          refine (uses_futureExpiry_now secs).mono ?_
          rintro c rfl
          trivial
        have hsome : (futureExpiry secs >>= fun e ↦ pure (some e)).Uses Unnaming := hexpiry.bind fun _ ↦ trivial
        apply wpc_unnaming_bind hsome hlog
        intro expiry log₁ hlog₁
        apply wpc_unnaming_bind (uses_registry_unnaming _) hlog₁
        intro _ log₂ hlog₂
        cases expiry with
        | none => exact hensure peerId _ log₂ hlog₂
        | some e => exact hensure peerId _ log₂ hlog₂

theorem wpc_handleOp_ensures (env : Env) (defaultReceiveDir : Option Path) (reqId : Uuid) (r : NicknameRequest) :
    (Server.handleOp env defaultReceiveDir reqId r.op).wpc Pool.hearing (Follows (Ensures r.names)) (fun _ _ ↦ True) [] := by
  cases r with
  | ringAdd ring peer expiresAt =>
    apply wpc_unnaming_bind (uses_ask (P := Unnaming) (c := .endpointAddr) trivial) follows_nil
    intro addr log hlog
    apply wpc_bind
    apply wpc_mono (wpc_ringAddLines_ensures hlog)
    intro lines log' hlog' _
    exact wpc_unnaming (uses_finish_unnaming reqId lines) hlog'
  | peerAdd peer nickname =>
    apply wpc_bind
    have hlines : (peerAddLines env peer nickname).wpc Pool.hearing (Follows (Ensures nickname.isSome))
        (fun _ _ ↦ True) [] := by
      apply wpc_bind
      refine wpc_ofExcept follows_nil fun peerId _ ↦ ?_
      cases nickname with
      | some nick =>
        apply wpc_bind
        apply wpc_mono (wpc_insert follows_nil (.inl rfl))
        intro _ log hlog _
        exact ⟨hlog, trivial⟩
      | none =>
        apply wpc_bind
        apply wpc_mono (wpc_ensure peerId follows_nil)
        intro _ log hlog _
        exact ⟨hlog, trivial⟩
    apply wpc_mono hlines
    intro lines log hlog _
    apply wpc_unnaming _ hlog
    exact (Uses.forM (fun _ ↦ uses_ask trivial) _).bind fun _ ↦
      (uses_ask trivial).bind fun _ ↦ uses_ask trivial

end Threads

section Effects

variable {c : Call} {a : c.Ans} {s s' : NodeState} {peer : EndpointId}

theorem peers_unnaming (hc : Unnaming c) (h : Answers c s a s') : s'.localStore.peers = s.localStore.peers := by
  cases h with
  | exec =>
    cases c with
    | peers c =>
      cases c with
      | insert peer nick => exact hc.elim
      | remove peer => exact hc.elim
      | _ => rfl
    | grants c => cases c <;> rfl
    | store c =>
      cases c with
      | addPath path =>
        simp only [exec, StoreCall.exec]
        split <;> rfl
      | getBytes hash =>
        simp only [exec, StoreCall.exec]
        split <;> rfl
      | exportBlob hash target =>
        simp only [exec, StoreCall.exec]
        split <;> rfl
      | _ => rfl
    | net c => cases c <;> rfl
    | _ => rfl
  | _ => rfl

theorem answers_insert {nick : String} {a : Except Error Unit} (h : Answers (.peers (.insert peer nick)) s a s') :
    ((∃ u, a = .ok u) ∧ s' = { s with localStore := s.localStore.insertPeer peer nick }) ∨
      ((∃ e, a = .error e) ∧ s' = s) := by
  cases h with
  | exec => exact .inl ⟨⟨(), rfl⟩, rfl⟩
  | refused s e h => exact .inr ⟨⟨e, (Option.some.inj h).symm⟩, rfl⟩

theorem answers_get {stored : Option String} (h : Answers (.peers (.get peer)) s (.ok stored) s') :
    stored = s.localStore.peers[peer]? ∧ s' = s := by
  generalize ha : (Except.ok stored : Except Error (Option String)) = a at h
  cases h with
  | exec => exact ⟨Except.ok.inj ha, rfl⟩
  | refused s e hr =>
    obtain rfl := Option.some.inj hr
    cases ha

end Effects

section Runs

variable {ι : Type}

abbrev NicknameRequests (ι : Type) := Pool ι NodeState Error Call Call.Ans Unit

abbrev Calls (ι : Type) := List (ι × (c : Call) × c.Ans)

def nicknameRequests (env : Env) (defaultReceiveDir : Option Path) (reqId : ι → Uuid)
    (reqs : ι → NicknameRequest) (s : NodeState) : NicknameRequests ι :=
  Pool.start s fun i ↦ Server.handleOp env defaultReceiveDir (reqId i) (reqs i).op

def given (reqs : ι → NicknameRequest) (peer : EndpointId) : ι × (c : Call) × c.Ans → Option String
  | (i, ⟨.peers (.insert peer' nick), .ok _⟩) => if (reqs i).names ∧ peer' = peer then some nick else none
  | _ => none

def lastGiven (reqs : ι → NicknameRequest) (calls : Calls ι) (peer : EndpointId) : Option String :=
  (calls.filterMap (given reqs peer)).getLast?

def nicknameAfter (reqs : ι → NicknameRequest) (s : NodeState) (calls : Calls ι) (peer : EndpointId) : Option String :=
  ((lastGiven reqs calls peer).map PeerStore.nicknameOf).getD (s.nickname peer)

/-- No nickname is given to a peer between the two transactions of an `ensure` that has found
the peer absent. -/
def Undivided (reqs : ι → NicknameRequest) (x : NicknameRequests ι) (i : ι) : Call → Prop
  | .peers (.insert peer _) => (reqs i).names = true → ∀ j, ¬ FoundAbsent (x.threads j).log peer
  | _ => True

def PeersUntouched (s s' : NodeState) : Prop := s'.localStore.peers = s.localStore.peers

/-- The nicknames are those given last, and a peer that is about to be inserted has none. -/
structure Named (reqs : ι → NicknameRequest) (s : NodeState) (calls : Calls ι) (x : NicknameRequests ι) : Prop where
  nickname : ∀ peer, x.state.nickname peer = nicknameAfter reqs s calls peer
  absent : ∀ j peer, FoundAbsent (x.threads j).log peer → x.state.nickname peer = none

variable {env : Env} {defaultReceiveDir : Option Path} {reqId : ι → Uuid} {reqs : ι → NicknameRequest}
  {s s' : NodeState} {x : NicknameRequests ι} {calls : Calls ι} {i : ι} {c : Call} {a : c.Ans}
  {k : c.Ans → Action Unit} {peer : EndpointId}

theorem foundAbsent_concat {log : Trace Call.Ans} :
    FoundAbsent (log ++ [⟨c, a⟩]) peer ↔ (⟨c, a⟩ : (c : Call) × c.Ans) = ⟨.peers (.get peer), .ok none⟩ := by
  constructor
  · intro ⟨before, h⟩
    obtain ⟨-, hlast⟩ := List.append_inj' h rfl
    exact List.head_eq_of_cons_eq hlast
  · intro h
    exact ⟨log, by rw [h]⟩

theorem nicknameAfter_concat (e : ι × (c : Call) × c.Ans) :
    nicknameAfter reqs s (calls ++ [e]) peer =
      ((given reqs peer e).map PeerStore.nicknameOf).getD (nicknameAfter reqs s calls peer) := by
  unfold nicknameAfter lastGiven
  rw [List.filterMap_append]
  cases h : given reqs peer e with
  | none => simp [h]
  | some nick => simp [h]

/-- What one call does to the nicknames. -/
theorem nickname_step (hc : Ensures (reqs i).names (x.threads i).log c) (ha : Answers c x.state a s')
    (h : Named reqs s calls x) (peer : EndpointId) :
    s'.nickname peer = ((given reqs peer (i, ⟨c, a⟩)).map PeerStore.nicknameOf).getD (x.state.nickname peer) := by
  by_cases hunnaming : Unnaming c
  · have hnone : given reqs peer (i, ⟨c, a⟩) = none := by
      unfold given
      split
      · rename_i heq
        cases heq
        exact hunnaming.elim
      · rfl
    rw [hnone, NodeState.nickname_congr (peers_unnaming hunnaming ha)]
    rfl
  · cases c with
    | peers c =>
      cases c with
      | insert peer' nick =>
        rcases answers_insert ha with ⟨⟨u, rfl⟩, rfl⟩ | ⟨⟨e, rfl⟩, rfl⟩
        · rw [NodeState.nickname_insert]
          by_cases hpeer : peer' = peer
          · subst hpeer
            rw [if_pos rfl]
            rcases hc with hnames | ⟨rfl, habsent⟩
            · simp [given, hnames]
            · -- an `ensure` writes no nickname where there is none
              by_cases hnames : (reqs i).names = true
              · simp [given, hnames]
              · rw [h.absent i peer' habsent]
                simp [given, hnames, PeerStore.nicknameOf]
          · rw [if_neg hpeer]
            simp [given, hpeer]
        · simp [given]
      | remove peer' => exact hc.elim
      | _ => exact (hunnaming trivial).elim
    | _ => exact (hunnaming trivial).elim

variable [DecidableEq ι]

theorem Named.step (h : Named reqs s calls x) (hc : Ensures (reqs i).names (x.threads i).log c)
    (hg : Undivided reqs x i c) (ha : Answers c x.state a s') :
    Named reqs s (calls ++ [(i, ⟨c, a⟩)]) (x.resume i c a k s') := by
  have hnickname := nickname_step hc ha h
  constructor
  · intro peer
    rw [nicknameAfter_concat, ← h.nickname]
    exact hnickname peer
  · intro j peer habsent
    by_cases hij : j = i
    · subst hij
      rw [Pool.resume_self] at habsent
      have hget := foundAbsent_concat.mp habsent
      cases hget
      obtain ⟨hstored, rfl⟩ := answers_get ha
      rw [Pool.resume_state, NodeState.nickname, ← hstored]
      rfl
    · rw [Pool.resume_of_ne _ hij] at habsent
      have hbefore := h.absent j peer habsent
      have hnow := hnickname peer
      rw [hbefore] at hnow
      rw [Pool.resume_state, hnow]
      cases hgiven : given reqs peer (i, ⟨c, a⟩) with
      | none => rfl
      | some nick =>
        unfold given at hgiven
        split at hgiven
        · rename_i heq
          cases heq
          split at hgiven
          · rename_i hnames
            obtain ⟨hnames, rfl⟩ := hnames
            exact (hg hnames j habsent).elim
          · cases hgiven
        · cases hgiven

/-- In every interleaving of PeerAdd and RingAdd requests in which no nickname is given to a
peer between the two transactions of an `ensure`: the nickname of a peer is the one given
last. -/
theorem nickname_lastGiven
    (h : Pool.History Answers PeersUntouched (Undivided reqs) (nicknameRequests env defaultReceiveDir reqId reqs s)
      calls x) (peer : EndpointId) :
    x.state.nickname peer = nicknameAfter reqs s calls peer := by
  have hall : Named reqs s calls x ∧
      ∀ i, (x.threads i).prog.wpc Pool.hearing (Follows (Ensures (reqs i).names)) (fun _ _ ↦ True) (x.threads i).log := by
    induction h with
    | refl =>
      refine ⟨⟨fun _ ↦ rfl, fun j peer habsent ↦ ?_⟩, fun i ↦ ?_⟩
      · obtain ⟨before, hlog⟩ := habsent
        simp [nicknameRequests, Pool.start] at hlog
      · exact wpc_handleOp_ensures env defaultReceiveDir (reqId i) (reqs i)
    | @step y calls i c k a s' _ hg hp ha ih =>
      obtain ⟨hnamed, hthreads⟩ := ih
      have hi := hthreads i
      rw [hp] at hi
      have hnext := hi.2 a _ ⟨trivial, rfl⟩
      have hc : Ensures (reqs i).names (y.threads i).log c := follows_concat.mp (wpc_invariant hnext)
      refine ⟨hnamed.step hc hg ha, ?_⟩
      exact Pool.forall_resume
        (J := fun i prog log ↦ prog.wpc Pool.hearing (Follows (Ensures (reqs i).names)) (fun _ _ ↦ True) log) hthreads hnext
    | env _ he ih =>
      obtain ⟨hnamed, hthreads⟩ := ih
      refine ⟨⟨fun peer ↦ ?_, fun j peer habsent ↦ ?_⟩, hthreads⟩
      · exact (NodeState.nickname_congr he peer).trans (hnamed.nickname peer)
      · exact (NodeState.nickname_congr he peer).trans (hnamed.absent j peer habsent)
  exact hall.1.nickname peer

end Runs

section TwoRequests

def addTwice : Bool → NicknameRequest
  | false => .peerAdd (toString (EndpointId.fromByte 1)) none
  | true => .peerAdd (toString (EndpointId.fromByte 1)) (some "ann")

def addingTwice : NicknameRequests Bool :=
  nicknameRequests (.plain []) none (fun _ ↦ .nil) addTwice emptyNode

/-- The request without a nickname looks the peer up and inserts it before the other one. -/
def ensuresFirst : List Bool := [false, false, true] ++ List.replicate 3 true ++ List.replicate 3 false

/-- The nickname is given while the other request is between its two transactions. -/
def ensuresAround : List Bool := [false, true, false] ++ List.replicate 3 true ++ List.replicate 3 false

def lookedLast (log : Trace Call.Ans) : Bool :=
  match log.getLast? with
  | some ⟨.peers (.get _), _⟩ => true
  | _ => false

def insertsApart (x : NicknameRequests Bool) (i : Bool) : Call → Bool
  | .peers (.insert _ _) => !(addTwice i).names || [false, true].all fun j ↦ !lookedLast (x.threads j).log
  | _ => true

theorem undivided_of_check {x : NicknameRequests Bool} {i : Bool} {c : Call} (h : insertsApart x i c = true) :
    Undivided addTwice x i c := by
  cases c with
  | peers c =>
    cases c with
    | insert peer nick =>
      intro hnames j habsent
      obtain ⟨before, hlog⟩ := habsent
      have hall : ∀ j : Bool, lookedLast (x.threads j).log = false := by simpa [insertsApart, hnames] using h
      have hj := hall j
      rw [hlog, lookedLast, List.getLast?_concat] at hj
      cases hj
    | _ => trivial
  | _ => trivial

theorem nickname_lastGiven_ensuresFirst :
    (Pool.schedule exec ensuresFirst addingTwice).state.nickname (.fromByte 1) = some "ann" := by
  have hchecked : Pool.scheduleChecked exec insertsApart ensuresFirst addingTwice = true := by decide +kernel
  have hhistory : Pool.History Answers PeersUntouched (Undivided addTwice) addingTwice
      (Pool.scheduleCalls exec ensuresFirst addingTwice) (Pool.schedule exec ensuresFirst addingTwice) :=
    (Pool.history_schedule _ _ hchecked).mono (fun _ _ _ _ ↦ answers_of_graph) (fun _ _ _ ↦ undivided_of_check)
  rw [nickname_lastGiven hhistory (.fromByte 1)]
  decide +kernel

/-- A nickname given between the two transactions of an `ensure` is gone in the end. -/
theorem nickname_cleared : ∃ (calls : Calls Bool) (x : NicknameRequests Bool),
    Pool.History Answers PeersUntouched (fun _ _ _ ↦ True) addingTwice calls x ∧
      (∀ i, (x.threads i).prog = .ret ()) ∧ lastGiven addTwice calls (.fromByte 1) = some "ann" ∧
      x.state.nickname (.fromByte 1) = none := by
  have hchecked : Pool.scheduleChecked exec (fun _ _ _ ↦ true) ensuresAround addingTwice = true := by decide +kernel
  refine ⟨Pool.scheduleCalls exec ensuresAround addingTwice, Pool.schedule exec ensuresAround addingTwice, ?_, ?_,
    by decide +kernel, by decide +kernel⟩
  · exact (Pool.history_schedule _ _ hchecked).mono (fun _ _ _ _ ↦ answers_of_graph) (fun _ _ _ _ ↦ trivial)
  · intro i
    apply eq_ret_of_returned
    cases i <;> decide +kernel

end TwoRequests

end Handlers

end Ringdrop
