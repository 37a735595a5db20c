import Ringdrop.Daemon.HandlerCalls

namespace Ringdrop.Server

open Library Program Handlers Node

/-- How far a request has come with its events. While a progress task is running the
handler itself sends nothing, and nothing is sent after the end. -/
inductive Phase
  | quiet
  | reporting
  | closed (kind : EventKind)
  | broken

def Phase.next (reqId : Uuid) : Phase → Call → Phase
  | quiet, .send e =>
    if e.reqId = reqId then if e.kind.isEos then closed e.kind else quiet else broken
  | quiet, .startProgress id => if id = reqId then reporting else broken
  | reporting, .progress _ => reporting
  | reporting, .joinProgress => quiet
  | _, .send _ => broken
  | _, .startProgress _ => broken
  | _, .progress _ => broken
  | _, .joinProgress => broken
  | phase, _ => phase

def Wired : Call → Bool
  | .send _ => true
  | .startProgress _ => true
  | .progress _ => true
  | .joinProgress => true
  | _ => false

def Phases (reqId : Uuid) (c : Call) (phase : Phase) (_ : c.Ans) (phase' : Phase) : Prop :=
  phase' = phase.next reqId c

def Quiet (reqId : Uuid) (c : Call) : Prop := Phase.quiet.next reqId c = .quiet

theorem next_send (reqId : Uuid) (e : Event) : Phase.quiet.next reqId (.send e) =
    if e.reqId = reqId then if e.kind.isEos then .closed e.kind else .quiet else .broken := rfl

theorem next_startProgress (reqId id : Uuid) : Phase.quiet.next reqId (.startProgress id) =
    if id = reqId then .reporting else .broken := rfl

theorem next_broken (reqId : Uuid) (c : Call) : Phase.broken.next reqId c = .broken := by
  cases c <;> rfl

theorem next_of_unwired (reqId : Uuid) (phase : Phase) {c : Call} (hc : Wired c = false) :
    phase.next reqId c = phase := by
  cases c with
  | send e => cases hc
  | startProgress id => cases hc
  | progress e => cases hc
  | joinProgress => cases hc
  | _ => cases phase <;> rfl

theorem unwired_of_silent_or_looks {c : Call} (hc : c.Silent ∨ c.Looks) : Wired c = false := by
  cases c with
  | send e => exact hc.elim False.elim False.elim
  | startProgress id => exact hc.elim False.elim False.elim
  | progress e => exact hc.elim False.elim False.elim
  | joinProgress => exact hc.elim False.elim False.elim
  | _ => rfl

theorem quiet_of_silent (reqId : Uuid) : ∀ c : Call, c.Silent → Quiet reqId c :=
  fun _ hc ↦ next_of_unwired reqId .quiet (unwired_of_silent_or_looks (.inl hc))

theorem quiet_of_looks (reqId : Uuid) : ∀ c : Call, c.Looks → Quiet reqId c :=
  fun _ hc ↦ next_of_unwired reqId .quiet (unwired_of_silent_or_looks (.inr hc))

theorem quiet_send (reqId : Uuid) :
    ∀ kind : EventKind, kind.isEos = false → Quiet reqId (.send ⟨reqId, kind⟩) := by
  intro kind hkind
  simp [Quiet, Phase.next, hkind]

section Closing

variable {reqId : Uuid} {α : Type}

theorem wp_quiet {p : Action α} (hp : p.Uses (Quiet reqId)) :
    p.wp (Phases reqId) (fun _ phase ↦ phase = .quiet) (fun _ phase ↦ phase = .quiet) .quiet := by
  refine hp.wp_invariant (I := fun phase : Phase ↦ phase = .quiet) ?_ rfl
  intro c phase a phase' hc hphase h
  subst hphase
  exact h.trans hc

theorem not_wp_broken {p : Action α} {Q : α → Phase → Prop} (hQ : ∀ v, ¬ Q v .broken) (s : NodeState) :
    ¬ p.wp (Phases reqId) Q (fun _ _ ↦ False) .broken := by
  induction p with
  | ret v => exact hQ v
  | fail e => exact id
  | call c k ih =>
    intro h
    have hk := h (exec c s).1 .broken (next_broken reqId c).symm
    exact ih _ hk

/-- A handler that succeeds has sent `Done` as its last event; one that fails has sent
no end. -/
def Closes (reqId : Uuid) (p : Action Unit) : Prop :=
  p.wp (Phases reqId) (fun _ phase ↦ phase = .closed .done) (fun _ phase ↦ phase = .quiet) .quiet

theorem closes_done : Closes reqId (send (.done reqId)) := by
  intro a phase h
  exact h.trans (if_pos rfl)

theorem closes_fail (e : Error) : Closes reqId (.fail e) := rfl

theorem Closes.after {p : Action α} {f : α → Action Unit} (hp : p.Uses (Quiet reqId))
    (hf : ∀ v, Closes reqId (f v)) : Closes reqId (p >>= f) := by
  unfold Closes
  rw [wp_bind]
  refine wp_mono (wp_quiet hp) ?_ (fun _ _ h ↦ h)
  intro v phase hphase
  subst hphase
  exact hf v

theorem closes_after_send (kind : EventKind) (h : kind.isEos = false) {p : Action Unit}
    (hp : Closes reqId p) : Closes reqId (send ⟨reqId, kind⟩ >>= fun _ ↦ p) :=
  .after (uses_send (quiet_send reqId) kind h) fun _ ↦ hp

theorem closes_after_lines (lines : List String) {p : Action Unit} (hp : Closes reqId p) :
    Closes reqId (sendLines reqId lines >>= fun _ ↦ p) :=
  .after (uses_sendLines (quiet_send reqId) lines) fun _ ↦ hp

theorem closes_finish (lines : List String) : Closes reqId (finish reqId lines) :=
  closes_after_lines lines closes_done

end Closing

section Handlers

variable (env : Env) (reqId : Uuid)

theorem closes_handleNodeId (qrCode : Bool) : Closes reqId (handleNodeId env reqId qrCode) := by
  refine .after (uses_endpointAddr (quiet_of_silent reqId)) fun addr ↦ ?_
  have hrecord : Closes reqId (do
      send (.record reqId (nodeIdRecord addr.id))
      send (.done reqId)) := closes_after_send (.record _) rfl closes_done
  refine closes_after_send (.line _) rfl ?_
  cases qrCode with
  | true => exact .after (uses_sendQrCode (quiet_send reqId) env _) fun _ ↦ hrecord
  | false => exact hrecord

theorem closes_handleImport (path : Path) (rings : List String) («open» : Bool) :
    Closes reqId (handleImport env reqId path rings «open») := by
  refine .after (uses_importPath (fun c h ↦ quiet_of_silent reqId c h.silent) (quiet_of_looks reqId) env path)
    fun imported ↦ ?_
  have hticket : Closes reqId (do
      let ticket ← makeTicket imported.1 imported.2 (leafName path)
      let ticketStr ← Program.ofExcept (ShareTicket.toUri env ticket)
      sendLines reqId (ticketLines ticketStr)
      send (.record reqId (importRecord imported.1 imported.2 (leafName path) ticketStr))
      send (.done reqId)) := by
    refine .after (uses_makeTicket (quiet_of_silent reqId) _ _ _) fun ticket ↦ ?_
    refine .after (uses_ofExcept _) fun ticketStr ↦ ?_
    exact closes_after_lines _ (closes_after_send (.record _) rfl closes_done)
  dsimp only
  generalize (if «open» = true then [openRingName] else rings) = effectiveRings
  split
  · exact .after (uses_reportRings (quiet_of_silent reqId) (quiet_send reqId) _) fun _ ↦ hticket
  · refine .after (Uses.forM (fun ring ↦ ?_) _) fun _ ↦ hticket
    exact uses_attachTo (quiet_of_silent reqId) (quiet_send reqId) ..

theorem closes_handleBlobList (peer : Option String) (rings : Option (List String)) :
    Closes reqId (handleBlobList env reqId peer rings) := by
  refine .after (uses_listBlobs (quiet_of_silent reqId) env peer rings) fun blobs ↦ ?_
  dsimp only
  split
  · exact closes_after_send (.line _) rfl closes_done
  · refine closes_after_send (.line _) rfl ?_
    refine .after (Uses.forM (fun entry ↦ ?_) _) fun _ ↦ closes_done
    exact uses_listEntry (quiet_of_silent reqId) (quiet_send reqId) env entry

theorem closes_handleBlobRemove (target : String) : Closes reqId (handleBlobRemove env reqId target) := by
  refine .after (uses_resolveTarget (fun c h ↦ quiet_of_silent reqId c h.silent) (quiet_of_looks reqId) env target)
    fun hash ↦ ?_
  refine .after (uses_registry (quiet_of_silent reqId)) fun _ ↦ ?_
  refine .after (uses_deleteBlob (quiet_of_silent reqId) (fun key ↦ rfl) hash) fun _ ↦ ?_
  exact closes_after_lines _ (closes_after_send (.record _) rfl closes_done)

theorem closes_handleAttach (target : String) (rings : List String) («open» : Bool) :
    Closes reqId (handleAttach env reqId target rings «open») := by
  have hattach := uses_attachTo (quiet_of_silent reqId) (quiet_send reqId)
  unfold handleAttach
  split
  · exact closes_fail _
  · refine .after (uses_resolveTarget (fun c h ↦ quiet_of_silent reqId c h.silent) (quiet_of_looks reqId) env target)
      fun hash ↦ ?_
    refine .after (Uses.forM (fun ring ↦ hattach ..) rings) fun _ ↦ ?_
    cases «open» with
    | true => exact .after (hattach ..) fun _ ↦ closes_done
    | false => exact closes_done

theorem closes_detachSelected (hash : Hash) (toRemove : List String) :
    Closes reqId (detachSelected reqId hash toRemove) := by
  refine .after (uses_registry (quiet_of_silent reqId)) fun current ↦ ?_
  dsimp only
  split
  · exact closes_fail _
  · refine .after (uses_registry (quiet_of_silent reqId)) fun _ ↦ ?_
    refine .after (Uses.forM (fun r ↦ uses_registry (quiet_of_silent reqId)) _) fun _ ↦ ?_
    exact closes_after_lines _ closes_done

theorem closes_handleDetach (target : String) (rings : List String) («open» all : Bool) :
    Closes reqId (handleDetach env reqId target rings «open» all) := by
  refine .after (uses_resolveTarget (fun c h ↦ quiet_of_silent reqId c h.silent) (quiet_of_looks reqId) env target)
    fun hash ↦ ?_
  cases all with
  | true =>
    refine .after (uses_registry (quiet_of_silent reqId)) fun _ ↦ ?_
    exact closes_after_send (.line _) rfl closes_done
  | false => exact closes_detachSelected reqId hash _

theorem closes_handleRingNew (name : String) : Closes reqId (handleRingNew reqId name) := by
  refine .after (uses_ringNewLines (quiet_of_silent reqId) name) fun lines ↦ ?_
  exact closes_after_lines _ (closes_after_send (.record _) rfl closes_done)

theorem closes_handleRingList : Closes reqId (handleRingList reqId) := by
  refine .after (uses_ringListLines (quiet_of_silent reqId)) fun lines ↦ ?_
  refine closes_after_lines _ ?_
  refine .after (uses_registry (quiet_of_silent reqId)) fun rings ↦ ?_
  exact .after (Uses.forM (fun r ↦ uses_send (quiet_send reqId) (.record _) rfl) _) fun _ ↦ closes_done

theorem closes_handleRingAdd (ring peer : String) (expiresAt : Option UInt64) :
    Closes reqId (handleRingAdd env reqId ring peer expiresAt) := by
  refine .after (uses_endpointAddr (quiet_of_silent reqId)) fun addr ↦ ?_
  exact .after (uses_ringAddLines (quiet_of_silent reqId) ..) fun lines ↦ closes_finish lines

theorem closes_handleRingRemove (ring peer : String) :
    Closes reqId (handleRingRemove env reqId ring peer) :=
  .after (uses_ringRemoveLines (quiet_of_silent reqId) ..) fun lines ↦ closes_finish lines

theorem closes_handleRingMembers (ring : String) : Closes reqId (handleRingMembers reqId ring) := by
  refine .after (uses_ringMembersLines (quiet_of_silent reqId) ring) fun lines ↦ ?_
  refine closes_after_lines _ ?_
  dsimp only
  split
  · exact .after (uses_memberRecords (quiet_of_silent reqId) (quiet_send reqId) ring) fun _ ↦ closes_done
  · exact closes_done

theorem closes_handlePeerAdd (peer : String) (nickname : Option String) :
    Closes reqId (handlePeerAdd env reqId peer nickname) := by
  refine .after (uses_peerAddLines (quiet_of_silent reqId) ..) fun lines ↦ ?_
  exact closes_after_lines _ (closes_after_send (.record _) rfl closes_done)

theorem closes_handlePeerList : Closes reqId (handlePeerList reqId) := by
  refine .after (uses_peerListLines (quiet_of_silent reqId)) fun lines ↦ ?_
  refine closes_after_lines _ ?_
  refine .after (PeerStore.uses_list (quiet_of_silent reqId)) fun peers ↦ ?_
  exact .after (Uses.forM (fun p ↦ uses_send (quiet_send reqId) (.record _) rfl) _) fun _ ↦ closes_done

theorem closes_handlePeerRemove (peer : String) : Closes reqId (handlePeerRemove env reqId peer) :=
  .after (uses_peerRemoveLines (quiet_of_silent reqId) ..) fun lines ↦ closes_finish lines

theorem closes_handleGrant (peer privilege : String) :
    Closes reqId (handleGrant env reqId peer privilege) :=
  .after (uses_grantLines (quiet_of_silent reqId) ..) fun lines ↦ closes_finish lines

theorem closes_handleRevoke (peer privilege : String) :
    Closes reqId (handleRevoke env reqId peer privilege) :=
  .after (uses_revokeLines (quiet_of_silent reqId) ..) fun lines ↦ closes_finish lines

theorem closes_handleGrants (peer privilege : Option String) :
    Closes reqId (handleGrants env reqId peer privilege) := by
  refine .after (uses_ofExcept _) fun peerFilter ↦ ?_
  refine .after (uses_ofExcept _) fun privFilter ↦ ?_
  refine .after (uses_grants (quiet_of_silent reqId)) fun rows ↦ ?_
  refine .after (uses_filteredGrantLines (quiet_of_silent reqId) ..) fun lines ↦ ?_
  refine closes_after_lines _ ?_
  exact .after (Uses.forM (fun row ↦ uses_send (quiet_send reqId) (.record _) rfl) _) fun _ ↦ closes_done

theorem closes_handleRemoteBlobList (peer : String) :
    Closes reqId (handleRemoteBlobList env reqId peer) := by
  refine .after (uses_ofExcept _) fun peerId ↦ ?_
  refine .after (uses_catalogConnect (quiet_of_silent reqId) env _) fun entries ↦ ?_
  dsimp only
  split
  · exact closes_after_send (.line _) rfl closes_done
  · refine closes_after_send (.line _) rfl ?_
    exact .after (Uses.forM (fun entry ↦ uses_remoteEntry (quiet_send reqId) env entry) _)
      fun _ ↦ closes_done

theorem wp_reporting {α : Type} {p : Action α}
    (hp : p.Uses Call.Transfers) :
    p.wp (Phases reqId) (fun _ phase ↦ phase = .reporting) (fun _ phase ↦ phase = .reporting)
      .reporting := by
  refine hp.wp_invariant (I := fun phase : Phase ↦ phase = .reporting) ?_ rfl
  intro c phase a phase' hc hphase h
  subst hphase
  rcases hc with hc | hc | ⟨e, rfl⟩ | ⟨hash, target, rfl⟩
  · exact h.trans (next_of_unwired reqId _ (unwired_of_silent_or_looks (.inl hc)))
  · exact h.trans (next_of_unwired reqId _ (unwired_of_silent_or_looks (.inr hc)))
  · exact h
  · exact h.trans (next_of_unwired reqId _ rfl)

/-- The progress task is waited for before the outcome is sent. -/
theorem closes_receiveBlob (ticket : ShareTicket) (destPath : Path) :
    Closes reqId (receiveBlob env reqId ticket destPath) := by
  refine closes_after_lines _ ?_
  intro a phase hstart
  obtain rfl : phase = .reporting := hstart.trans (if_pos rfl)
  have hdownload := uses_download_transfers env ticket destPath
  change wp _ ((Node.download env ticket destPath (fun e ↦ Program.ask (Call.progress e))).attempt >>= _)
    _ _ _
  rw [wp_bind, wp_attempt]
  refine wp_mono (wp_reporting reqId hdownload) ?_ ?_
  · intro u phase hphase
    subst hphase
    intro b phase hjoin
    obtain rfl : phase = .quiet := hjoin
    exact closes_after_send (.line _) rfl closes_done
  · intro e phase hphase
    subst hphase
    intro b phase hjoin
    obtain rfl : phase = .quiet := hjoin
    dsimp only
    split
    · have hhint : Closes reqId (do
          let publicId := (← endpointAddr).id
          throw (Error.msg (s!"Transfer failed: {e.alternate}" ++ accessHint publicId))) :=
        .after (uses_endpointAddr (quiet_of_silent reqId)) fun addr ↦ closes_fail _
      exact hhint
    · exact closes_fail _

theorem closes_handleReceive (ticketStr : String) (dest defaultReceiveDir : Option Path) (force : Bool) :
    Closes reqId (handleReceive env reqId ticketStr dest defaultReceiveDir force) := by
  refine .after (uses_ofExcept _) fun ticket ↦ ?_
  refine .after (uses_ticketDest (quiet_of_silent reqId) (quiet_of_looks reqId) ..) fun destPath ↦ ?_
  exact closes_receiveBlob env reqId ticket destPath

theorem closes_handleOp (defaultReceiveDir : Option Path) {op : Op} (hop : op ≠ .shutdown) :
    Closes reqId (handleOp env defaultReceiveDir reqId op) := by
  cases op with
  | nodeId qrCode => exact closes_handleNodeId env reqId qrCode
  | «import» path rings «open» => exact closes_handleImport env reqId path rings «open»
  | blobList peer rings => exact closes_handleBlobList env reqId peer rings
  | blobRemove target => exact closes_handleBlobRemove env reqId target
  | blobAttach target rings «open» => exact closes_handleAttach env reqId target rings «open»
  | blobDetach target rings «open» all => exact closes_handleDetach env reqId target rings «open» all
  | ringNew name => exact closes_handleRingNew reqId name
  | ringList => exact closes_handleRingList reqId
  | ringAdd ring peer expiresAt => exact closes_handleRingAdd env reqId ring peer expiresAt
  | ringRemove ring peer => exact closes_handleRingRemove env reqId ring peer
  | ringMembers ring => exact closes_handleRingMembers reqId ring
  | receive ticket dest force => exact closes_handleReceive env reqId ticket dest defaultReceiveDir force
  | grant peer privilege => exact closes_handleGrant env reqId peer privilege
  | revoke peer privilege => exact closes_handleRevoke env reqId peer privilege
  | grants peer privilege => exact closes_handleGrants env reqId peer privilege
  | remoteBlobList peer => exact closes_handleRemoteBlobList env reqId peer
  | peerAdd peer nickname => exact closes_handlePeerAdd env reqId peer nickname
  | peerList => exact closes_handlePeerList reqId
  | peerRemove peer => exact closes_handlePeerRemove env reqId peer
  | shutdown => exact absurd rfl hop

end Handlers

def finalKind : Except Error Unit → EventKind
  | .ok _ => .done
  | .error e => .error (toString e)

/-- Every request ends in one final event, which is that of its outcome. -/
theorem wp_dispatch (env : Env) (defaultReceiveDir : Option Path) (reqId : Uuid) (op : Op) :
    (dispatch env defaultReceiveDir reqId op).wp (Phases reqId)
      (fun r phase ↦ phase = .closed (finalKind r)) (fun _ _ ↦ False) .quiet := by
  by_cases hop : op = .shutdown
  · subst hop
    intro a phase hdone b phase' hnotify
    obtain rfl : phase = .closed .done := hdone.trans (if_pos rfl)
    exact hnotify
  · have hdispatch : dispatch env defaultReceiveDir reqId op = (do
        match ← (handleOp env defaultReceiveDir reqId op).attempt with
        | .ok _ => return .ok ()
        | .error e =>
          send (.error reqId (toString e))
          return .error e) := by
      cases op with
      | shutdown => exact absurd rfl hop
      | _ => rfl
    rw [hdispatch, wp_bind, wp_attempt]
    refine wp_mono (closes_handleOp env reqId defaultReceiveDir hop) ?_ ?_
    · intro u phase hphase
      exact hphase
    · intro e phase hphase a phase' hsend
      subst hphase
      exact hsend.trans (if_pos rfl)

end Ringdrop.Server
