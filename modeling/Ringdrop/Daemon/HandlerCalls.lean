import Ringdrop.Core.NodeCalls
import Ringdrop.Daemon.Server

namespace Ringdrop

open Library Program Node

section Silent

variable {P : Call → Prop} (hP : ∀ c : Call, c.Silent → P c)
include hP

namespace PeerStore

theorem uses_upsert (peer : EndpointId) (nickname : Option String) : (upsert peer nickname).Uses P :=
  uses_peers hP

theorem uses_ensure (peer : EndpointId) : (ensure peer).Uses P := by
  refine (uses_peers hP).bind fun stored ↦ ?_
  split
  · trivial
  · exact uses_upsert hP peer none

theorem uses_get (peer : EndpointId) : (PeerStore.get peer).Uses P :=
  (uses_peers hP).bind fun _ ↦ trivial

theorem uses_list : PeerStore.list.Uses P := (uses_peers hP).bind fun _ ↦ trivial

end PeerStore

namespace Handlers

omit hP in
theorem uses_resolveTarget (hP : ∀ c : Call, c.Pins → P c) (hlook : ∀ c : Call, c.Looks → P c) (env : Env)
    (target : String) : (resolveTarget env target).Uses P := by
  refine (uses_ask (hlook (.pathExists _) trivial)).bind fun there ↦ ?_
  cases there with
  | true => exact (uses_importPath hP hlook env _).bind fun _ ↦ trivial
  | false => exact uses_ofExcept _

theorem uses_ringNewLines (name : String) : (ringNewLines name).Uses P :=
  (uses_registry hP).bind fun _ ↦ trivial

theorem uses_ringLine (ring : Ring) : (ringLine ring).Uses P := by
  unfold ringLine
  split
  · trivial
  · exact (uses_registry hP).bind fun _ ↦ trivial

theorem uses_ringListLines : ringListLines.Uses P := by
  refine (uses_registry hP).bind fun rings ↦ ?_
  refine Uses.foldlM (fun out ring ↦ ?_) _ _
  exact (uses_ringLine hP ring).bind fun _ ↦ trivial

theorem uses_futureExpiry (unixSecs : UInt64) : (futureExpiry unixSecs).Uses P := by
  unfold futureExpiry
  split
  · trivial
  · refine (uses_now hP).bind fun t ↦ ?_
    split <;> trivial

theorem uses_ringAddLines (env : Env) (publicId : EndpointId) (ring peer : String)
    (expiresAt : Option UInt64) : (ringAddLines env publicId ring peer expiresAt).Uses P := by
  unfold ringAddLines
  split
  · trivial
  · refine (uses_ofExcept _).bind fun peerId ↦ ?_
    split
    · trivial
    · cases expiresAt with
      | none =>
        refine (uses_registry hP).bind fun _ ↦ ?_
        exact (PeerStore.uses_ensure hP peerId).bind fun _ ↦ trivial
      | some secs =>
        refine Uses.bind ?_ fun expiry ↦ ?_
        · rw [map_eq_pure_bind]
          exact (uses_futureExpiry hP secs).bind fun _ ↦ trivial
        · refine (uses_registry hP).bind fun _ ↦ ?_
          refine (PeerStore.uses_ensure hP peerId).bind fun _ ↦ ?_
          cases expiry <;> trivial

theorem uses_ringRemoveLines (env : Env) (ring peer : String) : (ringRemoveLines env ring peer).Uses P := by
  unfold ringRemoveLines
  split
  · trivial
  · refine (uses_ofExcept _).bind fun peerId ↦ ?_
    exact (uses_registry hP).bind fun _ ↦ trivial

theorem uses_nicknameOrNone (peer : EndpointId) : (nicknameOrNone peer).Uses P := by
  refine (PeerStore.uses_get hP peer).attempt.bind fun r ↦ ?_
  cases r <;> trivial

theorem uses_memberLine (t : SystemTime) (member : Member) : (memberLine t member).Uses P := by
  refine (uses_nicknameOrNone hP member.peer).bind fun nick ↦ ?_
  dsimp only
  split <;> trivial

theorem uses_ringMembersLines (ring : String) : (ringMembersLines ring).Uses P := by
  unfold ringMembersLines
  split
  · trivial
  · refine (uses_registry hP).bind fun members ↦ ?_
    split
    · trivial
    · refine (uses_now hP).bind fun t ↦ ?_
      refine Uses.foldlM (fun out m ↦ ?_) _ _
      exact (uses_memberLine hP t m).bind fun _ ↦ trivial

theorem uses_peerAddLines (env : Env) (peer : String) (nickname : Option String) :
    (peerAddLines env peer nickname).Uses P := by
  refine (uses_ofExcept _).bind fun peerId ↦ ?_
  cases nickname with
  | some nick => exact (PeerStore.uses_upsert hP peerId _).bind fun _ ↦ trivial
  | none => exact (PeerStore.uses_ensure hP peerId).bind fun _ ↦ trivial

theorem uses_peerListLines : peerListLines.Uses P := by
  refine (PeerStore.uses_list hP).bind fun peers ↦ ?_
  split <;> trivial

theorem uses_leaveRing (peerId : EndpointId) (removedFrom : List String) (ring : Ring) :
    (leaveRing peerId removedFrom ring).Uses P := by
  unfold leaveRing
  split
  · trivial
  · refine (uses_registry hP).bind fun members ↦ ?_
    split
    · exact (uses_registry hP).bind fun _ ↦ trivial
    · trivial

theorem uses_revokeHeld (peerId : EndpointId) (revoked : List String) (privilege : Privilege) :
    (revokeHeld peerId revoked privilege).Uses P := by
  refine (uses_grants hP).bind fun held ↦ ?_
  split
  · exact (uses_grants hP).bind fun _ ↦ trivial
  · trivial

theorem uses_peerRemoveLines (env : Env) (peer : String) : (peerRemoveLines env peer).Uses P := by
  refine (uses_ofExcept _).bind fun peerId ↦ ?_
  refine (PeerStore.uses_get hP peerId).bind fun stored ↦ ?_
  split
  · trivial
  · refine (uses_registry hP).bind fun rings ↦ ?_
    refine (Uses.foldlM (uses_leaveRing hP peerId) _ _).bind fun removedFrom ↦ ?_
    refine (Uses.foldlM (uses_revokeHeld hP peerId) _ _).bind fun revoked ↦ ?_
    exact Uses.bind (uses_peers hP) fun _ ↦ trivial

theorem uses_grantLines (env : Env) (peer privilege : String) : (grantLines env peer privilege).Uses P := by
  refine (uses_ofExcept _).bind fun peerId ↦ ?_
  refine (uses_ofExcept _).bind fun priv ↦ ?_
  exact (uses_grants hP).bind fun _ ↦ trivial

theorem uses_revokeLines (env : Env) (peer privilege : String) : (revokeLines env peer privilege).Uses P := by
  refine (uses_ofExcept _).bind fun peerId ↦ ?_
  refine (uses_ofExcept _).bind fun priv ↦ ?_
  exact (uses_grants hP).bind fun _ ↦ trivial

theorem uses_filteredGrantLines (env : Env) (peer privilege : Option String) :
    (filteredGrantLines env peer privilege).Uses P := by
  refine (uses_ofExcept _).bind fun peerFilter ↦ ?_
  refine (uses_ofExcept _).bind fun privFilter ↦ ?_
  refine (uses_grants hP).bind fun rows ↦ ?_
  dsimp only
  split <;> trivial

section Looks

variable (hlook : ∀ c : Call, c.Looks → P c)
include hlook

omit hP in
theorem uses_rejectExisting (expected : Path) (force : Bool) : (rejectExisting expected force).Uses P := by
  refine (uses_ask (hlook (.pathExists expected) trivial)).bind fun there ↦ ?_
  split <;> trivial

omit hP in
theorem uses_checkResolved (resolved : ResolvedDest) (name : Option String) (hashHex : String)
    (force : Bool) : (checkResolved resolved name hashHex force).Uses P := by
  cases resolved with
  | explicit dest =>
    refine (uses_ask (hlook (.isDir dest) trivial)).bind fun isDirectory ↦ ?_
    split <;> exact uses_rejectExisting hlook _ force
  | directory dir =>
    refine (uses_ask (hlook (.pathExists dir) trivial)).bind fun there ↦ ?_
    split
    · refine (uses_ask (hlook (.isDir dir) trivial)).bind fun isDirectory ↦ ?_
      split
      · exact uses_rejectExisting hlook _ force
      · trivial
    · exact uses_rejectExisting hlook _ force

theorem uses_ticketDest (env : Env) (ticket : ShareTicket) (dest defaultReceiveDir : Option Path)
    (force : Bool) : (ticketDest env ticket dest defaultReceiveDir force).Uses P := by
  refine (uses_ofExcept _).bind fun resolved ↦ ?_
  refine (uses_checkResolved hlook resolved _ _ force).bind fun destPath ↦ ?_
  refine Uses.bind ?_ fun _ ↦ trivial
  cases resolved with
  | explicit dest => trivial
  | directory dir => exact uses_context (uses_fs hP)

end Looks

end Handlers

section Events

open Handlers

variable {reqId : Uuid} (hsend : ∀ kind : EventKind, kind.isEos = false → P (.send ⟨reqId, kind⟩))
include hsend

omit hP in
theorem uses_send (kind : EventKind) (h : kind.isEos = false) : (send ⟨reqId, kind⟩).Uses P :=
  uses_ask (hsend kind h)

omit hP in
theorem uses_sendLines (lines : List String) : (sendLines reqId lines).Uses P :=
  Uses.forM (fun line ↦ uses_send hsend (.line line) rfl) lines

theorem uses_attachTo (hash : Hash) (said ring : String) : (attachTo reqId hash said ring).Uses P :=
  (uses_registry hP).bind fun _ ↦ uses_send hsend (.line said) rfl

theorem uses_reportRings (hash : Hash) : (reportRings reqId hash).Uses P := by
  refine (uses_registry hP).bind fun existing ↦ ?_
  split
  · exact uses_sendLines hsend _
  · refine (uses_send hsend (.line _) rfl).bind fun _ ↦ ?_
    exact Uses.forM (fun r ↦ uses_send hsend (.line _) rfl) _

theorem uses_listEntry (env : Env) (entry : BlobListEntry) : (listEntry env reqId entry).Uses P := by
  refine (uses_registry hP).bind fun blobRings ↦ ?_
  refine (uses_makeTicket hP _ _ _).bind fun ticket ↦ ?_
  refine (uses_ofExcept _).bind fun ticketStr ↦ ?_
  exact (uses_sendLines hsend _).bind fun _ ↦ uses_send hsend (.record _) rfl

omit hP in
theorem uses_remoteEntry (env : Env) (entry : Catalog.CatalogEntry) :
    (remoteEntry env reqId entry).Uses P := by
  refine (uses_ofExcept _).bind fun ticketStr ↦ ?_
  exact (uses_sendLines hsend _).bind fun _ ↦ uses_send hsend (.record _) rfl

omit hP in
theorem uses_sendQrCode (env : Env) (peerId : EndpointId) : (Server.sendQrCode env reqId peerId).Uses P := by
  unfold Server.sendQrCode
  split
  · trivial
  · exact (uses_send hsend (.line "") rfl).bind fun _ ↦ uses_sendLines hsend _

theorem uses_memberRecord (member : Member) : (Server.memberRecord reqId member).Uses P := by
  refine (uses_nicknameOrNone hP member.peer).bind fun nick ↦ ?_
  dsimp only
  split
  · exact uses_send hsend (.record _) rfl
  · split
    · trivial
    · exact uses_send hsend (.record _) rfl

theorem uses_memberRecords (ring : String) : (Server.memberRecords reqId ring).Uses P :=
  (uses_registry hP).bind fun members ↦ Uses.forM (uses_memberRecord hP hsend) members

end Events

section Replies

open Handlers

variable {reqId : Uuid} (hsend : ∀ kind, P (.send ⟨reqId, kind⟩))
include hsend

omit hP in
theorem uses_sendDone : (send (.done reqId)).Uses P := uses_ask (hsend .done)

theorem uses_ticketReport (env : Env) (imported : Hash × BlobFormat) (path : Path) :
    (do let ticket ← makeTicket imported.1 imported.2 (leafName path)
        let ticketStr ← Program.ofExcept (ShareTicket.toUri env ticket)
        sendLines reqId (ticketLines ticketStr)
        send (.record reqId (importRecord imported.1 imported.2 (leafName path) ticketStr))
        send (.done reqId) : Action Unit).Uses P := by
  refine (uses_makeTicket hP _ _ _).bind fun ticket ↦ ?_
  refine (uses_ofExcept _).bind fun ticketStr ↦ ?_
  refine (uses_sendLines (fun kind _ ↦ hsend kind) _).bind fun _ ↦ ?_
  exact (uses_ask (hsend (.record _))).bind fun _ ↦ uses_sendDone hsend

theorem handleImport_eq_bind (env : Env) (path : Path) (rings : List String) («open» : Bool) :
    ∃ f, handleImport env reqId path rings «open» = importPath env path >>= f ∧
      ∀ imported, (f imported).Uses P := by
  refine ⟨_, rfl, fun imported ↦ ?_⟩
  dsimp only
  generalize (if «open» = true then [openRingName] else rings) = effectiveRings
  split
  · exact (uses_reportRings hP (fun kind _ ↦ hsend kind) _).bind fun _ ↦ uses_ticketReport hP hsend ..
  · exact (Uses.forM (fun ring ↦ uses_attachTo hP (fun kind _ ↦ hsend kind) ..) _).bind
      fun _ ↦ uses_ticketReport hP hsend ..

theorem handleAttach_eq_bind (env : Env) (target : String) {rings : List String} {«open» : Bool}
    (h : ¬ (rings = [] ∧ «open» = false)) :
    ∃ f, handleAttach env reqId target rings «open» = resolveTarget env target >>= f ∧
      ∀ hash, (f hash).Uses P := by
  have hattach := uses_attachTo hP (fun kind _ ↦ hsend kind)
  unfold handleAttach
  rw [if_neg h]
  refine ⟨_, rfl, fun hash ↦ ?_⟩
  refine (Uses.forM (fun ring ↦ hattach ..) rings).bind fun _ ↦ ?_
  cases «open» with
  | true => exact (hattach ..).bind fun _ ↦ uses_sendDone hsend
  | false => exact uses_sendDone hsend

theorem uses_detachSelected (hash : Hash) (toRemove : List String) :
    (detachSelected reqId hash toRemove).Uses P := by
  refine (uses_registry hP).bind fun current ↦ ?_
  dsimp only
  split
  · trivial
  · refine (uses_registry hP).bind fun _ ↦ ?_
    refine (Uses.forM (fun r ↦ uses_registry hP) _).bind fun _ ↦ ?_
    exact (uses_sendLines (fun kind _ ↦ hsend kind) _).bind fun _ ↦ uses_sendDone hsend

theorem handleDetach_eq_bind (env : Env) (target : String) (rings : List String) («open» all : Bool) :
    ∃ f, handleDetach env reqId target rings «open» all = resolveTarget env target >>= f ∧
      ∀ hash, (f hash).Uses P := by
  refine ⟨_, rfl, fun hash ↦ ?_⟩
  cases all with
  | true =>
    refine (uses_registry hP).bind fun _ ↦ ?_
    exact (uses_ask (hsend (.line _))).bind fun _ ↦ uses_sendDone hsend
  | false => exact uses_detachSelected hP hsend ..

theorem handleBlobRemove_eq_bind (hdelete : ∀ key, P (.store (.deleteTag key))) (env : Env) (target : String) :
    ∃ f, handleBlobRemove env reqId target = resolveTarget env target >>= f ∧ ∀ hash, (f hash).Uses P := by
  refine ⟨_, rfl, fun hash ↦ ?_⟩
  refine (uses_registry hP).bind fun _ ↦ ?_
  refine (uses_deleteBlob hP hdelete hash).bind fun _ ↦ ?_
  refine (uses_sendLines (fun kind _ ↦ hsend kind) _).bind fun _ ↦ ?_
  exact (uses_ask (hsend (.record _))).bind fun _ ↦ uses_sendDone hsend

end Replies

end Silent

theorem Handlers.wpc_receiveBlob {σ : Type} {R : (c : Call) → σ → c.Ans → σ → Prop} {I : σ → Prop}
    {P : Call → Prop} {s : σ} {env : Env} {reqId : Uuid} {ticket : ShareTicket} {dest : Path}
    (hP : ∀ c : Call, c.Gathers → P c) (hsend : ∀ e, P (.send e)) (hprogress : ∀ e, P (.progress e))
    (hstart : P (.startProgress reqId)) (hjoin : P .joinProgress)
    (hI : ∀ c s a s', P c → I s → R c s a s' → I s')
    (hexport : ∀ s, I s →
      (RingReceiver.«export» ticket.hash ticket.format ticket.name dest).wpc R I (fun _ _ ↦ True) s)
    (h : I s) : (receiveBlob env reqId ticket dest).wpc R I (fun _ _ ↦ True) s := by
  unfold receiveBlob
  apply wpc_bind
  have hlines : ∀ lines, (sendLines reqId lines).Uses P := uses_sendLines fun _ _ ↦ hsend _
  refine wpc_mono ((hlines _).wpc_invariant hI h) fun _ s₁ h₁ _ ↦ ?_
  apply wpc_bind
  refine wpc_mono ((uses_ask hstart).wpc_invariant hI h₁) fun _ s₂ h₂ _ ↦ ?_
  apply wpc_bind
  have hjoined : (Program.ask Call.joinProgress : Action Unit).Uses P := uses_ask hjoin
  refine wpc_attempt ?_ fun e s₃ h₃ ↦ ?_
  · refine wpc_mono (Node.wpc_download hP hI (fun e ↦ uses_ask (hprogress e)) hexport h₂) fun u s₃ h₃ _ ↦ ?_
    have hdone := hjoined.bind fun _ ↦ (uses_ask (hsend (.line reqId "Transfer complete."))).bind
      fun _ ↦ uses_ask (hsend (.done reqId))
    exact hdone.wpc_invariant hI h₃
  · refine Uses.wpc_invariant (hjoined.bind fun _ ↦ ?_) hI h₃
    dsimp only
    split
    · exact (uses_ask (hP .endpointAddr trivial)).bind fun _ ↦ trivial
    · trivial

end Ringdrop
