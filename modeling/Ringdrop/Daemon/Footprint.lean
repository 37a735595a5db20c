import Ringdrop.Core.Views
import Ringdrop.Daemon.HandlerCalls
import Ringdrop.Library.Within

namespace Ringdrop

open Library Program Node Handlers Server

namespace Op

variable (env : Env)

def Grants (op : Op) (privilege : Privilege) (peer : EndpointId) : Prop :=
  ∃ p q, op = .grant p q ∧ parsePeerId env p = .ok peer ∧ Privilege.tryFrom env q = .ok privilege

def Revokes (op : Op) (privilege : Privilege) (peer : EndpointId) : Prop :=
  ∃ p q, op = .revoke p q ∧ parsePeerId env p = .ok peer ∧ Privilege.tryFrom env q = .ok privilege

def Forgets (op : Op) (peer : EndpointId) : Prop := ∃ p, op = .peerRemove p ∧ parsePeerId env p = .ok peer

/-- The request puts a peer other than the node itself in a ring other than the open one. -/
def Joins (own : EndpointId) (op : Op) (ring : String) (peer : EndpointId) (expiresAt : Option SystemTime) : Prop :=
  ring ≠ openRingName ∧ peer ≠ own ∧ ∃ p secs, op = .ringAdd ring p secs ∧ parsePeerId env p = .ok peer ∧
    expiresAt.map some = secs.map epochPlus

def Leaves (op : Op) (ring : String) (peer : EndpointId) : Prop :=
  (∃ p, op = .ringRemove ring p ∧ parsePeerId env p = .ok peer) ∨ op.Forgets env peer

def Registers (op : Op) (peer : EndpointId) (nickname : String) : Prop :=
  (∃ p nick, op = .peerAdd p nick ∧ parsePeerId env p = .ok peer ∧ nickname = nick.getD "") ∨
    ∃ ring p secs, ring ≠ openRingName ∧ op = .ringAdd ring p secs ∧ parsePeerId env p = .ok peer ∧ nickname = ""

def Attaches (op : Op) (ring : String) : Prop :=
  match op with
  | .import _ rings «open» => ring ∈ (if «open» then [openRingName] else rings)
  | .blobAttach _ rings «open» => ring ∈ rings ∨ «open» = true ∧ ring = openRingName
  | _ => False

def Detaches (op : Op) : Prop :=
  match op with
  | .blobDetach _ _ _ _ => True
  | _ => False

/-- The request may clear all associations of a blob and write this one back. -/
def Restores (op : Op) (ring : String) : Prop :=
  match op with
  | .blobDetach _ rings «open» false => ring ∉ (if «open» then [openRingName] else rings)
  | _ => False

def RemovesBlob (op : Op) : Prop :=
  match op with
  | .blobRemove _ => True
  | _ => False

def Pins (op : Op) : Prop :=
  match op with
  | .import _ _ _ => True
  | .blobAttach _ _ _ => True
  | .blobDetach _ _ _ _ => True
  | .blobRemove _ => True
  | _ => False

def Receives (op : Op) : Prop :=
  match op with
  | .receive _ _ _ => True
  | _ => False

/-- The calls a request may make, where `known` are the associations it may come across. -/
def Permits (own : EndpointId) (known : Hash → String → List Permission → Prop) (op : Op) : Call → Prop
  | .registry (.createRing name) => op = .ringNew name
  | .registry (.addPeerToRing ring peer expiresAt) => op.Joins env own ring peer expiresAt
  | .registry (.removePeerFromRing ring peer) => op.Leaves env ring peer
  | .registry (.addRingToResource res ring perms) =>
    perms = [.read] ∧ op.Attaches ring ∨ op.Restores ring ∧ known res ring perms
  | .registry (.removeRingFromResource _) => op.Detaches ∨ op.RemovesBlob
  | .peers (.insert peer nickname) => op.Registers env peer nickname
  | .peers (.remove peer) => op.Forgets env peer
  | .grants (.insert privilege peer) => op.Grants env privilege peer
  | .grants (.remove privilege peer) => op.Revokes env privilege peer ∨ op.Forgets env peer
  | .store (.setTag _ _) => op.Pins
  | .store (.deleteTag _) => op.RemovesBlob
  | .store (.exportBlob _ _) => op.Receives
  | .fs (.createDirAll _) => op.Receives
  | _ => True

variable {env} {own : EndpointId} {known : Hash → String → List Permission → Prop} {op : Op}

theorem permits_of_views {c : Call} (h : c.Views) : op.Permits env own known c := by
  cases c with
  | registry c => cases c <;> trivial
  | peers c => cases c <;> trivial
  | grants c => cases c <;> trivial
  | store c => cases c <;> trivial
  | fs c => cases c <;> trivial
  | _ => trivial

theorem permits_of_pins {c : Call} (hop : op.Pins) (h : c.Pins) : op.Permits env own known c := by
  cases c with
  | store c => cases c <;> first | exact hop | trivial
  | fs c => cases c <;> trivial
  | dropTempTag tag => trivial
  | _ => exact h.elim

end Op

/-- What a request may be told: the id of its node, and associations that are `known`. -/
def Told (own : EndpointId) (known : Hash → String → List Permission → Prop) : (c : Call) → c.Ans → Prop
  | .endpointAddr, a => a.id = own
  | .registry (.listResourceRings res), .ok rows => ∀ r ∈ rows, known res r.1.name r.2
  | _, _ => True

section Reading

variable {P : Call → Prop} (hP : ∀ c : Call, c.Views → P c)
include hP

theorem uses_sendLines_views (reqId : Uuid) (lines : List String) : (sendLines reqId lines).Uses P :=
  uses_sendLines (fun _ _ ↦ hP (.send _) trivial) lines

theorem uses_finish_views (reqId : Uuid) (lines : List String) : (finish reqId lines).Uses P :=
  (uses_sendLines_views hP reqId lines).bind fun _ ↦ uses_ask (hP (.send _) trivial)

theorem uses_getPeer_views (peer : EndpointId) : (PeerStore.get peer).Uses P :=
  Uses.bind (uses_asked hP (.peers (.get peer)) id trivial) fun _ ↦ trivial

theorem uses_listPeers_views : PeerStore.list.Uses P :=
  Uses.bind (uses_asked hP (.peers .list) id trivial) fun _ ↦ trivial

theorem uses_nicknameOrNone_views (peer : EndpointId) : (nicknameOrNone peer).Uses P := by
  refine (uses_getPeer_views hP peer).attempt.bind fun r ↦ ?_
  cases r <;> trivial

theorem uses_handleNodeId_views (env : Env) (reqId : Uuid) (qrCode : Bool) : (handleNodeId env reqId qrCode).Uses P := by
  have hsend : ∀ e, (send e).Uses P := fun e ↦ uses_ask (hP (.send e) trivial)
  have hcode : ∀ peerId, (sendQrCode env reqId peerId).Uses P := by
    intro peerId
    unfold sendQrCode
    split
    · trivial
    · exact (hsend _).bind fun _ ↦ uses_sendLines_views hP reqId _
  refine Uses.bind (uses_ask (hP .endpointAddr trivial)) fun addr ↦ (hsend _).bind fun _ ↦ ?_
  cases qrCode with
  | true => exact (hcode _).bind fun _ ↦ (hsend _).bind fun _ ↦ hsend _
  | false => exact (hsend _).bind fun _ ↦ hsend _

theorem uses_listEntry_views (env : Env) (reqId : Uuid) (entry : BlobListEntry) : (listEntry env reqId entry).Uses P := by
  refine Uses.bind (uses_asked hP (.registry (.listResourceRings entry.hash)) id trivial) fun blobRings ↦ ?_
  refine (uses_makeTicket_views hP _ _ _).bind fun ticket ↦ (uses_ofExcept _).bind fun ticketStr ↦ ?_
  exact (uses_sendLines_views hP reqId _).bind fun _ ↦ uses_ask (hP (.send _) trivial)

theorem uses_handleBlobList_views (env : Env) (reqId : Uuid) (peer : Option String) (rings : Option (List String)) :
    (Handlers.handleBlobList env reqId peer rings).Uses P := by
  have hsend : ∀ e, (send e).Uses P := fun e ↦ uses_ask (hP (.send e) trivial)
  refine (uses_listBlobs_views hP env peer rings).bind fun blobs ↦ ?_
  dsimp only
  split
  · exact (hsend _).bind fun _ ↦ hsend _
  · exact (hsend _).bind fun _ ↦ (Uses.forM (uses_listEntry_views hP env reqId) blobs).bind fun _ ↦ hsend _

theorem uses_handleRingList_views (reqId : Uuid) : (handleRingList reqId).Uses P := by
  have hlist : (registry .listRings).Uses P := uses_asked hP (.registry .listRings) id trivial
  have hlines : ringListLines.Uses P := by
    refine hlist.bind fun rings ↦ Uses.foldlM (fun out ring ↦ ?_) _ _
    refine Uses.bind ?_ fun _ ↦ trivial
    unfold ringLine
    split
    · trivial
    · exact Uses.bind (uses_asked hP (.registry (.listRingPeers ring.name)) id trivial) fun _ ↦ trivial
  refine hlines.bind fun lines ↦ (uses_sendLines_views hP reqId lines).bind fun _ ↦ hlist.bind fun rings ↦ ?_
  exact (Uses.forM (fun ring ↦ uses_ask (hP (.send _) trivial)) rings).bind fun _ ↦ uses_ask (hP (.send _) trivial)

theorem uses_memberRecord_views (reqId : Uuid) (member : Member) : (memberRecord reqId member).Uses P := by
  refine (uses_nicknameOrNone_views hP member.peer).bind fun nick ↦ ?_
  dsimp only
  split
  · exact uses_ask (hP (.send _) trivial)
  · split
    · trivial
    · exact uses_ask (hP (.send _) trivial)

theorem uses_handleRingMembers_views (reqId : Uuid) (ring : String) : (handleRingMembers reqId ring).Uses P := by
  have hlist : (registry (.listRingPeers ring)).Uses P := uses_asked hP (.registry (.listRingPeers ring)) id trivial
  have hlines : (ringMembersLines ring).Uses P := by
    unfold ringMembersLines
    split
    · trivial
    · refine hlist.bind fun members ↦ ?_
      split
      · trivial
      · refine Uses.bind (uses_ask (hP .now trivial)) fun t ↦ Uses.foldlM (fun out m ↦ ?_) _ _
        have hline : (memberLine t m).Uses P := by
          refine (uses_nicknameOrNone_views hP m.peer).bind fun nick ↦ ?_
          dsimp only
          split <;> trivial
        exact hline.bind fun _ ↦ trivial
  refine hlines.bind fun lines ↦ (uses_sendLines_views hP reqId lines).bind fun _ ↦ ?_
  have hrecords : (memberRecords reqId ring).Uses P :=
    hlist.bind fun members ↦ Uses.forM (uses_memberRecord_views hP reqId) members
  dsimp only
  split
  · exact hrecords.bind fun _ ↦ uses_ask (hP (.send _) trivial)
  · exact uses_ask (hP (.send _) trivial)

theorem uses_handlePeerList_views (reqId : Uuid) : (handlePeerList reqId).Uses P := by
  have hlines : peerListLines.Uses P := by
    refine (uses_listPeers_views hP).bind fun peers ↦ ?_
    split <;> trivial
  refine hlines.bind fun lines ↦ (uses_sendLines_views hP reqId lines).bind fun _ ↦ ?_
  refine (uses_listPeers_views hP).bind fun peers ↦ ?_
  exact (Uses.forM (fun p ↦ uses_ask (hP (.send _) trivial)) peers).bind fun _ ↦ uses_ask (hP (.send _) trivial)

theorem uses_handleGrants_views (env : Env) (reqId : Uuid) (peer privilege : Option String) :
    (handleGrants env reqId peer privilege).Uses P := by
  have hlist : (grants .list).Uses P := uses_asked hP (.grants .list) id trivial
  have hlines : (filteredGrantLines env peer privilege).Uses P := by
    refine (uses_ofExcept _).bind fun peerFilter ↦ (uses_ofExcept _).bind fun privFilter ↦ hlist.bind fun rows ↦ ?_
    dsimp only
    split <;> trivial
  refine (uses_ofExcept _).bind fun peerFilter ↦ (uses_ofExcept _).bind fun privFilter ↦ hlist.bind fun rows ↦ ?_
  refine hlines.bind fun lines ↦ (uses_sendLines_views hP reqId lines).bind fun _ ↦ ?_
  exact (Uses.forM (fun row ↦ uses_ask (hP (.send _) trivial)) _).bind fun _ ↦ uses_ask (hP (.send _) trivial)

theorem uses_handleRemoteBlobList_views (env : Env) (reqId : Uuid) (peer : String) :
    (handleRemoteBlobList env reqId peer).Uses P := by
  have hsend : ∀ e, (send e).Uses P := fun e ↦ uses_ask (hP (.send e) trivial)
  have hentry : ∀ entry, (remoteEntry env reqId entry).Uses P := fun entry ↦
    (uses_ofExcept _).bind fun ticketStr ↦ (uses_sendLines_views hP reqId _).bind fun _ ↦ hsend _
  refine (uses_ofExcept _).bind fun peerId ↦ (uses_catalogConnect_views hP env _).bind fun entries ↦ ?_
  dsimp only
  split
  · exact (hsend _).bind fun _ ↦ hsend _
  · exact (hsend _).bind fun _ ↦ (Uses.forM hentry entries).bind fun _ ↦ hsend _

theorem uses_ticketReport_views (env : Env) (reqId : Uuid) (imported : Hash × BlobFormat) (path : Path) :
    (do let ticket ← makeTicket imported.1 imported.2 (leafName path)
        let ticketStr ← Program.ofExcept (ShareTicket.toUri env ticket)
        sendLines reqId (ticketLines ticketStr)
        send (.record reqId (importRecord imported.1 imported.2 (leafName path) ticketStr))
        send (.done reqId) : Action Unit).Uses P := by
  refine (uses_makeTicket_views hP _ _ _).bind fun ticket ↦ (uses_ofExcept _).bind fun ticketStr ↦ ?_
  refine (uses_sendLines_views hP reqId _).bind fun _ ↦ Uses.bind (uses_ask (hP (.send _) trivial)) fun _ ↦ ?_
  exact uses_ask (hP (.send _) trivial)

theorem uses_reportRings_views (reqId : Uuid) (hash : Hash) : (reportRings reqId hash).Uses P := by
  refine Uses.bind (uses_asked hP (.registry (.listResourceRings hash)) id trivial) fun existing ↦ ?_
  split
  · exact uses_sendLines_views hP reqId _
  · refine Uses.bind (uses_ask (hP (.send _) trivial)) fun _ ↦ ?_
    exact Uses.forM (fun r ↦ uses_ask (hP (.send _) trivial)) _

end Reading

section Changing

variable {env : Env} {own : EndpointId} {known : Hash → String → List Permission → Prop} {reqId : Uuid}

theorem views_permits {op : Op} (c : Call) (h : c.Views) : op.Permits env own known c := Op.permits_of_views h

theorem uses_attachTo_permits {op : Op} {ring : String} (h : op.Attaches ring) (hash : Hash) (said : String) :
    (attachTo reqId hash said ring).Uses (op.Permits env own known) :=
  Uses.bind (uses_asking (.registry (.addRingToResource hash ring [.read])) id (.inl ⟨rfl, h⟩)) fun _ ↦
    uses_ask (views_permits _ trivial)

theorem uses_resolveTarget_permits {op : Op} (h : op.Pins) (target : String) :
    (resolveTarget env target).Uses (op.Permits env own known) :=
  uses_resolveTarget (fun _ ↦ Op.permits_of_pins h) (fun _ hc ↦ views_permits _ hc.views) env target

theorem uses_handleImport_permits (path : Path) (rings : List String) («open» : Bool) :
    (handleImport env reqId path rings «open»).Uses (Op.Permits env own known (.import path rings «open»)) := by
  have hpins : Op.Pins (.import path rings «open») := trivial
  have hattach : ∀ hash, ∀ ring ∈ (if «open» then [openRingName] else rings),
      (attachTo reqId hash (attachLine ring) ring).Uses (Op.Permits env own known (.import path rings «open»)) := by
    intro hash ring hring
    have hattaches : Op.Attaches (.import path rings «open») ring := hring
    exact uses_attachTo_permits hattaches hash _
  refine (uses_importPath (fun _ ↦ Op.permits_of_pins hpins) (fun _ hc ↦ views_permits _ hc.views) env path).bind
    fun imported ↦ ?_
  dsimp only
  generalize (if «open» = true then [openRingName] else rings) = effectiveRings at hattach ⊢
  split
  · exact (uses_reportRings_views views_permits reqId _).bind fun _ ↦
      uses_ticketReport_views views_permits env reqId imported path
  · exact (Uses.forM_mem (hattach imported.1)).bind fun _ ↦
      uses_ticketReport_views views_permits env reqId imported path

theorem uses_handleAttach_permits (target : String) (rings : List String) («open» : Bool) :
    (handleAttach env reqId target rings «open»).Uses (Op.Permits env own known (.blobAttach target rings «open»)) := by
  have hpins : Op.Pins (.blobAttach target rings «open») := trivial
  have hrings : ∀ ring ∈ rings, Op.Attaches (.blobAttach target rings «open») ring := fun ring h ↦ Or.inl h
  have hdone : (send (.done reqId)).Uses (Op.Permits env own known (.blobAttach target rings «open»)) :=
    uses_ask (views_permits _ trivial)
  unfold handleAttach
  split
  · trivial
  · refine (uses_resolveTarget_permits hpins target).bind fun hash ↦ ?_
    refine (Uses.forM_mem fun ring hring ↦ uses_attachTo_permits (hrings ring hring) hash _).bind fun _ ↦ ?_
    cases «open» with
    | true =>
      have hopen : Op.Attaches (.blobAttach target rings true) openRingName := Or.inr ⟨rfl, rfl⟩
      exact (uses_attachTo_permits hopen hash _).bind fun _ ↦ hdone
    | false => exact hdone

theorem uses_handleBlobRemove_permits (target : String) :
    (handleBlobRemove env reqId target).Uses (Op.Permits env own known (.blobRemove target)) := by
  have hdelete : ∀ hash, (deleteBlob hash).Uses (Op.Permits env own known (.blobRemove target)) := by
    intro hash
    refine (uses_listTags_views views_permits).bind fun infos ↦ ?_
    dsimp only
    split
    · trivial
    · exact Uses.forM (fun name ↦ uses_context (uses_asking (.store (.deleteTag name)) id trivial)) _
  have hpins : Op.Pins (.blobRemove target) := trivial
  refine (uses_resolveTarget_permits hpins target).bind fun hash ↦ ?_
  refine Uses.bind (uses_asking (.registry (.removeRingFromResource hash)) id (.inr trivial)) fun _ ↦ ?_
  refine (hdelete hash).bind fun _ ↦ (uses_sendLines_views views_permits reqId _).bind fun _ ↦ ?_
  exact Uses.bind (uses_ask (views_permits _ trivial)) fun _ ↦ uses_ask (views_permits _ trivial)

/-- A detach writes back associations it has read before. -/
theorem within_detachSelected {op : Op} (h : op.Detaches) (hash : Hash) {toRemove : List String}
    (hrestores : ∀ ring, ring ∉ toRemove → op.Restores ring) :
    (detachSelected reqId hash toRemove).Within (Told own known) (op.Permits env own known) fun _ ↦ True := by
  have hread : (registry (.listResourceRings hash)).Within (Told own known) (op.Permits env own known)
      fun rows ↦ ∀ r ∈ rows, known hash r.1.name r.2 := by
    refine within_asking (views_permits _ trivial) fun a rows ha hrows ↦ ?_
    obtain rfl : a = .ok rows := hrows
    exact ha
  refine hread.bind fun current hcurrent ↦ ?_
  dsimp only
  split
  · exact within_fail
  · refine Uses.within_bind (uses_asking (.registry (.removeRingFromResource hash)) id (.inl h)) fun _ ↦ ?_
    refine Uses.within_bind (Uses.forM_mem fun r hr ↦ ?_) fun _ ↦ ?_
    · obtain ⟨hr, hkept⟩ := List.mem_filter.mp hr
      have hrestored : op.Restores r.1.name := hrestores _ (by simpa using hkept)
      exact uses_asking (.registry (.addRingToResource hash r.1.name r.2)) id (.inr ⟨hrestored, hcurrent r hr⟩)
    · exact Uses.within ((uses_sendLines_views views_permits reqId _).bind fun _ ↦ uses_ask (views_permits _ trivial))

theorem within_handleDetach (target : String) (rings : List String) («open» all : Bool) :
    (handleDetach env reqId target rings «open» all).Within (Told own known)
      (Op.Permits env own known (.blobDetach target rings «open» all)) fun _ ↦ True := by
  have hpins : Op.Pins (.blobDetach target rings «open» all) := trivial
  have hdetaches : Op.Detaches (.blobDetach target rings «open» all) := trivial
  refine (uses_resolveTarget_permits hpins target).within_bind fun hash ↦ ?_
  cases all with
  | true =>
    refine Uses.within (Uses.bind (uses_asking (.registry (.removeRingFromResource hash)) id (.inl hdetaches)) fun _ ↦ ?_)
    exact Uses.bind (uses_ask (views_permits _ trivial)) fun _ ↦ uses_ask (views_permits _ trivial)
  | false => exact within_detachSelected hdetaches hash fun _ hring ↦ hring

theorem uses_handleRingNew_permits (name : String) :
    (handleRingNew reqId name).Uses (Op.Permits env own known (.ringNew name)) := by
  refine Uses.bind (Uses.bind (uses_asking (.registry (.createRing name)) id rfl) fun _ ↦ trivial) fun lines ↦ ?_
  refine (uses_sendLines_views views_permits reqId _).bind fun _ ↦ ?_
  exact Uses.bind (uses_ask (views_permits _ trivial)) fun _ ↦ uses_ask (views_permits _ trivial)

theorem uses_ensure_permits {op : Op} {peer : EndpointId} (h : op.Registers env peer "") :
    (PeerStore.ensure peer).Uses (op.Permits env own known) := by
  refine Uses.bind (uses_asked views_permits (.peers (.get peer)) id trivial) fun stored ↦ ?_
  split
  · trivial
  · exact uses_asking (.peers (.insert peer "")) id h

theorem within_futureExpiry {H : (c : Call) → c.Ans → Prop} {P : Call → Prop} (hP : ∀ c : Call, c.Views → P c)
    (secs : UInt64) : (futureExpiry secs).Within H P fun e ↦ epochPlus secs = some e.instant := by
  unfold futureExpiry
  split
  · exact within_fail
  · rename_i instant hinstant
    refine Uses.within_bind (uses_ask (hP .now trivial)) fun t ↦ ?_
    split
    · exact within_ret hinstant
    · exact within_fail

theorem uses_addPeerToRing_permits {op : Op} {ring : String} {peer : EndpointId} {expiresAt : Option SystemTime}
    {f : Unit → Action (List String)} (hjoins : op.Joins env own ring peer expiresAt)
    (hregisters : op.Registers env peer "") (hf : ∀ u, (f u).Uses (op.Permits env own known)) :
    (registry (.addPeerToRing ring peer expiresAt) >>= fun _ ↦ PeerStore.ensure peer >>= f).Uses
      (op.Permits env own known) :=
  Uses.bind (uses_asking (.registry (.addPeerToRing ring peer expiresAt)) id hjoins) fun _ ↦
    (uses_ensure_permits hregisters).bind hf

theorem within_ringAddLines (ring peer : String) (expiresAt : Option UInt64) :
    (ringAddLines env own ring peer expiresAt).Within (Told own known)
      (Op.Permits env own known (.ringAdd ring peer expiresAt)) fun _ ↦ True := by
  unfold ringAddLines
  split
  · exact within_ret trivial
  · rename_i hring
    refine (within_ofExcept fun peerId hparse ↦ hparse).bind fun peerId hparse ↦ ?_
    have hregisters : (Op.ringAdd ring peer expiresAt).Registers env peerId "" :=
      .inr ⟨ring, peer, expiresAt, hring, rfl, hparse, rfl⟩
    split
    · exact within_fail
    · rename_i hown
      cases expiresAt with
      | none =>
        have hjoins : (Op.ringAdd ring peer none).Joins env own ring peerId none :=
          ⟨hring, hown, peer, none, rfl, hparse, rfl⟩
        exact (uses_addPeerToRing_permits hjoins hregisters (by intro u; trivial)).within
      | some secs =>
        refine Within.bind (Q := fun expiry ↦ ∃ e, expiry = some e ∧ epochPlus secs = some e.instant) ?_ ?_
        · rw [map_eq_pure_bind]
          exact (within_futureExpiry views_permits secs).bind fun e he ↦ within_ret ⟨e, rfl, he⟩
        · intro expiry hexpiry
          obtain ⟨e, rfl, he⟩ := hexpiry
          have hjoins : (Op.ringAdd ring peer (some secs)).Joins env own ring peerId (some e.instant) :=
            ⟨hring, hown, peer, some secs, rfl, hparse, by rw [Option.map_some, Option.map_some, he]⟩
          exact (uses_addPeerToRing_permits hjoins hregisters (by intro u; trivial)).within

theorem within_handleRingAdd (ring peer : String) (expiresAt : Option UInt64) :
    (handleRingAdd env reqId ring peer expiresAt).Within (Told own known)
      (Op.Permits env own known (.ringAdd ring peer expiresAt)) fun _ ↦ True := by
  have haddr : endpointAddr.Within (Told own known) (Op.Permits env own known (.ringAdd ring peer expiresAt))
      fun addr ↦ addr.id = own := within_ask (views_permits _ trivial) fun _ ha ↦ ha
  refine haddr.bind fun addr haddr ↦ ?_
  rw [haddr]
  exact (within_ringAddLines ring peer expiresAt).bind fun lines _ ↦ (uses_finish_views views_permits reqId lines).within

theorem uses_handleRingRemove_permits (ring peer : String) :
    (handleRingRemove env reqId ring peer).Uses (Op.Permits env own known (.ringRemove ring peer)) := by
  refine Uses.bind ?_ fun lines ↦ uses_finish_views views_permits reqId lines
  unfold ringRemoveLines
  split
  · trivial
  · refine uses_ofExcept_bind fun peerId hparse ↦ ?_
    have hleaves : (Op.ringRemove ring peer).Leaves env ring peerId := .inl ⟨peer, rfl, hparse⟩
    exact Uses.bind (uses_asking (.registry (.removePeerFromRing ring peerId)) id hleaves) fun _ ↦ trivial

theorem uses_handlePeerAdd_permits (peer : String) (nickname : Option String) :
    (handlePeerAdd env reqId peer nickname).Uses (Op.Permits env own known (.peerAdd peer nickname)) := by
  refine Uses.bind ?_ fun lines ↦ (uses_sendLines_views views_permits reqId _).bind fun _ ↦
    Uses.bind (uses_ask (views_permits _ trivial)) fun _ ↦ uses_ask (views_permits _ trivial)
  refine uses_ofExcept_bind fun peerId hparse ↦ ?_
  have hregisters : (Op.peerAdd peer nickname).Registers env peerId (nickname.getD "") :=
    .inl ⟨peer, nickname, rfl, hparse, rfl⟩
  cases nickname with
  | some nick => exact Uses.bind (uses_asking (.peers (.insert peerId nick)) id hregisters) fun _ ↦ trivial
  | none => exact (uses_ensure_permits hregisters).bind fun _ ↦ trivial

theorem uses_handlePeerRemove_permits (peer : String) :
    (handlePeerRemove env reqId peer).Uses (Op.Permits env own known (.peerRemove peer)) := by
  refine Uses.bind ?_ fun lines ↦ uses_finish_views views_permits reqId lines
  refine uses_ofExcept_bind fun peerId hparse ↦ ?_
  have hforgets : (Op.peerRemove peer).Forgets env peerId := ⟨peer, rfl, hparse⟩
  have hleave : ∀ removedFrom ring,
      (leaveRing peerId removedFrom ring).Uses (Op.Permits env own known (.peerRemove peer)) := by
    intro removedFrom ring
    unfold leaveRing
    split
    · trivial
    · refine Uses.bind (uses_asked views_permits (.registry (.listRingPeers ring.name)) id trivial) fun members ↦ ?_
      split
      · exact Uses.bind (uses_asking (.registry (.removePeerFromRing ring.name peerId)) id (.inr hforgets))
          fun _ ↦ trivial
      · trivial
  have hrevoke : ∀ revoked privilege,
      (revokeHeld peerId revoked privilege).Uses (Op.Permits env own known (.peerRemove peer)) := by
    intro revoked privilege
    refine Uses.bind (uses_asked views_permits (.grants (.get privilege peerId)) id trivial) fun held ↦ ?_
    split
    · exact Uses.bind (uses_asking (.grants (.remove privilege peerId)) id (.inr hforgets)) fun _ ↦ trivial
    · trivial
  refine (uses_getPeer_views views_permits peerId).bind fun stored ↦ ?_
  split
  · trivial
  · refine Uses.bind (uses_asked views_permits (.registry .listRings) id trivial) fun rings ↦ ?_
    refine (Uses.foldlM hleave _ _).bind fun removedFrom ↦ (Uses.foldlM hrevoke _ _).bind fun revoked ↦ ?_
    exact Uses.bind (uses_asking (.peers (.remove peerId)) id hforgets) fun _ ↦ trivial

theorem uses_handleGrant_permits (peer privilege : String) :
    (handleGrant env reqId peer privilege).Uses (Op.Permits env own known (.grant peer privilege)) := by
  refine Uses.bind ?_ fun lines ↦ uses_finish_views views_permits reqId lines
  refine uses_ofExcept_bind fun peerId hparse ↦ uses_ofExcept_bind fun priv hpriv ↦ ?_
  have hgrants : (Op.grant peer privilege).Grants env priv peerId := ⟨peer, privilege, rfl, hparse, hpriv⟩
  exact Uses.bind (uses_asking (.grants (.insert priv peerId)) id hgrants) fun _ ↦ trivial

theorem uses_handleRevoke_permits (peer privilege : String) :
    (handleRevoke env reqId peer privilege).Uses (Op.Permits env own known (.revoke peer privilege)) := by
  refine Uses.bind ?_ fun lines ↦ uses_finish_views views_permits reqId lines
  refine uses_ofExcept_bind fun peerId hparse ↦ uses_ofExcept_bind fun priv hpriv ↦ ?_
  have hrevokes : (Op.revoke peer privilege).Revokes env priv peerId := ⟨peer, privilege, rfl, hparse, hpriv⟩
  exact Uses.bind (uses_asking (.grants (.remove priv peerId)) id (.inl hrevokes)) fun _ ↦ trivial

theorem uses_handleReceive_permits (ticket : String) (dest defaultReceiveDir : Option Path) (force : Bool) :
    (handleReceive env reqId ticket dest defaultReceiveDir force).Uses
      (Op.Permits env own known (.receive ticket dest force)) := by
  have hlook : ∀ c : Call, c.Looks → Op.Permits env own known (.receive ticket dest force) c :=
    fun _ hc ↦ views_permits _ hc.views
  have hreceives : (Op.receive ticket dest force).Receives := trivial
  refine (uses_ofExcept _).bind fun shared ↦ Uses.bind ?_ fun destPath ↦ ?_
  · refine (uses_ofExcept _).bind fun resolved ↦ ?_
    refine (uses_checkResolved hlook resolved _ _ force).bind fun destPath ↦ Uses.bind ?_ fun _ ↦ trivial
    cases resolved with
    | explicit dest => trivial
    | directory dir => exact uses_context (uses_asking (.fs (.createDirAll dir)) id hreceives)
  · have hkept : ∀ (c : Call) (log : Trace Call.Ans) (a : c.Ans) (log' : Trace Call.Ans),
        Op.Permits env own known (.receive ticket dest force) c →
        (∀ x ∈ log, Op.Permits env own known (.receive ticket dest force) x.1) → Pool.hearing c log a log' →
        ∀ x ∈ log', Op.Permits env own known (.receive ticket dest force) x.1 := by
      intro c log a log' hc hlog ha
      rw [ha.2, List.forall_mem_append, List.forall_mem_singleton]
      exact ⟨hlog, hc⟩
    refine uses_of_wpc (fun c ↦ ⟨(exec c emptyNode).1⟩) [] (wpc_receiveBlob
      (P := Op.Permits env own known (.receive ticket dest force)) (fun _ hc ↦ views_permits _ hc.views)
      (fun _ ↦ views_permits _ trivial) (fun _ ↦ views_permits _ trivial) (views_permits _ trivial)
      (views_permits _ trivial) hkept (fun log hlog ↦ ?_) (by simp))
    have hexport := RingReceiver.uses_export_views (P := Op.Permits env own known (.receive ticket dest force))
      (fun _ ↦ views_permits _) (fun _ ↦ hreceives) (fun _ _ ↦ hreceives) shared.hash shared.format shared.name destPath
    exact hexport.wpc_invariant hkept hlog

end Changing

theorem within_handleOp {env : Env} {own : EndpointId} {known : Hash → String → List Permission → Prop}
    (defaultReceiveDir : Option Path) (reqId : Uuid) (op : Op) :
    (handleOp env defaultReceiveDir reqId op).Within (Told own known) (op.Permits env own known) fun _ ↦ True := by
  cases op with
  | nodeId qrCode => exact (uses_handleNodeId_views views_permits env reqId qrCode).within
  | «import» path rings «open» => exact (uses_handleImport_permits path rings «open»).within
  | blobList peer rings => exact (uses_handleBlobList_views views_permits env reqId peer rings).within
  | blobRemove target => exact (uses_handleBlobRemove_permits target).within
  | blobAttach target rings «open» => exact (uses_handleAttach_permits target rings «open»).within
  | blobDetach target rings «open» all => exact within_handleDetach target rings «open» all
  | ringNew name => exact (uses_handleRingNew_permits name).within
  | ringList => exact (uses_handleRingList_views views_permits reqId).within
  | ringAdd ring peer expiresAt => exact within_handleRingAdd ring peer expiresAt
  | ringRemove ring peer => exact (uses_handleRingRemove_permits ring peer).within
  | ringMembers ring => exact (uses_handleRingMembers_views views_permits reqId ring).within
  | receive ticket dest force => exact (uses_handleReceive_permits ticket dest defaultReceiveDir force).within
  | grant peer privilege => exact (uses_handleGrant_permits peer privilege).within
  | revoke peer privilege => exact (uses_handleRevoke_permits peer privilege).within
  | grants peer privilege => exact (uses_handleGrants_views views_permits env reqId peer privilege).within
  | remoteBlobList peer => exact (uses_handleRemoteBlobList_views views_permits env reqId peer).within
  | peerAdd peer nickname => exact (uses_handlePeerAdd_permits peer nickname).within
  | peerList => exact (uses_handlePeerList_views views_permits reqId).within
  | peerRemove peer => exact (uses_handlePeerRemove_permits peer).within
  | shutdown => exact within_ret trivial

end Ringdrop
