import Ringdrop.Daemon.Handlers.Receive

namespace Ringdrop

open Library Handlers

namespace Server

def nodeIdRecord (peerId : EndpointId) : Json := .object [("peer_id", .str (toString peerId))]

def sendQrCode (env : Env) (reqId : Uuid) (peerId : EndpointId) : Action Unit := do
  match env.qrCode (toString peerId) with
  | .error e => throw ((Error.msg e).context "failed to generate QR code for peer-id")
  | .ok lines =>
    send (.blank reqId)
    sendLines reqId lines

def handleNodeId (env : Env) (reqId : Uuid) (qrCode : Bool) : Action Unit := do
  let peerId := (← endpointAddr).id
  send (.line reqId (toString peerId))
  if qrCode then sendQrCode env reqId peerId
  send (.record reqId (nodeIdRecord peerId))
  send (.done reqId)

def handleRingNew (reqId : Uuid) (name : String) : Action Unit := do
  sendLines reqId (← ringNewLines name)
  send (.record reqId (.object [("name", .str name)]))
  send (.done reqId)

def handleRingList (reqId : Uuid) : Action Unit := do
  sendLines reqId (← ringListLines)
  let rings ← registry .listRings
  rings.forM (fun r ↦ send (.record reqId (.object [("name", .str r.name), ("open", .bool r.isOpen)])))
  send (.done reqId)

def handleRingAdd (env : Env) (reqId : Uuid) (ring peer : String) (expiresAt : Option UInt64) :
    Action Unit := do
  let publicId := (← endpointAddr).id
  finish reqId (← ringAddLines env publicId ring peer expiresAt)

def handleRingRemove (env : Env) (reqId : Uuid) (ring peer : String) : Action Unit := do
  finish reqId (← ringRemoveLines env ring peer)

def memberRecord (reqId : Uuid) (member : Member) : Action Unit := do
  let nickname ← nicknameOrNone member.peer
  let fields := [("peer_id", .str (toString member.peer)), ("nickname", optStr nickname)]
  match member.expiresAt with
  | none => send (.record reqId (.object fields))
  | some instant =>
    if instant < 0 then
      throw ((Error.msg "second time provided was later than self").context
        "membership expiry is before the Unix epoch")
    else
      send (.record reqId (.object (fields ++ [("expires_at", .num (instant / nanosPerSec).toNat)])))

def memberRecords (reqId : Uuid) (ring : String) : Action Unit := do
  let members ← registry (.listRingPeers ring)
  members.forM (memberRecord reqId)

def handleRingMembers (reqId : Uuid) (ring : String) : Action Unit := do
  sendLines reqId (← ringMembersLines ring)
  if ring ≠ openRingName then memberRecords reqId ring
  send (.done reqId)

def handlePeerAdd (env : Env) (reqId : Uuid) (peer : String) (nickname : Option String) :
    Action Unit := do
  sendLines reqId (← peerAddLines env peer nickname)
  send (.record reqId (.object [("peer_id", .str peer), ("nickname", optStr nickname)]))
  send (.done reqId)

def handlePeerList (reqId : Uuid) : Action Unit := do
  sendLines reqId (← peerListLines)
  let peers ← PeerStore.list
  peers.forM (fun p ↦
    send (.record reqId (.object [("peer_id", .str (toString p.1)), ("nickname", optStr p.2)])))
  send (.done reqId)

def handlePeerRemove (env : Env) (reqId : Uuid) (peer : String) : Action Unit := do
  finish reqId (← peerRemoveLines env peer)

/-- What a request is answered with. `shutdown` does not get here. -/
def handleOp (env : Env) (defaultReceiveDir : Option Path) (reqId : Uuid) : Op → Action Unit
  | .nodeId qrCode => handleNodeId env reqId qrCode
  | .import path rings «open» => handleImport env reqId path rings «open»
  | .blobList peer rings => handleBlobList env reqId peer rings
  | .blobRemove target => handleBlobRemove env reqId target
  | .blobAttach target rings «open» => handleAttach env reqId target rings «open»
  | .blobDetach target rings «open» all => handleDetach env reqId target rings «open» all
  | .ringNew name => handleRingNew reqId name
  | .ringList => handleRingList reqId
  | .ringAdd ring peer expiresAt => handleRingAdd env reqId ring peer expiresAt
  | .ringRemove ring peer => handleRingRemove env reqId ring peer
  | .ringMembers ring => handleRingMembers reqId ring
  | .receive ticket dest forceOverwrite =>
    handleReceive env reqId ticket dest defaultReceiveDir forceOverwrite
  | .grant peer privilege => handleGrant env reqId peer privilege
  | .revoke peer privilege => handleRevoke env reqId peer privilege
  | .grants peer privilege => handleGrants env reqId peer privilege
  | .remoteBlobList peer => handleRemoteBlobList env reqId peer
  | .peerAdd peer nickname => handlePeerAdd env reqId peer nickname
  | .peerList => handlePeerList reqId
  | .peerRemove peer => handlePeerRemove env reqId peer
  | .shutdown => return ()

/-- The handler's outcome, of which an error is sent to the client. -/
def dispatch (env : Env) (defaultReceiveDir : Option Path) (reqId : Uuid) (op : Op) :
    Action (Except Error Unit) :=
  match op with
  | .shutdown => do
    send (.done reqId)
    Program.ask Call.notifyShutdown
    return .ok ()
  | op => do
    match ← (handleOp env defaultReceiveDir reqId op).attempt with
    | .ok _ => return .ok ()
    | .error e =>
      send (.error reqId (toString e))
      return .error e

end Server

end Ringdrop
