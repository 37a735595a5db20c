import Ringdrop.Daemon.Handlers.Blob

namespace Ringdrop

open Library

namespace Handlers

def ringNewLines (name : String) : Action (List String) := do
  registry (.createRing name)
  return [s!"Ring created: {name}", s!"Add peers: rdrop ring add {name} <peer-id>"]

def ringLine (ring : Ring) : Action String := do
  if ring.isOpen then return s!"  {ring.name}  — publicly accessible (no membership required)"
  else
    let members ← registry (.listRingPeers ring.name)
    return s!"  {ring.name}  ({members.length} members)"

def ringListLines : Action (List String) := do
  let rings ← registry .listRings
  rings.foldlM (fun out r ↦ do return out ++ [← ringLine r]) [s!"{rings.length} rings:"]

def nanosPerSec : ℤ := 1000000000

structure Expiry where
  instant : SystemTime
  remaining : ℕ

/-- `UNIX_EPOCH.checked_add`: seconds are kept in a signed 64-bit number. -/
def epochPlus (unixSecs : UInt64) : Option SystemTime :=
  if unixSecs.toNat < 2 ^ 63 then some (unixSecs.toNat * nanosPerSec) else none

/-- Timestamps that are not in the future are refused. -/
def futureExpiry (unixSecs : UInt64) : Action Expiry := do
  match epochPlus unixSecs with
  | none => throw (Error.msg s!"expiry timestamp {unixSecs} is out of range")
  | some instant =>
    let t ← now
    if t < instant then return ⟨instant, ((instant - t) / nanosPerSec).toNat⟩
    else throw (Error.msg "expiry must be in the future")

/-- Add `peer` to `ring` and see to it that the peer is in the peer store. -/
def ringAddLines (env : Env) (publicId : EndpointId) (ring peer : String) (expiresAt : Option UInt64) :
    Action (List String) := do
  if ring = openRingName then
    return ["The open ring has no membership list — everyone is welcome by default."]
  else
    let peerId ← .ofExcept (parsePeerId env peer)
    if peerId = publicId then throw (Error.msg "cannot add yourself to a ring")
    else
      let expiry ← match expiresAt with
        | some secs => some <$> futureExpiry secs
        | none => pure none
      registry (.addPeerToRing ring peerId (expiry.map Expiry.instant))
      PeerStore.ensure peerId
      match expiry with
      | some e => return [s!"Added {peerId} to ring {ring} (expires in {formatRemaining e.remaining})"]
      | none => return [s!"Added {peerId} to ring {ring}"]

def ringRemoveLines (env : Env) (ring peer : String) : Action (List String) := do
  if ring = openRingName then return ["The open ring has no membership list to remove from."]
  else
    let peerId ← .ofExcept (parsePeerId env peer)
    registry (.removePeerFromRing ring peerId)
    return [s!"Removed {peerId} from ring {ring}"]

/-- The nickname of a peer, as far as it can be read. -/
def nicknameOrNone (peer : EndpointId) : Action (Option String) := do
  match ← (PeerStore.get peer).attempt with
  | .ok nick => return nick.join
  | .error _ => return none

def memberLine (t : SystemTime) (member : Member) : Action String := do
  let peer := formatPeerEntry member.peer (← nicknameOrNone member.peer)
  match member.expiresAt with
  | some instant =>
    let remaining := formatRemaining ((instant - t) / nanosPerSec).toNat
    return s!"  {peer}  — expires in {remaining}"
  | none => return s!"  {peer}"

def noMembersLines (ring : String) : List String :=
  [s!"Ring '{ring}' has no members yet.", s!"Add peers: rdrop ring add {ring} <peer-id>",
    "Peers print their peer-id with: rdrop id"]

def ringMembersLines (ring : String) : Action (List String) := do
  if ring = openRingName then
    return ["The open ring is public — any peer may access blobs tagged with it."]
  else
    let members ← registry (.listRingPeers ring)
    if members = [] then return noMembersLines ring
    else
      let t ← now
      members.foldlM (fun out m ↦ do return out ++ [← memberLine t m])
        [s!"Ring '{ring}' — {members.length} members:"]

def peerAddLines (env : Env) (peer : String) (nickname : Option String) : Action (List String) := do
  let peerId ← .ofExcept (parsePeerId env peer)
  match nickname with
  | some nick =>
    PeerStore.upsert peerId (some nick)
    return [s!"Peer {peerId} added ({nick})"]
  | none =>
    PeerStore.ensure peerId
    return [s!"Peer {peerId} added"]

def peerListLines : Action (List String) := do
  let peers ← PeerStore.list
  if peers = [] then
    return ["No peers yet.", "Add peers with: rdrop peer add <peer-id> [--nickname <name>]"]
  else return s!"{peers.length} peers:" :: peers.map (fun p ↦ s!"  {formatPeerEntry p.1 p.2}")

def leaveRing (peerId : EndpointId) (removedFrom : List String) (ring : Ring) :
    Action (List String) := do
  if ring.isOpen then return removedFrom
  else
    let members ← registry (.listRingPeers ring.name)
    if members.any (fun m ↦ m.peer = peerId) then
      registry (.removePeerFromRing ring.name peerId)
      return removedFrom ++ [ring.name]
    else return removedFrom

def revokeHeld (peerId : EndpointId) (revoked : List String) (privilege : Privilege) :
    Action (List String) := do
  if ← grants (.get privilege peerId) then
    grants (.remove privilege peerId)
    return revoked ++ [privilege.asStr]
  else return revoked

def alsoLine (what : String) (names : List String) : List String :=
  if names = [] then [] else [s!"  also {what}: " ++ String.intercalate ", " names]

/-- Remove a peer from all rings, all grants and, last, from the store. -/
def peerRemoveLines (env : Env) (peer : String) : Action (List String) := do
  let peerId ← .ofExcept (parsePeerId env peer)
  if (← PeerStore.get peerId).isNone then throw (Error.msg s!"peer not found: {peerId}")
  else
    let rings ← registry .listRings
    let removedFrom ← rings.foldlM (leaveRing peerId) []
    let revoked ← Privilege.all.foldlM (revokeHeld peerId) []
    PeerStore.remove peerId
    return s!"Removed peer {peerId}" ::
      (alsoLine "removed from rings" removedFrom ++ alsoLine "revoked grants" revoked)

def grantLines (env : Env) (peer privilege : String) : Action (List String) := do
  let peerId ← .ofExcept (parsePeerId env peer)
  let priv ← .ofExcept (Privilege.tryFrom env privilege)
  grants (.insert priv peerId)
  return [s!"Granted {privilege} to {peerId}"]

def revokeLines (env : Env) (peer privilege : String) : Action (List String) := do
  let peerId ← .ofExcept (parsePeerId env peer)
  let priv ← .ofExcept (Privilege.tryFrom env privilege)
  grants (.remove priv peerId)
  return [s!"Revoked {privilege} from {peerId}"]

def finish (reqId : Uuid) (lines : List String) : Action Unit := do
  sendLines reqId lines
  send (.done reqId)

def handleGrant (env : Env) (reqId : Uuid) (peer privilege : String) : Action Unit := do
  finish reqId (← grantLines env peer privilege)

def handleRevoke (env : Env) (reqId : Uuid) (peer privilege : String) : Action Unit := do
  finish reqId (← revokeLines env peer privilege)

def parseOpt {α : Type} (parse : String → Except Error α) : Option String → Except Error (Option α)
  | none => .ok none
  | some s => match parse s with
    | .ok v => .ok (some v)
    | .error e => .error e

def matching (peerFilter : Option EndpointId) (privFilter : Option Privilege)
    (rows : List (Privilege × EndpointId)) : List (Privilege × EndpointId) :=
  rows.filter (fun row ↦ peerFilter.all (fun f ↦ row.2 = f) && privFilter.all (fun f ↦ row.1 = f))

/-- Reads the table on its own, after the handler has read it for the records. -/
def filteredGrantLines (env : Env) (peer privilege : Option String) : Action (List String) := do
  let peerFilter ← .ofExcept (parseOpt (parsePeerId env) peer)
  let privFilter ← .ofExcept (parseOpt (Privilege.tryFrom env) privilege)
  let found := matching peerFilter privFilter (← grants .list)
  if found = [] then return ["No grants."]
  else return s!"{found.length} grants:" :: found.map (fun row ↦ s!"  {row.1.asStr}  {row.2}")

def handleGrants (env : Env) (reqId : Uuid) (peer privilege : Option String) : Action Unit := do
  let peerFilter ← .ofExcept (parseOpt (parsePeerId env) peer)
  let privFilter ← .ofExcept (parseOpt (Privilege.tryFrom env) privilege)
  let found := matching peerFilter privFilter (← grants .list)
  sendLines reqId (← filteredGrantLines env peer privilege)
  found.forM (fun row ↦ send (.record reqId
    (.object [("privilege", .str row.1.asStr), ("peer_id", .str (toString row.2))])))
  send (.done reqId)

end Handlers

end Ringdrop
