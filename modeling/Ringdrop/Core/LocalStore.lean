import Ringdrop.Core.Basic

namespace Ringdrop

open Std Library

/-- A capability that can be granted to a remote peer. -/
inductive Privilege
  | blobList
deriving DecidableEq

namespace Privilege

def all : List Privilege := [blobList]

def asStr : Privilege → String
  | blobList => "blob-list"

end Privilege

/-- Composite key: the privilege, a NUL byte and the peer. -/
def grantKey (privilege : Privilege) (peer : EndpointId) : Bytes :=
  Utf8.toBytes privilege.asStr ++ 0 :: peer.asBytes

def decodeGrantKey (key : Bytes) : Except Error (Privilege × EndpointId) :=
  match key.idxOf? 0 with
  | none => .error (.msg "grant key missing NUL separator")
  | some sep =>
    match Privilege.all.find? (fun p ↦ Utf8.toBytes p.asStr == key.take sep) with
    | none => .error (.msg "unknown privilege")
    | some privilege =>
      if h : (key.drop (sep + 1)).length = 32 then .ok (privilege, ⟨key.drop (sep + 1), h⟩)
      else .error (.msg "grant key peer id not 32 bytes")

/-- The tables of `local.redb`. An empty nickname means there is none. -/
structure LocalStore where
  peers : ExtTreeMap EndpointId String
  grants : ExtTreeMap Bytes Unit

namespace LocalStore

def empty : LocalStore := ⟨∅, ∅⟩

def insertPeer (s : LocalStore) (peer : EndpointId) (nickname : String) : LocalStore :=
  { s with peers := s.peers.insert peer nickname }

def removePeer (s : LocalStore) (peer : EndpointId) : Except Error LocalStore :=
  if peer ∈ s.peers then .ok { s with peers := s.peers.erase peer }
  else .error (.msg s!"peer not found: {peer}")

def insertGrant (s : LocalStore) (privilege : Privilege) (peer : EndpointId) : LocalStore :=
  { s with grants := s.grants.insert (grantKey privilege peer) () }

def removeGrant (s : LocalStore) (privilege : Privilege) (peer : EndpointId) : LocalStore :=
  { s with grants := s.grants.erase (grantKey privilege peer) }

def hasGrant (s : LocalStore) (privilege : Privilege) (peer : EndpointId) : Bool :=
  s.grants.contains (grantKey privilege peer)

def listGrants (s : LocalStore) : Except Error (List (Privilege × EndpointId)) :=
  s.grants.keys.mapM decodeGrantKey

end LocalStore

end Ringdrop
