import Ringdrop.Core.Basic

namespace Ringdrop

open Std

inductive Permission
  | read
  | write
  | delete
deriving DecidableEq

def openRingName : String := "open"

structure Ring where
  name : String
deriving DecidableEq

def Ring.isOpen (r : Ring) : Bool := r.name == openRingName

structure Member where
  peer : EndpointId
  expiresAt : Option SystemTime
deriving DecidableEq

def live (now : SystemTime) (expiresAt : Option SystemTime) : Bool :=
  expiresAt.all (fun t ↦ now < t)

abbrev Members := ExtTreeMap EndpointId (Option SystemTime)

abbrev Associations := ExtTreeMap String (List Permission)

/-- The open ring carries no permission but to read. -/
def Carries (ring : String) (perms : List Permission) : Prop :=
  ring = openRingName → ∀ perm ∈ perms, perm = .read

instance (ring : String) (perms : List Permission) : Decidable (Carries ring perms) :=
  inferInstanceAs (Decidable (_ → _))

theorem carries_read (ring : String) : Carries ring [.read] := by simp [Carries]

def Admitted (rings : ExtTreeMap String Members) (assoc : Associations) : Prop :=
  ∀ (ring : String) (perms : List Permission), assoc[ring]? = some perms → ring ∈ rings ∧ Carries ring perms

/-- The ring registry: the names it accepts for rings, the members of each ring and the
rings each resource is associated with. -/
structure Registry where
  accepts : String → Bool
  rings : ExtTreeMap String Members
  resources : ExtTreeMap Hash Associations
  open_mem : openRingName ∈ rings
  known : ∀ (res : Hash) (assoc : Associations), resources[res]? = some assoc → Admitted rings assoc

namespace Registry

def unknownRing (ring : String) : Error := .msg s!"ring '{ring}' not found"

def readOnly (ring : String) : Error := .msg s!"ring '{ring}' carries no permission but read"

def members (r : Registry) (ring : String) : Members :=
  r.rings.getD ring ∅

def associations (r : Registry) (res : Hash) : Associations :=
  r.resources.getD res ∅

def isLiveMember (r : Registry) (now : SystemTime) (ring : String) (peer : EndpointId) : Bool :=
  ((r.members ring)[peer]?).any (live now)

def empty : Registry where
  accepts name := name ≠ "" && name.toList.all (fun c ↦ !c.isWhitespace)
  rings := (∅ : ExtTreeMap String Members).insert openRingName ∅
  resources := ∅
  open_mem := by simp
  known := by simp

/-- Put `ms` in place as the members of `ring`, which is created if need be. -/
def setMembers (r : Registry) (ring : String) (ms : Members) : Registry :=
  { r with
    rings := r.rings.insert ring ms
    open_mem := by simp [r.open_mem]
    known := by
      intro res assoc h ring' perms hperms
      obtain ⟨hr, hcarries⟩ := r.known res assoc h ring' perms hperms
      exact ⟨by simp [hr], hcarries⟩ }

def createRing (r : Registry) (name : String) : Except Error Registry :=
  if r.accepts name then
    if name ∈ r.rings then .error (.msg s!"ring already exists: {name}")
    else .ok (r.setMembers name ∅)
  else .error (.msg s!"invalid ring name: {name}")

/-- The open ring is listed before the others. -/
def listRings (r : Registry) : List Ring :=
  ⟨openRingName⟩ :: (r.rings.keys.filter (· ≠ openRingName)).map Ring.mk

/-- Adding a live member again without an expiry keeps the expiry it has. -/
def addPeerToRing (r : Registry) (now : SystemTime) (ring : String) (peer : EndpointId)
    (expiresAt : Option SystemTime) : Except Error Registry :=
  if ring ∈ r.rings then
    let kept := ((r.members ring)[peer]?.filter (live now)).join
    .ok (r.setMembers ring ((r.members ring).insert peer (expiresAt <|> kept)))
  else .error (unknownRing ring)

/-- Removing one who is no member changes nothing. -/
def removePeerFromRing (r : Registry) (ring : String) (peer : EndpointId) : Except Error Registry :=
  if ring ∈ r.rings then .ok (r.setMembers ring ((r.members ring).erase peer))
  else .error (unknownRing ring)

def listRingPeers (r : Registry) (now : SystemTime) (ring : String) : Except Error (List Member) :=
  if ring ∈ r.rings then
    .ok (((r.members ring).toList.filter (fun m ↦ live now m.2)).map (fun m ↦ ⟨m.1, m.2⟩))
  else .error (unknownRing ring)

def setAssociations (r : Registry) (res : Hash) (assoc : Associations) (h : Admitted r.rings assoc) : Registry :=
  { r with
    resources := r.resources.insert res assoc
    known := by
      intro res' assoc' h'
      rw [ExtTreeMap.getElem?_insert] at h'
      split at h'
      · rwa [← Option.some.inj h']
      · exact r.known res' assoc' h' }

theorem admitted_associations (r : Registry) (res : Hash) : Admitted r.rings (r.associations res) := by
  unfold associations
  rw [ExtTreeMap.getD_eq_getD_getElem?]
  cases ha : r.resources[res]? with
  | none =>
    intro ring perms h
    simp at h
  | some assoc => exact r.known res assoc ha

theorem mem_rings_of_mem_associations {r : Registry} {res : Hash} {ring : String}
    (h : ring ∈ r.associations res) : ring ∈ r.rings := by
  obtain ⟨perms, hperms⟩ := Option.isSome_iff_exists.mp (ExtTreeMap.mem_iff_isSome_getElem?.mp h)
  exact (r.admitted_associations res ring perms hperms).1

theorem admitted_insert {rings : ExtTreeMap String Members} {assoc : Associations} {ring : String}
    {perms : List Permission} (h : Admitted rings assoc) (hring : ring ∈ rings) (hperms : Carries ring perms) :
    Admitted rings (assoc.insert ring perms) := by
  intro ring' perms' h'
  rw [ExtTreeMap.getElem?_insert] at h'
  split at h'
  · rename_i heq
    rw [← LawfulEqOrd.eq_of_compare heq, ← Option.some.inj h']
    exact ⟨hring, hperms⟩
  · exact h ring' perms' h'

theorem admitted_empty (rings : ExtTreeMap String Members) : Admitted rings ∅ := by
  intro ring perms h
  simp at h

/-- Associating a ring again replaces the permissions it had. The daemon itself associates
no ring with anything but `[read]`. -/
def addRingToResource (r : Registry) (res : Hash) (ring : String) (perms : List Permission) :
    Except Error Registry :=
  if h : ring ∈ r.rings then
    if hperms : Carries ring perms then
      .ok (r.setAssociations res ((r.associations res).insert ring perms)
        (admitted_insert (r.admitted_associations res) h hperms))
    else .error (readOnly ring)
  else .error (unknownRing ring)

theorem addRingToResource_eq {r : Registry} {res : Hash} {ring : String} {perms : List Permission}
    (h : ring ∈ r.rings) (hperms : Carries ring perms) : r.addRingToResource res ring perms =
      .ok (r.setAssociations res ((r.associations res).insert ring perms)
        (admitted_insert (r.admitted_associations res) h hperms)) := by
  rw [addRingToResource, dif_pos h, dif_pos hperms]

theorem addRingToResource_ok {r r' : Registry} {res : Hash} {ring : String} {perms : List Permission}
    (h : r.addRingToResource res ring perms = .ok r') : ∃ hfits,
      r' = r.setAssociations res ((r.associations res).insert ring perms) hfits := by
  unfold addRingToResource at h
  split at h
  · split at h
    · exact ⟨_, (Except.ok.inj h).symm⟩
    · cases h
  · cases h

def removeRingFromResource (r : Registry) (res : Hash) : Registry :=
  r.setAssociations res ∅ (admitted_empty r.rings)

def listResourceRings (r : Registry) (res : Hash) : List (Ring × List Permission) :=
  (r.associations res).toList.map (fun a ↦ (⟨a.1⟩, a.2))

def hasPermission (r : Registry) (now : SystemTime) (peer : EndpointId) (res : Hash)
    (perm : Permission) : Bool :=
  (r.listResourceRings res).any (fun a ↦
    a.2.contains perm && (a.1.isOpen || r.isLiveMember now a.1.name peer))

@[simp] theorem rings_setAssociations (r : Registry) (res : Hash) (assoc : Associations)
    (h : Admitted r.rings assoc) :
    (r.setAssociations res assoc h).rings = r.rings := rfl

@[simp] theorem associations_setMembers (r : Registry) (ring : String) (ms : Members) (res : Hash) :
    (r.setMembers ring ms).associations res = r.associations res := rfl

theorem associations_setAssociations (r : Registry) (res res' : Hash) (assoc : Associations)
    (h : Admitted r.rings assoc) :
    (r.setAssociations res assoc h).associations res' =
      if res = res' then assoc else r.associations res' := by
  unfold associations
  rw [ExtTreeMap.getD_eq_getD_getElem?, ExtTreeMap.getD_eq_getD_getElem?]
  change ((r.resources.insert res assoc)[res']?).getD ∅ = _
  rw [ExtTreeMap.getElem?_insert]
  by_cases hr : res = res'
  · simp [hr]
  · simp [hr]

@[simp] theorem members_setAssociations (r : Registry) (res : Hash) (assoc : Associations)
    (h : Admitted r.rings assoc) (ring : String) :
    (r.setAssociations res assoc h).members ring = r.members ring := rfl

theorem members_setMembers (r : Registry) (ring ring' : String) (ms : Members) :
    (r.setMembers ring ms).members ring' = if ring = ring' then ms else r.members ring' := by
  unfold members
  rw [ExtTreeMap.getD_eq_getD_getElem?, ExtTreeMap.getD_eq_getD_getElem?]
  change ((r.rings.insert ring ms)[ring']?).getD ∅ = _
  rw [ExtTreeMap.getElem?_insert]
  by_cases hr : ring = ring'
  · simp [hr]
  · simp [hr]

theorem mem_listResourceRings {r : Registry} {res : Hash} {a : Ring × List Permission} :
    a ∈ r.listResourceRings res ↔ (r.associations res)[a.1.name]? = some a.2 := by
  obtain ⟨⟨name⟩, perms⟩ := a
  simp [listResourceRings, ExtTreeMap.mem_toList_iff_getElem?_eq_some]

theorem mem_listRings {r : Registry} {ring : Ring} : ring ∈ r.listRings ↔ ring.name ∈ r.rings := by
  obtain ⟨name⟩ := ring
  by_cases hname : name = openRingName
  · subst hname
    simp [listRings, r.open_mem]
  · simp [listRings, hname]

theorem isLiveMember_iff {r : Registry} {now : SystemTime} {ring : String} {peer : EndpointId} :
    r.isLiveMember now ring peer ↔
      ∃ expiresAt, (r.members ring)[peer]? = some expiresAt ∧ live now expiresAt := by
  simp [isLiveMember, Option.any_eq_true]

theorem mem_listRingPeers {r : Registry} {now : SystemTime} {ring : String} {ms : List Member}
    (h : r.listRingPeers now ring = .ok ms) (peer : EndpointId) :
    (∃ m ∈ ms, m.peer = peer) ↔ r.isLiveMember now ring peer := by
  unfold listRingPeers at h
  split at h
  · obtain rfl := Except.ok.inj h
    simp [isLiveMember_iff, ExtTreeMap.mem_toList_iff_getElem?_eq_some]
  · cases h

end Registry

end Ringdrop
