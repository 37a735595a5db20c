import Ringdrop.Core.GrantedPairs
import Ringdrop.Core.Views

namespace Ringdrop

open Library Program Std

/-- An entry of one of the tables of a node. -/
inductive Cell
  | ring (name : String)
  | member (ring : String) (peer : EndpointId)
  | association (res : Hash) (ring : String)
  | grant (privilege : Privilege) (peer : EndpointId)
  | peer (peer : EndpointId)
  | tag (key : Bytes)

@[reducible] def Cell.Val : Cell → Type
  | ring _ => Bool
  | member _ _ => Option (Option SystemTime)
  | association _ _ => Option (List Permission)
  | grant _ _ => Bool
  | peer _ => Option String
  | tag _ => Option HashAndFormat

def NodeState.cell (s : NodeState) : (k : Cell) → k.Val
  | .ring name => s.registry.rings.contains name
  | .member ring peer => (s.registry.members ring)[peer]?
  | .association res ring => (s.registry.associations res)[ring]?
  | .grant privilege peer => s.localStore.hasGrant privilege peer
  | .peer peer => s.localStore.peers[peer]?
  | .tag key => s.store.tags[key]?

def Call.Writes : Call → (k : Cell) → k.Val → Prop
  | .registry (.createRing name), .ring name', v => name = name' ∧ v = true
  | .registry (.addPeerToRing ring peer expiresAt), .member ring' peer', v =>
    ring = ring' ∧ peer = peer' ∧ v = some expiresAt
  | .registry (.removePeerFromRing ring peer), .member ring' peer', v => ring = ring' ∧ peer = peer' ∧ v = none
  | .registry (.addRingToResource res ring perms), .association res' ring', v =>
    res = res' ∧ ring = ring' ∧ v = some perms
  | .registry (.removeRingFromResource res), .association res' _, v => res = res' ∧ v = none
  | .grants (.insert privilege peer), .grant privilege' peer', v => privilege = privilege' ∧ peer = peer' ∧ v = true
  | .grants (.remove privilege peer), .grant privilege' peer', v => privilege = privilege' ∧ peer = peer' ∧ v = false
  | .peers (.insert peer nickname), .peer peer', v => peer = peer' ∧ v = some nickname
  | .peers (.remove peer), .peer peer', v => peer = peer' ∧ v = none
  | .store (.setTag key value), .tag key', v => key = key' ∧ v = some value
  | .store (.deleteTag key), .tag key', v => key = key' ∧ v = none
  | _, _, _ => False

def Rewritten (c : Call) (s s' : NodeState) : Prop := ∀ k, s'.cell k = s.cell k ∨ c.Writes k (s'.cell k)

section Registry

variable {c : Call} {s : NodeState} {r' : Registry}

theorem cell_of_registry (hrings : ∀ name, r'.rings.contains name = s.registry.rings.contains name ∨
      c.Writes (.ring name) (r'.rings.contains name))
    (hmembers : ∀ ring peer, (r'.members ring)[peer]? = (s.registry.members ring)[peer]? ∨
      c.Writes (.member ring peer) (r'.members ring)[peer]?)
    (hassociations : ∀ res ring, (r'.associations res)[ring]? = (s.registry.associations res)[ring]? ∨
      c.Writes (.association res ring) (r'.associations res)[ring]?) :
    Rewritten c s { s with registry := r' } := by
  intro k
  cases k with
  | ring name => exact hrings name
  | member ring peer => exact hmembers ring peer
  | association res ring => exact hassociations res ring
  | grant privilege peer => exact .inl rfl
  | peer peer => exact .inl rfl
  | tag key => exact .inl rfl

theorem rewritten_self (c : Call) (s : NodeState) : Rewritten c s s := fun _ ↦ .inl rfl

theorem rewritten_createRing {name : String} (h : s.registry.createRing name = .ok r') :
    Rewritten (.registry (.createRing name)) s { s with registry := r' } := by
  unfold Registry.createRing at h
  split_ifs at h with haccepts hname
  obtain rfl := Except.ok.inj h
  refine cell_of_registry (fun name' ↦ ?_) (fun ring peer ↦ .inl ?_) (fun res ring ↦ .inl rfl)
  · change (s.registry.rings.insert name ∅).contains name' = _ ∨ _
    by_cases hsame : name = name'
    · subst hsame
      exact .inr ⟨rfl, ExtTreeMap.contains_insert_self⟩
    · refine .inl ?_
      rw [ExtTreeMap.contains_insert]
      have hne : compare name name' ≠ .eq := fun hc ↦ hsame (LawfulEqOrd.eq_of_compare hc)
      simp [hne]
  · rw [Registry.members_setMembers]
    split
    · rename_i hring
      subst hring
      rw [Registry.members, ExtTreeMap.getD_eq_fallback hname]
    · rfl

theorem contains_setMembers {r : Registry} {ring : String} {ms : Members} (h : ring ∈ r.rings) (name : String) :
    (r.setMembers ring ms).rings.contains name = r.rings.contains name := by
  change (r.rings.insert ring ms).contains name = _
  rw [ExtTreeMap.contains_insert]
  by_cases hsame : ring = name
  · subst hsame
    simp [ExtTreeMap.mem_iff_contains.mp h]
  · have hne : compare ring name ≠ .eq := fun hc ↦ hsame (LawfulEqOrd.eq_of_compare hc)
    simp [hne]

theorem rewritten_addPeerToRing {ring : String} {peer : EndpointId} {expiresAt : Option SystemTime}
    (h : s.registry.addPeerToRing s.clock ring peer expiresAt = .ok r') :
    Rewritten (.registry (.addPeerToRing ring peer expiresAt)) s { s with registry := r' } := by
  unfold Registry.addPeerToRing at h
  split at h
  · rename_i hring
    obtain rfl := Except.ok.inj h
    refine cell_of_registry (fun name ↦ .inl (contains_setMembers hring name)) (fun ring' peer' ↦ ?_)
      (fun res ring' ↦ .inl rfl)
    rw [Registry.members_setMembers]
    split
    · rename_i hsame
      subst hsame
      rw [ExtTreeMap.getElem?_insert]
      split
      · rename_i hpeer
        obtain rfl := LawfulEqOrd.eq_of_compare hpeer
        cases expiresAt with
        | some t => exact .inr ⟨rfl, rfl, rfl⟩
        | none =>
          cases hrow : (s.registry.members ring)[peer]? with
          | none => exact .inr ⟨rfl, rfl, rfl⟩
          | some expiry =>
            -- a live member keeps its expiry, one that has expired gets none
            rw [Option.filter_some]
            by_cases hlive : live s.clock expiry = true
            · rw [if_pos hlive]
              exact .inl rfl
            · rw [if_neg hlive]
              exact .inr ⟨rfl, rfl, rfl⟩
      · exact .inl rfl
    · exact .inl rfl
  · cases h

theorem rewritten_removePeerFromRing {ring : String} {peer : EndpointId}
    (h : s.registry.removePeerFromRing ring peer = .ok r') :
    Rewritten (.registry (.removePeerFromRing ring peer)) s { s with registry := r' } := by
  unfold Registry.removePeerFromRing at h
  split_ifs at h with hring
  obtain rfl := Except.ok.inj h
  refine cell_of_registry (fun name ↦ .inl (contains_setMembers hring name)) (fun ring' peer' ↦ ?_)
    (fun res ring' ↦ .inl rfl)
  rw [Registry.members_setMembers]
  split
  · rename_i hsame
    subst hsame
    rw [ExtTreeMap.getElem?_erase]
    split
    · rename_i hc
      exact .inr ⟨rfl, LawfulEqOrd.eq_of_compare hc, rfl⟩
    · exact .inl rfl
  · exact .inl rfl

theorem rewritten_addRingToResource {res : Hash} {ring : String} {perms : List Permission}
    (h : s.registry.addRingToResource res ring perms = .ok r') :
    Rewritten (.registry (.addRingToResource res ring perms)) s { s with registry := r' } := by
  obtain ⟨hfits, rfl⟩ := Registry.addRingToResource_ok h
  refine cell_of_registry (fun name ↦ .inl rfl) (fun ring' peer ↦ .inl rfl) (fun res' ring' ↦ ?_)
  rw [Registry.associations_setAssociations]
  split
  · rename_i hsame
    subst hsame
    rw [ExtTreeMap.getElem?_insert]
    split
    · rename_i hc
      exact .inr ⟨rfl, LawfulEqOrd.eq_of_compare hc, rfl⟩
    · exact .inl rfl
  · exact .inl rfl

theorem rewritten_removeRingFromResource (res : Hash) :
    Rewritten (.registry (.removeRingFromResource res)) s
      { s with registry := s.registry.removeRingFromResource res } := by
  refine cell_of_registry (fun name ↦ .inl rfl) (fun ring' peer ↦ .inl rfl) (fun res' ring' ↦ ?_)
  rw [Registry.removeRingFromResource, Registry.associations_setAssociations]
  split
  · rename_i hsame
    exact .inr ⟨hsame, by simp⟩
  · exact .inl rfl

end Registry

section Stores

variable {c : Call} {s s' : NodeState}

theorem cell_of_sameTables (h : SameTables s s') (k : Cell) : s'.cell k = s.cell k := by
  cases k <;> simp only [NodeState.cell, h.registry, h.localStore, h.tags]

theorem exec_removePeer (peer : EndpointId) (s : NodeState) : (exec (.peers (.remove peer)) s).2 = s ∨
    (exec (.peers (.remove peer)) s).2 =
      { s with localStore := { s.localStore with peers := s.localStore.peers.erase peer } } := by
  by_cases hpeer : peer ∈ s.localStore.peers
  · exact .inr (by simp [exec, PeersCall.exec, LocalStore.removePeer, hpeer])
  · exact .inl (by simp [exec, PeersCall.exec, LocalStore.removePeer, hpeer])

theorem rewritten_insertPeer (peer : EndpointId) (nickname : String) :
    Rewritten (.peers (.insert peer nickname)) s { s with localStore := s.localStore.insertPeer peer nickname } := by
  intro k
  cases k with
  | peer peer' =>
    change (s.localStore.peers.insert peer nickname)[peer']? = _ ∨
      peer = peer' ∧ (s.localStore.peers.insert peer nickname)[peer']? = some nickname
    rw [ExtTreeMap.getElem?_insert]
    split
    · rename_i hc
      exact .inr ⟨LawfulEqOrd.eq_of_compare hc, rfl⟩
    · exact .inl rfl
  | _ => exact .inl rfl

theorem rewritten_removePeer (peer : EndpointId) :
    Rewritten (.peers (.remove peer)) s (exec (.peers (.remove peer)) s).2 := by
  rcases exec_removePeer peer s with hsame | herased
  · rw [hsame]
    exact rewritten_self _ s
  · rw [herased]
    intro k
    cases k with
    | peer peer' =>
      change (s.localStore.peers.erase peer)[peer']? = _ ∨ peer = peer' ∧ (s.localStore.peers.erase peer)[peer']? = none
      rw [ExtTreeMap.getElem?_erase]
      split
      · rename_i hc
        exact .inr ⟨LawfulEqOrd.eq_of_compare hc, rfl⟩
      · exact .inl rfl
    | _ => exact .inl rfl

theorem rewritten_insertGrant (privilege : Privilege) (peer : EndpointId) :
    Rewritten (.grants (.insert privilege peer)) s { s with localStore := s.localStore.insertGrant privilege peer } := by
  intro k
  cases k with
  | grant privilege' peer' =>
    change (s.localStore.insertGrant privilege peer).hasGrant privilege' peer' = s.localStore.hasGrant privilege' peer' ∨
      privilege = privilege' ∧ peer = peer' ∧ (s.localStore.insertGrant privilege peer).hasGrant privilege' peer' = true
    rw [LocalStore.hasGrant_insertGrant]
    by_cases hsame : privilege = privilege' ∧ peer = peer'
    · exact .inr ⟨hsame.1, hsame.2, by simp [hsame]⟩
    · refine .inl ?_
      have hpair : (decide (privilege = privilege') && decide (peer = peer')) = false := by simpa using hsame
      rw [hpair, Bool.false_or]
  | _ => exact .inl rfl

theorem rewritten_removeGrant (privilege : Privilege) (peer : EndpointId) :
    Rewritten (.grants (.remove privilege peer)) s { s with localStore := s.localStore.removeGrant privilege peer } := by
  intro k
  cases k with
  | grant privilege' peer' =>
    change (s.localStore.removeGrant privilege peer).hasGrant privilege' peer' = s.localStore.hasGrant privilege' peer' ∨
      privilege = privilege' ∧ peer = peer' ∧ (s.localStore.removeGrant privilege peer).hasGrant privilege' peer' = false
    rw [LocalStore.hasGrant_removeGrant]
    by_cases hsame : privilege = privilege' ∧ peer = peer'
    · exact .inr ⟨hsame.1, hsame.2, by simp [hsame]⟩
    · refine .inl ?_
      have hpair : (decide (privilege = privilege') && decide (peer = peer')) = false := by simpa using hsame
      rw [hpair, Bool.not_false, Bool.true_and]
  | _ => exact .inl rfl

theorem rewritten_setTag (key : Bytes) (value : HashAndFormat) :
    Rewritten (.store (.setTag key value)) s { s with store := s.store.setTag key value } := by
  intro k
  cases k with
  | tag key' =>
    change (s.store.setTag key value).tags[key']? = _ ∨
      key = key' ∧ (s.store.setTag key value).tags[key']? = some value
    rw [BlobStore.getElem?_setTag]
    split
    · rename_i hsame
      exact .inr ⟨hsame, rfl⟩
    · exact .inl rfl
  | _ => exact .inl rfl

theorem rewritten_deleteTag (key : Bytes) :
    Rewritten (.store (.deleteTag key)) s { s with store := s.store.deleteTag key } := by
  intro k
  cases k with
  | tag key' =>
    change (s.store.deleteTag key).tags[key']? = _ ∨ key = key' ∧ (s.store.deleteTag key).tags[key']? = none
    rw [BlobStore.getElem?_deleteTag]
    split
    · rename_i hsame
      exact .inr ⟨hsame, rfl⟩
    · exact .inl rfl
  | _ => exact .inl rfl

theorem rewritten_answers {a : c.Ans} (h : Answers c s a s') : Rewritten c s s' := by
  by_cases hviews : c.Views
  · exact fun k ↦ .inl (cell_of_sameTables (sameTables_answers hviews h) k)
  cases h with
  | exec =>
    cases c with
    | registry c =>
      cases c with
      | createRing name =>
        simp only [exec, RegistryCall.exec]
        split
        · rename_i r' hr
          exact rewritten_createRing hr
        · exact rewritten_self _ s
      | addPeerToRing ring peer expiresAt =>
        simp only [exec, RegistryCall.exec]
        split
        · rename_i r' hr
          exact rewritten_addPeerToRing hr
        · exact rewritten_self _ s
      | removePeerFromRing ring peer =>
        simp only [exec, RegistryCall.exec]
        split
        · rename_i r' hr
          exact rewritten_removePeerFromRing hr
        · exact rewritten_self _ s
      | addRingToResource res ring perms =>
        simp only [exec, RegistryCall.exec]
        split
        · rename_i r' hr
          exact rewritten_addRingToResource hr
        · exact rewritten_self _ s
      | removeRingFromResource res => exact rewritten_removeRingFromResource res
      | _ => exact absurd trivial hviews
    | peers c =>
      cases c with
      | insert peer nickname => exact rewritten_insertPeer peer nickname
      | remove peer => exact rewritten_removePeer peer
      | _ => exact absurd trivial hviews
    | grants c =>
      cases c with
      | insert privilege peer => exact rewritten_insertGrant privilege peer
      | remove privilege peer => exact rewritten_removeGrant privilege peer
      | _ => exact absurd trivial hviews
    | store c =>
      cases c with
      | setTag key value => exact rewritten_setTag key value
      | deleteTag key => exact rewritten_deleteTag key
      | exportBlob hash target =>
        simp only [exec, StoreCall.exec]
        split
        · exact rewritten_self _ s
        · exact fun k ↦ .inl (cell_of_sameTables ⟨rfl, rfl, rfl, rfl⟩ k)
      | _ => exact absurd trivial hviews
    | fs c => exact fun k ↦ .inl (cell_of_sameTables ⟨rfl, rfl, rfl, rfl⟩ k)
    | _ => exact absurd trivial hviews
  | refused => exact rewritten_self c s
  | brokenListing => exact rewritten_self _ s
  | connected => exact rewritten_self _ s
  | received => exact rewritten_self _ s
  | decoded => exact absurd trivial hviews

end Stores

end Ringdrop
