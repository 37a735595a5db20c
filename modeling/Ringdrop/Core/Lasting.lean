import Ringdrop.Core.Cells
import Ringdrop.Library.Within

namespace Ringdrop

open Library Program Std

def Call.Leaves : Call → NodeState → Prop
  | .registry (.createRing name), s => s.cell (.ring name) = true
  | .registry (.addPeerToRing ring peer expiresAt), s =>
    ∃ e, s.cell (.member ring peer) = some e ∧ ∀ t, expiresAt = some t → e = some t
  | .registry (.removePeerFromRing ring peer), s => s.cell (.member ring peer) = none
  | .registry (.addRingToResource res ring perms), s => s.cell (.association res ring) = some perms
  | .registry (.removeRingFromResource res), s => ∀ ring, s.cell (.association res ring) = none
  | .grants (.insert privilege peer), s => s.cell (.grant privilege peer) = true
  | .grants (.remove privilege peer), s => s.cell (.grant privilege peer) = false
  | .peers (.insert peer nickname), s => s.cell (.peer peer) = some nickname
  | .peers (.remove peer), s => s.cell (.peer peer) = none
  | _, _ => True

section Calls

variable {s s' : NodeState}

theorem leaves_registry {c : RegistryCall} {v : c.Reply} (h : Answers (.registry c) s (.ok v) s') :
    (Call.registry c).Leaves s' := by
  rcases answers_registry h with ⟨ha, rfl⟩ | ⟨⟨e, he⟩, -⟩
  · cases c with
    | createRing name =>
      change ((RegistryCall.createRing name).exec s.clock s.registry).2.rings.contains name = true
      unfold RegistryCall.exec at ha ⊢
      dsimp only at ha ⊢
      split at ha
      · rename_i r' hr
        unfold Registry.createRing at hr
        split_ifs at hr
        obtain rfl := Except.ok.inj hr
        exact ExtTreeMap.contains_insert_self
      · cases ha
    | addPeerToRing ring peer expiresAt =>
      change ∃ e, (((RegistryCall.addPeerToRing ring peer expiresAt).exec s.clock s.registry).2.members ring)[peer]? =
        some e ∧ _
      unfold RegistryCall.exec at ha ⊢
      dsimp only at ha ⊢
      split at ha
      · rename_i r' hr
        unfold Registry.addPeerToRing at hr
        split at hr
        · obtain rfl := Except.ok.inj hr
          dsimp only
          rw [Registry.members_setMembers, if_pos rfl, ExtTreeMap.getElem?_insert_self]
          exact ⟨_, rfl, fun t ht ↦ by rw [ht]; rfl⟩
        · cases hr
      · cases ha
    | removePeerFromRing ring peer =>
      change (((RegistryCall.removePeerFromRing ring peer).exec s.clock s.registry).2.members ring)[peer]? = none
      unfold RegistryCall.exec at ha ⊢
      dsimp only at ha ⊢
      split at ha
      · rename_i r' hr
        unfold Registry.removePeerFromRing at hr
        split_ifs at hr
        obtain rfl := Except.ok.inj hr
        dsimp only
        rw [Registry.members_setMembers, if_pos rfl, ExtTreeMap.getElem?_erase_self]
      · cases ha
    | addRingToResource res ring perms =>
      change (((RegistryCall.addRingToResource res ring perms).exec s.clock s.registry).2.associations res)[ring]? =
        some perms
      unfold RegistryCall.exec at ha ⊢
      dsimp only at ha ⊢
      split at ha
      · rename_i r' hr
        obtain ⟨hfits, rfl⟩ := Registry.addRingToResource_ok hr
        dsimp only
        rw [Registry.associations_setAssociations, if_pos rfl, ExtTreeMap.getElem?_insert_self]
      · cases ha
    | removeRingFromResource res =>
      intro ring
      change ((s.registry.removeRingFromResource res).associations res)[ring]? = none
      rw [Registry.removeRingFromResource, Registry.associations_setAssociations, if_pos rfl]
      exact ExtTreeMap.getElem?_empty
    | _ => trivial
  · cases he

theorem answers_grants {c : GrantsCall} {a : Except Error c.Reply} (h : Answers (.grants c) s a s') :
    (a = (c.exec s.localStore).1 ∧ s' = { s with localStore := (c.exec s.localStore).2 }) ∨
      ((∃ e, a = .error e) ∧ s' = s) := by
  cases h with
  | exec => exact .inl ⟨rfl, rfl⟩
  | refused s e h => exact .inr ⟨⟨e, (Option.some.inj h).symm⟩, rfl⟩

theorem answers_peers {c : PeersCall} {a : Except Error c.Reply} (h : Answers (.peers c) s a s') :
    (a = (c.exec s.localStore).1 ∧ s' = { s with localStore := (c.exec s.localStore).2 }) ∨
      ((∃ e, a = .error e) ∧ s' = s) := by
  cases h with
  | exec => exact .inl ⟨rfl, rfl⟩
  | refused s e h => exact .inr ⟨⟨e, (Option.some.inj h).symm⟩, rfl⟩

theorem leaves_grants {c : GrantsCall} {v : c.Reply} (h : Answers (.grants c) s (.ok v) s') :
    (Call.grants c).Leaves s' := by
  rcases answers_grants h with ⟨-, rfl⟩ | ⟨⟨e, he⟩, -⟩
  · cases c with
    | insert privilege peer =>
      change (s.localStore.insertGrant privilege peer).hasGrant privilege peer = true
      simp [LocalStore.hasGrant_insertGrant]
    | remove privilege peer =>
      change (s.localStore.removeGrant privilege peer).hasGrant privilege peer = false
      simp [LocalStore.hasGrant_removeGrant]
    | _ => trivial
  · cases he

theorem leaves_peers {c : PeersCall} {v : c.Reply} (h : Answers (.peers c) s (.ok v) s') : (Call.peers c).Leaves s' := by
  rcases answers_peers h with ⟨ha, rfl⟩ | ⟨⟨e, he⟩, -⟩
  · cases c with
    | insert peer nickname =>
      change (s.localStore.peers.insert peer nickname)[peer]? = some nickname
      exact ExtTreeMap.getElem?_insert_self
    | remove peer =>
      change (((PeersCall.remove peer).exec s.localStore).2.peers)[peer]? = none
      unfold PeersCall.exec LocalStore.removePeer at ha ⊢
      dsimp only at ha ⊢
      split at ha
      · rename_i store hstore
        split at hstore
        · obtain rfl := Except.ok.inj hstore
          exact ExtTreeMap.getElem?_erase_self
        · cases hstore
      · cases ha
    | _ => trivial
  · cases he

end Calls

/-- From a moment in which the state is `s` until one in which it is `x` time has not run
back, and an entry is the same as before unless something `other` has been written. -/
structure Since (x : NodeState) (other : (k : Cell) → k.Val → Prop) (s : NodeState) : Prop where
  clock : s.clock ≤ x.clock
  kept : ∀ k, x.cell k = s.cell k ∨ other k (x.cell k)

/-- The entry is in the end as it should be, or something else has been written. -/
def Settled (x : NodeState) (other : (k : Cell) → k.Val → Prop) (k : Cell) (Q : k.Val → Prop) : Prop :=
  Q (x.cell k) ∨ other k (x.cell k)

/-- What a call is told, and what it does, at some moment before the end. -/
def Lasting (x : NodeState) (other : (k : Cell) → k.Val → Prop) (c : Call) (a : c.Ans) : Prop :=
  ∃ s s', Answers c s a s' ∧ Since x other s ∧ Since x other s'

section Settled

variable {x s : NodeState} {other : (k : Cell) → k.Val → Prop} {k : Cell} {Q Q' : k.Val → Prop}

theorem Settled.mono (h : Settled x other k Q) (hQ : ∀ v, Q v → Q' v) : Settled x other k Q' := h.imp_left (hQ _)

theorem Since.settled (h : Since x other s) (hQ : Q (s.cell k)) : Settled x other k Q := by
  rcases h.kept k with hsame | hother
  · exact .inl (hsame ▸ hQ)
  · exact .inr hother

theorem within_registry {c : RegistryCall} {Q : c.Reply → Prop}
    (hQ : ∀ s s' v, Since x other s → Since x other s' → .ok v = (c.exec s.clock s.registry).1 →
      (Call.registry c).Leaves s' → Q v) : (registry c).Within (Lasting x other) (fun _ ↦ True) Q := by
  refine within_asking trivial fun a v ha hv ↦ ?_
  obtain rfl : a = .ok v := hv
  obtain ⟨s, s', hanswers, hs, hs'⟩ := ha
  rcases answers_registry hanswers with ⟨hv, -⟩ | ⟨⟨e, he⟩, -⟩
  · exact hQ s s' v hs hs' hv (leaves_registry hanswers)
  · cases he

theorem within_grants {c : GrantsCall} {Q : c.Reply → Prop}
    (hQ : ∀ s s' v, Since x other s → Since x other s' → .ok v = (c.exec s.localStore).1 →
      (Call.grants c).Leaves s' → Q v) : (grants c).Within (Lasting x other) (fun _ ↦ True) Q := by
  refine within_asking trivial fun a v ha hv ↦ ?_
  obtain rfl : a = .ok v := hv
  obtain ⟨s, s', hanswers, hs, hs'⟩ := ha
  rcases answers_grants hanswers with ⟨hv, -⟩ | ⟨⟨e, he⟩, -⟩
  · exact hQ s s' v hs hs' hv (leaves_grants hanswers)
  · cases he

theorem within_peers {c : PeersCall} {Q : c.Reply → Prop}
    (hQ : ∀ s s' v, Since x other s → Since x other s' → .ok v = (c.exec s.localStore).1 →
      (Call.peers c).Leaves s' → Q v) : (peers c).Within (Lasting x other) (fun _ ↦ True) Q := by
  refine within_asking trivial fun a v ha hv ↦ ?_
  obtain rfl : a = .ok v := hv
  obtain ⟨s, s', hanswers, hs, hs'⟩ := ha
  rcases answers_peers hanswers with ⟨hv, -⟩ | ⟨⟨e, he⟩, -⟩
  · exact hQ s s' v hs hs' hv (leaves_peers hanswers)
  · cases he

end Settled

end Ringdrop
