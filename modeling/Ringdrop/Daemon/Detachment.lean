import Ringdrop.Daemon.Targets

namespace Ringdrop

open Library Program Std

namespace Registry

theorem exists_addRingToResource {r : Registry} {ring : String} {perms : List Permission} (h : ring ∈ r.rings)
    (hperms : Carries ring perms) (res : Hash) :
    ∃ r', r.addRingToResource res ring perms = .ok r' ∧ r'.rings = r.rings ∧
      r'.associations res = (r.associations res).insert ring perms ∧
      ∀ other, other ≠ res → r'.associations other = r.associations other := by
  refine ⟨_, addRingToResource_eq h hperms, rfl, ?_, ?_⟩
  · rw [associations_setAssociations, if_pos rfl]
  · intro other hne
    rw [associations_setAssociations, if_neg fun h ↦ hne h.symm]

theorem associations_removeRingFromResource (r : Registry) (res other : Hash) :
    (r.removeRingFromResource res).associations other = if res = other then ∅ else r.associations other :=
  associations_setAssociations r res other ∅ (admitted_empty r.rings)

/-- `r'` differs from `r` in that the blob has lost its associations with `named`. -/
structure Detached (named : String → Prop) (res : Hash) (r r' : Registry) : Prop where
  lost : ∀ ring, named ring → ring ∉ r'.associations res
  kept : ∀ ring, ¬ named ring → (r'.associations res)[ring]? = (r.associations res)[ring]?
  others : ∀ other, other ≠ res → r'.associations other = r.associations other

end Registry

namespace Handlers

/-- The rings a selective detach names. -/
def namedRings (rings : List String) («open» : Bool) : List String :=
  if «open» then [openRingName] else rings

theorem wp_sendLines_exec {reqId : Uuid} {lines : List String} {s : NodeState} :
    (sendLines reqId lines).wp (graph exec) (fun _ s' ↦ s' = s) (fun _ _ ↦ False) s := by
  refine wp_forM (I := fun _ s' ↦ s' = s) ?_ (fun _ h ↦ h) rfl
  intro line rest s' h
  rwa [wp_send_exec]

/-- While the associations that stay are written back: what is there was there before,
and what is missing is still to come. -/
structure Rewriting (named : List String) (res : Hash) (r : Registry) (rest : List (Ring × List Permission))
    (r' : Registry) : Prop where
  rings : r'.rings = r.rings
  others : ∀ other, other ≠ res → r'.associations other = r.associations other
  sound : ∀ ring perms, (r'.associations res)[ring]? = some perms →
    ring ∉ named ∧ (r.associations res)[ring]? = some perms
  complete : ∀ ring perms, ring ∉ named → (r.associations res)[ring]? = some perms →
    (r'.associations res)[ring]? = some perms ∨ (⟨ring⟩, perms) ∈ rest
  expected : ∀ a ∈ rest, a.1.name ∉ named ∧ (r.associations res)[a.1.name]? = some a.2

theorem Rewriting.step {named : List String} {res : Hash} {r r' : Registry} {a : Ring × List Permission}
    {rest : List (Ring × List Permission)} (h : Rewriting named res r (a :: rest) r') :
    ∃ r'', r'.addRingToResource res a.1.name a.2 = .ok r'' ∧ Rewriting named res r rest r'' := by
  obtain ⟨hnamed, hbefore⟩ := h.expected a (by simp)
  obtain ⟨hring, hperms⟩ := r.admitted_associations res a.1.name a.2 hbefore
  obtain ⟨r'', hadd, hrings, htarget, hothers⟩ :=
    Registry.exists_addRingToResource (h.rings ▸ hring) hperms res
  refine ⟨r'', hadd, hrings.trans h.rings, ?_, ?_, ?_, fun x hx ↦ h.expected x (by simp [hx])⟩
  · intro other hne
    rw [hothers other hne, h.others other hne]
  · intro ring perms hring
    rw [htarget, ExtTreeMap.getElem?_insert] at hring
    split at hring
    · rename_i hsame
      obtain rfl := LawfulEqOrd.eq_of_compare hsame
      obtain rfl := Option.some.inj hring
      exact ⟨hnamed, hbefore⟩
    · exact h.sound ring perms hring
  · intro ring perms hout hassoc
    rw [htarget, ExtTreeMap.getElem?_insert]
    split
    · rename_i hsame
      obtain rfl := LawfulEqOrd.eq_of_compare hsame
      exact .inl (hbefore.symm.trans hassoc)
    · rename_i hne
      rcases h.complete ring perms hout hassoc with hthere | hrest
      · exact .inl hthere
      · rcases List.mem_cons.mp hrest with hsame | hrest
        · subst hsame
          exact absurd ReflCmp.compare_self hne
        · exact .inr hrest

theorem Rewriting.detached {named : List String} {res : Hash} {r r' : Registry}
    (h : Rewriting named res r [] r') : r.Detached (· ∈ named) res r' where
  lost := by
    intro ring hring hmem
    rw [ExtTreeMap.mem_iff_isSome_getElem?] at hmem
    obtain ⟨perms, hperms⟩ := Option.isSome_iff_exists.mp hmem
    exact (h.sound ring perms hperms).1 hring
  kept := by
    intro ring hring
    cases hassoc : (r.associations res)[ring]? with
    | some perms =>
      rcases h.complete ring perms hring hassoc with hthere | hrest
      · exact hthere
      · simp at hrest
    | none =>
      cases hthere : (r'.associations res)[ring]? with
      | none => rfl
      | some perms =>
        have hbefore := (h.sound ring perms hthere).2
        rw [hassoc] at hbefore
        cases hbefore
  others := h.others

theorem rewriting_cleared (named : List String) (res : Hash) (r : Registry) :
    Rewriting named res r ((r.listResourceRings res).filter (fun a ↦ !named.contains a.1.name))
      (r.removeRingFromResource res) where
  rings := rfl
  others := by
    intro other hne
    rw [Registry.associations_removeRingFromResource, if_neg fun h ↦ hne h.symm]
  sound := by
    intro ring perms h
    rw [Registry.associations_removeRingFromResource, if_pos rfl] at h
    simp at h
  complete := by
    intro ring perms hout hassoc
    refine .inr (List.mem_filter.mpr ⟨Registry.mem_listResourceRings.mpr hassoc, ?_⟩)
    simpa using hout
  expected := by
    intro a ha
    obtain ⟨hlisted, hout⟩ := List.mem_filter.mp ha
    exact ⟨by simpa using hout, Registry.mem_listResourceRings.mp hlisted⟩

theorem mem_listResourceRings_name {r : Registry} {res : Hash} {name : String} :
    (r.listResourceRings res).any (fun a ↦ a.1.name == name) ↔ name ∈ r.associations res := by
  rw [List.any_eq_true, ExtTreeMap.mem_iff_isSome_getElem?, Option.isSome_iff_exists]
  constructor
  · intro ⟨a, ha, hname⟩
    obtain rfl := beq_iff_eq.mp hname
    exact ⟨a.2, Registry.mem_listResourceRings.mp ha⟩
  · intro ⟨perms, hperms⟩
    exact ⟨(⟨name⟩, perms), Registry.mem_listResourceRings.mpr hperms, by simp⟩

theorem wp_detachSelected {reqId : Uuid} {res : Hash} {named : List String} {s : NodeState} :
    (detachSelected reqId res named).wp (graph exec)
      (fun _ s' ↦ (∃ ring ∈ named, ring ∈ s.registry.associations res) ∧
        s.registry.Detached (· ∈ named) res s'.registry)
      (fun _ s' ↦ (∀ ring ∈ named, ring ∉ s.registry.associations res) ∧ s' = s) s := by
  have hremoved : ∀ ring, ring ∈ named.filter
      (fun name ↦ (s.registry.listResourceRings res).any (fun a ↦ a.1.name == name)) ↔
        ring ∈ named ∧ ring ∈ s.registry.associations res := by
    intro ring
    rw [List.mem_filter, mem_listResourceRings_name]
  unfold detachSelected
  rw [wp_bind, wp_registry_exec]
  simp only [RegistryCall.exec, outcome_ok]
  split
  · rename_i hnone
    refine ⟨fun ring hring hassoc ↦ ?_, rfl⟩
    have hmem := (hremoved ring).mpr ⟨hring, hassoc⟩
    rw [hnone] at hmem
    simp at hmem
  · rename_i hsome
    obtain ⟨ring, hring⟩ := List.exists_mem_of_ne_nil _ hsome
    rw [wp_bind, wp_registry_exec]
    simp only [RegistryCall.exec, outcome_ok]
    rw [wp_bind]
    refine wp_forM (I := fun rest s' ↦ Rewriting named res s.registry rest s'.registry) ?_ ?_
      (rewriting_cleared named res s.registry)
    · intro a rest s₁ h
      obtain ⟨r', hadd, hstep⟩ := h.step
      rw [wp_registry_exec]
      simp only [RegistryCall.exec, hadd, outcome_ok]
      exact hstep
    · intro s₁ h
      rw [wp_bind]
      refine wp_mono wp_sendLines_exec ?_ (fun _ _ hz ↦ hz.elim)
      rintro _ _ rfl
      rw [wp_send_exec]
      exact ⟨⟨ring, (hremoved ring).mp hring⟩, h.detached⟩

theorem wp_detachAll {reqId : Uuid} {res : Hash} {s : NodeState} :
    (detachAll reqId res).wp (graph exec)
      (fun _ s' ↦ s.registry.Detached (fun _ ↦ True) res s'.registry) (fun _ _ ↦ False) s := by
  unfold detachAll
  rw [wp_bind, wp_registry_exec]
  simp only [RegistryCall.exec, outcome_ok]
  rw [wp_bind, wp_send_exec, wp_send_exec]
  refine ⟨fun ring _ ↦ ?_, fun ring h ↦ absurd trivial h, fun other hne ↦ ?_⟩
  · rw [Registry.associations_removeRingFromResource, if_pos rfl]
    simp
  · rw [Registry.associations_removeRingFromResource, if_neg fun h ↦ hne h.symm]

/-- How a detach request ends: it fails exactly when it names nothing that is
associated, and otherwise takes away what it names. -/
structure DetachOutcome (named : List String) (all : Bool) (res : Hash) (s : NodeState) (r : Except Error Unit)
    (s' : NodeState) : Prop where
  fails_iff : (∃ e, r = .error e) ↔ all = false ∧ ∀ ring ∈ named, ring ∉ s.registry.associations res
  unchanged : (∃ e, r = .error e) → ∀ blob, s'.registry.associations blob = s.registry.associations blob
  detached : r = .ok () → s.registry.Detached (fun ring ↦ all = true ∨ ring ∈ named) res s'.registry

/-- A detach request, alone and with no call failing, whatever rings it names and
however often. -/
theorem detach_exact (env : Env) (defaultReceiveDir : Option Path) (reqId : Uuid) (target : String)
    (rings : List String) («open» all : Bool) (s : NodeState) (res : Hash)
    (hresolve : (run exec (resolveTarget env target) s).1 = .ok res) :
    DetachOutcome (namedRings rings «open») all res s
      (run exec (Server.handleOp env defaultReceiveDir reqId (.blobDetach target rings «open» all)) s).1
      (run exec (Server.handleOp env defaultReceiveDir reqId (.blobDetach target rings «open» all)) s).2 := by
  have hregistry := registry_resolveTarget env target s
  rcases hresolved : run exec (resolveTarget env target) s with ⟨r₀, s₁⟩
  rw [hresolved] at hresolve hregistry
  dsimp only at hresolve hregistry
  subst hresolve
  have hrun : run exec (Server.handleOp env defaultReceiveDir reqId (.blobDetach target rings «open» all)) s =
      run exec (if all then detachAll reqId res else detachSelected reqId res (namedRings rings «open»)) s₁ := by
    change run exec (handleDetach env reqId target rings «open» all) s = _
    unfold handleDetach
    rw [run_bind, hresolved]
    rfl
  rw [hrun]
  cases all with
  | true =>
    have hout := outcome_run (p := detachAll reqId res) (s := s₁) wp_detachAll
    rw [if_pos rfl]
    generalize run exec (detachAll reqId res) s₁ = x at hout ⊢
    obtain ⟨r, s₂⟩ := x
    rw [hregistry] at hout
    cases r with
    | error e => exact hout.elim
    | ok v => exact ⟨by simp, by simp, fun _ ↦ by simpa using hout⟩
  | false =>
    have hout := outcome_run (p := detachSelected reqId res (namedRings rings «open»)) (s := s₁)
      wp_detachSelected
    rw [if_neg (by simp)]
    generalize run exec (detachSelected reqId res (namedRings rings «open»)) s₁ = x at hout ⊢
    obtain ⟨r, s₂⟩ := x
    rw [hregistry] at hout
    cases r with
    | error e =>
      obtain ⟨hnone, hsame⟩ := hout
      have hreg : s₂.registry = s.registry := by rw [show s₂ = s₁ from hsame, hregistry]
      exact ⟨⟨fun _ ↦ ⟨rfl, hnone⟩, fun _ ↦ ⟨e, rfl⟩⟩, fun _ blob ↦ by rw [hreg], by simp⟩
    | ok v =>
      obtain ⟨⟨ring, hring, hassoc⟩, hdetached⟩ := hout
      refine ⟨⟨by simp, fun h ↦ absurd hassoc (h.2 ring hring)⟩, by simp, fun _ ↦ ?_⟩
      simpa using hdetached

def withShared : NodeState :=
  { emptyNode with
    registry := (do
      let r ← (Registry.empty.setMembers "friends" ∅).addRingToResource (.fromByte 1) "friends" [.read]
      r.addRingToResource (.fromByte 1) openRingName [.read]).toOption.getD .empty }

theorem detach_exact_friends :
    (withShared.registry.associations (.fromByte 1)).toList = [("friends", [.read]), ("open", [.read])] ∧
    DetachOutcome ["friends", "family", "friends"] false (.fromByte 1) withShared
      (run exec (Server.handleOp (.plain []) none .nil
        (.blobDetach (toString (Hash.fromByte 1)) ["friends", "family", "friends"] false false)) withShared).1
      (run exec (Server.handleOp (.plain []) none .nil
        (.blobDetach (toString (Hash.fromByte 1)) ["friends", "family", "friends"] false false)) withShared).2 :=
  ⟨by decide +kernel, detach_exact (.plain []) none .nil _ ["friends", "family", "friends"] false false withShared
    (.fromByte 1) (run_resolveTarget (targetTag_hash (by decide +kernel) (by decide +kernel))).1⟩

end Handlers

end Ringdrop
