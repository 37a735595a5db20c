import Ringdrop.Core.NodeCalls
import Ringdrop.Library.Serial

namespace Ringdrop

open Library Program Std

def Call.associated : Call → Option Hash
  | .registry (.addRingToResource res _ _) => some res
  | .registry (.removeRingFromResource res) => some res
  | .registry (.listResourceRings res) => some res
  | _ => none

/-- Two calls that do not get in each other's way: additions that agree on the permissions of
a ring, readings, and calls about different blobs. -/
def Call.Compatible : Call → Call → Prop
  | .registry (.listResourceRings _), .registry (.listResourceRings _) => True
  | .registry (.addRingToResource res ring perms), .registry (.addRingToResource res' ring' perms') =>
    res = res' → ring = ring' → perms = perms'
  | c, d => ∀ res ∈ c.associated, ∀ res' ∈ d.associated, res ≠ res'

namespace Registry

/-- The registry as the calls on associations know it; other calls do not concern it. -/
def onAssociations : (c : Call) → Registry → c.Ans → Registry → Prop
  | .registry (.addRingToResource res ring perms), r, a, r' =>
    RegistryCall.exec 0 (.addRingToResource res ring perms) r = (a, r')
  | .registry (.removeRingFromResource res), r, a, r' =>
    RegistryCall.exec 0 (.removeRingFromResource res) r = (a, r')
  | .registry (.listResourceRings res), r, a, r' => RegistryCall.exec 0 (.listResourceRings res) r = (a, r')
  | _, r, _, r' => r' = r

theorem onAssociations_silent (c : Call) (r : Registry) (a : c.Ans) (r' : Registry) (hc : ¬ c.associated.isSome) :
    onAssociations c r a r' ↔ r' = r := by
  cases c with
  | registry c => cases c <;> first | exact Iff.rfl | exact absurd rfl hc
  | _ => exact Iff.rfl

theorem eq_of_resources {r r' : Registry} (haccepts : r.accepts = r'.accepts) (hrings : r.rings = r'.rings)
    (h : ∀ res : Hash, r.resources[res]? = r'.resources[res]?) : r = r' := by
  obtain ⟨accepts, rings, resources, _, _⟩ := r
  obtain ⟨accepts', rings', resources', _, _⟩ := r'
  obtain rfl : accepts = accepts' := haccepts
  obtain rfl : rings = rings' := hrings
  obtain rfl : resources = resources' := ExtTreeMap.ext_getElem? h
  rfl

/-- `r'` is `r` with `assoc` in place as the associations of `res`. -/
structure Writes (res : Hash) (assoc : Associations) (r r' : Registry) : Prop where
  accepts : r'.accepts = r.accepts
  rings : r'.rings = r.rings
  resources : ∀ other : Hash, r'.resources[other]? = if res = other then some assoc else r.resources[other]?

theorem writes_setAssociations (r : Registry) (res : Hash) (assoc : Associations) (h : Admitted r.rings assoc) :
    Writes res assoc r (r.setAssociations res assoc h) := by
  refine ⟨rfl, rfl, fun other ↦ ?_⟩
  change (r.resources.insert res assoc)[other]? = _
  rw [ExtTreeMap.getElem?_insert]
  by_cases hr : res = other
  · simp [hr]
  · simp [hr]

theorem Writes.associations {res : Hash} {assoc : Associations} {r r' : Registry} (h : Writes res assoc r r')
    (other : Hash) : r'.associations other = if res = other then assoc else r.associations other := by
  unfold Registry.associations
  rw [ExtTreeMap.getD_eq_getD_getElem?, ExtTreeMap.getD_eq_getD_getElem?, h.resources]
  split_ifs <;> rfl

theorem Writes.comm {res res' : Hash} {assoc assoc' : Associations} {r r₁ r₂ r₁' r₂' : Registry} (hne : res ≠ res')
    (h₁ : Writes res assoc r r₁) (h₂ : Writes res' assoc' r₁ r₂) (h₁' : Writes res' assoc' r r₁')
    (h₂' : Writes res assoc r₁' r₂') : r₂ = r₂' := by
  refine eq_of_resources ?_ ?_ fun other ↦ ?_
  · rw [h₂.accepts, h₁.accepts, h₂'.accepts, h₁'.accepts]
  · rw [h₂.rings, h₁.rings, h₂'.rings, h₁'.rings]
  · rw [h₂.resources, h₁.resources, h₂'.resources, h₁'.resources]
    by_cases hother : res = other
    · rw [if_pos hother, if_pos hother, if_neg (fun h ↦ hne (hother.trans h.symm))]
    · rw [if_neg hother, if_neg hother]

theorem Writes.trans {res : Hash} {assoc assoc' : Associations} {r r₁ r₂ : Registry} (h₁ : Writes res assoc r r₁)
    (h₂ : Writes res assoc' r₁ r₂) : Writes res assoc' r r₂ := by
  refine ⟨h₂.accepts.trans h₁.accepts, h₂.rings.trans h₁.rings, fun other ↦ ?_⟩
  rw [h₂.resources, h₁.resources]
  split_ifs <;> rfl

theorem Writes.unique {res : Hash} {assoc : Associations} {r r₁ r₂ : Registry} (h₁ : Writes res assoc r r₁)
    (h₂ : Writes res assoc r r₂) : r₁ = r₂ :=
  eq_of_resources (h₁.accepts.trans h₂.accepts.symm) (h₁.rings.trans h₂.rings.symm)
    fun other ↦ by rw [h₁.resources, h₂.resources]

theorem commutes_of_exec {c d : RegistryCall} (hc : (Call.registry c).associated.isSome)
    (hd : (Call.registry d).associated.isSome) (a : (Call.registry c).Ans) (b : (Call.registry d).Ans)
    (h : ∀ r, (d.exec 0 (c.exec 0 r).2).1 = (d.exec 0 r).1 ∧ (c.exec 0 (d.exec 0 r).2).1 = (c.exec 0 r).1 ∧
      (d.exec 0 (c.exec 0 r).2).2 = (c.exec 0 (d.exec 0 r).2).2) :
    Commutes onAssociations ⟨.registry c, a⟩ ⟨.registry d, b⟩ := by
  have hiff : ∀ {c : RegistryCall} {a : (Call.registry c).Ans} {r r' : Registry}, (Call.registry c).associated.isSome →
      (onAssociations (.registry c) r a r' ↔ c.exec 0 r = (a, r')) := by
    intro c a r r' hc
    cases c <;> first | exact Iff.rfl | cases hc
  have hpair : ∀ {c d : RegistryCall} {a : (Call.registry c).Ans} {b : (Call.registry d).Ans} {r r' : Registry},
      (Call.registry c).associated.isSome → (Call.registry d).associated.isSome →
      (Replay onAssociations [⟨.registry c, a⟩, ⟨.registry d, b⟩] r r' ↔
        (c.exec 0 r).1 = a ∧ (d.exec 0 (c.exec 0 r).2).1 = b ∧ (d.exec 0 (c.exec 0 r).2).2 = r') := by
    intro c d a b r r' hc hd
    constructor
    · intro hreplay
      cases hreplay with
      | cons hfirst hrest =>
        have hfirst' := (hiff hc).mp hfirst
        have hsecond := (hiff hd).mp (replay_singleton.mp hrest)
        rw [hfirst']
        rw [hsecond]
        exact ⟨rfl, rfl, rfl⟩
    · rintro ⟨rfl, rfl, rfl⟩
      exact .cons ((hiff hc).mpr rfl) (replay_singleton.mpr ((hiff hd).mpr rfl))
  intro r r'
  obtain ⟨hd', hc', hstate⟩ := h r
  rw [hpair hc hd, hpair hd hc, hd', hc', hstate]
  tauto

theorem exec_add_taken {ring : String} {perms : List Permission} {r : Registry}
    (h : ring ∈ r.rings ∧ Carries ring perms) (res : Hash) :
    ∃ r', RegistryCall.exec 0 (.addRingToResource res ring perms) r = (.ok (), r') ∧
      Writes res ((r.associations res).insert ring perms) r r' := by
  refine ⟨_, ?_, writes_setAssociations r res _ (admitted_insert (r.admitted_associations res) h.1 h.2)⟩
  rw [RegistryCall.exec, addRingToResource_eq h.1 h.2]

theorem exec_add_refused {ring : String} {perms : List Permission} {r : Registry}
    (h : ¬ (ring ∈ r.rings ∧ Carries ring perms)) (res : Hash) : RegistryCall.exec 0 (.addRingToResource res ring perms) r =
      (.error (if ring ∈ r.rings then readOnly ring else unknownRing ring), r) := by
  rw [RegistryCall.exec, addRingToResource]
  by_cases hring : ring ∈ r.rings
  · rw [dif_pos hring, dif_neg fun hperms ↦ h ⟨hring, hperms⟩, if_pos hring]
  · rw [dif_neg hring, if_neg hring]

theorem exec_remove (r : Registry) (res : Hash) : ∃ r', RegistryCall.exec 0 (.removeRingFromResource res) r = (.ok (), r') ∧
    Writes res ∅ r r' := ⟨_, rfl, writes_setAssociations r res ∅ (admitted_empty r.rings)⟩

theorem onAssociations_add {res : Hash} {ring : String} {perms : List Permission} {r r' : Registry}
    {a : (Call.registry (.addRingToResource res ring perms)).Ans}
    (h : onAssociations (.registry (.addRingToResource res ring perms)) r a r') :
    r' = r ∨ Writes res ((r.associations res).insert ring perms) r r' := by
  have hexec : RegistryCall.exec 0 (.addRingToResource res ring perms) r = (a, r') := h
  by_cases hring : ring ∈ r.rings ∧ Carries ring perms
  · obtain ⟨r₁, he, hw⟩ := exec_add_taken hring res
    rw [he] at hexec
    cases hexec
    exact .inr hw
  · rw [exec_add_refused hring] at hexec
    cases hexec
    exact .inl rfl

theorem onAssociations_remove {res : Hash} {r r' : Registry} {a : (Call.registry (.removeRingFromResource res)).Ans}
    (h : onAssociations (.registry (.removeRingFromResource res)) r a r') : a = .ok () ∧ Writes res ∅ r r' := by
  have hexec : RegistryCall.exec 0 (.removeRingFromResource res) r = (a, r') := h
  obtain ⟨r₁, he, hw⟩ := exec_remove r res
  rw [he] at hexec
  cases hexec
  exact ⟨rfl, hw⟩

theorem onAssociations_list {res : Hash} {r r' : Registry} {a : (Call.registry (.listResourceRings res)).Ans}
    (h : onAssociations (.registry (.listResourceRings res)) r a r') : a = .ok (r.listResourceRings res) ∧ r' = r := by
  have hexec : RegistryCall.exec 0 (.listResourceRings res) r = (a, r') := h
  cases hexec
  exact ⟨rfl, rfl⟩

theorem notMem_of_onAssociations {c : Call} {r r' : Registry} {a : c.Ans} {res : Hash} {ring : String}
    (h : onAssociations c r a r') (hc : ∀ perms, c ≠ .registry (.addRingToResource res ring perms))
    (hr : ring ∉ r.associations res) : ring ∉ r'.associations res := by
  by_cases hshared : c.associated.isSome
  · cases c with
    | registry c =>
      cases c with
      | addRingToResource res' ring' perms =>
        rcases onAssociations_add h with rfl | hw
        · exact hr
        · rw [hw.associations]
          split_ifs with hres
          · subst hres
            rw [ExtTreeMap.mem_insert]
            rintro (hring | hmem)
            · obtain rfl := LawfulEqOrd.eq_of_compare hring
              exact hc perms rfl
            · exact hr hmem
          · exact hr
      | removeRingFromResource res' =>
        rw [(onAssociations_remove h).2.associations]
        split_ifs
        · simp
        · exact hr
      | listResourceRings res' => rwa [(onAssociations_list h).2]
      | _ => cases hshared
    | _ => cases hshared
  · rwa [(onAssociations_silent c r a r' hshared).mp h]

theorem insert_comm (assoc : Associations) {ring ring' : String} {perms perms' : List Permission}
    (h : ring = ring' → perms = perms') :
    (assoc.insert ring perms).insert ring' perms' = (assoc.insert ring' perms').insert ring perms := by
  apply ExtTreeMap.ext_getElem?
  intro other
  rw [ExtTreeMap.getElem?_insert, ExtTreeMap.getElem?_insert, ExtTreeMap.getElem?_insert, ExtTreeMap.getElem?_insert]
  simp only [LawfulEqOrd.compare_eq_iff_eq]
  by_cases hring : ring = other
  · by_cases hring' : ring' = other
    · simp [hring, hring', h (hring.trans hring'.symm)]
    · simp [hring, hring']
  · simp [hring]

theorem commutes_add_add {res res' : Hash} {ring ring' : String} {perms perms' : List Permission}
    (h : res = res' → ring = ring' → perms = perms')
    (a : (Call.registry (.addRingToResource res ring perms)).Ans)
    (b : (Call.registry (.addRingToResource res' ring' perms')).Ans) :
    Commutes onAssociations ⟨.registry (.addRingToResource res ring perms), a⟩
      ⟨.registry (.addRingToResource res' ring' perms'), b⟩ := by
  refine commutes_of_exec rfl rfl a b fun r ↦ ?_
  by_cases hring : ring ∈ r.rings ∧ Carries ring perms
  · obtain ⟨r₁, he₁, hw₁⟩ := exec_add_taken hring res
    by_cases hring' : ring' ∈ r.rings ∧ Carries ring' perms'
    · obtain ⟨r₁', he₁', hw₁'⟩ := exec_add_taken hring' res'
      obtain ⟨r₂, he₂, hw₂⟩ := exec_add_taken (hw₁.rings ▸ hring') res'
      obtain ⟨r₂', he₂', hw₂'⟩ := exec_add_taken (hw₁'.rings ▸ hring) res
      rw [he₁, he₁']
      dsimp only
      rw [he₂, he₂']
      refine ⟨rfl, rfl, ?_⟩
      rw [hw₁.associations] at hw₂
      rw [hw₁'.associations] at hw₂'
      by_cases hres : res = res'
      · subst hres
        rw [if_pos rfl] at hw₂ hw₂'
        rw [insert_comm _ (h rfl)] at hw₂
        exact (hw₁.trans hw₂).unique (hw₁'.trans hw₂')
      · rw [if_neg hres] at hw₂
        rw [if_neg (Ne.symm hres)] at hw₂'
        exact hw₁.comm hres hw₂ hw₁' hw₂'
    · rw [exec_add_refused hring', he₁]
      dsimp only
      rw [exec_add_refused (by rwa [hw₁.rings]), hw₁.rings]
      exact ⟨rfl, rfl, rfl⟩
  · rw [exec_add_refused hring]
    dsimp only
    by_cases hring' : ring' ∈ r.rings ∧ Carries ring' perms'
    · obtain ⟨r₁', he₁', hw₁'⟩ := exec_add_taken hring' res'
      rw [he₁']
      dsimp only
      rw [exec_add_refused (by rwa [hw₁'.rings]), hw₁'.rings]
      exact ⟨rfl, rfl, rfl⟩
    · rw [exec_add_refused hring']
      dsimp only
      rw [exec_add_refused hring]
      exact ⟨rfl, rfl, rfl⟩

theorem commutes_list_list (res res' : Hash) (a : (Call.registry (.listResourceRings res)).Ans)
    (b : (Call.registry (.listResourceRings res')).Ans) :
    Commutes onAssociations ⟨.registry (.listResourceRings res), a⟩ ⟨.registry (.listResourceRings res'), b⟩ :=
  commutes_of_exec rfl rfl a b fun _ ↦ ⟨rfl, rfl, rfl⟩

theorem commutes_remove_remove {res res' : Hash} (h : res ≠ res')
    (a : (Call.registry (.removeRingFromResource res)).Ans) (b : (Call.registry (.removeRingFromResource res')).Ans) :
    Commutes onAssociations ⟨.registry (.removeRingFromResource res), a⟩
      ⟨.registry (.removeRingFromResource res'), b⟩ := by
  refine commutes_of_exec rfl rfl a b fun r ↦ ⟨rfl, rfl, ?_⟩
  obtain ⟨r₁, he₁, hw₁⟩ := exec_remove r res
  obtain ⟨r₁', he₁', hw₁'⟩ := exec_remove r res'
  obtain ⟨r₂, he₂, hw₂⟩ := exec_remove r₁ res'
  obtain ⟨r₂', he₂', hw₂'⟩ := exec_remove r₁' res
  rw [he₁, he₁', he₂, he₂']
  exact hw₁.comm h hw₂ hw₁' hw₂'

theorem commutes_list_remove {res res' : Hash} (h : res ≠ res') (a : (Call.registry (.listResourceRings res)).Ans)
    (b : (Call.registry (.removeRingFromResource res')).Ans) :
    Commutes onAssociations ⟨.registry (.listResourceRings res), a⟩ ⟨.registry (.removeRingFromResource res'), b⟩ := by
  refine commutes_of_exec rfl rfl a b fun r ↦ ⟨rfl, ?_, rfl⟩
  obtain ⟨r₁, he₁, hw₁⟩ := exec_remove r res'
  rw [he₁]
  simp only [RegistryCall.exec, listResourceRings, hw₁.associations, if_neg (Ne.symm h)]

theorem commutes_list_add {res res' : Hash} {ring : String} {perms : List Permission} (h : res ≠ res')
    (a : (Call.registry (.listResourceRings res)).Ans) (b : (Call.registry (.addRingToResource res' ring perms)).Ans) :
    Commutes onAssociations ⟨.registry (.listResourceRings res), a⟩
      ⟨.registry (.addRingToResource res' ring perms), b⟩ := by
  refine commutes_of_exec rfl rfl a b fun r ↦ ⟨rfl, ?_, rfl⟩
  by_cases hring : ring ∈ r.rings ∧ Carries ring perms
  · obtain ⟨r₁, he₁, hw₁⟩ := exec_add_taken hring res'
    rw [he₁]
    simp only [RegistryCall.exec, listResourceRings, hw₁.associations, if_neg (Ne.symm h)]
  · rw [exec_add_refused hring]

theorem commutes_remove_add {res res' : Hash} {ring : String} {perms : List Permission} (h : res ≠ res')
    (a : (Call.registry (.removeRingFromResource res)).Ans)
    (b : (Call.registry (.addRingToResource res' ring perms)).Ans) :
    Commutes onAssociations ⟨.registry (.removeRingFromResource res), a⟩
      ⟨.registry (.addRingToResource res' ring perms), b⟩ := by
  refine commutes_of_exec rfl rfl a b fun r ↦ ?_
  obtain ⟨r₁, he₁, hw₁⟩ := exec_remove r res
  rw [he₁]
  dsimp only
  by_cases hring : ring ∈ r.rings ∧ Carries ring perms
  · obtain ⟨r₁', he₁', hw₁'⟩ := exec_add_taken hring res'
    obtain ⟨r₂, he₂, hw₂⟩ := exec_add_taken (hw₁.rings ▸ hring) res'
    obtain ⟨r₂', he₂', hw₂'⟩ := exec_remove r₁' res
    rw [he₁', he₂]
    dsimp only
    rw [he₂']
    refine ⟨rfl, rfl, ?_⟩
    rw [hw₁.associations, if_neg h] at hw₂
    exact hw₁.comm h hw₂ hw₁' hw₂'
  · rw [exec_add_refused hring, exec_add_refused (by rwa [hw₁.rings]), hw₁.rings]
    dsimp only
    rw [he₁]
    exact ⟨rfl, rfl, rfl⟩

theorem commutes_of_compatible {c d : Call} (h : c.Compatible d) (a : c.Ans) (b : d.Ans) :
    Commutes onAssociations ⟨c, a⟩ ⟨d, b⟩ := by
  by_cases hc : c.associated.isSome
  · by_cases hd : d.associated.isSome
    · cases c with
      | registry c =>
        cases d with
        | registry d =>
          cases c with
          | addRingToResource res ring perms =>
            cases d with
            | addRingToResource res' ring' perms' => exact commutes_add_add h a b
            | removeRingFromResource res' => exact (commutes_remove_add (Ne.symm (h _ rfl _ rfl)) b a).symm
            | listResourceRings res' => exact (commutes_list_add (Ne.symm (h _ rfl _ rfl)) b a).symm
            | _ => cases hd
          | removeRingFromResource res =>
            cases d with
            | addRingToResource res' ring' perms' => exact commutes_remove_add (h _ rfl _ rfl) a b
            | removeRingFromResource res' => exact commutes_remove_remove (h _ rfl _ rfl) a b
            | listResourceRings res' => exact (commutes_list_remove (Ne.symm (h _ rfl _ rfl)) b a).symm
            | _ => cases hd
          | listResourceRings res =>
            cases d with
            | addRingToResource res' ring' perms' => exact commutes_list_add (h _ rfl _ rfl) a b
            | removeRingFromResource res' => exact commutes_list_remove (h _ rfl _ rfl) a b
            | listResourceRings res' => exact commutes_list_list _ _ a b
            | _ => cases hd
          | _ => cases hc
        | _ => cases hd
      | _ => cases hc
    · exact Pool.commutes_silent onAssociations_silent hd ⟨c, a⟩
  · exact (Pool.commutes_silent onAssociations_silent hc ⟨d, b⟩).symm

end Registry

end Ringdrop
