import Ringdrop.Core.AssociationCalls
import Ringdrop.Daemon.Detachment
import Ringdrop.Daemon.HandlerCalls

namespace Ringdrop

open Library Program Std

namespace Handlers

inductive SharingRequest
  | «import» (path : Path) (rings : List String) («open» : Bool)
  | blobAttach (target : String) (rings : List String) («open» : Bool)
  | blobDetach (target : String) (rings : List String) («open» all : Bool)

def SharingRequest.op : SharingRequest → Op
  | «import» path rings «open» => .import path rings «open»
  | blobAttach target rings «open» => .blobAttach target rings «open»
  | blobDetach target rings «open» all => .blobDetach target rings «open» all

def SharingRequest.Attaches : SharingRequest → String → Prop
  | «import» _ rings «open», ring => ring ∈ namedRings rings «open»
  | blobAttach _ rings «open», ring => ring ∈ rings ∨ («open» = true ∧ ring = openRingName)
  | blobDetach _ _ _ _, _ => False

abbrev SharingRequests (ι : Type) := Pool ι NodeState Error Call Call.Ans Unit

section Calls

def OffRegistry : Call → Prop
  | .registry _ => False
  | _ => True

theorem offRegistry_of_pins (c : Call) (h : c.Pins) : OffRegistry c := by
  cases c with
  | registry c => exact h.elim
  | _ => trivial

theorem offRegistry_of_looks (c : Call) (h : c.Looks) : OffRegistry c := by
  cases c with
  | registry c => exact h.elim
  | _ => trivial

variable {P : Call → Prop} (hplain : ∀ c : Call, OffRegistry c → P c)
include hplain

omit hplain in
theorem uses_registry_on {c : RegistryCall} (h : P (.registry c)) : (registry c).Uses P :=
  uses_asking (.registry c) id h

theorem uses_send_off (e : Event) : (send e).Uses P := uses_ask (hplain (.send e) trivial)

theorem uses_sendLines_off (reqId : Uuid) (lines : List String) : (sendLines reqId lines).Uses P :=
  Uses.forM (fun _ ↦ uses_send_off hplain _) lines

theorem uses_attachTo_off {hash : Hash} {ring : String} (reqId : Uuid) (said : String)
    (h : P (.registry (.addRingToResource hash ring [.read]))) : (attachTo reqId hash said ring).Uses P :=
  (uses_registry_on h).bind fun _ ↦ uses_send_off hplain _

theorem uses_reportRings_off {hash : Hash} (reqId : Uuid) (h : P (.registry (.listResourceRings hash))) :
    (reportRings reqId hash).Uses P := by
  refine (uses_registry_on h).bind fun existing ↦ ?_
  split
  · exact uses_sendLines_off hplain reqId _
  · exact (uses_send_off hplain _).bind fun _ ↦ Uses.forM (fun _ ↦ uses_send_off hplain _) _

theorem uses_handleImport_off (env : Env) (reqId : Uuid) (path : Path) {rings : List String} {«open» : Bool}
    (hlist : ∀ hash, P (.registry (.listResourceRings hash)))
    (hadd : ∀ hash, ∀ ring ∈ namedRings rings «open», P (.registry (.addRingToResource hash ring [.read]))) :
    (handleImport env reqId path rings «open»).Uses P := by
  refine (Node.uses_importPath (fun c h ↦ hplain c (offRegistry_of_pins c h))
    (fun c h ↦ hplain c (offRegistry_of_looks c h)) env path).bind fun imported ↦ ?_
  have hreport : ∀ hash format, (do
      let ticket ← Node.makeTicket hash format (Node.leafName path)
      let ticketStr ← Program.ofExcept (ShareTicket.toUri env ticket)
      sendLines reqId (ticketLines ticketStr)
      send (.record reqId (importRecord hash format (Node.leafName path) ticketStr))
      send (.done reqId) : Action Unit).Uses P := by
    intro hash format
    refine Uses.bind ((uses_ask (hplain .endpointAddr trivial)).bind fun _ ↦ trivial) fun ticket ↦ ?_
    refine (uses_ofExcept _).bind fun ticketStr ↦ ?_
    refine (uses_sendLines_off hplain reqId _).bind fun _ ↦ ?_
    exact (uses_send_off hplain _).bind fun _ ↦ uses_send_off hplain _
  dsimp only
  change ∀ hash, ∀ ring ∈ (if «open» = true then [openRingName] else rings), _ at hadd
  generalize (if «open» = true then [openRingName] else rings) = effectiveRings at hadd ⊢
  split
  · exact (uses_reportRings_off hplain reqId (hlist _)).bind fun _ ↦ hreport ..
  · refine Uses.bind ?_ fun _ ↦ hreport ..
    exact Uses.forM_mem fun ring hring ↦ uses_attachTo_off hplain reqId _ (hadd _ ring hring)

theorem uses_handleAttach_off (env : Env) (reqId : Uuid) (target : String) {rings : List String} {«open» : Bool}
    (hadd : ∀ hash, ∀ ring, ring ∈ rings ∨ («open» = true ∧ ring = openRingName) →
      P (.registry (.addRingToResource hash ring [.read]))) :
    (handleAttach env reqId target rings «open»).Uses P := by
  unfold handleAttach
  split
  · trivial
  · refine (uses_resolveTarget (fun c h ↦ hplain c (offRegistry_of_pins c h))
      (fun c h ↦ hplain c (offRegistry_of_looks c h)) env target).bind fun hash ↦ ?_
    refine Uses.bind ?_ fun _ ↦ ?_
    · exact Uses.forM_mem fun ring hring ↦ uses_attachTo_off hplain reqId _ (hadd hash ring (.inl hring))
    · split
      · rename_i hopen
        refine (uses_attachTo_off hplain reqId _ (hadd hash _ (.inr ⟨hopen, rfl⟩))).bind fun _ ↦ ?_
        exact uses_send_off hplain _
      · exact uses_send_off hplain _

theorem uses_detachSelected_off {hash : Hash} (reqId : Uuid) (toRemove : List String)
    (hlist : P (.registry (.listResourceRings hash))) (hremove : P (.registry (.removeRingFromResource hash)))
    (hadd : ∀ ring perms, P (.registry (.addRingToResource hash ring perms))) :
    (detachSelected reqId hash toRemove).Uses P := by
  refine (uses_registry_on hlist).bind fun current ↦ ?_
  dsimp only
  split
  · trivial
  · refine (uses_registry_on hremove).bind fun _ ↦ ?_
    refine (Uses.forM (fun _ ↦ uses_registry_on (hadd _ _)) _).bind fun _ ↦ ?_
    exact (uses_sendLines_off hplain reqId _).bind fun _ ↦ uses_send_off hplain _

theorem uses_handleDetach_off (env : Env) (reqId : Uuid) (target : String) (rings : List String) («open» all : Bool)
    (hlist : ∀ hash, P (.registry (.listResourceRings hash)))
    (hremove : ∀ hash, P (.registry (.removeRingFromResource hash)))
    (hadd : ∀ hash ring perms, P (.registry (.addRingToResource hash ring perms))) :
    (handleDetach env reqId target rings «open» all).Uses P := by
  refine (uses_resolveTarget (fun c h ↦ hplain c (offRegistry_of_pins c h))
    (fun c h ↦ hplain c (offRegistry_of_looks c h)) env target).bind fun hash ↦ ?_
  cases all with
  | true =>
    refine (uses_registry_on (hremove hash)).bind fun _ ↦ ?_
    exact (uses_send_off hplain _).bind fun _ ↦ uses_send_off hplain _
  | false => exact uses_detachSelected_off hplain reqId _ (hlist hash) (hremove hash) (hadd hash)

end Calls

section Associations

def OnlyAssociations : Call → Prop
  | .registry c => (Call.registry c).associated.isSome
  | _ => True

theorem registry_of_onlyAssociations {c : Call} {a : c.Ans} {s s' : NodeState} (hc : OnlyAssociations c)
    (h : graph exec c s a s') : Registry.onAssociations c s.registry a s'.registry := by
  have ha : (exec c s).1 = a := congrArg Prod.fst h
  have hs : (exec c s).2 = s' := congrArg Prod.snd h
  subst ha hs
  cases c with
  | registry c => cases c <;> first | rfl | cases hc
  | store c =>
    cases c <;> first | rfl | skip
    all_goals simp only [exec, StoreCall.exec, Registry.onAssociations]; split <;> rfl
  | net c => cases c <;> rfl
  | _ => rfl

theorem uses_handleOp_only (env : Env) (defaultReceiveDir : Option Path) (reqId : Uuid) (r : SharingRequest) :
    (Server.handleOp env defaultReceiveDir reqId r.op).Uses OnlyAssociations := by
  have hplain : ∀ c, OffRegistry c → OnlyAssociations c := by
    intro c h
    cases c with
    | registry c => exact h.elim
    | _ => trivial
  cases r with
  | «import» path rings «open» =>
    exact uses_handleImport_off hplain env reqId path (fun _ ↦ rfl) (fun _ _ _ ↦ rfl)
  | blobAttach target rings «open» => exact uses_handleAttach_off hplain env reqId target (fun _ _ _ ↦ rfl)
  | blobDetach target rings «open» all =>
    exact uses_handleDetach_off hplain env reqId target rings «open» all (fun _ ↦ rfl) (fun _ ↦ rfl) (fun _ _ _ ↦ rfl)

end Associations

section Detached

def detachedLine (all : Bool) (res : Hash) (ring : String) : String :=
  if all then s!"Detached {res} from all rings" else s!"Detached {res} from ring '{ring}'"

def Announced (log : Trace Call.Ans) (e : Event) : Prop := .send e ∈ log.map Sigma.fst

/-- The client has been told that the blob is detached from the ring. -/
def SharingRequest.ToldDetached : SharingRequest → Uuid → Trace Call.Ans → Hash → String → Prop
  | blobDetach _ _ _ all, reqId, log, res, ring => Announced log (.line reqId (detachedLine all res ring))
  | _, _, _, _, _ => False

theorem announced_concat {log : Trace Call.Ans} {c : Call} {a : c.Ans} {e : Event} :
    Announced (log ++ [⟨c, a⟩]) e ↔ Announced log e ∨ c = .send e := by
  unfold Announced
  rw [List.map_append, List.mem_append]
  simp [eq_comm]

theorem not_announced_concat {log : Trace Call.Ans} {c : Call} {a : c.Ans} (h : ∀ e, ¬ Announced log e)
    (hc : ∀ e, c ≠ .send e) (e : Event) : ¬ Announced (log ++ [⟨c, a⟩]) e := by
  rw [announced_concat]
  rintro (hbefore | hcall)
  · exact h e hbefore
  · exact hc e hcall

theorem line_inj {reqId : Uuid} {text text' : String} (h : Call.send (.line reqId text) = .send (.line reqId text')) :
    text = text' := by
  injection h with h
  injection h with _ h
  injection h

theorem detachedLine_inj {all : Bool} {res res' : Hash} {ring ring' : String}
    (h : detachedLine all res ring = detachedLine all res' ring') : res = res' ∧ (all = true ∨ ring = ring') := by
  cases all with
  | true =>
    have htext : toString res ++ toString " from all rings" = toString res' ++ toString " from all rings" := by
      simpa [detachedLine, String.append_assoc] using h
    exact ⟨(append_hash_inj htext).1, .inl rfl⟩
  | false =>
    have htext : toString res ++ (toString " from ring '" ++ (toString ring ++ toString "'")) =
        toString res' ++ (toString " from ring '" ++ (toString ring' ++ toString "'")) := by
      simpa [detachedLine, String.append_assoc] using h
    obtain ⟨hres, hrest⟩ := append_hash_inj htext
    have hring : toString ring = toString ring' := by simpa using hrest
    exact ⟨hres, .inr hring⟩

variable {reqId : Uuid} {res hash : Hash} {ring : String} {t : Registry} {x : Registry × Trace Call.Ans}

/-- A ring the blob is not in stays so, and so does one the client is told it is detached from. -/
structure Leaves (told : Trace Call.Ans → Prop) (res : Hash) (ring : String) (t : Registry)
    (y : Registry × Trace Call.Ans) : Prop where
  kept : ring ∉ t.associations res → ring ∉ y.1.associations res
  told : told y.2 → ring ∉ y.1.associations res

theorem wp_detachAll_leaves (hx : x.1 = t) (hquiet : ∀ e, ¬ Announced x.2 e) :
    (detachAll reqId hash).wp (logged Registry.onAssociations)
      (fun _ ↦ Leaves (Announced · (.line reqId (detachedLine true res ring))) res ring t)
      (fun _ ↦ Leaves (Announced · (.line reqId (detachedLine true res ring))) res ring t) x := by
  unfold detachAll
  rw [wp_bind, wp_registry]
  rintro a y ⟨hremove, hlog⟩
  obtain ⟨rfl, hw⟩ := Registry.onAssociations_remove hremove
  rw [outcome_ok, wp_bind, wp_send]
  rintro _ z ⟨hz, hlog'⟩
  rw [wp_send]
  rintro _ z' ⟨hz', hlog''⟩
  have hregistry : z'.1 = y.1 := Eq.trans hz' hz
  refine ⟨fun hnot ↦ ?_, fun hsaid ↦ ?_⟩
  · rw [hregistry, hw.associations]
    split_ifs
    · simp
    · rwa [hx]
  · rw [hlog'', announced_concat, hlog', announced_concat, hlog, announced_concat] at hsaid
    rcases hsaid with ((hbefore | hcall) | hcall) | hcall
    · exact absurd hbefore (hquiet _)
    · cases hcall
    · have hline : detachedLine true hash ring = detachedLine true res ring := line_inj hcall
      obtain ⟨rfl, -⟩ := detachedLine_inj hline
      rw [hregistry, hw.associations, if_pos rfl]
      simp
    · cases hcall

theorem wp_detachSelected_leaves {named : List String} (hx : x.1 = t) (hquiet : ∀ e, ¬ Announced x.2 e) :
    (detachSelected reqId hash named).wp (logged Registry.onAssociations)
      (fun _ ↦ Leaves (Announced · (.line reqId (detachedLine false res ring))) res ring t)
      (fun _ ↦ Leaves (Announced · (.line reqId (detachedLine false res ring))) res ring t) x := by
  unfold detachSelected
  rw [wp_bind, wp_registry]
  rintro a y ⟨hlist, hlog⟩
  obtain ⟨rfl, hy⟩ := Registry.onAssociations_list hlist
  have hquiet' : ∀ e, ¬ Announced y.2 e := hlog ▸ not_announced_concat hquiet (by simp)
  rw [outcome_ok]
  dsimp only
  split
  · refine ⟨fun hnot ↦ ?_, fun hsaid ↦ absurd hsaid (hquiet' _)⟩
    rwa [hy, hx]
  · rw [wp_bind, wp_registry]
    rintro a z ⟨hremove, hlog'⟩
    obtain ⟨rfl, hw⟩ := Registry.onAssociations_remove hremove
    rw [outcome_ok, wp_bind]
    -- what is written back was there before and is not named
    have hgone : ∀ r ∈ (x.1.listResourceRings hash).filter (fun r ↦ !named.contains r.1.name),
        r.1.name ∉ named ∧ r.1.name ∈ t.associations hash := by
      intro r hr
      obtain ⟨hlisted, hout⟩ := List.mem_filter.mp hr
      refine ⟨by simpa using hout, ?_⟩
      rw [ExtTreeMap.mem_iff_isSome_getElem?, ← hx, Registry.mem_listResourceRings.mp hlisted]
      rfl
    have hcleared : ring ∉ t.associations res ∨ (hash = res ∧ ring ∈ named) → ring ∉ z.1.associations res := by
      intro hcond
      rw [hw.associations]
      split_ifs with hres
      · simp
      · rw [hy, hx]
        exact hcond.resolve_right fun h ↦ hres h.1
    have hunsaid : ∀ e, ¬ Announced z.2 e := hlog' ▸ not_announced_concat hquiet' (by simp)
    refine wp_forM (I := fun rest z ↦ (∀ r ∈ rest, r.1.name ∉ named ∧ r.1.name ∈ t.associations hash) ∧
      (ring ∉ t.associations res ∨ (hash = res ∧ ring ∈ named) → ring ∉ z.1.associations res) ∧
      ∀ e, ¬ Announced z.2 e) ?_ ?_ ⟨hgone, hcleared, hunsaid⟩
    · rintro r rest z ⟨hrest, hcond, hunsaid⟩
      obtain ⟨hout, hin⟩ := hrest r (by simp)
      rw [wp_registry]
      rintro a w ⟨hadd, hlog⟩
      have hunsaid' : ∀ e, ¬ Announced w.2 e := hlog ▸ not_announced_concat hunsaid (by simp)
      have hcond' : ring ∉ t.associations res ∨ (hash = res ∧ ring ∈ named) → ring ∉ w.1.associations res := by
        intro h
        refine Registry.notMem_of_onAssociations hadd (fun perms hcall ↦ ?_) (hcond h)
        cases hcall
        rcases h with hnot | ⟨-, hnamed⟩
        · exact hnot hin
        · exact hout hnamed
      cases a with
      | ok v => exact ⟨fun r' hr' ↦ hrest r' (by simp [hr']), hcond', hunsaid'⟩
      | error e => exact ⟨fun hnot ↦ hcond' (.inl hnot), fun hsaid ↦ absurd hsaid (hunsaid' _)⟩
    · rintro z ⟨-, hcond, hunsaid⟩
      rw [wp_bind]
      refine wp_forM (I := fun rest w ↦ (∀ line ∈ rest, ∃ name ∈ named, line = detachedLine false hash name) ∧
        w.1 = z.1 ∧ (Announced w.2 (.line reqId (detachedLine false res ring)) → hash = res ∧ ring ∈ named)) ?_ ?_
        ⟨?_, rfl, fun hsaid ↦ absurd hsaid (hunsaid _)⟩
      · rintro line rest w ⟨hlines, hw, htold⟩
        rw [wp_send]
        rintro _ w' ⟨hw', hlog⟩
        refine ⟨fun line' hline' ↦ hlines line' (by simp [hline']), Eq.trans hw' hw, fun hsaid ↦ ?_⟩
        rw [hlog, announced_concat] at hsaid
        rcases hsaid with hbefore | hcall
        · exact htold hbefore
        · obtain ⟨name, hname, rfl⟩ := hlines line (by simp)
          obtain ⟨hres, hring⟩ := detachedLine_inj (line_inj hcall)
          obtain rfl := hring.resolve_left (by simp)
          exact ⟨hres, hname⟩
      · rintro w ⟨-, hw, htold⟩
        rw [wp_send]
        rintro _ w' ⟨hw', hlog⟩
        have hregistry : w'.1 = z.1 := Eq.trans hw' hw
        refine ⟨fun hnot ↦ hregistry ▸ hcond (.inl hnot), fun hsaid ↦ hregistry ▸ hcond (.inr (htold ?_))⟩
        rw [hlog, announced_concat] at hsaid
        rcases hsaid with hbefore | hcall
        · exact hbefore
        · cases hcall
      · intro line hline
        obtain ⟨name, hname, rfl⟩ := List.mem_map.mp hline
        exact ⟨name, (List.mem_filter.mp hname).1, rfl⟩

theorem wp_resolveTarget_off (env : Env) (target : String) :
    (resolveTarget env target).wp (logged Registry.onAssociations) (fun _ y ↦ y.1 = t ∧ ∀ e, ¬ Announced y.2 e)
      (fun _ y ↦ y.1 = t ∧ ∀ e, ¬ Announced y.2 e) (t, []) := by
  have huses : (resolveTarget env target).Uses fun c ↦ c.Pins ∨ c.Looks :=
    uses_resolveTarget (fun _ h ↦ .inl h) (fun _ h ↦ .inr h) env target
  refine huses.wp_invariant (I := fun y : Registry × Trace Call.Ans ↦ y.1 = t ∧ ∀ e, ¬ Announced y.2 e) ?_ ⟨rfl, ?_⟩
  · rintro c y a y' hc ⟨hy, hquiet⟩ ⟨hstep, hlog⟩
    have hsilent : ¬ c.associated.isSome ∧ ∀ e, c ≠ .send e := by
      cases c with
      | registry c => exact (hc.elim id id).elim
      | send e => exact (hc.elim id id).elim
      | _ => simp [Call.associated]
    refine ⟨((Registry.onAssociations_silent _ _ _ _ hsilent.1).mp hstep).trans hy, ?_⟩
    rw [hlog]
    exact not_announced_concat hquiet hsilent.2
  · intro e hsaid
    cases hsaid

theorem wp_handleOp_leaves (env : Env) (defaultReceiveDir : Option Path) (r : SharingRequest) (hr : ¬ r.Attaches ring) :
    (Server.handleOp env defaultReceiveDir reqId r.op).wp (logged Registry.onAssociations)
      (fun _ ↦ Leaves (r.ToldDetached reqId · res ring) res ring t)
      (fun _ ↦ Leaves (r.ToldDetached reqId · res ring) res ring t) (t, []) := by
  have hkeeps : ∀ {p : Action Unit}, p.Uses (fun c ↦ ∀ perms, c ≠ .registry (.addRingToResource res ring perms)) →
      p.wp (logged Registry.onAssociations) (fun _ ↦ Leaves (fun _ ↦ False) res ring t)
        (fun _ ↦ Leaves (fun _ ↦ False) res ring t) (t, []) := by
    intro p hp
    refine hp.wp_invariant (I := Leaves (fun _ ↦ False) res ring t) ?_ ⟨id, False.elim⟩
    rintro c y a y' hc hy ⟨hstep, -⟩
    exact ⟨fun hnot ↦ Registry.notMem_of_onAssociations hstep hc (hy.kept hnot), False.elim⟩
  have hplain : ∀ c, OffRegistry c → ∀ perms, c ≠ .registry (.addRingToResource res ring perms) := by
    rintro _ h perms rfl
    exact h
  cases r with
  | «import» path rings «open» =>
    refine hkeeps (uses_handleImport_off hplain env reqId path (fun _ _ ↦ by simp) fun hash ring' hring' perms ↦ ?_)
    rintro hcall
    cases hcall
    exact hr hring'
  | blobAttach target rings «open» =>
    refine hkeeps (uses_handleAttach_off hplain env reqId target fun hash ring' hring' perms ↦ ?_)
    rintro hcall
    cases hcall
    exact hr hring'
  | blobDetach target rings «open» all =>
    change (handleDetach env reqId target rings «open» all).wp _ _ _ _
    unfold handleDetach
    rw [wp_bind]
    refine wp_mono (wp_resolveTarget_off env target) ?_ ?_
    · rintro hash y ⟨hy, hquiet⟩
      cases all with
      | true => exact wp_detachAll_leaves hy hquiet
      | false => exact wp_detachSelected_leaves hy hquiet
    · rintro e y ⟨hy, hquiet⟩
      exact ⟨fun hnot ↦ hy ▸ hnot, fun hsaid ↦ absurd hsaid (hquiet _)⟩

end Detached

section Runs

variable {ι : Type}

def sharingRequests (env : Env) (defaultReceiveDir : Option Path) (reqId : ι → Uuid) (reqs : ι → SharingRequest)
    (s : NodeState) : SharingRequests ι :=
  Pool.start s fun i ↦ Server.handleOp env defaultReceiveDir (reqId i) (reqs i).op

/-- Whatever else happens, nobody else touches the registry. -/
def RegistryStays (s s' : NodeState) : Prop := s'.registry = s.registry

/-- The call does not get in the way of the calls of another request that is still to read or
write associations. -/
def Isolated (x : SharingRequests ι) (i : ι) (c : Call) : Prop :=
  ∀ j, j ≠ i → ¬ Pool.Through (fun c : Call ↦ c.associated.isSome = true) x j →
    ∀ e ∈ (x.threads j).log, Call.Compatible e.1 c

variable {env : Env} {defaultReceiveDir : Option Path} {reqId : ι → Uuid} {reqs : ι → SharingRequest}
  {s : NodeState} {x : SharingRequests ι}

theorem notMem_of_inTurn {logs : ι → Trace Call.Ans} {order : List ι} {t t' : Registry} {res : Hash} {ring : String}
    (h : Pool.InTurn Registry.onAssociations
      (fun i ↦ Server.handleOp env defaultReceiveDir (reqId i) (reqs i).op) logs order t t')
    (hnone : ∀ i ∈ order, ¬ (reqs i).Attaches ring)
    (ht : ring ∉ t.associations res ∨ ∃ i ∈ order, (reqs i).ToldDetached (reqId i) (logs i) res ring) :
    ring ∉ t'.associations res := by
  induction h with
  | nil => exact ht.resolve_right (by simp)
  | @cons i is t t₁ t₂ r hrun _ ih =>
    have hleaves : Leaves ((reqs i).ToldDetached (reqId i) · res ring) res ring t (t₁, logs i) := by
      have hnot : ¬ (reqs i).Attaches ring := hnone i (by simp)
      cases r with
      | ok v => exact hrun.ok_of_wp (wp_handleOp_leaves env defaultReceiveDir (reqs i) hnot)
      | error e => exact hrun.error_of_wp (wp_handleOp_leaves env defaultReceiveDir (reqs i) hnot)
    refine ih (fun j hj ↦ hnone j (by simp [hj])) ?_
    rcases ht with hnot | ⟨j, hj, htold⟩
    · exact .inl (hleaves.kept hnot)
    · rcases List.mem_cons.mp hj with rfl | hrest
      · exact .inl (hleaves.told htold)
      · exact .inr ⟨j, hrest, htold⟩

variable [DecidableEq ι]

/-- In every interleaving of Import, BlobAttach and BlobDetach requests in which no request
gets in the way of another that is under way: once none is in progress, the associations are
those that the requests come to in some order, one after the other, and a ring that a client
has been told is detached is attached only if another request asked for it. -/
theorem sharing_in_turn
    (h : Pool.Reaches (graph exec) RegistryStays Isolated (sharingRequests env defaultReceiveDir reqId reqs s) x)
    (hidle : ∀ i, (x.threads i).log = [] ∨ ∀ c k, (x.threads i).prog ≠ .call c k) :
    (∃ order : List ι, order.Nodup ∧ (∀ i, i ∈ order ↔ (x.threads i).log ≠ []) ∧
      Pool.InTurn Registry.onAssociations
        (fun i ↦ Server.handleOp env defaultReceiveDir (reqId i) (reqs i).op)
        (fun i ↦ (x.threads i).log) order s.registry x.state.registry) ∧
    ∀ i res ring, (reqs i).ToldDetached (reqId i) (x.threads i).log res ring →
      ring ∈ x.state.registry.associations res →
      ∃ j, (x.threads j).log ≠ [] ∧ (reqs j).Attaches ring := by
  have hserial : ∃ order : List ι, order.Nodup ∧ (∀ i, i ∈ order ↔ (x.threads i).log ≠ []) ∧
      Pool.InTurn Registry.onAssociations (fun i ↦ Server.handleOp env defaultReceiveDir (reqId i) (reqs i).op)
        (fun i ↦ (x.threads i).log) order s.registry x.state.registry := by
    refine Pool.Reaches.inTurn Registry.onAssociations_silent ?_ (fun _ _ hstays ↦ hstays) ?_ h hidle
    · intro y i c k a s' hy hp ha
      have huses := (hy.hears i).uses (uses_handleOp_only env defaultReceiveDir (reqId i) (reqs i))
      rw [hp] at huses
      exact registry_of_onlyAssociations huses.1 ha
    · intro y i c a t hguard _ j hj hunfinished e he
      exact Registry.commutes_of_compatible (hguard j hj hunfinished e he) e.2 a
  refine ⟨hserial, ?_⟩
  obtain ⟨order, -, horder, hturn⟩ := hserial
  intro i res ring htold hmem
  by_contra hnone
  have hi : i ∈ order := by
    rw [horder]
    intro hlog
    rw [hlog] at htold
    cases hreq : reqs i with
    | blobDetach target rings «open» all =>
      rw [hreq] at htold
      cases htold
    | _ =>
      rw [hreq] at htold
      exact htold
  refine notMem_of_inTurn hturn (fun j hj hattaches ↦ ?_) (.inr ⟨i, hi, htold⟩) hmem
  exact hnone ⟨j, (horder j).mp hj, hattaches⟩

end Runs

section TwoRequests

def twoRings : NodeState :=
  { emptyNode with registry := (Registry.empty.setMembers "friends" ∅).setMembers "work" ∅ }

def sharedTwice : NodeState :=
  { twoRings with
    registry := (do
      let r ← twoRings.registry.addRingToResource (.fromByte 1) "friends" [.read]
      r.addRingToResource (.fromByte 1) "work" [.read]).toOption.getD .empty }

def attachEach : Bool → SharingRequest
  | false => .blobAttach (toString (Hash.fromByte 1)) ["friends"] false
  | true => .blobAttach (toString (Hash.fromByte 1)) ["work"] true

def detachEach : Bool → SharingRequest
  | false => .blobDetach (toString (Hash.fromByte 1)) ["friends"] false false
  | true => .blobDetach (toString (Hash.fromByte 1)) ["work"] false false

def sideBySide (reqs : Bool → SharingRequest) (s : NodeState) (order : List Bool) : SharingRequests Bool :=
  Pool.schedule exec order (sharingRequests (.plain []) none (fun _ ↦ .nil) reqs s)

def oneByOne (reqs : Bool → SharingRequest) (s : NodeState) (order : List Bool) : NodeState :=
  order.foldl (fun s i ↦ (run exec (Server.handleOp (.plain []) none .nil (reqs i).op) s).2) s

def onlyAdd : Call → Call → Bool
  | .registry (.addRingToResource _ _ perms), .registry (.addRingToResource _ _ perms') => perms = perms'
  | c, d => c.associated = none || d.associated = none

theorem compatible_of_onlyAdd {c d : Call} (h : onlyAdd c d = true) : c.Compatible d := by
  unfold onlyAdd at h
  split at h
  · exact fun _ _ ↦ of_decide_eq_true h
  · have hnone : c.associated = none ∨ d.associated = none := by simpa using h
    have hapart : ∀ res ∈ c.associated, ∀ res' ∈ d.associated, res ≠ res' := by
      intro res hres res' hres'
      rcases hnone with hc | hd
      · rw [hc] at hres
        cases hres
      · rw [hd] at hres'
        cases hres'
    unfold Call.Compatible
    split
    · trivial
    · simp [Call.associated] at hnone
    · exact hapart

def allAdd (x : SharingRequests Bool) (_ : Bool) (c : Call) : Bool :=
  [false, true].all fun j ↦ (x.threads j).log.all fun e ↦ onlyAdd e.1 c

theorem isolated_of_allAdd {x : SharingRequests Bool} {i : Bool} {c : Call} (h : allAdd x i c = true) :
    Isolated x i c := by
  intro j _ _ e he
  have hall : ∀ j : Bool, ∀ e ∈ (x.threads j).log, onlyAdd e.1 c = true := by simpa [allAdd] using h
  exact compatible_of_onlyAdd (hall j e he)

/-- Both requests find the blob, then their additions alternate. -/
def takingTurns : List Bool := [false, true, true, false, true, true, false, true, true, true, false]

/-- Both requests read the associations before either clears them. -/
def readFirst : List Bool := [false, false, true, true, false, false, true, true, false, false, true, true]

def tells (text : String) : Call → Bool
  | .send ⟨reqId, .line text'⟩ => reqId = .nil && text' = text
  | _ => false

theorem announced_of_tells {log : Trace Call.Ans} {text : String} (h : log.any (fun e ↦ tells text e.1) = true) :
    Announced log (.line .nil text) := by
  obtain ⟨⟨c, a⟩, he, htells⟩ := List.any_eq_true.mp h
  refine List.mem_map.mpr ⟨⟨c, a⟩, he, ?_⟩
  cases c with
  | send e =>
    obtain ⟨reqId, kind⟩ := e
    cases kind with
    | line text' =>
      obtain ⟨rfl, rfl⟩ : reqId = .nil ∧ text' = text := by simpa [tells] using htells
      rfl
    | _ => cases htells
  | _ => cases htells

theorem sharing_in_turn_attachEach :
    (∃ order : List Bool, order.Nodup ∧
      (∀ i, i ∈ order ↔ ((sideBySide attachEach twoRings takingTurns).threads i).log ≠ []) ∧
      Pool.InTurn Registry.onAssociations
        (fun i ↦ Server.handleOp (.plain []) none .nil (attachEach i).op)
        (fun i ↦ ((sideBySide attachEach twoRings takingTurns).threads i).log) order twoRings.registry
        (sideBySide attachEach twoRings takingTurns).state.registry) ∧
    ∀ i res ring,
      (attachEach i).ToldDetached .nil ((sideBySide attachEach twoRings takingTurns).threads i).log res ring →
      ring ∈ (sideBySide attachEach twoRings takingTurns).state.registry.associations res →
      ∃ j, ((sideBySide attachEach twoRings takingTurns).threads j).log ≠ [] ∧ (attachEach j).Attaches ring := by
  have hchecked : Pool.scheduleChecked exec allAdd takingTurns
      (sharingRequests (.plain []) none (fun _ ↦ .nil) attachEach twoRings) = true := by
    decide +kernel
  have hreached : Pool.Reaches (graph exec) RegistryStays Isolated
      (sharingRequests (.plain []) none (fun _ ↦ .nil) attachEach twoRings)
      (sideBySide attachEach twoRings takingTurns) :=
    (Pool.reaches_schedule _ _ hchecked).mono (fun _ _ _ _ h ↦ h) (fun _ _ _ ↦ isolated_of_allAdd)
  have hreturned : ∀ i : Bool, ((sideBySide attachEach twoRings takingTurns).threads i).prog.returned = true := by
    decide +kernel
  refine sharing_in_turn hreached fun i ↦ .inr fun c k hcall ↦ ?_
  have hi := hreturned i
  rw [hcall] at hi
  cases hi

/-- Two detach requests that both read before either writes: each brings back what the other
has taken away, whatever its client is told. -/
theorem sharing_out_of_turn : ∃ x : SharingRequests Bool,
    Pool.Reaches (graph exec) RegistryStays (fun _ _ _ ↦ True)
      (sharingRequests (.plain []) none (fun _ ↦ .nil) detachEach sharedTwice) x ∧
    (∀ i, (x.threads i).prog = .ret ()) ∧
    (detachEach false).ToldDetached .nil (x.threads false).log (.fromByte 1) "friends" ∧
    "friends" ∈ x.state.registry.associations (.fromByte 1) ∧ (∀ i ring, ¬ (detachEach i).Attaches ring) ∧
    (∀ order ∈ [[false, true], [true, false]],
      "friends" ∉ (oneByOne detachEach sharedTwice order).registry.associations (.fromByte 1)) := by
  have hchecked : Pool.scheduleChecked exec (fun _ _ _ ↦ true) readFirst
      (sharingRequests (.plain []) none (fun _ ↦ .nil) detachEach sharedTwice) = true := by
    decide +kernel
  have hreturned : ∀ i : Bool, ((sideBySide detachEach sharedTwice readFirst).threads i).prog.returned = true := by
    decide +kernel
  have hback : ((sideBySide detachEach sharedTwice readFirst).state.registry.associations (.fromByte 1))["friends"]? =
      some [.read] := by
    decide +kernel
  have hgone : ∀ order ∈ [[false, true], [true, false]],
      ((oneByOne detachEach sharedTwice order).registry.associations (.fromByte 1))["friends"]? = none := by
    decide +kernel
  have htold : ((sideBySide detachEach sharedTwice readFirst).threads false).log.any
      (fun e ↦ tells (detachedLine false (.fromByte 1) "friends") e.1) = true := by
    decide +kernel
  refine ⟨sideBySide detachEach sharedTwice readFirst, ?_, fun i ↦ eq_ret_of_returned (hreturned i), ?_, ?_, ?_, ?_⟩
  · exact (Pool.reaches_schedule _ _ hchecked).mono (fun _ _ _ _ h ↦ h) (fun _ _ _ _ ↦ trivial)
  · exact announced_of_tells htold
  · rw [ExtTreeMap.mem_iff_isSome_getElem?, hback]
    rfl
  · intro i ring h
    cases i <;> exact h
  · intro order horder hmem
    rw [ExtTreeMap.mem_iff_isSome_getElem?, hgone order horder] at hmem
    cases hmem

end TwoRequests

end Handlers

end Ringdrop
