import Ringdrop.Core.NodeCalls
import Ringdrop.Daemon.Detachment

namespace Ringdrop

open Library Program Std Node

namespace Registry

/-- `r'` differs from `r` in that the blob is associated with the rings of `named`, for
reading only. -/
structure Attached (named : List String) (res : Hash) (r r' : Registry) : Prop where
  granted : ∀ ring ∈ named, (r'.associations res)[ring]? = some [.read]
  kept : ∀ ring, ring ∉ named → (r'.associations res)[ring]? = (r.associations res)[ring]?
  others : ∀ other, other ≠ res → r'.associations other = r.associations other

variable {named : List String} {res : Hash} {r r' : Registry}

theorem Attached.of_same {r₀ : Registry} (h : Attached named res r r')
    (hsame : ∀ blob, r.associations blob = r₀.associations blob) : Attached named res r₀ r' where
  granted := h.granted
  kept ring hring := by rw [h.kept ring hring, hsame]
  others other hne := by rw [h.others other hne, hsame]

theorem attached_nil (h : ∀ blob, r'.associations blob = r.associations blob) (res : Hash) :
    Attached [] res r r' where
  granted := by simp
  kept ring _ := by rw [h res]
  others other _ := h other

theorem Attached.concat {ring : String} (h : Attached named res r r') (hring : ring ∈ r'.rings) :
    ∃ r'', r'.addRingToResource res ring [.read] = .ok r'' ∧ r''.rings = r'.rings ∧
      Attached (named ++ [ring]) res r r'' := by
  obtain ⟨r'', hadd, hrings, htarget, hothers⟩ := exists_addRingToResource hring (carries_read ring) res
  refine ⟨r'', hadd, hrings, fun other hother ↦ ?_, fun other hother ↦ ?_, fun other hne ↦ ?_⟩
  · rw [htarget, ExtTreeMap.getElem?_insert]
    split
    · rfl
    · rename_i hne
      rcases List.mem_append.mp hother with hbefore | hlast
      · exact h.granted other hbefore
      · rw [List.mem_singleton.mp hlast] at hne
        exact absurd ReflCmp.compare_self hne
  · rw [List.mem_append, not_or, List.mem_singleton] at hother
    rw [htarget, ExtTreeMap.getElem?_insert, if_neg fun heq ↦ hother.2 (LawfulEqOrd.eq_of_compare heq).symm]
    exact h.kept other hother.1
  · rw [hothers other hne, h.others other hne]

theorem Attached.same_iff (h : Attached named res r r') :
    (∀ blob, r'.associations blob = r.associations blob) ↔
      ∀ ring ∈ named, (r.associations res)[ring]? = some [.read] := by
  constructor
  · intro hsame ring hring
    rw [← hsame res]
    exact h.granted ring hring
  · intro hbefore blob
    by_cases hres : blob = res
    · subst hres
      refine ExtTreeMap.ext_getElem? fun ring ↦ ?_
      by_cases hring : ring ∈ named
      · rw [h.granted ring hring, hbefore ring hring]
      · exact h.kept ring hring
    · exact h.others blob hres

/-- Two ways to associate rings come to the same exactly when they name the same rings, but
for those that were associated before. -/
theorem Attached.same_as {named' : List String} {r'' : Registry} (h : Attached named res r r')
    (h' : Attached named' res r r'') :
    (∀ blob, r'.associations blob = r''.associations blob) ↔
      ∀ ring, (ring ∈ named ↔ ring ∈ named') ∨ (r.associations res)[ring]? = some [.read] := by
  constructor
  · intro hsame ring
    by_cases hin : ring ∈ named
    · by_cases hin' : ring ∈ named'
      · exact .inl (iff_of_true hin hin')
      · rw [← h'.kept ring hin', ← hsame res, h.granted ring hin]
        exact .inr rfl
    · by_cases hin' : ring ∈ named'
      · rw [← h.kept ring hin, hsame res, h'.granted ring hin']
        exact .inr rfl
      · exact .inl (iff_of_false hin hin')
  · intro hrings blob
    by_cases hblob : blob = res
    · subst hblob
      refine ExtTreeMap.ext_getElem? fun ring ↦ ?_
      by_cases hin : ring ∈ named
      · by_cases hin' : ring ∈ named'
        · rw [h.granted ring hin, h'.granted ring hin']
        · rcases hrings ring with hiff | hbefore
          · exact absurd (hiff.mp hin) hin'
          · rw [h.granted ring hin, h'.kept ring hin', hbefore]
      · by_cases hin' : ring ∈ named'
        · rcases hrings ring with hiff | hbefore
          · exact absurd (hiff.mpr hin') hin
          · rw [h.kept ring hin, h'.granted ring hin', hbefore]
        · rw [h.kept ring hin, h'.kept ring hin']
    · rw [h.others blob hblob, h'.others blob hblob]

end Registry

def Op.attaches : Op → Option (List String)
  | .import _ rings «open» => some (if «open» then [openRingName] else rings)
  | .blobAttach _ rings «open» => some (rings ++ if «open» then [openRingName] else [])
  | _ => none

def Op.blob (env : Env) (fs : FileSystem) : Op → Except Error Hash
  | .import path _ _ => (importedTag env fs path).map (fun tag ↦ tag.2.hash)
  | .blobAttach target _ _ => (Handlers.targetTag env fs target).map Prod.fst
  | _ => .error (.msg "no blob")

namespace Handlers

theorem wp_dispatch_attempt {R : (c : Call) → NodeState → c.Ans → NodeState → Prop} {s : NodeState}
    {env : Env} {defaultReceiveDir : Option Path} {reqId : Uuid} {op : Op} (hop : op ≠ .shutdown)
    {Q : Except Error Unit → NodeState → Prop}
    {Z : Error → NodeState → Prop} :
    (Server.dispatch env defaultReceiveDir reqId op).wp R Q Z s ↔
      (Server.handleOp env defaultReceiveDir reqId op).wp R (fun _ ↦ Q (.ok ()))
        (fun e ↦ (send (.error reqId (toString e))).wp R (fun _ ↦ Q (.error e)) Z) s := by
  cases op with
  | shutdown => exact absurd rfl hop
  | _ =>
    unfold Server.dispatch
    rw [wp_bind, wp_attempt]
    rfl

section Attaching

variable {R : (c : Call) → NodeState → c.Ans → NodeState → Prop}
  (hR : ∀ c s a s', R c s a s' → Answers c s a s') {s s₀ : NodeState} {res : Hash} {reqId : Uuid}
include hR

structure Attaching (done : List String) (res : Hash) (s₀ s : NodeState) : Prop where
  known : ∀ ring ∈ done, ring ∈ s₀.registry.rings
  rings : s.registry.rings = s₀.registry.rings
  fs : s.fs = s₀.fs
  attached : s₀.registry.Attached done res s.registry

omit hR in
theorem attaching_nil (h : s.registry = s₀.registry) (hfs : s.fs = s₀.fs) (res : Hash) :
    Attaching [] res s₀ s where
  known := by simp
  rings := by rw [h]
  fs := hfs
  attached := Registry.attached_nil (by simp [h]) res

/-- An association that fails leaves those before it, and has a ring that is unknown if
no call goes wrong. -/
theorem wp_attachTo {done : List String} (said ring : String) (h : Attaching done res s₀ s) :
    (attachTo reqId res said ring).wp R (fun _ s' ↦ Attaching (done ++ [ring]) res s₀ s')
      (fun _ s' ↦ Attaching done res s₀ s' ∧ (Faultless R → ring ∉ s₀.registry.rings)) s := by
  unfold attachTo
  rw [wp_bind, wp_registry]
  intro a s₁ h₁
  rcases answers_registry (hR _ _ _ _ h₁) with ⟨ha, hs⟩ | ⟨⟨e, ha⟩, hs⟩
  · simp only [RegistryCall.exec] at ha hs
    by_cases hring : ring ∈ s.registry.rings
    · obtain ⟨r', hadd, hrings, hattached⟩ := h.attached.concat hring
      rw [hadd] at ha hs
      subst ha hs
      rw [outcome_ok, wp_send]
      intro _ s₂ h₂
      have hsent : s₂ = { s with registry := r' } := by
        cases hR _ _ _ _ h₂ with
        | exec => rfl
        | refused s e hrefused => cases hrefused
      subst hsent
      refine ⟨fun x hx ↦ ?_, hrings.trans h.rings, h.fs, hattached⟩
      rcases List.mem_append.mp hx with hdone | hlast
      · exact h.known x hdone
      · rw [List.mem_singleton.mp hlast, ← h.rings]
        exact hring
    · rw [Registry.addRingToResource, dif_neg hring] at ha hs
      subst ha hs
      exact ⟨h, fun _ ↦ by rwa [h.rings] at hring⟩
  · subst ha hs
    refine ⟨h, fun hfaultless hring ↦ ?_⟩
    rw [← h.rings] at hring
    obtain ⟨r', hadd, -⟩ := h.attached.concat hring
    have hexec : (exec (.registry (.addRingToResource res ring [.read])) s₁).1 = .error e :=
      congrArg Prod.fst (hfaultless _ _ _ _ h₁)
    simp [exec, RegistryCall.exec, hadd] at hexec

/-- Of the rings in `named` those before some point are associated, when no call goes
wrong those before the first one that is unknown. -/
structure Stopped (R : (c : Call) → NodeState → c.Ans → NodeState → Prop) (named done : List String)
    (res : Hash) (s₀ s : NodeState) : Prop extends Attaching done res s₀ s where
  before : done <+: named
  first : Faultless R → done = named.takeWhile (· ∈ s₀.registry.rings)

omit hR in
theorem stopped_at {done : List String} {ring : String} (rest : List String) (h : Attaching done res s₀ s)
    (hring : Faultless R → ring ∉ s₀.registry.rings) : Stopped R (done ++ ring :: rest) done res s₀ s where
  toAttaching := h
  before := List.prefix_append _ _
  first := by
    intro hfaultless
    have hdone : ∀ x ∈ done, decide (x ∈ s₀.registry.rings) = true := by simpa using h.known
    rw [List.takeWhile_append_of_pos hdone, List.takeWhile_cons, if_neg (by simpa using hring hfaultless),
      List.append_nil]

omit hR in
theorem stopped_after {named : List String} (h : Attaching named res s₀ s) :
    Stopped R named named res s₀ s where
  toAttaching := h
  before := List.prefix_rfl
  first := by
    intro _
    rw [List.takeWhile_eq_self_iff.mpr]
    simpa using h.known

theorem wp_attachAll {done named : List String} (said : String → String) (rest : List String)
    (h : Attaching done res s₀ s) :
    (named.forM (fun ring ↦ attachTo reqId res (said ring) ring)).wp R
      (fun _ s' ↦ Attaching (done ++ named) res s₀ s')
      (fun _ s' ↦ ∃ done', Stopped R (done ++ named ++ rest) done' res s₀ s') s := by
  refine wp_forM (I := fun todo s' ↦ ∃ part, part ++ todo = named ∧ Attaching (done ++ part) res s₀ s') ?_ ?_
    ⟨[], rfl, by simpa using h⟩
  · intro ring todo s₁ ⟨part, hpart, h₁⟩
    refine wp_mono (wp_attachTo hR (said ring) ring h₁) ?_ ?_
    · intro _ s₂ h₂
      exact ⟨part ++ [ring], by simpa using hpart, by simpa using h₂⟩
    · intro _ s₂ ⟨h₂, hring⟩
      refine ⟨done ++ part, ?_⟩
      have hstopped := stopped_at (todo ++ rest) h₂ hring
      rw [← hpart]
      simpa using hstopped
  · intro s₁ ⟨part, hpart, h₁⟩
    rw [List.append_nil] at hpart
    rwa [← hpart]

/-- A request to associate a blob with rings that ended in an error: it came to nothing,
or it stopped on the way. -/
def AttachFailed (R : (c : Call) → NodeState → c.Ans → NodeState → Prop) (blob : Except Error Hash)
    (named : List String) (s s' : NodeState) : Prop :=
  (s'.registry = s.registry ∧ (Faultless R → ∃ e, blob = .error e)) ∨
    ∃ res done, blob = .ok res ∧ Stopped R named done res s s'

omit hR in
theorem attachFailed_nil {blob : Except Error Hash} (h : s.registry = s₀.registry) (hfs : s.fs = s₀.fs) :
    AttachFailed R blob [] s₀ s := by
  cases blob with
  | error e => exact .inl ⟨h, fun _ ↦ ⟨e, rfl⟩⟩
  | ok res => exact .inr ⟨res, [], rfl, stopped_after (attaching_nil h hfs res)⟩

theorem wp_send_kept {I : NodeState → Prop} {e : Event} {Z : Error → NodeState → Prop} (h : I s) :
    (send e).wp R (fun _ ↦ I) Z s := by
  rw [wp_send]
  intro _ s₁ h₁
  cases hR _ _ _ _ h₁ with
  | exec => exact h
  | refused s e hrefused => cases hrefused

theorem wp_sendLines_kept {I : NodeState → Prop} {lines : List String} {Z : Error → NodeState → Prop}
    (h : I s) : (sendLines reqId lines).wp R (fun _ ↦ I) Z s :=
  wp_forM (I := fun _ ↦ I) (fun _ _ _ h ↦ wp_send_kept hR h) (fun _ h ↦ h) h

theorem wp_resolveTarget_blob (env : Env) (target : String) (s : NodeState) :
    (resolveTarget env target).wp R
      (fun res s' ↦ (targetTag env s.fs target).map Prod.fst = .ok res ∧ s'.registry = s.registry ∧ s'.fs = s.fs)
      (fun _ s' ↦ s'.registry = s.registry ∧
        (Faultless R → ∃ e, (targetTag env s.fs target).map Prod.fst = .error e)) s := by
  refine wp_mono (wp_faultless hR (wp_resolveTarget env target s) (wp_resolveTarget_exec env target s)) ?_ ?_
  · intro res s' ⟨tag, htag, hresolved⟩
    exact ⟨by rw [htag]; rfl, hresolved.registry, hresolved.fs⟩
  · intro _ s' ⟨hsame, hfaultless⟩
    refine ⟨hsame.registry, fun hf ↦ ?_⟩
    obtain ⟨e, he⟩ := hfaultless hf
    exact ⟨e, by rw [he]; rfl⟩

theorem wp_importPath_blob (env : Env) (path : Path) (s : NodeState) :
    (importPath env path).wp R
      (fun r s' ↦ (importedTag env s.fs path).map (fun tag ↦ tag.2.hash) = .ok r.1 ∧
        s'.registry = s.registry ∧ s'.fs = s.fs)
      (fun _ s' ↦ s'.registry = s.registry ∧
        (Faultless R → ∃ e, (importedTag env s.fs path).map (fun tag ↦ tag.2.hash) = .error e)) s := by
  refine wp_mono (wp_faultless hR (wp_importPath_tag path) (wp_importPath_exec path)) ?_ ?_
  · intro r s' ⟨key, htag, hset⟩
    exact ⟨by rw [htag]; rfl, hset.registry, hset.fs⟩
  · intro _ s' ⟨hsame, hfaultless⟩
    refine ⟨hsame.registry, fun hf ↦ ?_⟩
    obtain ⟨e, he⟩ := hfaultless hf
    exact ⟨e, by rw [he]; rfl⟩

theorem wp_handleAttach (env : Env) (target : String) (rings : List String) («open» : Bool) (s : NodeState) :
    (handleAttach env reqId target rings «open»).wp R
      (fun _ s' ↦ ∃ res, (targetTag env s.fs target).map Prod.fst = .ok res ∧
        Attaching (rings ++ if «open» then [openRingName] else []) res s s')
      (fun _ s' ↦ AttachFailed R ((targetTag env s.fs target).map Prod.fst)
        (rings ++ if «open» then [openRingName] else []) s s') s := by
  unfold handleAttach
  split
  · rename_i hnothing
    obtain ⟨rfl, rfl⟩ := hnothing
    exact attachFailed_nil rfl rfl
  · rw [wp_bind]
    refine wp_mono (wp_resolveTarget_blob hR env target s) ?_ (fun _ _ h ↦ .inl h)
    intro res s₁ ⟨hres, hregistry, hfs⟩
    rw [wp_bind]
    refine wp_mono (wp_attachAll hR (fun ring ↦ s!"Attached {res} to ring '{ring}'")
      (if «open» then [openRingName] else []) (attaching_nil hregistry hfs res)) ?_ ?_
    · intro _ s₂ h₂
      rw [List.nil_append] at h₂
      cases «open» with
      | false =>
        refine wp_send_kept hR ?_
        exact ⟨res, hres, by simpa using h₂⟩
      | true =>
        change wp R (attachTo reqId res _ openRingName >>= _) _ _ s₂
        rw [wp_bind]
        refine wp_mono (wp_attachTo hR _ _ h₂) ?_ ?_
        · intro _ s₃ h₃
          exact wp_send_kept hR ⟨res, hres, h₃⟩
        · intro _ s₃ ⟨h₃, hring⟩
          exact .inr ⟨res, rings, hres, stopped_at _ h₃ hring⟩
    · intro _ s₂ ⟨done, h₂⟩
      rw [List.nil_append] at h₂
      exact .inr ⟨res, done, hres, h₂⟩

theorem wp_reportRings {res : Hash} {I : NodeState → Prop} (h : I s) :
    (reportRings reqId res).wp R (fun _ ↦ I) (fun _ ↦ I) s := by
  unfold reportRings
  rw [wp_bind, wp_registry]
  intro a s₁ h₁
  have hsame : s₁ = s := by
    rcases answers_registry (hR _ _ _ _ h₁) with ⟨-, hs⟩ | ⟨-, hs⟩ <;> exact hs
  subst hsame
  cases a with
  | error e => exact h
  | ok existing =>
    rw [outcome_ok]
    split
    · exact wp_sendLines_kept hR h
    · rw [wp_bind]
      refine wp_mono (wp_send_kept (Z := fun _ ↦ I) hR h) ?_ (fun _ _ hz ↦ hz)
      intro _ s₂ h₂
      exact wp_forM (I := fun _ ↦ I) (fun _ _ _ h ↦ wp_send_kept hR h) (fun _ h ↦ h) h₂

theorem wp_ticketReport (env : Env) (imported : Hash × BlobFormat) (path : Path) {I : NodeState → Prop} (h : I s) :
    (do let ticket ← makeTicket imported.1 imported.2 (leafName path)
        let ticketStr ← Program.ofExcept (ShareTicket.toUri env ticket)
        sendLines reqId (ticketLines ticketStr)
        send (.record reqId (importRecord imported.1 imported.2 (leafName path) ticketStr))
        send (.done reqId) : Action Unit).wp R (fun _ ↦ I) (fun _ ↦ I) s := by
  unfold makeTicket
  rw [wp_bind, wp_bind, wp_endpointAddr]
  intro addr s₁ h₁
  have hsame : s₁ = s := by
    cases hR _ _ _ _ h₁ with
    | exec => rfl
    | refused s e hrefused => cases hrefused
  subst hsame
  rw [pure_def, wp_ret, wp_bind, wp_ofExcept]
  cases ShareTicket.toUri env _ with
  | error e => exact h
  | ok ticketStr =>
    rw [outcome_ok, wp_bind]
    refine wp_mono (wp_sendLines_kept (Z := fun _ ↦ I) hR h) ?_ (fun _ _ hz ↦ hz)
    intro _ s₂ h₂
    rw [wp_bind]
    refine wp_mono (wp_send_kept (Z := fun _ ↦ I) hR h₂) ?_ (fun _ _ hz ↦ hz)
    intro _ s₃ h₃
    exact wp_send_kept hR h₃

theorem wp_handleImport (env : Env) (path : Path) (rings : List String) («open» : Bool) (s : NodeState) :
    (handleImport env reqId path rings «open»).wp R
      (fun _ s' ↦ ∃ res, (importedTag env s.fs path).map (fun tag ↦ tag.2.hash) = .ok res ∧
        Attaching (if «open» then [openRingName] else rings) res s s')
      (fun _ s' ↦ AttachFailed R ((importedTag env s.fs path).map (fun tag ↦ tag.2.hash))
        (if «open» then [openRingName] else rings) s s') s := by
  unfold handleImport
  generalize (if «open» = true then [openRingName] else rings) = named
  rw [wp_bind]
  refine wp_mono (wp_importPath_blob hR env path s) ?_ (fun _ _ h ↦ .inl h)
  intro r s₁ ⟨hres, hregistry, hfs⟩
  obtain ⟨res, format⟩ := r
  have hreport : ∀ s₂, Attaching named res s s₂ → (do
      let ticket ← makeTicket res format (leafName path)
      let ticketStr ← Program.ofExcept (ShareTicket.toUri env ticket)
      sendLines reqId (ticketLines ticketStr)
      send (.record reqId (importRecord res format (leafName path) ticketStr))
      send (.done reqId) : Action Unit).wp R
        (fun _ s' ↦ ∃ res, (importedTag env s.fs path).map (fun tag ↦ tag.2.hash) = .ok res ∧
          Attaching named res s s')
        (fun _ s' ↦ AttachFailed R ((importedTag env s.fs path).map (fun tag ↦ tag.2.hash)) named s s') s₂ := by
    intro s₂ h₂
    refine wp_mono (wp_ticketReport hR (I := Attaching named res s) env (res, format) path h₂) ?_ ?_
    · intro _ s₃ h₃
      exact ⟨res, hres, h₃⟩
    · intro _ s₃ h₃
      exact .inr ⟨res, named, hres, stopped_after h₃⟩
  dsimp only
  split
  · rename_i hnone
    subst hnone
    rw [wp_bind]
    refine wp_mono (wp_reportRings hR (I := fun s' ↦ s'.registry = s.registry ∧ s'.fs = s.fs) ⟨hregistry, hfs⟩) ?_ ?_
    · intro _ s₂ ⟨h₂, hfs₂⟩
      exact hreport s₂ (attaching_nil h₂ hfs₂ res)
    · intro _ s₂ ⟨h₂, hfs₂⟩
      exact attachFailed_nil h₂ hfs₂
  · rw [wp_bind]
    refine wp_mono (wp_attachAll hR attachLine [] (attaching_nil hregistry hfs res)) ?_ ?_
    · intro _ s₂ h₂
      rw [List.nil_append] at h₂
      exact hreport s₂ h₂
    · intro _ s₂ ⟨done, h₂⟩
      rw [List.nil_append, List.append_nil] at h₂
      exact .inr ⟨res, done, hres, h₂⟩

theorem wp_dispatch {env : Env} {defaultReceiveDir : Option Path} {op : Op} (hop : op ≠ .shutdown)
    {Q : Unit → NodeState → Prop} {Z : Error → NodeState → Prop}
    (h : (Server.handleOp env defaultReceiveDir reqId op).wp R Q Z s) :
    (Server.dispatch env defaultReceiveDir reqId op).wp R (fun r s' ↦ Outcome Q Z r s') (fun _ _ ↦ False) s := by
  rw [wp_dispatch_attempt hop]
  refine wp_mono h (fun _ _ hq ↦ hq) ?_
  intro e s₁ hz
  exact wp_send_kept (I := fun s' ↦ Outcome Q Z (.error e) s') hR hz

theorem wp_attaches (env : Env) (defaultReceiveDir : Option Path) (reqId : Uuid) {op : Op}
    {named : List String} (hop : op.attaches = some named) (s : NodeState) :
    (Server.handleOp env defaultReceiveDir reqId op).wp R
      (fun _ s' ↦ ∃ res, op.blob env s.fs = .ok res ∧ Attaching named res s s')
      (fun _ s' ↦ AttachFailed R (op.blob env s.fs) named s s') s := by
  cases op with
  | «import» path rings «open» =>
    obtain rfl := Option.some.inj hop
    exact wp_handleImport hR env path rings «open» s
  | blobAttach target rings «open» =>
    obtain rfl := Option.some.inj hop
    exact wp_handleAttach hR env target rings «open» s
  | _ => cases hop

end Attaching

/-- What a failed request has associated all the same: `done`. -/
structure PartlyAttached (named done : List String) (res : Hash) (s s' : NodeState) : Prop where
  before : done <+: named
  known : ∀ ring ∈ done, ring ∈ s.registry.rings
  attached : s.registry.Attached done res s'.registry
  same_iff : (∀ other, s'.registry.associations other = s.registry.associations other) ↔
    ∀ ring ∈ done, (s.registry.associations res)[ring]? = some [.read]

/-- A request to associate a blob with rings that ends in an error has associated the rings
before some point, before the first unknown one when no call goes wrong. -/
theorem attach_error {R : (c : Call) → NodeState → c.Ans → NodeState → Prop}
    (hR : ∀ c s a s', R c s a s' → Answers c s a s') {env : Env} {defaultReceiveDir : Option Path}
    {reqId : Uuid} {op : Op} {named : List String} {s s' : NodeState} {e : Error}
    (hop : op.attaches = some named)
    (h : Runs R (Server.dispatch env defaultReceiveDir reqId op) s (.ok (.error e)) s') :
    (∃ res done, (done = [] ∨ op.blob env s.fs = .ok res) ∧ PartlyAttached named done res s s') ∧
    (Faultless R →
      ((∀ other, s'.registry.associations other = s.registry.associations other) ↔
        ∀ res, op.blob env s.fs = .ok res → ∀ ring ∈ named.takeWhile (· ∈ s.registry.rings),
          (s.registry.associations res)[ring]? = some [.read])) := by
  have hne : op ≠ .shutdown := by
    rintro rfl
    cases hop
  have hfailed : AttachFailed R (op.blob env s.fs) named s s' :=
    h.ok_of_wp (wp_dispatch hR hne (wp_attaches hR env defaultReceiveDir reqId hop s))
  rcases hfailed with ⟨hregistry, hblob⟩ | ⟨res, done, hblob, hstopped⟩
  · have hattached : s.registry.Attached [] (.fromByte 0) s'.registry :=
      Registry.attached_nil (by simp [hregistry]) _
    refine ⟨⟨.fromByte 0, [], .inl rfl, List.nil_prefix, by simp, hattached, hattached.same_iff⟩, ?_⟩
    intro hfaultless
    obtain ⟨e, he⟩ := hblob hfaultless
    simp [hregistry, he]
  · have hattached := hstopped.attached
    refine ⟨⟨res, done, .inr hblob, hstopped.before, hstopped.known, hattached, hattached.same_iff⟩, ?_⟩
    intro hfaultless
    rw [hattached.same_iff, hstopped.first hfaultless, hblob]
    constructor
    · intro hbefore res' hres'
      rwa [← Except.ok.inj hres']
    · intro hbefore
      exact hbefore res rfl

def withFriends : NodeState :=
  { emptyNode with registry := Registry.empty.setMembers "friends" ∅ }

def attachUnknown : Op := .blobAttach (toString (Hash.fromByte 1)) ["friends", "nosuch"] false

theorem runs_attachUnknown : Runs (graph exec) (Server.dispatch (.plain []) none .nil attachUnknown) withFriends
    (.ok (.error (Registry.unknownRing "nosuch")))
    (run exec (Server.dispatch (.plain []) none .nil attachUnknown) withFriends).2 := by
  have hrun := runs_run (h := exec) (Server.dispatch (.plain []) none .nil attachUnknown) withFriends
  rwa [show (run exec (Server.dispatch (.plain []) none .nil attachUnknown) withFriends).1 =
    .ok (.error (Registry.unknownRing "nosuch")) by decide +kernel] at hrun

def afterUnknown : NodeState := (run exec (Server.dispatch (.plain []) none .nil attachUnknown) withFriends).2

/-- The request leaves the blob shared with the first ring, and changes nothing when it is made again. -/
theorem attach_error_unknown :
    (∃ res done, (done = [] ∨ attachUnknown.blob (.plain []) withFriends.fs = .ok res) ∧
      PartlyAttached ["friends", "nosuch"] done res withFriends afterUnknown) ∧
    ∀ other, (run exec (Server.dispatch (.plain []) none .nil attachUnknown) afterUnknown).2.registry.associations other =
      afterUnknown.registry.associations other := by
  have hR : ∀ c s a s', graph exec c s a s' → Answers c s a s' := fun _ _ _ _ ↦ answers_of_graph
  have hagain : (run exec (Server.dispatch (.plain []) none .nil attachUnknown) afterUnknown).1 =
      .ok (.error (Registry.unknownRing "nosuch")) := by
    decide +kernel
  have hrun := runs_run (h := exec) (Server.dispatch (.plain []) none .nil attachUnknown) afterUnknown
  rw [hagain] at hrun
  refine ⟨(attach_error hR rfl runs_attachUnknown).1, ((attach_error hR rfl hrun).2 faultless_exec).mpr ?_⟩
  have hshared : ∀ ring ∈ ["friends", "nosuch"].takeWhile (· ∈ afterUnknown.registry.rings),
      (afterUnknown.registry.associations (.fromByte 1))[ring]? = some [.read] := by
    decide +kernel
  intro res hres
  have hblob : attachUnknown.blob (.plain []) afterUnknown.fs = .ok (.fromByte 1) := by decide +kernel
  rwa [Except.ok.inj (hres.symm.trans hblob)]

/-- The request is answered with an error, and the blob is shared with the first ring. -/
theorem attach_error_shares : ∃ e s',
    Runs Answers (Server.dispatch (.plain []) none .nil (.blobAttach (toString (Hash.fromByte 1)) ["friends", "nosuch"]
      false)) withFriends (.ok (.error e)) s' ∧
    (withFriends.registry.associations (.fromByte 1))["friends"]? = none ∧
    (s'.registry.associations (.fromByte 1))["friends"]? = some [.read] :=
  ⟨_, afterUnknown, runs_attachUnknown.mono (fun _ _ _ _ ↦ answers_of_graph), by decide +kernel, by decide +kernel⟩

section Twice

variable {s s' : NodeState} {res : Hash}

theorem attaching_of_known {named : List String} {r : Except Error Unit}
    (hknown : ∀ ring ∈ named, ring ∈ s.registry.rings)
    (h : Outcome (fun _ s' ↦ ∃ found, Except.ok (ε := Error) res = .ok found ∧ Attaching named found s s')
      (fun _ s' ↦ AttachFailed (graph exec) (.ok res) named s s') r s') : Attaching named res s s' := by
  cases r with
  | ok v =>
    obtain ⟨found, hfound, hattaching⟩ := h
    rwa [Except.ok.inj hfound]
  | error e =>
    rcases h with ⟨-, hblob⟩ | ⟨found, done, hfound, hstopped⟩
    · obtain ⟨e, he⟩ := hblob faultless_exec
      cases he
    · have hdone : done = named := by
        rw [hstopped.first faultless_exec, List.takeWhile_eq_self_iff]
        simpa using hknown
      rw [Except.ok.inj hfound, ← hdone]
      exact hstopped.toAttaching

end Twice

/-- An import that names rings does what it says: with `open` the open ring is the only
one. An import and an attach request after it do the same exactly when `open` is not set
or changes nothing. -/
theorem import_then_attach (env : Env) (defaultReceiveDir : Option Path) (reqId : Uuid) (target : String)
    (rings : List String) («open» : Bool) (s : NodeState) (tag : Bytes × HashAndFormat)
    (hpath : s.fs.pathExists (Path.ofString target) = true)
    (himport : importedTag env s.fs (Path.ofString target) = .ok tag)
    (hknown : ∀ ring ∈ rings, ring ∈ s.registry.rings) :
    let once := (run exec (Server.handleOp env defaultReceiveDir reqId
      (.import (Path.ofString target) rings «open»)) s).2
    let stored := (run exec (Server.handleOp env defaultReceiveDir reqId
      (.import (Path.ofString target) [] false)) s).2
    let twice := (run exec (Server.handleOp env defaultReceiveDir reqId
      (.blobAttach target rings «open»)) stored).2
    s.registry.Attached (if «open» then [openRingName] else rings) tag.2.hash once.registry ∧
    ((∀ blob, once.registry.associations blob = twice.registry.associations blob) ↔
      («open» = false ∨ ∀ ring ∈ rings, ring = openRingName ∨
        (s.registry.associations tag.2.hash)[ring]? = some [.read])) := by
  have hR : ∀ c s a s', graph exec c s a s' → Answers c s a s' := fun _ _ _ _ ↦ answers_of_graph
  intro once stored twice
  have hopen : openRingName ∈ s.registry.rings := s.registry.open_mem
  have honce : Attaching (if «open» then [openRingName] else rings) tag.2.hash s once := by
    have hattaches : (Op.import (Path.ofString target) rings «open»).attaches = some _ := rfl
    have hout := outcome_run (wp_attaches hR env defaultReceiveDir reqId hattaches s)
    simp only [Op.blob, himport, Except.map] at hout
    refine attaching_of_known ?_ hout
    cases «open» with
    | true => simpa using hopen
    | false => simpa using hknown
  have hstored : Attaching [] tag.2.hash s stored := by
    have hattaches : (Op.import (Path.ofString target) [] false).attaches = some [] := rfl
    have hout := outcome_run (wp_attaches hR env defaultReceiveDir reqId hattaches s)
    simp only [Op.blob, himport, Except.map] at hout
    exact attaching_of_known (by simp) hout
  have htwice : Attaching (rings ++ if «open» then [openRingName] else []) tag.2.hash stored twice := by
    have hattaches : (Op.blobAttach target rings «open»).attaches = some _ := rfl
    have hout := outcome_run (wp_attaches hR env defaultReceiveDir reqId hattaches stored)
    simp only [Op.blob, targetTag, hstored.fs, hpath, if_true, himport, Except.map, bind, Except.bind, pure,
      Except.pure] at hout
    refine attaching_of_known ?_ hout
    intro ring hring
    rw [hstored.rings]
    rcases List.mem_append.mp hring with hlisted | hlast
    · exact hknown ring hlisted
    · cases «open» with
      | true =>
        rw [List.mem_singleton.mp hlast]
        exact hopen
      | false => simp at hlast
  refine ⟨honce.attached, ?_⟩
  have hnothing : ∀ blob, stored.registry.associations blob = s.registry.associations blob :=
    hstored.attached.same_iff.mpr (by simp)
  rw [honce.attached.same_as (htwice.attached.of_same hnothing)]
  cases «open» with
  | false => simp
  | true =>
    constructor
    · intro h
      refine .inr fun ring hring ↦ ?_
      rcases h ring with hiff | hbefore
      · have hnamed : ring ∈ [openRingName] := hiff.mpr (List.mem_append_left _ hring)
        exact .inl (List.mem_singleton.mp hnamed)
      · exact .inr hbefore
    · intro h ring
      rcases h with hfalse | hrings
      · cases hfalse
      · by_cases hring : ring ∈ rings
        · rcases hrings ring hring with hisOpen | hbefore
          · subst hisOpen
            exact .inl (by simp)
          · exact .inr hbefore
        · exact .inl (by simp [hring])

def withFile : NodeState :=
  { withFriends with
    fs := FileSystem.home.holding [("/home/u/a", .file ⟨.fromByte 1, 3, none, none⟩ true)] }

def importedOnce (rings : List String) («open» : Bool) : NodeState :=
  (run exec (Server.handleOp (.plain []) none .nil (.import (Path.ofString "a") rings «open»)) withFile).2

def importedTwice (rings : List String) («open» : Bool) : NodeState :=
  (run exec (Server.handleOp (.plain []) none .nil (.blobAttach "a" rings «open»)) (importedOnce [] false)).2

theorem import_then_attach_friends :
    withFile.registry.Attached ["friends"] (.fromByte 1) (importedOnce ["friends"] false).registry ∧
    ((∀ blob, (importedOnce ["friends"] false).registry.associations blob =
        (importedTwice ["friends"] false).registry.associations blob) ↔
      (false = false ∨ ∀ ring ∈ ["friends"], ring = openRingName ∨
        (withFile.registry.associations (.fromByte 1))[ring]? = some [.read])) :=
  import_then_attach (.plain []) none .nil "a" ["friends"] false withFile (Utf8.toBytes "a", ⟨.fromByte 1, .raw⟩)
    (by decide +kernel) (by decide +kernel) (by decide +kernel)

/-- Imported with `open` the file is shared with nobody else; attached with `open` it is
shared with the listed ring as well. -/
theorem attach_open_shares : ∃ s : NodeState, ∃ res : Hash,
    (((run exec (Server.handleOp (.plain []) none .nil (.import (Path.ofString "a") ["friends"] true)) s).2.registry
      ).associations res)["friends"]? = none ∧
    (((run exec (Server.handleOp (.plain []) none .nil (.blobAttach "a" ["friends"] true))
      (run exec (Server.handleOp (.plain []) none .nil (.import (Path.ofString "a") [] false)) s).2).2.registry
      ).associations res)["friends"]? = some [.read] :=
  ⟨withFile, .fromByte 1, by decide +kernel, by decide +kernel⟩

end Handlers

end Ringdrop
