import Ringdrop.Daemon.Attachment

namespace Ringdrop

open Library Program Std Node

def Op.removes : Op → Option String
  | .blobRemove target => some target
  | .blobDetach target _ _ _ => some target
  | _ => none

namespace Handlers

/-- The named tags and the associations of every blob are the same. -/
structure Unchanged (s s' : NodeState) : Prop where
  tags : s'.store.tags = s.store.tags
  associations : ∀ blob, s'.registry.associations blob = s.registry.associations blob

theorem SameTags.unchanged {s s' : NodeState} (h : SameTags s s') : Unchanged s s' :=
  ⟨h.tags, fun blob ↦ by rw [h.registry]⟩

theorem Unchanged.of_same {s s₁ s₂ : NodeState} (h : Unchanged s s₁) (htags : s₂.store.tags = s₁.store.tags)
    (hassoc : ∀ blob, s₂.registry.associations blob = s₁.registry.associations blob) : Unchanged s s₂ :=
  ⟨htags.trans h.tags, fun blob ↦ (hassoc blob).trans (h.associations blob)⟩

/-- A request that takes something away does so in one step, or has nothing to take. -/
def OneStep (s : NodeState) (res : Hash) : Op → Prop
  | .blobRemove _ => s.registry.associations res = ∅ ∧
      ∀ (key key' : Bytes) (value value' : HashAndFormat), s.store.tags[key]? = some value →
        s.store.tags[key']? = some value' → value.hash = res → value'.hash = res → key = key'
  | .blobDetach _ rings «open» all => all = true ∨
      (∀ ring ∈ namedRings rings «open», ring ∉ s.registry.associations res) ∨
      ∀ ring ∈ s.registry.associations res, ring ∈ namedRings rings «open»
  | _ => True

section Removing

variable {s s₁ : NodeState} {res : Hash} {reqId : Uuid}

theorem answers_send {e : Event} {a : Unit} {s' : NodeState} : Answers (.send e) s a s' ↔ s' = s := by
  constructor
  · intro h
    cases h with
    | exec => rfl
    | refused s e hrefused => cases hrefused
  · rintro rfl
    exact .exec (.send e) s'

theorem wp_send_answers {e : Event} {Q : Unit → NodeState → Prop} {Z : Error → NodeState → Prop} :
    (send e).wp Answers Q Z s ↔ Q () s := by
  simp only [wp_send, answers_send]
  exact ⟨fun h ↦ h () s rfl, by rintro h _ _ rfl; exact h⟩

theorem wp_registry_answers {c : RegistryCall} {Q : c.Reply → NodeState → Prop} {Z : Error → NodeState → Prop} :
    (registry c).wp Answers Q Z s ↔
      (registry c).wp (graph exec) Q Z s ∧ ∀ e, Z e s := by
  rw [wp_registry, wp_registry_exec]
  constructor
  · intro h
    exact ⟨h _ _ (.exec (.registry c) s), fun e ↦ h (.error e) s (.refused s e rfl)⟩
  · intro ⟨hexec, hrefused⟩ a s' h
    rcases answers_registry h with ⟨rfl, rfl⟩ | ⟨⟨e, rfl⟩, rfl⟩
    · exact hexec
    · exact hrefused e

theorem wp_store_answers {c : StoreCall} (hc : c ≠ .listTags) {Q : c.Reply → NodeState → Prop}
    {Z : Error → NodeState → Prop} :
    (store c).wp Answers Q Z s ↔ Outcome Q Z (c.exec s).1 (c.exec s).2 ∧ ∀ e, Z e s := by
  rw [wp_store]
  constructor
  · intro h
    exact ⟨h _ _ (.exec (.store c) s), fun e ↦ h (.error e) s (.refused s e rfl)⟩
  · intro ⟨hexec, hrefused⟩ a s' h
    rcases answers_store hc h with ⟨rfl, rfl⟩ | ⟨⟨e, rfl⟩, rfl⟩
    · exact hexec
    · exact hrefused e

theorem wp_listTags_answers {Q : List TagInfo → NodeState → Prop} {Z : Error → NodeState → Prop} :
    Node.listTags.wp Answers Q Z s ↔ Q s.store.listTags s ∧ ∀ e, Z e s := by
  unfold Node.listTags
  rw [wp_bind, wp_store]
  constructor
  · intro h
    have hlisted := h _ _ (.exec (.store .listTags) s)
    simp only [exec, StoreCall.exec, outcome_ok, mapM_ok] at hlisted
    exact ⟨hlisted, fun e ↦ h (.error e) s (.refused s e rfl)⟩
  · intro hboth a s' h
    obtain ⟨hlisted, hfailed⟩ := hboth
    cases h with
    | exec =>
      simp only [exec, StoreCall.exec, outcome_ok, mapM_ok]
      exact hlisted
    | refused s e hrefused =>
      obtain rfl := Option.some.inj hrefused
      exact hfailed e
    | brokenListing s n e =>
      rw [outcome_ok, mapM_broken]
      exact hfailed e

theorem wp_sendLines_true {lines : List String} {Z : Error → NodeState → Prop} {f : Unit → Action Unit}
    (hf : ∀ s, (f ()).wp Answers (fun _ _ ↦ True) Z s) :
    (sendLines reqId lines >>= f).wp Answers (fun _ _ ↦ True) Z s := by
  rw [wp_bind]
  refine wp_mono (wp_sendLines_kept (I := fun _ ↦ True) (Z := Z) (fun _ _ _ _ h ↦ h) trivial) ?_ (fun _ _ h ↦ h)
  intro _ s' _
  exact hf s'

theorem wp_deleteNames {names : List Bytes} (hnodup : names.Nodup) (hnames : ∀ name ∈ names, name ∈ s₁.store.tags)
    (h₁ : Unchanged s s₁) :
    (forM names (fun name ↦ context "removing blob tag" (store (.deleteTag name))) : Action PUnit).wp Answers
      (fun _ _ ↦ True) (fun _ s' ↦ Unchanged s s') s₁ ↔ ∀ name ∈ names, ∀ other ∈ names, name = other := by
  match names with
  | [] => simp
  | [name] =>
    refine iff_of_true ?_ (by simp)
    rw [List.forM_cons, wp_bind, wp_context, wp_store_answers (by simp)]
    exact ⟨trivial, fun _ ↦ h₁⟩
  | name :: other :: rest =>
    have hne : name ≠ other := fun h ↦ (List.nodup_cons.mp hnodup).1 (by simp [h])
    refine iff_of_false ?_ fun h ↦ hne (h name (by simp) other (by simp))
    intro h
    rw [List.forM_cons, wp_bind, wp_context, wp_store_answers (by simp)] at h
    have hsecond := h.1
    simp only [StoreCall.exec, outcome_ok] at hsecond
    rw [List.forM_cons, wp_bind, wp_context, wp_store_answers (by simp)] at hsecond
    have htags := (hsecond.2 offline).tags
    have hthere : name ∈ (s₁.store.deleteTag name).tags := by
      rw [show (s₁.store.deleteTag name).tags = s.store.tags from htags, ← h₁.tags]
      exact hnames name (by simp)
    simp [BlobStore.deleteTag] at hthere

theorem wp_deleteBlob_iff (h₁ : Unchanged s s₁) {f : Unit → Action Unit}
    (hf : ∀ s₂, (f ()).wp Answers (fun _ _ ↦ True) (fun _ s' ↦ Unchanged s s') s₂) :
    (deleteBlob res >>= f).wp Answers (fun _ _ ↦ True) (fun _ s' ↦ Unchanged s s') s₁ ↔
      ∀ (key key' : Bytes) (value value' : HashAndFormat), s.store.tags[key]? = some value →
        s.store.tags[key']? = some value' → value.hash = res → value'.hash = res → key = key' := by
  have hmem : ∀ name, name ∈ (s₁.store.listTags.filter (fun info ↦ info.hash = res)).map TagInfo.name ↔
      ∃ value, s.store.tags[name]? = some value ∧ value.hash = res := by
    intro name
    rw [BlobStore.mem_tagNames, h₁.tags]
  have hunique : (∀ name ∈ (s₁.store.listTags.filter (fun info ↦ info.hash = res)).map TagInfo.name,
      ∀ other ∈ (s₁.store.listTags.filter (fun info ↦ info.hash = res)).map TagInfo.name, name = other) ↔
      ∀ (key key' : Bytes) (value value' : HashAndFormat), s.store.tags[key]? = some value →
        s.store.tags[key']? = some value' → value.hash = res → value'.hash = res → key = key' := by
    simp only [hmem]
    constructor
    · intro h key key' value value' hkey hkey' hres hres'
      exact h key ⟨value, hkey, hres⟩ key' ⟨value', hkey', hres'⟩
    · intro h name ⟨value, hname, hres⟩ other ⟨value', hother, hres'⟩
      exact h name other value value' hname hother hres hres'
  have hthere : ∀ name ∈ (s₁.store.listTags.filter (fun info ↦ info.hash = res)).map TagInfo.name,
      name ∈ s₁.store.tags := by
    intro name hname
    obtain ⟨value, hvalue, -⟩ := BlobStore.mem_tagNames.mp hname
    rw [ExtTreeMap.mem_iff_isSome_getElem?, hvalue]
    rfl
  have hnodup := BlobStore.nodup_tagNames s₁.store res
  rw [← hunique]
  unfold deleteBlob
  rw [wp_bind, wp_bind, wp_listTags_answers]
  dsimp only
  generalize (s₁.store.listTags.filter (fun info ↦ info.hash = res)).map TagInfo.name = names at hthere hnodup ⊢
  rw [and_iff_left (show ∀ e : Error, Unchanged s s₁ from fun _ ↦ h₁)]
  split
  · rename_i hnone
    subst hnone
    exact iff_of_true h₁ (by simp)
  · have hdelete := wp_deleteNames hnodup hthere h₁
    constructor
    · intro h
      exact hdelete.mp (wp_mono h (fun _ _ _ ↦ trivial) (fun _ _ hz ↦ hz))
    · intro h
      exact wp_mono (hdelete.mpr h) (fun _ s₂ _ ↦ hf s₂) (fun _ _ hz ↦ hz)

theorem unchanged_cleared (h₁ : Unchanged s s₁) :
    Unchanged s { s₁ with registry := s₁.registry.removeRingFromResource res } ↔
      s.registry.associations res = ∅ := by
  constructor
  · intro h
    have hres := h.associations res
    dsimp only at hres
    rw [Registry.associations_removeRingFromResource, if_pos rfl] at hres
    exact hres.symm
  · intro hnone
    refine h₁.of_same rfl fun blob ↦ ?_
    dsimp only
    rw [Registry.associations_removeRingFromResource]
    split
    · rename_i hsame
      rw [← hsame, h₁.associations res, hnone]
    · rfl

theorem wp_blobRemove_iff (h₁ : Unchanged s s₁) (target : String) :
    (do registry (.removeRingFromResource res)
        deleteBlob res
        sendLines reqId [s!"Removed {res}", "Disk space will be reclaimed on the next GC cycle."]
        send (.record reqId (.object [("hash", .str (toString res))]))
        send (.done reqId) : Action Unit).wp Answers (fun _ _ ↦ True) (fun _ s' ↦ Unchanged s s') s₁ ↔
      OneStep s res (.blobRemove target) := by
  have hsends : ∀ s₂, (do
      sendLines reqId [s!"Removed {res}", "Disk space will be reclaimed on the next GC cycle."]
      send (.record reqId (.object [("hash", .str (toString res))]))
      send (.done reqId) : Action Unit).wp Answers (fun _ _ ↦ True) (fun _ s' ↦ Unchanged s s') s₂ := by
    intro s₂
    refine wp_sendLines_true fun s₃ ↦ ?_
    rw [wp_bind, wp_send_answers, wp_send_answers]
    trivial
  rw [wp_bind, wp_registry_answers, wp_registry_exec]
  simp only [RegistryCall.exec, outcome_ok]
  rw [and_iff_left (show ∀ e : Error, Unchanged s s₁ from fun _ ↦ h₁)]
  constructor
  · intro h
    have hcleared : Unchanged s { s₁ with registry := s₁.registry.removeRingFromResource res } := by
      unfold deleteBlob at h
      rw [wp_bind, wp_bind, wp_listTags_answers] at h
      exact h.2 offline
    exact ⟨(unchanged_cleared h₁).mp hcleared, (wp_deleteBlob_iff hcleared hsends).mp h⟩
  · intro h
    obtain ⟨hnone, hunique⟩ := h
    exact (wp_deleteBlob_iff ((unchanged_cleared h₁).mpr hnone) hsends).mpr hunique

theorem wp_detachAll_answers (h₁ : Unchanged s s₁) :
    (detachAll reqId res).wp Answers (fun _ _ ↦ True) (fun _ s' ↦ Unchanged s s') s₁ := by
  unfold detachAll
  rw [wp_bind, wp_registry_answers, wp_registry_exec]
  simp only [RegistryCall.exec, outcome_ok]
  rw [wp_bind, wp_send_answers, wp_send_answers]
  exact ⟨trivial, fun _ ↦ h₁⟩

theorem wp_detachSelected_iff (h₁ : Unchanged s s₁) (named : List String) :
    (detachSelected reqId res named).wp Answers (fun _ _ ↦ True) (fun _ s' ↦ Unchanged s s') s₁ ↔
      (∀ ring ∈ named, ring ∉ s.registry.associations res) ∨
        ∀ ring ∈ s.registry.associations res, ring ∈ named := by
  have hlist : s₁.registry.listResourceRings res = s.registry.listResourceRings res := by
    rw [Registry.listResourceRings, h₁.associations res]
    rfl
  have hremoved : ∀ ring, ring ∈ named.filter
      (fun name ↦ (s.registry.listResourceRings res).any (fun a ↦ a.1.name == name)) ↔
        ring ∈ named ∧ ring ∈ s.registry.associations res := by
    intro ring
    rw [List.mem_filter, mem_listResourceRings_name]
  have hsends : ∀ lines s₂, (do
      sendLines reqId lines
      send (.done reqId) : Action Unit).wp Answers (fun _ _ ↦ True) (fun _ s' ↦ Unchanged s s') s₂ :=
    fun lines s₂ ↦ wp_sendLines_true fun s₃ ↦ wp_send_answers.mpr trivial
  unfold detachSelected
  rw [wp_bind, wp_registry_answers, wp_registry_exec]
  simp only [RegistryCall.exec, outcome_ok, hlist]
  rw [and_iff_left (show ∀ e : Error, Unchanged s s₁ from fun _ ↦ h₁)]
  split
  · rename_i hnone
    refine iff_of_true h₁ (.inl fun ring hring hassoc ↦ ?_)
    have hmem := (hremoved ring).mpr ⟨hring, hassoc⟩
    rw [hnone] at hmem
    simp at hmem
  · rename_i hsome
    obtain ⟨ring, hring⟩ := List.exists_mem_of_ne_nil _ hsome
    obtain ⟨hnamed, hassoc⟩ := (hremoved ring).mp hring
    rw [wp_bind, wp_registry_answers, wp_registry_exec]
    simp only [RegistryCall.exec, outcome_ok]
    rw [and_iff_left (show ∀ e : Error, Unchanged s s₁ from fun _ ↦ h₁), wp_bind]
    cases hremaining : (s.registry.listResourceRings res).filter (fun r ↦ !named.contains r.1.name) with
    | nil =>
      refine iff_of_true (hsends _ _) (.inr fun other hother ↦ ?_)
      rw [ExtTreeMap.mem_iff_isSome_getElem?] at hother
      obtain ⟨perms, hperms⟩ := Option.isSome_iff_exists.mp hother
      have hlisted : (⟨other⟩, perms) ∈ s.registry.listResourceRings res := Registry.mem_listResourceRings.mpr hperms
      simpa using List.filter_eq_nil_iff.mp hremaining _ hlisted
    | cons a rest =>
      refine iff_of_false (fun h ↦ ?_) ?_
      · change wp Answers (forM (a :: rest) _) _ _ _ at h
        rw [List.forM_cons, wp_bind, wp_registry_answers] at h
        have hcleared := (unchanged_cleared h₁).mp (h.2 offline)
        rw [hcleared] at hassoc
        simp at hassoc
      · have ha : a ∈ (s.registry.listResourceRings res).filter (fun r ↦ !named.contains r.1.name) := by
          rw [hremaining]
          exact List.mem_cons_self
        obtain ⟨hlisted, hstays⟩ := List.mem_filter.mp ha
        have hkept : a.1.name ∈ s.registry.associations res := by
          rw [ExtTreeMap.mem_iff_isSome_getElem?, Registry.mem_listResourceRings.mp hlisted]
          rfl
        rintro (hnone | hall)
        · exact hnone ring hnamed hassoc
        · simp [hall a.1.name hkept] at hstays

theorem resolved_unchanged_iff {tag : Option (Bytes × HashAndFormat)} (h : Resolved tag s s₁) :
    Unchanged s s₁ ↔ ∀ t, tag = some t → s.store.tags[t.1]? = some t.2 := by
  cases tag with
  | none =>
    obtain rfl : s₁ = s := h
    exact iff_of_true ⟨rfl, fun _ ↦ rfl⟩ (by simp)
  | some tag =>
    have htags := TagSet.tags h
    constructor
    · intro hunchanged t ht
      obtain rfl := Option.some.inj ht
      rw [← hunchanged.tags, htags]
      simp
    · intro hset
      refine ⟨htags.trans (ExtTreeMap.ext_getElem? fun key ↦ ?_), fun blob ↦ by rw [h.registry]⟩
      rw [ExtTreeMap.getElem?_insert]
      split
      · rename_i hsame
        rw [← LawfulEqOrd.eq_of_compare hsame, hset tag rfl]
      · rfl

theorem wp_removes_iff {f : Hash → Action Unit} {env : Env} {target : String} {op : Op}
    (hrest : ∀ res s₁, Unchanged s s₁ →
      ((f res).wp Answers (fun _ _ ↦ True) (fun _ s' ↦ Unchanged s s') s₁ ↔ OneStep s res op))
    (hfirst : ∀ res s₁, (f res).wp Answers (fun _ _ ↦ True) (fun _ s' ↦ Unchanged s s') s₁ → Unchanged s s₁) :
    (resolveTarget env target >>= f).wp Answers (fun _ _ ↦ True) (fun _ s' ↦ Unchanged s s') s ↔
      ∀ res tag, targetTag env s.fs target = .ok (res, tag) →
        (∀ t, tag = some t → s.store.tags[t.1]? = some t.2) ∧ OneStep s res op := by
  rw [wp_bind]
  constructor
  · intro h res tag htag
    have hout := outcome_run (wp_anti (fun _ _ _ _ ↦ answers_of_graph) h)
    obtain ⟨hrun, hresolved⟩ := run_resolveTarget htag
    rw [hrun] at hout
    have hunchanged := hfirst res _ hout
    exact ⟨(resolved_unchanged_iff hresolved).mp hunchanged, (hrest res _ hunchanged).mp hout⟩
  · intro h
    refine wp_mono (wp_resolveTarget env target s) ?_ (fun _ _ hsame ↦ SameTags.unchanged hsame)
    intro res s₁ ⟨tag, htag, hresolved⟩
    obtain ⟨hset, hstep⟩ := h res tag htag
    have hunchanged := (resolved_unchanged_iff hresolved).mpr hset
    exact (hrest res s₁ hunchanged).mpr hstep

theorem wp_dispatch_iff {env : Env} {defaultReceiveDir : Option Path} {op : Op} (hop : op ≠ .shutdown)
    {P : NodeState → Prop} :
    (Server.dispatch env defaultReceiveDir reqId op).wp Answers (fun r s' ↦ ∀ e, r = .error e → P s')
        (fun _ _ ↦ True) s ↔
      (Server.handleOp env defaultReceiveDir reqId op).wp Answers (fun _ _ ↦ True) (fun _ s' ↦ P s') s := by
  rw [wp_dispatch_attempt hop]
  constructor
  · intro h
    refine wp_mono h (fun _ _ _ ↦ trivial) ?_
    intro e s₁ hsent
    rw [wp_send_answers] at hsent
    exact hsent e rfl
  · intro h
    refine wp_mono h (fun _ _ _ e he ↦ by cases he) ?_
    intro e s₁ hp
    rw [wp_send_answers]
    exact fun _ _ ↦ hp

end Removing

/-- Exactly when every BlobDetach or BlobRemove request that ends in an error, whichever
calls fail, leaves the tags and the associations as they were. -/
theorem removal_error_iff (env : Env) (defaultReceiveDir : Option Path) (reqId : Uuid) (op : Op) (target : String)
    (s : NodeState) (hop : op.removes = some target) :
    (∀ e s', Runs Answers (Server.dispatch env defaultReceiveDir reqId op) s (.ok (.error e)) s' →
      Unchanged s s') ↔
    ∀ res tag, targetTag env s.fs target = .ok (res, tag) →
      (∀ t, tag = some t → s.store.tags[t.1]? = some t.2) ∧ OneStep s res op := by
  have hne : op ≠ .shutdown := by
    rintro rfl
    cases hop
  have hruns : (∀ e s', Runs Answers (Server.dispatch env defaultReceiveDir reqId op) s (.ok (.error e)) s' →
      Unchanged s s') ↔ (Server.dispatch env defaultReceiveDir reqId op).wp Answers
        (fun r s' ↦ ∀ e, r = .error e → Unchanged s s') (fun _ _ ↦ True) s := by
    rw [wp_iff_runs]
    constructor
    · intro h
      exact ⟨fun r s' hrun e he ↦ h e s' (he ▸ hrun), fun _ _ _ ↦ trivial⟩
    · intro h e s' hrun
      exact h.1 _ s' hrun e rfl
  rw [hruns, wp_dispatch_iff hne]
  have hfirst : ∀ (c : RegistryCall) (k : c.Reply → Action Unit) (s₁ : NodeState),
      (registry c >>= k).wp Answers (fun _ _ ↦ True) (fun _ s' ↦ Unchanged s s') s₁ → Unchanged s s₁ := by
    intro c k s₁ h
    rw [wp_bind, wp_registry_answers] at h
    exact h.2 offline
  cases op with
  | blobRemove target' =>
    obtain rfl := Option.some.inj hop
    exact wp_removes_iff (fun _ _ h₁ ↦ wp_blobRemove_iff h₁ target') (fun _ _ h ↦ hfirst _ _ _ h)
  | blobDetach target' rings «open» all =>
    obtain rfl := Option.some.inj hop
    refine wp_removes_iff (fun res s₁ h₁ ↦ ?_) (fun res s₁ h ↦ ?_)
    · cases all with
      | true => exact iff_of_true (wp_detachAll_answers h₁) (.inl rfl)
      | false =>
        rw [OneStep, or_iff_right (by simp)]
        exact wp_detachSelected_iff h₁ (namedRings rings «open»)
    · cases all with
      | true => exact hfirst _ _ _ h
      | false => exact hfirst _ _ _ h
  | _ => cases hop

/-- A request that detaches a blob from all rings changes nothing where it fails; one that detaches it
from one of two rings may. -/
theorem removal_error_iff_shared :
    (∀ e s', Runs Answers (Server.dispatch (.plain []) none .nil
        (.blobDetach (toString (Hash.fromByte 1)) [] false true)) withShared (.ok (.error e)) s' →
      Unchanged withShared s') ∧
    ¬ ∀ e s', Runs Answers (Server.dispatch (.plain []) none .nil
        (.blobDetach (toString (Hash.fromByte 1)) ["friends"] false false)) withShared (.ok (.error e)) s' →
      Unchanged withShared s' := by
  have htarget : targetTag (.plain []) withShared.fs (toString (Hash.fromByte 1)) = .ok (.fromByte 1, none) := rfl
  constructor
  · refine (removal_error_iff (.plain []) none .nil _ (toString (Hash.fromByte 1)) withShared rfl).mpr ?_
    intro res tag htag
    rw [htarget] at htag
    obtain ⟨rfl, rfl⟩ := Prod.mk.inj (Except.ok.inj htag)
    exact ⟨by simp, .inl rfl⟩
  · intro h
    have hmem : "friends" ∈ withShared.registry.associations (.fromByte 1) ∧
        "open" ∈ withShared.registry.associations (.fromByte 1) := by
      decide +kernel
    have hiff := removal_error_iff (.plain []) none .nil
      (.blobDetach (toString (Hash.fromByte 1)) ["friends"] false false) _ withShared rfl
    rcases (hiff.mp h _ _ htarget).2 with hall | hnone | hrest
    · cases hall
    · exact hnone "friends" (by decide) hmem.1
    · exact absurd (hrest "open" hmem.2) (by decide)

/-- A blob that has no tag cannot be removed, and is no longer shared with anybody. -/
theorem removal_error_unshares : ∃ e s',
    Runs Answers (Server.dispatch (.plain []) none .nil (.blobRemove (toString (Hash.fromByte 1)))) withShared
      (.ok (.error e)) s' ∧
    (withShared.registry.associations (.fromByte 1)).toList = [("friends", [.read]), ("open", [.read])] ∧
    (s'.registry.associations (.fromByte 1)).toList = [] := by
  refine ⟨.msg s!"no tag found for hash {Hash.fromByte 1}",
    (run exec (Server.dispatch (.plain []) none .nil (.blobRemove (toString (Hash.fromByte 1)))) withShared).2,
    ?_, by decide +kernel, by decide +kernel⟩
  have hrun := runs_exec (Server.dispatch (.plain []) none .nil (.blobRemove (toString (Hash.fromByte 1)))) withShared
  rwa [show (run exec (Server.dispatch (.plain []) none .nil (.blobRemove (toString (Hash.fromByte 1))))
    withShared).1 = .ok (.error (.msg s!"no tag found for hash {Hash.fromByte 1}")) by decide +kernel] at hrun

end Handlers

end Ringdrop
