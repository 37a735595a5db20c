import Ringdrop.Core.DirectoryImport
import Ringdrop.Daemon.HandlerCalls

namespace Ringdrop.Server

open Library Program Handlers Node

def isBlobOp : Op → Bool
  | .import _ _ _ => true
  | .blobAttach _ _ _ => true
  | .blobDetach _ _ _ _ => true
  | .blobRemove _ => true
  | _ => false

/-- An import has succeeded when its tag is set. -/
def pinnedBy : (c : Call) → c.Ans → List Hash
  | .store (.setTag _ value), .ok _ => [value.hash]
  | _, _ => []

/-- A removal clears the associations of its target first. -/
def targetBy : (c : Call) → c.Ans → List Hash
  | .registry (.removeRingFromResource hash), _ => [hash]
  | _, _ => []

def pinned (log : Trace Call.Ans) : List Hash := output pinnedBy log

def targets (log : Trace Call.Ans) : List Hash := output targetBy log

/-- The blobs that were imported and not removed, after one more request. -/
def keptAfter (op : Op) (r : Except Error Unit) (log : Trace Call.Ans) (kept : List Hash) : List Hash :=
  match op, r with
  | .blobRemove _, .ok _ => (pinned log ++ kept).filter (· ∉ targets log)
  | _, _ => pinned log ++ kept

/-- Between calls the garbage collector runs and files change. -/
def outside (x y : NodeState × Trace Call.Ans) : Prop :=
  y.2 = x.2 ∧ (gcStep x.1 y.1 ∨ ∃ fs, y.1 = { x.1 with fs := fs })

/-- A node that started with an empty store, and the blobs imported and not removed. -/
inductive TagRun (R : (c : Call) → NodeState → c.Ans → NodeState → Prop) (env : Env)
    (defaultReceiveDir : Option Path) : NodeState → List Hash → Prop
  | start {s : NodeState} : s.store = .empty → TagRun R env defaultReceiveDir s []
  | request {s s' : NodeState} {kept : List Hash} {reqId : Uuid} {op : Op} {r : Except Error Unit}
      {log : Trace Call.Ans} :
      TagRun R env defaultReceiveDir s kept → isBlobOp op →
      Runs (interfered outside (logged R)) (handleOp env defaultReceiveDir reqId op) (s, []) r (s', log) →
      TagRun R env defaultReceiveDir s' (keptAfter op r log kept)
  | outside {s s' : NodeState} {kept : List Hash} :
      TagRun R env defaultReceiveDir s kept → outside (s, []) (s', []) →
      TagRun R env defaultReceiveDir s' kept

/-- Setting a tag does not take the last tag from another blob. -/
def sparesLastTag (store : BlobStore) (key : Bytes) (hash : Hash) : Bool :=
  match store.tags[key]? with
  | none => true
  | some t => t.hash == hash || store.tags.toList.any (fun x ↦ x.1 != key && x.2.hash == t.hash)

def sparing : Call → NodeState → Bool
  | .store (.setTag key value), s => sparesLastTag s.store key value.hash
  | _, _ => true

def SparingAnswers (c : Call) (s : NodeState) (a : c.Ans) (s' : NodeState) : Prop :=
  Answers c s a s' ∧ sparing c s = true

def Tagged (store : BlobStore) (hash : Hash) : Prop :=
  ∃ (key : Bytes) (t : HashAndFormat), store.tags[key]? = some t ∧ t.hash = hash

theorem Tagged.reachable {store : BlobStore} {hash : Hash} (h : Tagged store hash) :
    store.reachable hash := by
  obtain ⟨key, t, ht, rfl⟩ := h
  exact BlobStore.reachable_of_tag ht (by simp [BlobStore.tagReaches])

theorem not_tagged {store : BlobStore} {hash : Hash} (hblob : store.blobs[hash]?.isSome)
    (hgc : store.gc.blobs[hash]? = none) : ¬ Tagged store hash := by
  intro ht
  rw [BlobStore.getElem?_blobs_gc ht.reachable] at hgc
  rw [hgc] at hblob
  cases hblob

theorem tagged_setTag {store : BlobStore} {key : Bytes} {value : HashAndFormat}
    (hs : sparesLastTag store key value.hash) {hash : Hash} (h : Tagged store hash) :
    Tagged (store.setTag key value) hash := by
  obtain ⟨key', t, ht, rfl⟩ := h
  by_cases hkey : key = key'
  · subst hkey
    simp only [sparesLastTag, ht, Bool.or_eq_true, beq_iff_eq, List.any_eq_true, Bool.and_eq_true,
      bne_iff_ne] at hs
    rcases hs with hs | ⟨⟨key', t'⟩, hmem, hne, hhash⟩
    · exact ⟨key, value, by simp [BlobStore.getElem?_setTag], hs.symm⟩
    · have ht' := Std.ExtTreeMap.mem_toList_iff_getElem?_eq_some.mp hmem
      exact ⟨key', t', by rw [BlobStore.getElem?_setTag, if_neg (Ne.symm hne), ht'], hhash⟩
  · exact ⟨key', t, by rw [BlobStore.getElem?_setTag, if_neg hkey, ht], rfl⟩

def keepsTags : Call → Prop
  | .store (.deleteTag _) => False
  | _ => True

theorem exec_tags {c : Call} {s : NodeState} (hc : keepsTags c)
    (hset : ∀ key value, c ≠ .store (.setTag key value)) :
    (exec c s).2.store.tags = s.store.tags := by
  cases c with
  | store c =>
    cases c with
    | addPath path =>
      simp only [exec, StoreCall.exec]
      split <;> rfl
    | getBytes hash =>
      simp only [exec, StoreCall.exec]
      split <;> rfl
    | exportBlob hash target =>
      simp only [exec, StoreCall.exec]
      split <;> rfl
    | setTag key value => exact absurd rfl (hset key value)
    | deleteTag key => exact hc.elim
    | _ => rfl
  | net c => cases c <;> rfl
  | _ => rfl

theorem answers_tags {c : Call} {s s' : NodeState} {a : c.Ans} (h : Answers c s a s') (hc : keepsTags c)
    (hset : ∀ key value, c ≠ .store (.setTag key value)) : s'.store.tags = s.store.tags := by
  cases h with
  | exec => exact exec_tags hc hset
  | decoded ht => cases ht <;> rfl
  | _ => rfl

theorem pinnedBy_eq_nil {c : Call} {a : c.Ans} (hset : ∀ key value, c ≠ .store (.setTag key value)) :
    pinnedBy c a = [] := by
  unfold pinnedBy
  split
  · exact absurd rfl (hset _ _)
  · rfl

def AllTagged (kept : List Hash) (x : NodeState × Trace Call.Ans) : Prop :=
  ∀ hash, hash ∈ kept ∨ hash ∈ pinned x.2 → Tagged x.1.store hash

section Requests

abbrev Sparing := interfered outside (logged SparingAnswers)

variable {kept : List Hash} {x y : NodeState × Trace Call.Ans}

theorem tags_outside (h : Relation.ReflTransGen outside x y) :
    y.1.store.tags = x.1.store.tags ∧ y.2 = x.2 := by
  induction h with
  | refl => exact ⟨rfl, rfl⟩
  | tail _ hstep ih =>
    obtain ⟨hlog, hgc | ⟨fs, hfs⟩⟩ := hstep
    · rw [show _ = _ from hgc]
      exact ⟨ih.1, hlog.trans ih.2⟩
    · rw [hfs]
      exact ⟨ih.1, hlog.trans ih.2⟩

theorem tagged_congr {store store' : BlobStore} (h : store'.tags = store.tags) {hash : Hash}
    (ht : Tagged store hash) : Tagged store' hash := by
  unfold Tagged
  rwa [h]

theorem allTagged_step {c : Call} {a : c.Ans} (hc : keepsTags c) (hx : AllTagged kept x)
    (h : Sparing c x a y) : AllTagged kept y := by
  obtain ⟨z, hxz, ⟨hzy, hspare⟩, hlog⟩ := h
  obtain ⟨htags, hlog'⟩ := tags_outside hxz
  intro hash hhash
  have hpinned : pinned y.2 = pinned x.2 ++ pinnedBy c a := by
    rw [pinned, hlog, output_concat, hlog']
    rfl
  rw [hpinned, List.mem_append, ← or_assoc] at hhash
  by_cases hset : ∃ key value, c = .store (.setTag key value)
  · obtain ⟨key, value, rfl⟩ := hset
    rcases answers_store (by simp) hzy with ⟨rfl, hs⟩ | ⟨⟨e, rfl⟩, hs⟩
    · rw [hs]
      rcases hhash with hhash | hhash
      · exact tagged_setTag hspare (tagged_congr htags (hx hash hhash))
      · obtain rfl := List.mem_singleton.mp hhash
        exact ⟨key, value, by simp [StoreCall.exec, BlobStore.getElem?_setTag], rfl⟩
    · rw [hs]
      exact tagged_congr htags (hx hash (hhash.resolve_right List.not_mem_nil))
  · have hset' : ∀ key value, c ≠ .store (.setTag key value) := fun key value h ↦ hset ⟨key, value, h⟩
    rw [pinnedBy_eq_nil hset'] at hhash
    exact tagged_congr ((answers_tags hzy hc hset').trans htags)
      (hx hash (hhash.resolve_right List.not_mem_nil))

theorem wp_keepsTags {α : Type} {p : Action α} (hp : p.Uses keepsTags) (hx : AllTagged kept x) :
    p.wp Sparing (fun _ ↦ AllTagged kept) (fun _ ↦ AllTagged kept) x :=
  hp.wp_invariant (fun _ _ _ _ hc hx h ↦ allTagged_step hc hx h) hx

end Requests

section Uses

theorem keepsTags_of_silent : ∀ c : Call, c.Silent → keepsTags c := by
  intro c hc
  cases c with
  | store c => cases c with
    | deleteTag key => exact hc
    | _ => trivial
  | _ => trivial

theorem keepsTags_of_looks : ∀ c : Call, c.Looks → keepsTags c := by
  intro c hc
  cases c with
  | store c => cases c with
    | addPath path => trivial
    | _ => exact hc.elim
  | _ => trivial

theorem keepsTags_send (reqId : Uuid) : ∀ kind : EventKind, keepsTags (.send ⟨reqId, kind⟩) :=
  fun _ ↦ trivial

theorem uses_handleImport (env : Env) (reqId : Uuid) (path : Path) (rings : List String) («open» : Bool) :
    (handleImport env reqId path rings «open»).Uses keepsTags := by
  obtain ⟨f, hf, huses⟩ := handleImport_eq_bind keepsTags_of_silent (keepsTags_send reqId) env path rings «open»
  rw [hf]
  exact (uses_importPath (fun c h ↦ keepsTags_of_silent c h.silent) keepsTags_of_looks env path).bind huses

theorem uses_handleAttach (env : Env) (reqId : Uuid) (target : String) (rings : List String)
    («open» : Bool) : (handleAttach env reqId target rings «open»).Uses keepsTags := by
  by_cases h : rings = [] ∧ «open» = false
  · unfold handleAttach
    rw [if_pos h]
    trivial
  · obtain ⟨f, hf, huses⟩ := handleAttach_eq_bind keepsTags_of_silent (keepsTags_send reqId) env target h
    rw [hf]
    exact (uses_resolveTarget (fun c h ↦ keepsTags_of_silent c h.silent) keepsTags_of_looks env target).bind huses

theorem uses_handleDetach (env : Env) (reqId : Uuid) (target : String) (rings : List String)
    («open» all : Bool) : (handleDetach env reqId target rings «open» all).Uses keepsTags := by
  obtain ⟨f, hf, huses⟩ :=
    handleDetach_eq_bind keepsTags_of_silent (keepsTags_send reqId) env target rings «open» all
  rw [hf]
  exact (uses_resolveTarget (fun c h ↦ keepsTags_of_silent c h.silent) keepsTags_of_looks env target).bind huses

end Uses

section Removal

variable {kept : List Hash} {x y : NodeState × Trace Call.Ans} {hash : Hash}

def OthersTagged (kept : List Hash) (hash : Hash) (x : NodeState × Trace Call.Ans) : Prop :=
  hash ∈ targets x.2 ∧ ∀ other, other ∈ kept ∨ other ∈ pinned x.2 → other ≠ hash → Tagged x.1.store other

/-- What is left to delete are tags of the blob that is being removed. -/
def Deleting (kept : List Hash) (hash : Hash) (names : List Bytes) (x : NodeState × Trace Call.Ans) : Prop :=
  OthersTagged kept hash x ∧ names.Nodup ∧
    ∀ name ∈ names, ∃ t : HashAndFormat, x.1.store.tags[name]? = some t ∧ t.hash = hash

theorem log_answer {c : Call} {a : c.Ans} (h : Sparing c x a y) :
    pinned y.2 = pinned x.2 ++ pinnedBy c a ∧ targets y.2 = targets x.2 ++ targetBy c a := by
  obtain ⟨z, hxz, -, hlog⟩ := h
  obtain ⟨-, hlog'⟩ := tags_outside hxz
  constructor
  · rw [pinned, hlog, output_concat, hlog']
    rfl
  · rw [targets, hlog, output_concat, hlog']
    rfl

theorem wp_deleteOne {name : Bytes} {rest : List Bytes} (hx : Deleting kept hash (name :: rest) x) :
    (context "removing blob tag" (store (.deleteTag name))).wp Sparing
      (fun _ ↦ Deleting kept hash rest) (fun _ ↦ AllTagged kept) x := by
  rw [wp_context, wp_store]
  intro a y hy
  obtain ⟨hpinned, htargets⟩ := log_answer hy
  obtain ⟨z, hxz, ⟨hzy, -⟩, -⟩ := hy
  obtain ⟨htags, -⟩ := tags_outside hxz
  obtain ⟨⟨htarget, hothers⟩, hnodup, hnames⟩ := hx
  simp only [pinnedBy, targetBy, List.append_nil] at hpinned htargets
  obtain ⟨t, ht, hhash⟩ := hnames name (by simp)
  rcases answers_store (by simp) hzy with ⟨rfl, hs⟩ | ⟨⟨e, rfl⟩, hs⟩
  · have hkeep : ∀ key, key ≠ name → y.1.store.tags[key]? = x.1.store.tags[key]? := by
      intro key hkey
      rw [hs, ← htags]
      exact (BlobStore.getElem?_deleteTag _ _ _).trans (if_neg (Ne.symm hkey))
    refine ⟨⟨by rw [htargets]; exact htarget, fun other hother hne ↦ ?_⟩, (List.nodup_cons.mp hnodup).2,
      fun n hn ↦ ?_⟩
    · rw [hpinned] at hother
      obtain ⟨key, u, hu, rfl⟩ := hothers other hother hne
      have hkey : key ≠ name := by
        rintro rfl
        rw [ht] at hu
        exact hne (by rw [← Option.some.inj hu, hhash])
      exact ⟨key, u, by rw [hkeep key hkey, hu], rfl⟩
    · have hn' : n ≠ name := fun h ↦ (List.nodup_cons.mp hnodup).1 (h ▸ hn)
      rw [hkeep n hn']
      exact hnames n (List.mem_cons_of_mem _ hn)
  · intro other hother
    rw [hpinned] at hother
    have hsame : y.1.store.tags = x.1.store.tags := by rw [hs, htags]
    refine tagged_congr hsame ?_
    by_cases hne : other = hash
    · exact ⟨name, t, ht, hhash.trans hne.symm⟩
    · exact hothers other hother hne

theorem AllTagged.others (hx : AllTagged kept x) (htarget : hash ∈ targets x.2) :
    OthersTagged kept hash x :=
  ⟨htarget, fun other hother _ ↦ hx other hother⟩

theorem wp_deleteBlob (hx : AllTagged kept x) (htarget : hash ∈ targets x.2) :
    (deleteBlob hash).wp Sparing (fun _ ↦ OthersTagged kept hash) (fun _ ↦ AllTagged kept) x := by
  unfold deleteBlob Node.listTags
  rw [wp_bind, wp_bind, wp_store]
  intro a y hy
  have hy' := allTagged_step (c := .store .listTags) trivial hx hy
  have htarget' : hash ∈ targets y.2 := by
    rw [(log_answer hy).2]
    exact List.mem_append_left _ htarget
  cases a with
  | error e => exact hy'
  | ok items =>
    rw [outcome_ok, wp_ofExcept]
    cases hitems : items.mapM id with
    | error e => exact hy'
    | ok infos =>
      rw [outcome_ok]
      obtain ⟨z, hxz, ⟨hzy, -⟩, -⟩ := hy
      obtain ⟨rfl, hs⟩ := answers_listTags hzy hitems
      rw [← hs]
      dsimp only
      split
      · exact hy'
      · refine wp_forM (I := Deleting kept hash) (fun name rest w hw ↦ wp_deleteOne hw)
          (fun w hw ↦ hw.1) ⟨hy'.others htarget', BlobStore.nodup_tagNames _ _, ?_⟩
        intro name hname
        obtain ⟨info, hinfo, rfl⟩ := List.mem_map.mp hname
        obtain ⟨hlisted, hhash⟩ := List.mem_filter.mp hinfo
        exact ⟨_, BlobStore.mem_listTags.mp hlisted, of_decide_eq_true hhash⟩

theorem wp_send_others (e : Event) (hx : OthersTagged kept hash x) :
    (send e).wp Sparing (fun _ ↦ OthersTagged kept hash) (fun _ ↦ AllTagged kept) x := by
  rw [wp_send]
  intro a y h
  obtain ⟨hpinned, htargets⟩ := log_answer h
  obtain ⟨z, hxz, ⟨hzy, -⟩, -⟩ := h
  have htags : y.1.store.tags = x.1.store.tags :=
    (answers_tags hzy trivial (by simp)).trans (tags_outside hxz).1
  simp only [pinnedBy, targetBy, List.append_nil] at hpinned htargets
  refine ⟨by rw [htargets]; exact hx.1, fun other hother hne ↦ ?_⟩
  rw [hpinned] at hother
  exact tagged_congr htags (hx.2 other hother hne)

theorem wp_reportRemoval (reqId : Uuid) (lines : List String) (record : Json)
    (hx : OthersTagged kept hash x) :
    (do sendLines reqId lines; send (.record reqId record); send (.done reqId) : Action Unit).wp Sparing
      (fun _ ↦ OthersTagged kept hash) (fun _ ↦ AllTagged kept) x := by
  rw [wp_bind]
  refine wp_forM (I := fun _ ↦ OthersTagged kept hash) (fun line rest w hw ↦ wp_send_others _ hw)
    (fun w hw ↦ ?_) hx
  rw [wp_bind]
  exact wp_mono (wp_send_others _ hw) (fun _ v hv ↦ wp_send_others _ hv) (fun _ _ h ↦ h)

theorem wp_handleBlobRemove (env : Env) (reqId : Uuid) (target : String) (hx : AllTagged kept x) :
    (handleBlobRemove env reqId target).wp Sparing
      (fun _ y ↦ ∀ other, other ∈ kept ∨ other ∈ pinned y.2 → other ∉ targets y.2 → Tagged y.1.store other)
      (fun _ ↦ AllTagged kept) x := by
  unfold handleBlobRemove
  rw [wp_bind]
  have huses := uses_resolveTarget (fun c h ↦ keepsTags_of_silent c h.silent) keepsTags_of_looks env target
  refine wp_mono (wp_keepsTags huses hx) (fun hash y hy ↦ ?_) (fun _ _ h ↦ h)
  rw [wp_bind, wp_registry]
  intro a z hz
  have hz' := allTagged_step (c := .registry (.removeRingFromResource hash)) trivial hy hz
  have htarget : hash ∈ targets z.2 := by
    rw [(log_answer hz).2]
    exact List.mem_append_right _ (List.mem_singleton.mpr rfl)
  cases a with
  | error e => exact hz'
  | ok u =>
    rw [outcome_ok, wp_bind]
    refine wp_mono (wp_deleteBlob hz' htarget) (fun _ w hw ↦ ?_) (fun _ _ h ↦ h)
    refine wp_mono (wp_reportRemoval reqId _ _ hw) (fun _ v hv other hother hnot ↦ ?_) (fun _ _ h ↦ h)
    exact hv.2 other hother (fun h ↦ hnot (h ▸ hv.1))

end Removal

section Run

variable {env : Env} {defaultReceiveDir : Option Path} {s s' : NodeState} {kept : List Hash}

theorem tagged_request {reqId : Uuid} {op : Op} {r : Except Error Unit} {log : Trace Call.Ans}
    (hkept : ∀ hash ∈ kept, Tagged s.store hash) (hop : isBlobOp op)
    (h : Runs Sparing (handleOp env defaultReceiveDir reqId op) (s, []) r (s', log)) :
    ∀ hash ∈ keptAfter op r log kept, Tagged s'.store hash := by
  have hx : AllTagged kept (s, []) := by
    intro hash hhash
    exact hkept hash (hhash.resolve_right (by simp [pinned, output]))
  have hquiet : (handleOp env defaultReceiveDir reqId op).Uses keepsTags →
      ∀ hash ∈ pinned log ++ kept, Tagged s'.store hash := by
    intro huses hash hhash
    have hw := wp_keepsTags huses hx
    have hy : AllTagged kept (s', log) := by
      cases r with
      | ok u => exact h.ok_of_wp hw
      | error e => exact h.error_of_wp hw
    exact hy hash (List.mem_append.mp hhash).symm
  cases op with
  | «import» path rings «open» => exact hquiet (uses_handleImport ..)
  | blobAttach target rings «open» => exact hquiet (uses_handleAttach ..)
  | blobDetach target rings «open» all => exact hquiet (uses_handleDetach ..)
  | blobRemove target =>
    have hw := wp_handleBlobRemove env reqId target hx
    intro hash hhash
    cases r with
    | ok u =>
      obtain ⟨hmem, hnot⟩ := List.mem_filter.mp hhash
      exact h.ok_of_wp hw hash (List.mem_append.mp hmem).symm (of_decide_eq_true hnot)
    | error e => exact h.error_of_wp hw hash (List.mem_append.mp hhash).symm
  | _ => cases hop

/-- In every run of requests that import, attach, detach and remove files, whatever
fails, as long as no import takes the last tag of another blob: every blob imported and
not removed has a named tag, so that a garbage collection keeps it. -/
theorem tags_retained (h : TagRun SparingAnswers env defaultReceiveDir s kept) :
    ∀ hash ∈ kept, Tagged s.store hash ∧ s.store.gc.blobs[hash]? = s.store.blobs[hash]? := by
  have htagged : ∀ hash ∈ kept, Tagged s.store hash := by
    induction h with
    | start => simp
    | request _ hop hr ih => exact tagged_request ih hop hr
    | outside _ hout ih =>
      intro hash hhash
      exact tagged_congr (tags_outside (.single hout)).1 (ih hash hhash)
  intro hash hhash
  exact ⟨htagged hash hhash, BlobStore.getElem?_blobs_gc (htagged hash hhash).reachable⟩

end Run

def withNamesakes : NodeState where
  endpoint := .new (.fromByte 9)
  clock := 0
  registry := .empty
  localStore := .empty
  store := .empty
  fs := FileSystem.home.holding [("/home/u/x", .dir true), ("/home/u/y", .dir true),
    ("/home/u/x/a", .file ⟨.fromByte 1, 5, none, none⟩ true),
    ("/home/u/x/b", .file ⟨.fromByte 1, 5, none, none⟩ true),
    ("/home/u/y/a", .file ⟨.fromByte 2, 5, none, none⟩ true)]

def importOp (path : String) : Op := .import (Path.ofString path) [] false

def afterImport (path : String) (s : NodeState) : NodeState × Trace Call.Ans :=
  (run execLogged (handleOp (.plain []) none .nil (importOp path)) (s, [])).2

theorem runs_import (path : String) (s : NodeState)
    (hspare : checked execLogged (fun c x ↦ sparing c x.1) (handleOp (.plain []) none .nil (importOp path)) (s, []) = true) :
    Runs Sparing (handleOp (.plain []) none .nil (importOp path)) (s, [])
      (run execLogged (handleOp (.plain []) none .nil (importOp path)) (s, [])).1
      ((afterImport path s).1, (afterImport path s).2) := by
  refine (runs_checked _ _ hspare).mono ?_
  intro c x a y h
  obtain ⟨rfl, rfl⟩ : (execLogged c x).1 = a ∧ (execLogged c x).2 = y :=
    ⟨congrArg Prod.fst h.1, congrArg Prod.snd h.1⟩
  exact ⟨x, .refl, ⟨.exec c x.1, h.2⟩, rfl⟩

/-- The third import takes the tag of the first, whose blob has got another one by then. -/
theorem tags_retained_imports :
    Tagged (afterImport "y/a" (afterImport "x/b" (afterImport "x/a" withNamesakes).1).1).1.store (.fromByte 1) ∧
      (afterImport "y/a" (afterImport "x/b" (afterImport "x/a" withNamesakes).1).1).1.store.gc.blobs[Hash.fromByte 1]? =
        (afterImport "y/a" (afterImport "x/b" (afterImport "x/a" withNamesakes).1).1).1.store.blobs[Hash.fromByte 1]? := by
  have hstart : TagRun SparingAnswers (.plain []) none withNamesakes [] := .start rfl
  have hfirst := TagRun.request hstart rfl (runs_import "x/a" withNamesakes (by decide +kernel))
  have hsecond := TagRun.request hfirst rfl (runs_import "x/b" (afterImport "x/a" withNamesakes).1 (by decide +kernel))
  have hthird := TagRun.request hsecond rfl
    (runs_import "y/a" (afterImport "x/b" (afterImport "x/a" withNamesakes).1).1 (by decide +kernel))
  exact tags_retained hthird _ (by decide +kernel)

/-- The second of two files of one name takes the tag of the first, whose blob is gone
after the next garbage collection. -/
theorem tags_lost : ∃ s kept, TagRun Answers (.plain []) none s kept ∧
    ∃ hash ∈ kept, ¬ Tagged s.store hash ∧ s.store.blobs[hash]?.isSome ∧ s.store.gc.blobs[hash]? = none := by
  have himport : ∀ path s, Runs (interfered outside (logged Answers))
      (handleOp (.plain []) none .nil (importOp path)) (s, [])
      (run execLogged (handleOp (.plain []) none .nil (importOp path)) (s, [])).1 (afterImport path s) :=
    fun path s ↦ (runs_execLogged .exec _ _).mono (fun _ x _ _ h ↦ ⟨x, .refl, h⟩)
  have hfirst : TagRun Answers (.plain []) none withNamesakes [] := .start rfl
  have hsecond := TagRun.request hfirst rfl (himport "x/a" withNamesakes)
  have hthird := TagRun.request hsecond rfl (himport "y/a" (afterImport "x/a" withNamesakes).1)
  have hgone : ((afterImport "y/a" (afterImport "x/a" withNamesakes).1).1.store.blobs[Hash.fromByte 1]?).isSome
      ∧ (afterImport "y/a" (afterImport "x/a" withNamesakes).1).1.store.gc.blobs[Hash.fromByte 1]? = none := by
    decide +kernel
  exact ⟨(afterImport "y/a" (afterImport "x/a" withNamesakes).1).1, _, hthird, .fromByte 1,
    by decide +kernel, not_tagged hgone.1 hgone.2, hgone⟩

end Ringdrop.Server
