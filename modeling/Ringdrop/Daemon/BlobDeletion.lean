import Ringdrop.Daemon.TagRetention
import Ringdrop.Library.Interleaving

namespace Ringdrop.Server

open Library Program Handlers Node

structure ImportRequest where
  reqId : Uuid
  path : Path
  rings : List String
  «open» : Bool

abbrev Deletion (ι : Type) := Pool (Option ι) NodeState Error Call Call.Ans Unit

def deletion {ι : Type} (env : Env) (reqs : ι → ImportRequest) (hash : Hash) (s : NodeState) : Deletion ι :=
  Pool.start s fun
    | none => deleteBlob hash
    | some i => handleImport env (reqs i).reqId (reqs i).path (reqs i).rings (reqs i).open

def ListedFor (hash : Hash) (log : Trace Call.Ans) (key : Bytes) : Prop :=
  ∃ items info, ⟨.store .listTags, .ok items⟩ ∈ log ∧ .ok info ∈ items ∧ info.name = key ∧ info.hash = hash

def WillDelete {ι : Type} (x : Deletion ι) (key : Bytes) : Prop :=
  ¬ (x.threads none).prog.Uses (· ≠ .store (.deleteTag key))

/-- The deletion has listed the name for its blob and is still to delete it. -/
def Doomed {ι : Type} (hash : Hash) (x : Deletion ι) (key : Bytes) : Prop :=
  ListedFor hash (x.threads none).log key ∧ WillDelete x key

/-- No name that is about to be deleted is given to another blob. -/
def Spares {ι : Type} (hash : Hash) (x : Deletion ι) (_ : Option ι) : Call → Prop
  | .store (.setTag key value) => value.hash ≠ hash → ¬ Doomed hash x key
  | _ => True

def TagsUntouched (s s' : NodeState) : Prop := s'.store.tags = s.store.tags

def AllAtHash (hash : Hash) (store : BlobStore) (key : Bytes) : Prop :=
  ∀ value, store.tags[key]? = some value → value.hash = hash

def ListsFirst (hash : Hash) (log : Trace Call.Ans) : Call → Prop
  | .store (.deleteTag key) => ListedFor hash log key
  | .store (.setTag _ _) => False
  | _ => True

section Deleting

variable {hash : Hash} {log log' : Trace Call.Ans} {key : Bytes}

def Prepared (hash : Hash) (names : List Bytes) (log : Trace Call.Ans) : Prop :=
  Follows (ListsFirst hash) log ∧ ∀ key ∈ names, ListedFor hash log key

theorem ListedFor.heard {c : Call} {a : c.Ans} (h : ListedFor hash log key) (hheard : Pool.hearing c log a log') :
    ListedFor hash log' key := by
  obtain ⟨items, info, hitems, hinfo⟩ := h
  exact ⟨items, info, by rw [hheard.2]; exact List.mem_append_left _ hitems, hinfo⟩

theorem ok_mem_of_mapM {infos : List TagInfo} {items : List (Except Error TagInfo)} (h : items.mapM id = .ok infos) :
    ∀ info ∈ infos, .ok info ∈ items := by
  induction items generalizing infos with
  | nil =>
    obtain rfl : [] = infos := Except.ok.inj h
    intro info hinfo
    exact absurd hinfo List.not_mem_nil
  | cons item items ih =>
    rw [List.mapM_cons] at h
    cases item with
    | error e => cases h
    | ok first =>
      cases hrest : items.mapM id with
      | error e =>
        rw [hrest] at h
        cases h
      | ok rest =>
        rw [hrest] at h
        obtain rfl : first :: rest = infos := Except.ok.inj h
        intro info hinfo
        rcases List.mem_cons.mp hinfo with rfl | hinfo
        · exact List.mem_cons_self
        · exact List.mem_cons_of_mem _ (ih hrest info hinfo)

theorem wpc_deleteBlob (hash : Hash) :
    (deleteBlob hash).wpc Pool.hearing (Follows (ListsFirst hash)) (fun _ _ ↦ True) [] := by
  unfold deleteBlob Node.listTags
  apply wpc_bind
  apply wpc_bind
  apply wpc_bind
  apply wpc_ask follows_nil
  intro a log hheard
  have hlog : Follows (ListsFirst hash) log := by
    rw [hheard.2]
    exact follows_concat.mpr trivial
  refine ⟨hlog, wpc_ofExcept hlog fun items hitems ↦ ?_⟩
  refine wpc_ofExcept hlog fun infos hinfos ↦ ?_
  have hlisted : ∀ key ∈ (infos.filter (fun info ↦ info.hash = hash)).map TagInfo.name, ListedFor hash log key := by
    intro key hkey
    obtain ⟨info, hinfo, hname⟩ := List.mem_map.mp hkey
    obtain ⟨hmem, hhash⟩ := List.mem_filter.mp hinfo
    refine ⟨items, info, ?_, ok_mem_of_mapM hinfos info hmem, hname, by simpa using hhash⟩
    rw [hheard.2, hitems]
    exact List.mem_append_right _ List.mem_cons_self
  dsimp only
  split
  · exact hlog
  · generalize (infos.filter (fun info ↦ info.hash = hash)).map TagInfo.name = names at hlisted ⊢
    have hloop : (names.forM fun name ↦ context "removing blob tag" (store (.deleteTag name))).wpc Pool.hearing
        (Prepared hash names) (fun _ _ ↦ True) log := by
      refine wpc_forM (fun name hname log hlog ↦ ?_) ⟨hlog, hlisted⟩
      apply wpc_mapError
      apply wpc_bind
      apply wpc_ask hlog
      intro a log' hheard
      have hlog' : Prepared hash names log' := by
        refine ⟨?_, fun key hkey ↦ (hlog.2 key hkey).heard hheard⟩
        rw [hheard.2]
        exact follows_concat.mpr (hlog.2 name hname)
      exact ⟨hlog', wpc_ofExcept hlog' fun _ _ ↦ trivial⟩
    exact wpc_weaken hloop fun _ h ↦ h.1

end Deleting

section Runs

variable {ι : Type} {hash : Hash} {x : Deletion ι} {c : Call} {a : c.Ans} {k : c.Ans → Action Unit} {s s' : NodeState}
  {key : Bytes}

theorem willDelete_of_resume [DecidableEq ι] (hp : (x.threads none).prog = .call c k)
    (h : WillDelete (x.resume none c a k s) key) : WillDelete x key := by
  unfold WillDelete at h ⊢
  rw [Pool.resume_self] at h
  rw [hp]
  exact fun huses ↦ h (huses.2 a)

theorem allAtHash_congr (h : s'.store.tags = s.store.tags) (hkey : AllAtHash hash s.store key) :
    AllAtHash hash s'.store key := by
  intro value hvalue
  rw [h] at hvalue
  exact hkey value hvalue

theorem listed_answers {items : List (Except Error TagInfo)} (h : Answers (.store .listTags) s (.ok items) s') :
    (∀ info, .ok info ∈ items → s.store.tags[info.name]? = some ⟨info.hash, info.format⟩) ∧ s' = s := by
  generalize ha : (Except.ok items : Except Error (List (Except Error TagInfo))) = a at h
  cases h with
  | exec =>
    obtain rfl := Except.ok.inj ha
    refine ⟨fun info hinfo ↦ ?_, rfl⟩
    obtain ⟨listed, hlisted, hsame⟩ := List.mem_map.mp hinfo
    obtain rfl := Except.ok.inj hsame
    exact BlobStore.mem_listTags.mp hlisted
  | refused s e hr =>
    obtain rfl := Option.some.inj hr
    cases ha
  | brokenListing s n e =>
    obtain rfl := Except.ok.inj ha
    refine ⟨fun info hinfo ↦ ?_, rfl⟩
    rcases List.mem_append.mp hinfo with hinfo | hinfo
    · obtain ⟨listed, hlisted, hsame⟩ := List.mem_map.mp hinfo
      obtain rfl := Except.ok.inj hsame
      exact BlobStore.mem_listTags.mp (List.mem_of_mem_take hlisted)
    · cases List.mem_singleton.mp hinfo

def DoomsOwn (hash : Hash) (x : Deletion ι) : Prop := ∀ key, Doomed hash x key → AllAtHash hash x.state.store key

theorem doomsOwn_deleting [DecidableEq ι] (h : DoomsOwn hash x) (hc : ListsFirst hash (x.threads none).log c)
    (hp : (x.threads none).prog = .call c k) (ha : Answers c x.state a s) : DoomsOwn hash (x.resume none c a k s) := by
  intro key hdoomed
  obtain ⟨hlisted, hwill⟩ := hdoomed
  have hbefore := willDelete_of_resume hp hwill
  rw [Pool.resume_self] at hlisted
  obtain ⟨items, info, hitems, hinfo, hname, hhash⟩ := hlisted
  rcases List.mem_append.mp hitems with hold | hnew
  · have hown := h key ⟨⟨items, info, hold, hinfo, hname, hhash⟩, hbefore⟩
    by_cases hdelete : ∃ other, c = .store (.deleteTag other)
    · obtain ⟨other, rfl⟩ := hdelete
      rcases answers_store (by simp) ha with ⟨-, rfl⟩ | ⟨-, rfl⟩
      · intro value hvalue
        change (x.state.store.deleteTag other).tags[key]? = some value at hvalue
        rw [BlobStore.getElem?_deleteTag] at hvalue
        split at hvalue
        · cases hvalue
        · exact hown value hvalue
      · exact hown
    · have hset : ∀ key value, c ≠ .store (.setTag key value) := by
        rintro other value rfl
        exact hc
      have hkeeps : keepsTags c := by
        unfold keepsTags
        split
        · rename_i other
          exact hdelete ⟨other, rfl⟩
        · trivial
      exact allAtHash_congr (answers_tags ha hkeeps hset) hown
  · cases List.mem_singleton.mp hnew
    obtain ⟨hthere, rfl⟩ := listed_answers ha
    intro value hvalue
    have hat := hthere info hinfo
    rw [hname, show x.state.store.tags[key]? = some value from hvalue] at hat
    rw [Option.some.inj hat]
    exact hhash

theorem doomsOwn_importing [DecidableEq ι] {i : ι} (h : DoomsOwn hash x) (hg : Spares hash x (some i) c)
    (hc : keepsTags c) (ha : Answers c x.state a s) : DoomsOwn hash (x.resume (some i) c a k s) := by
  intro key hdoomed
  have hbefore : Doomed hash x key := by
    unfold Doomed WillDelete at hdoomed ⊢
    rwa [Pool.resume_of_ne _ (by simp)] at hdoomed
  have hown := h key hbefore
  rw [Pool.resume_state]
  by_cases hset : ∃ other value, c = .store (.setTag other value)
  · obtain ⟨other, value, rfl⟩ := hset
    rcases answers_store (by simp) ha with ⟨-, rfl⟩ | ⟨-, rfl⟩
    · intro value' hvalue
      change (x.state.store.setTag other value).tags[key]? = some value' at hvalue
      rw [BlobStore.getElem?_setTag] at hvalue
      split at hvalue
      · rename_i hsame
        subst hsame
        obtain rfl := Option.some.inj hvalue
        by_contra hne
        exact hg hne hbefore
      · exact hown value' hvalue
    · exact hown
  · exact allAtHash_congr (answers_tags ha hc fun key value h ↦ hset ⟨key, value, h⟩) hown

/-- In every interleaving of the deletion of a blob with imports that give no other blob a
name which is about to be deleted: each tag is a tag of the blob when it is deleted. -/
theorem deleteBlob_own_tags [DecidableEq ι] {env : Env} {reqs : ι → ImportRequest}
    (h : Pool.Reaches Answers TagsUntouched (Spares hash) (deletion env reqs hash s) x)
    {k : (Call.store (.deleteTag key)).Ans → Action Unit}
    (hp : (x.threads none).prog = .call (.store (.deleteTag key)) k) : AllAtHash hash x.state.store key := by
  have hall : DoomsOwn hash x ∧
      (x.threads none).prog.wpc Pool.hearing (Follows (ListsFirst hash)) (fun _ _ ↦ True) (x.threads none).log ∧
      ∀ i, (x.threads (some i)).prog.Uses keepsTags := by
    refine h.invariant (I := fun x : Deletion ι ↦ DoomsOwn hash x ∧
      (x.threads none).prog.wpc Pool.hearing (Follows (ListsFirst hash)) (fun _ _ ↦ True) (x.threads none).log ∧
      ∀ i, (x.threads (some i)).prog.Uses keepsTags) ?_ ?_ ?_
    · refine ⟨fun key hdoomed ↦ ?_, wpc_deleteBlob hash, fun i ↦ uses_handleImport env _ _ _ _⟩
      obtain ⟨items, info, hitems, -⟩ := hdoomed.1
      cases hitems
    · intro y j c k a s hy hg hp ha
      obtain ⟨hown, hdeleting, himports⟩ := hy
      cases j with
      | none =>
        rw [hp] at hdeleting
        have hnext := hdeleting.2 a _ ⟨trivial, rfl⟩
        have hc : ListsFirst hash (y.threads none).log c := follows_concat.mp (wpc_invariant hnext)
        refine ⟨doomsOwn_deleting hown hc hp ha, ?_, fun i ↦ ?_⟩
        · rw [Pool.resume_self]
          exact hnext
        · rw [Pool.resume_of_ne _ (by simp)]
          exact himports i
      | some j =>
        have huses := himports j
        rw [hp] at huses
        refine ⟨doomsOwn_importing hown hg huses.1 ha, ?_, fun i ↦ ?_⟩
        · rw [Pool.resume_of_ne _ (by simp)]
          exact hdeleting
        · by_cases hij : i = j
          · subst hij
            rw [Pool.resume_self]
            exact huses.2 a
          · rw [Pool.resume_of_ne _ (by simpa using hij)]
            exact himports i
    · intro y s hy henv
      exact ⟨fun key hdoomed ↦ allAtHash_congr henv (hy.1 key hdoomed), hy.2⟩
  obtain ⟨hown, hdeleting, -⟩ := hall
  rw [hp] at hdeleting
  have hlisted : ListedFor hash (x.threads none).log key :=
    follows_concat.mp (wpc_invariant (hdeleting.2 (.ok ()) _ ⟨trivial, rfl⟩))
  refine hown key ⟨hlisted, ?_⟩
  unfold WillDelete
  rw [hp]
  exact fun huses ↦ huses.1 rfl

end Runs

section OneImport

/-- A blob has two tags, and another file of the name of one of them is there to be imported. -/
def taggedTwice : NodeState :=
  { withNamesakes with
    store := (BlobStore.empty.setTag (Utf8.toBytes "a") ⟨.fromByte 1, .raw⟩).setTag (Utf8.toBytes "b") ⟨.fromByte 1, .raw⟩ }

def deletionBesideImport : Deletion Unit :=
  deletion (.plain []) (fun _ ↦ ⟨.nil, Path.ofString "y/a", [], false⟩) (.fromByte 1) taggedTwice

def importsFirst : List (Option Unit) := List.replicate 5 (some ()) ++ [none]

def importsBetween : List (Option Unit) := none :: List.replicate 4 (some ())

def nothingListed (x : Deletion Unit) (_ : Option Unit) : Call → Bool
  | .store (.setTag _ _) => (x.threads none).log.isEmpty
  | _ => true

theorem spares_of_check {x : Deletion Unit} {i : Option Unit} {c : Call} (h : nothingListed x i c = true) :
    Spares (.fromByte 1) x i c := by
  cases c with
  | store c =>
    cases c with
    | setTag key value =>
      intro _ hdoomed
      obtain ⟨⟨items, info, hitems, -⟩, -⟩ := hdoomed
      rw [List.isEmpty_iff.mp h] at hitems
      cases hitems
    | _ => trivial
  | _ => trivial

def deletes (key : Bytes) : Action Unit → Bool
  | .call (.store (.deleteTag other)) _ => other = key
  | _ => false

theorem exists_call_of_deletes {key : Bytes} {p : Action Unit} (h : deletes key p = true) :
    ∃ k, p = .call (.store (.deleteTag key)) k := by
  unfold deletes at h
  split at h
  · rename_i other k
    obtain rfl : other = key := by simpa using h
    exact ⟨k, rfl⟩
  · cases h

theorem deleteBlob_own_tags_importsFirst :
    AllAtHash (.fromByte 1) (Pool.schedule exec importsFirst deletionBesideImport).state.store (Utf8.toBytes "b") := by
  have hchecked : Pool.scheduleChecked exec nothingListed importsFirst deletionBesideImport = true := by decide +kernel
  have hreached : Pool.Reaches Answers TagsUntouched (Spares (.fromByte 1)) deletionBesideImport
      (Pool.schedule exec importsFirst deletionBesideImport) :=
    (Pool.reaches_schedule _ _ hchecked).mono (fun _ _ _ _ ↦ answers_of_graph) (fun _ _ _ ↦ spares_of_check)
  have hdeletes : deletes (Utf8.toBytes "b")
      ((Pool.schedule exec importsFirst deletionBesideImport).threads none).prog = true := by decide +kernel
  obtain ⟨k, hk⟩ := exists_call_of_deletes hdeletes
  exact deleteBlob_own_tags hreached hk

/-- An import that gives a listed name to its own blob loses it to the deletion. -/
theorem deleteBlob_other_tag : ∃ (x : Deletion Unit) (key : Bytes) (k : Except Error Unit → Action Unit),
    Pool.Reaches Answers TagsUntouched (fun _ _ _ ↦ True) deletionBesideImport x ∧
      (x.threads none).prog = .call (.store (.deleteTag key)) k ∧
      x.state.store.tags[key]? = some ⟨.fromByte 2, .raw⟩ := by
  have hchecked : Pool.scheduleChecked exec (fun _ _ _ ↦ true) importsBetween deletionBesideImport = true := by
    decide +kernel
  have hdeletes : deletes (Utf8.toBytes "a")
      ((Pool.schedule exec importsBetween deletionBesideImport).threads none).prog = true := by decide +kernel
  obtain ⟨k, hk⟩ := exists_call_of_deletes hdeletes
  refine ⟨Pool.schedule exec importsBetween deletionBesideImport, Utf8.toBytes "a", k, ?_, hk, by decide +kernel⟩
  exact (Pool.reaches_schedule _ _ hchecked).mono (fun _ _ _ _ ↦ answers_of_graph) (fun _ _ _ _ ↦ trivial)

end OneImport

end Ringdrop.Server
