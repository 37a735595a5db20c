import Ringdrop.Core.NodeCalls

namespace Ringdrop

open Library Program

/-- Calls that leave the rings, the grants, the peers, the tags and the files as they are. -/
def Call.Views : Call → Prop
  | registry .listRings => True
  | registry (.listRingPeers _) => True
  | registry (.listResourceRings _) => True
  | registry (.hasPermission _ _ _) => True
  | registry _ => False
  | peers (.get _) => True
  | peers .list => True
  | peers _ => False
  | grants (.get _ _) => True
  | grants .list => True
  | grants _ => False
  | store (.setTag _ _) => False
  | store (.deleteTag _) => False
  | store (.exportBlob _ _) => False
  | fs (.createDirAll _) => False
  | _ => True

theorem Call.Looks.views {c : Call} (h : c.Looks) : c.Views := by
  cases c with
  | store c => cases c <;> trivial
  | pathExists path => trivial
  | isDir path => trivial
  | walkDir path => trivial
  | _ => exact h.elim

theorem Call.Gathers.views {c : Call} (h : c.Gathers) : c.Views := by
  cases c with
  | store c => cases c <;> trivial
  | net c => trivial
  | recv => trivial
  | decode hash size stream => trivial
  | dropTempTag tag => trivial
  | endpointAddr => trivial
  | _ => exact h.elim

section Views

variable {P : Call → Prop} (hP : ∀ c : Call, c.Views → P c)
include hP

theorem uses_asked {α : Type} (c : Call) (f : c.Ans → Except Error α) (h : c.Views) :
    (Program.ask c >>= fun a ↦ Program.ofExcept (f a) : Action α).Uses P := uses_asking c f (hP c h)

namespace Node

theorem uses_listTags_views : Node.listTags.Uses P :=
  Uses.bind (uses_asked hP (.store .listTags) id trivial) fun _ ↦ uses_ofExcept _

theorem uses_makeTicket_views (hash : Hash) (format : BlobFormat) (name : Option String) :
    (makeTicket hash format name).Uses P :=
  Uses.bind (uses_ask (hP .endpointAddr trivial)) fun _ ↦ trivial

theorem uses_peerRingSet_views (env : Env) (peer : String) : (peerRingSet env peer).Uses P := by
  refine (uses_ofExcept _).bind fun peerId ↦ ?_
  refine Uses.bind (uses_asked hP (.registry .listRings) id trivial) fun rings ↦ ?_
  refine (uses_filterAction (fun ring ↦ ?_) _).bind fun _ ↦ trivial
  refine (uses_asked hP (.registry (.listRingPeers ring.name)) id trivial).attempt.bind fun r ↦ ?_
  cases r <;> trivial

theorem uses_retained_views (peerRings ringNames : Option (List String)) (raw : List TagInfo) :
    (retained peerRings ringNames raw).Uses P := by
  unfold retained
  split
  · refine uses_filterAction (fun info ↦ ?_) raw
    refine (uses_asked hP (.registry (.listResourceRings info.hash)) id trivial).attempt.bind fun r ↦ ?_
    cases r <;> trivial
  · trivial

section Sizes

variable (hstatus : ∀ hash, P (.store (.status hash)))
include hstatus

omit hP in
theorem uses_statusSize_status (hash : Hash) : (Catalog.statusSize hash).Uses P := by
  refine (uses_asking (.store (.status hash)) id (hstatus hash)).attempt.bind fun r ↦ ?_
  split <;> trivial

omit hP in
theorem uses_sumSizes_status (hashes : List Hash) (sum : UInt64) : (Catalog.sumSizes hashes sum).Uses P := by
  induction hashes generalizing sum with
  | nil => trivial
  | cons hash rest ih =>
    refine (uses_statusSize_status hstatus hash).bind fun size ↦ ?_
    cases size with
    | some size => exact ih _
    | none => trivial

omit hP in
theorem uses_fileCountAndSize_status (hload : ∀ root, P (.store (.loadCollection root))) (hash : Hash)
    (format : BlobFormat) : (Catalog.fileCountAndSize hash format).Uses P := by
  cases format with
  | raw => exact (uses_statusSize_status hstatus hash).bind fun _ ↦ trivial
  | hashSeq =>
    refine (uses_asking (.store (.loadCollection hash)) id (hload hash)).attempt.bind fun r ↦ ?_
    cases r with
    | ok collection => exact (uses_sumSizes_status hstatus _ 0).bind fun _ ↦ trivial
    | error e => trivial

end Sizes

theorem uses_fileCountAndSize_views (hash : Hash) (format : BlobFormat) :
    (Catalog.fileCountAndSize hash format).Uses P :=
  uses_fileCountAndSize_status (fun _ ↦ hP _ trivial) (fun _ ↦ hP _ trivial) hash format

theorem uses_describeAll_views (infos : List TagInfo) : (describeAll infos).Uses P := by
  refine Uses.foldlM (fun blobs info ↦ ?_) infos []
  have hdescribe : (describe info).Uses P :=
    (uses_fileCountAndSize_views hP info.hash info.format).bind fun _ ↦ trivial
  exact hdescribe.bind fun _ ↦ trivial

theorem uses_listBlobs_views (env : Env) (peer : Option String) (rings : Option (List String)) :
    (listBlobs env peer rings).Uses P := by
  refine (uses_listTags_views hP).bind fun raw ↦ ?_
  cases peer with
  | none => exact (uses_retained_views hP none rings raw).bind fun infos ↦ uses_describeAll_views hP infos
  | some s =>
    have hset : (some <$> peerRingSet env s).Uses P := by
      rw [map_eq_pure_bind]
      exact (uses_peerRingSet_views hP env s).bind fun _ ↦ trivial
    exact hset.bind fun pset ↦ (uses_retained_views hP pset rings raw).bind fun infos ↦ uses_describeAll_views hP infos

theorem uses_catalogConnect_views (env : Env) (addr : EndpointAddr) : (catalogConnect env addr).Uses P := by
  have hnet : ∀ c, (net c).Uses P := fun c ↦ uses_asked hP (.net c) id trivial
  refine (hnet _).mapError.bind fun _ ↦ ?_
  refine (uses_context (hnet _)).bind fun _ ↦ ?_
  refine (uses_context (hnet _)).bind fun _ ↦ ?_
  refine (hnet _).bind fun _ ↦ ?_
  refine (uses_ask (hP .recv trivial)).bind fun stream ↦ ?_
  refine (uses_context (uses_ofExcept _)).bind fun r ↦ ?_
  dsimp only
  split
  · trivial
  · exact uses_ofExcept _

end Node

namespace RingReceiver

theorem uses_export_views (hdir : ∀ path, P (.fs (.createDirAll path)))
    (hexport : ∀ hash target, P (.store (.exportBlob hash target))) (hash : Hash) (format : BlobFormat)
    (name : Option String) (dest : Path) : («export» hash format name dest).Uses P := by
  have hfs : ∀ c : FsCall, (fs c).Uses P := fun c ↦ by
    cases c with
    | absolute path => exact uses_asked hP (.fs (.absolute path)) id trivial
    | createDirAll path => exact uses_asking (.fs (.createDirAll path)) id (hdir path)
  have hwrite : ∀ hash target, (store (.exportBlob hash target)).Uses P := fun hash target ↦
    uses_asking (.store (.exportBlob hash target)) id (hexport hash target)
  have hpath : (exportPath hash name dest).Uses P := by
    refine (uses_ask (hP (.isDir dest) trivial)).bind fun isDirectory ↦ ?_
    cases isDirectory <;> exact hfs _
  refine hpath.bind fun path ↦ ?_
  cases format with
  | raw => exact uses_context (hwrite hash path)
  | hashSeq =>
    refine (hfs _).bind fun _ ↦ ?_
    refine (uses_context (uses_asked hP (.store (.loadCollection hash)) id trivial)).bind fun collection ↦ ?_
    refine Uses.forM (fun member ↦ ?_) collection
    refine Uses.bind ?_ fun _ ↦ uses_context (hwrite _ _)
    unfold createParent
    split
    · exact hfs _
    · trivial

end RingReceiver

end Views

section Effects

variable {c : Call} {a : c.Ans} {s s' : NodeState}

structure SameTables (s s' : NodeState) : Prop where
  endpoint : s'.endpoint = s.endpoint
  registry : s'.registry = s.registry
  localStore : s'.localStore = s.localStore
  tags : s'.store.tags = s.store.tags

theorem SameTables.refl (s : NodeState) : SameTables s s := ⟨rfl, rfl, rfl, rfl⟩

theorem sameTables_exec (s : NodeState) (h : c.Views) : SameTables s (exec c s).2 := by
  cases c with
  | registry c => cases c <;> first | exact ⟨rfl, rfl, rfl, rfl⟩ | exact h.elim
  | peers c => cases c <;> first | exact ⟨rfl, rfl, rfl, rfl⟩ | exact h.elim
  | grants c => cases c <;> first | exact ⟨rfl, rfl, rfl, rfl⟩ | exact h.elim
  | store c =>
    cases c with
    | setTag key value => exact h.elim
    | deleteTag key => exact h.elim
    | exportBlob hash target => exact h.elim
    | addPath path =>
      simp only [exec, StoreCall.exec]
      split <;> exact ⟨rfl, rfl, rfl, rfl⟩
    | getBytes hash =>
      simp only [exec, StoreCall.exec]
      split <;> exact ⟨rfl, rfl, rfl, rfl⟩
    | _ => exact ⟨rfl, rfl, rfl, rfl⟩
  | fs c => exact ⟨rfl, rfl, rfl, rfl⟩
  | net c => cases c <;> exact ⟨rfl, rfl, rfl, rfl⟩
  | _ => exact ⟨rfl, rfl, rfl, rfl⟩

theorem sameTables_answers (h : c.Views) (ha : Answers c s a s') : SameTables s s' := by
  cases ha with
  | exec => exact sameTables_exec s h
  | refused => exact .refl s
  | brokenListing => exact .refl s
  | connected => exact .refl s
  | received => exact .refl s
  | decoded ht => cases ht <;> exact ⟨rfl, rfl, rfl, rfl⟩

end Effects

end Ringdrop
