import Ringdrop.Core.ExportConfinement
import Ringdrop.Core.FileTree
import Ringdrop.Daemon.HandlerCalls
import Ringdrop.Daemon.ReceiveConfinement
import Ringdrop.Library.Interleaving

namespace Ringdrop.Handlers

open Library Program RingReceiver

structure ReceiveRequest where
  reqId : Uuid
  ticketStr : String
  dest : Option Path
  defaultReceiveDir : Option Path

def ReceiveRequest.handle (env : Env) (r : ReceiveRequest) : Action Unit :=
  handleReceive env r.reqId r.ticketStr r.dest r.defaultReceiveDir false

def absentPath : (c : Call) × c.Ans → Option Path
  | ⟨.pathExists p, false⟩ => some p
  | _ => none

/-- The destination that a request has checked. Its first call is about the directory it
is given. -/
def checkedDest (log : Trace Call.Ans) : Option Path := log.tail.findSome? absentPath

section Destinations

variable {log : Trace Call.Ans} {p : Path}

theorem checkedDest_concat (hlog : log ≠ []) (x : (c : Call) × c.Ans) :
    checkedDest (log ++ [x]) = (checkedDest log).or (absentPath x) := by
  unfold checkedDest
  rw [List.tail_append_of_ne_nil hlog, List.findSome?_append]
  simp

theorem checkedDest_append (h : checkedDest log = some p) (x : (c : Call) × c.Ans) :
    checkedDest (log ++ [x]) = some p := by
  have hlog : log ≠ [] := by
    rintro rfl
    cases h
  rw [checkedDest_concat hlog, h, Option.some_or]

theorem checkedDest_cases {x : (c : Call) × c.Ans} (h : checkedDest (log ++ [x]) = some p) :
    checkedDest log = some p ∨ log ≠ [] ∧ absentPath x = some p := by
  by_cases hlog : log = []
  · subst hlog
    cases h
  · rw [checkedDest_concat hlog] at h
    cases hold : checkedDest log with
    | some q =>
      rw [hold, Option.some_or] at h
      exact .inl h
    | none =>
      rw [hold, Option.none_or] at h
      exact .inr ⟨hlog, h⟩

theorem checkedDest_of_append {x : (c : Call) × c.Ans} (hx : absentPath x = none)
    (h : checkedDest (log ++ [x]) = some p) : checkedDest log = some p := by
  by_cases hlog : log = []
  · subst hlog
    cases h
  · rwa [checkedDest_concat hlog, hx, Option.or_none] at h

end Destinations

/-- What is written to `p` comes to lie in `dir` or below it, when missing directories are
created on the way and links are followed. -/
def LandsIn (fs : FileSystem) (dir p : Path) : Prop := fs.land dir <+: fs.land p

/-- What a request can be told when nobody makes its destination a directory after its
check, and the names of the collections it loads lead into its destination. -/
def Heard (fs : FileSystem) (log : Trace Call.Ans) : (c : Call) → c.Ans → Prop
  | .isDir p, there => checkedDest log = some p → there = false
  | .fs (.absolute p), .ok q => p.absolute fs.cwd = .ok q
  | .store (.loadCollection _), .ok collection =>
    ∀ p, checkedDest log = some p → ∀ m ∈ collection, LandsIn fs p (p.join (Path.ofString m.1))
  | _, _ => True

/-- A request has put blobs inside the destination it has checked, and nowhere else. -/
def KeepsToDest (fs : FileSystem) (log : Trace Call.Ans) : Prop :=
  ∀ target ∈ exportTargets log, ∃ p, checkedDest log = some p ∧ p ≠ [] ∧ LandsIn fs p target

structure Settled (fs : FileSystem) (p : Path) (log : Trace Call.Ans) : Prop where
  checked : checkedDest log = some p
  inside : ∀ target ∈ exportTargets log, p ≠ [] ∧ LandsIn fs p target

section Requests

variable {fs : FileSystem} {p : Path} {log log' : Trace Call.Ans}

theorem Settled.keepsToDest (h : Settled fs p log) : KeepsToDest fs log :=
  fun target ht ↦ ⟨p, h.checked, h.inside target ht⟩

theorem Settled.step {c : Call} {a : c.Ans} (h : Settled fs p log)
    (hc : ∀ target, exportTarget c = some target → p ≠ [] ∧ LandsIn fs p target)
    (hlog : Pool.heard (Heard fs) c log a log') : Settled fs p log' := by
  obtain ⟨-, rfl⟩ := hlog
  refine ⟨checkedDest_append h.checked _, fun target ht ↦ ?_⟩
  rw [exportTargets_append] at ht
  rcases List.mem_append.mp ht with ht | ht
  · exact h.inside target ht
  · exact hc target (Option.mem_toList.mp ht)

def NoExport (c : Call) : Prop := exportTarget c = none

theorem noExport_of_silent : ∀ c : Call, c.Silent → NoExport c := by
  intro c hc
  cases c with
  | store c =>
    cases c with
    | exportBlob hash target => exact hc.elim
    | _ => rfl
  | _ => rfl

theorem Settled.step_noExport {c : Call} {a : c.Ans} (h : Settled fs p log) (hc : NoExport c)
    (hlog : Pool.heard (Heard fs) c log a log') : Settled fs p log' := by
  apply h.step _ hlog
  intro target ht
  rw [show exportTarget c = none from hc] at ht
  cases ht

theorem wpc_settled {α : Type} {q : Action α} (hq : q.Uses NoExport) (h : Settled fs p log) :
    q.wpc (Pool.heard (Heard fs)) (Settled fs p) (fun _ _ ↦ True) log :=
  hq.wpc_invariant (fun _ _ _ _ hc hs hlog ↦ hs.step_noExport hc hlog) h

theorem wpc_ask_settled {c : Call} (hc : exportTarget c = none) {Q : c.Ans → Trace Call.Ans → Prop}
    (h : Settled fs p log) (hQ : ∀ a log', Heard fs log c a → Settled fs p log' → Q a log') :
    (Program.ask c : Action c.Ans).wpc (Pool.heard (Heard fs)) (Settled fs p) Q log := by
  apply wpc_ask h
  intro a log' hlog
  have h' := h.step_noExport hc hlog
  exact ⟨h', hQ a log' hlog.1 h'⟩

theorem wpc_exportBlob {hash : Hash} {target : Path} {m : String} (hp : p ≠ []) (ht : LandsIn fs p target)
    (h : Settled fs p log) : (context m (store (.exportBlob hash target))).wpc (Pool.heard (Heard fs))
      (Settled fs p) (fun _ _ ↦ True) log := by
  apply wpc_mapError
  apply wpc_bind
  apply wpc_ask h
  intro a log' hlog
  have h' : Settled fs p log' := by
    refine h.step ?_ hlog
    rintro t ⟨⟩
    exact ⟨hp, ht⟩
  exact ⟨h', wpc_settled (uses_ofExcept a) h'⟩

theorem wpc_exportMember {path : Path} {m : String × Hash} (hp : p ≠ [])
    (hpath : fs.land path = fs.land p) (hm : LandsIn fs p (p.join (Path.ofString m.1))) (h : Settled fs p log) :
    (exportMember path m).wpc (Pool.heard (Heard fs)) (Settled fs p) (fun _ _ ↦ True) log := by
  have hinside : LandsIn fs p (path.join (Path.ofString m.1)) := by
    rw [LandsIn, FileSystem.land_join] at hm ⊢
    rwa [hpath]
  apply wpc_bind
  refine wpc_mono (wpc_settled (uses_createParent noExport_of_silent _) h) fun _ log' h' _ ↦ ?_
  exact wpc_exportBlob hp hinside h'

variable (hcwd : fs.cwd.isAbsolute)
include hcwd

theorem wpc_export {hash : Hash} {format : BlobFormat} {name : Option String} (h : Settled fs p log) :
    («export» hash format name p).wpc (Pool.heard (Heard fs)) (Settled fs p) (fun _ _ ↦ True) log := by
  unfold «export»
  apply wpc_bind
  -- the export path is the destination
  have hpath : (exportPath hash name p).wpc (Pool.heard (Heard fs)) (Settled fs p)
      (fun path _ ↦ p ≠ [] ∧ fs.land path = fs.land p) log := by
    unfold exportPath
    apply wpc_bind
    refine wpc_ask_settled rfl h fun there log₁ hthere h₁ ↦ ?_
    obtain rfl : there = false := hthere h.checked
    apply wpc_bind
    refine wpc_ask_settled rfl h₁ fun a log₂ ha h₂ ↦ ?_
    cases a with
    | error e => exact h₂
    | ok path =>
      refine ⟨h₂, ?_, ?_⟩
      · rintro rfl
        cases ha
      · exact FileSystem.land_absolute hcwd ha
  refine wpc_mono hpath fun path log₁ h₁ hp ↦ ?_
  cases format with
  | raw =>
    refine wpc_exportBlob hp.1 ?_ h₁
    rw [LandsIn, hp.2]
  | hashSeq =>
    apply wpc_bind
    refine wpc_mono (wpc_settled (uses_fs noExport_of_silent) h₁) fun _ log₂ h₂ _ ↦ ?_
    apply wpc_bind
    apply wpc_mapError
    apply wpc_bind
    refine wpc_ask_settled rfl h₂ fun a log₃ ha h₃ ↦ ?_
    cases a with
    | error e => exact h₃
    | ok collection =>
      refine ⟨h₃, wpc_forM (fun m hm log h ↦ ?_) h₃⟩
      exact wpc_exportMember hp.1 hp.2 (ha p h₂.checked m hm) h

theorem wpc_receiveSettled {env : Env} {reqId : Uuid} {ticket : ShareTicket} (h : Settled fs p log) :
    (receiveBlob env reqId ticket p).wpc (Pool.heard (Heard fs)) (Settled fs p) (fun _ _ ↦ True) log := by
  refine wpc_receiveBlob (P := NoExport) (fun c h ↦ noExport_of_silent c h.silent) (fun _ ↦ rfl) (fun _ ↦ rfl) rfl rfl ?_
    (fun log h ↦ wpc_export hcwd h) h
  exact fun _ _ _ _ hc hs hlog ↦ hs.step_noExport hc hlog

omit hcwd in
theorem keepsToDest_of_nil (h : exportTargets log = []) : KeepsToDest fs log := by
  intro target ht
  rw [h] at ht
  cases ht

structure Unsettled (log : Trace Call.Ans) : Prop where
  unchecked : checkedDest log = none
  nowhere : exportTargets log = []

omit hcwd in
theorem Unsettled.step {c : Call} {a : c.Ans} (h : Unsettled log) (hc : exportTarget c = none)
    (hx : log = [] ∨ absentPath ⟨c, a⟩ = none) (hlog : Pool.heard (Heard fs) c log a log') :
    Unsettled log' := by
  obtain ⟨-, rfl⟩ := hlog
  constructor
  · by_cases hnil : log = []
    · subst hnil
      rfl
    · rw [checkedDest_concat hnil, h.unchecked, hx.resolve_left hnil, Option.none_or]
  · rw [exportTargets_append, h.nowhere, hc]
    rfl

omit hcwd in
theorem Unsettled.ask {c : Call} {Q : c.Ans → Trace Call.Ans → Prop} (h : Unsettled log) (hc : exportTarget c = none)
    (hx : log = [] ∨ ∀ a, absentPath ⟨c, a⟩ = none) (hQ : ∀ a log', log' ≠ [] → Unsettled log' → Q a log') :
    (Program.ask c : Action c.Ans).wpc (Pool.heard (Heard fs)) (KeepsToDest fs) Q log := by
  apply wpc_ask (keepsToDest_of_nil h.nowhere)
  intro a log' hlog
  have h' := h.step hc (hx.imp_right fun hx ↦ hx a) hlog
  have hne : log' ≠ [] := by
    rw [hlog.2]
    simp
  exact ⟨keepsToDest_of_nil h'.nowhere, hQ a log' hne h'⟩

omit hcwd in
theorem wpc_rejectExisting (hlog : log ≠ []) (h : Unsettled log) :
    (rejectExisting p false).wpc (Pool.heard (Heard fs)) (KeepsToDest fs) (fun q ↦ Settled fs q) log := by
  apply wpc_bind
  apply wpc_ask (keepsToDest_of_nil h.nowhere)
  rintro there log₁ ⟨-, rfl⟩
  have hnowhere : exportTargets (log ++ [⟨.pathExists p, there⟩]) = [] := by
    rw [exportTargets_append, h.nowhere]
    rfl
  refine ⟨keepsToDest_of_nil hnowhere, ?_⟩
  cases there with
  | true => exact keepsToDest_of_nil hnowhere
  | false =>
    have hsettled : Settled fs p (log ++ [⟨.pathExists p, false⟩]) := by
      constructor
      · rw [checkedDest_concat hlog, h.unchecked]
        rfl
      · rw [hnowhere]
        simp
    exact ⟨hsettled.keepsToDest, hsettled⟩

omit hcwd in
theorem wpc_checkResolved {resolved : ResolvedDest} {name : Option String} {hex : String} :
    (checkResolved resolved name hex false).wpc (Pool.heard (Heard fs)) (KeepsToDest fs)
      (fun q ↦ Settled fs q) [] := by
  have hstart : Unsettled [] := ⟨rfl, rfl⟩
  cases resolved with
  | explicit dest =>
    apply wpc_bind
    apply hstart.ask rfl (.inl rfl)
    intro there log₁ hne h₁
    split
    · exact wpc_rejectExisting hne h₁
    · exact wpc_rejectExisting hne h₁
  | directory dir =>
    apply wpc_bind
    apply hstart.ask rfl (.inl rfl)
    intro there log₁ hne h₁
    split
    · apply wpc_bind
      apply h₁.ask rfl (.inr fun _ ↦ rfl)
      intro there log₂ hne₂ h₂
      split
      · exact wpc_rejectExisting hne₂ h₂
      · exact keepsToDest_of_nil h₂.nowhere
    · exact wpc_rejectExisting hne h₁

theorem wpc_handleReceive {env : Env} (r : ReceiveRequest) :
    (r.handle env).wpc (Pool.heard (Heard fs)) (KeepsToDest fs) (fun _ _ ↦ True) [] := by
  unfold ReceiveRequest.handle handleReceive
  apply wpc_bind
  refine wpc_ofExcept (keepsToDest_of_nil rfl) fun ticket _ ↦ ?_
  apply wpc_bind
  unfold ticketDest
  apply wpc_bind
  refine wpc_ofExcept (keepsToDest_of_nil rfl) fun resolved _ ↦ ?_
  apply wpc_bind
  refine wpc_mono wpc_checkResolved fun destPath log₁ _ h₁ ↦ ?_
  apply wpc_bind
  have hcreate : (createReceiveDir resolved).Uses NoExport := by
    cases resolved with
    | explicit dest => trivial
    | directory dir => exact uses_context (uses_fs noExport_of_silent)
  refine wpc_weaken (J := Settled fs destPath) ?_ fun _ h ↦ h.keepsToDest
  refine wpc_mono (wpc_settled hcreate h₁) fun _ log₂ h₂ _ ↦ ?_
  exact ⟨h₂.keepsToDest, wpc_weaken (wpc_receiveSettled hcwd h₂) fun _ h ↦ h.keepsToDest⟩

end Requests

section Pools

variable {ι : Type} [DecidableEq ι]

abbrev Requests (ι : Type) := Pool ι NodeState Error Call Call.Ans Unit

def exportedPath : (c : Call) × c.Ans → Option Path
  | ⟨.store (.exportBlob _ target), .ok _⟩ => some target
  | _ => none

def exported (log : Trace Call.Ans) : List Path := log.filterMap exportedPath

def Underway (x : Requests ι) (i : ι) : Prop := ∃ c k, (x.threads i).prog = .call c k

/-- Neither path leads into the other. -/
def Apart (fs : FileSystem) (p q : Path) : Prop := ¬ LandsIn fs p q ∧ ¬ LandsIn fs q p

instance (fs : FileSystem) (p q : Path) : Decidable (LandsIn fs p q) := inferInstanceAs (Decidable (_ <+: _))

instance (fs : FileSystem) (p q : Path) : Decidable (Apart fs p q) := inferInstanceAs (Decidable (_ ∧ _))

/-- A request finds nothing at its destination only if there is nothing where that leads,
and while that is apart from the destinations that other requests under way have checked.
Then it finds its destination to be no directory, and what it loads are collections whose
names lead into it. -/
def Undisturbed (x : Requests ι) (i : ι) : Call → Prop
  | .pathExists p => (x.threads i).log ≠ [] → p ≠ [] → x.state.fs.pathExists p = false →
    x.state.fs.nodeAt (x.state.fs.land p) = none ∧
      ∀ j, j ≠ i → Underway x j → ∀ q, checkedDest (x.threads j).log = some q → q ≠ [] → Apart x.state.fs p q
  | .isDir p => checkedDest (x.threads i).log = some p → x.state.fs.isDir p = false
  | .store (.loadCollection root) => ∀ p, checkedDest (x.threads i).log = some p →
    ∀ collection, x.state.store.loadCollection root = .ok collection →
      ∀ m ∈ collection, LandsIn x.state.fs p (p.join (Path.ofString m.1))
  | _ => True

def OffDisk (s s' : NodeState) : Prop := s'.fs = s.fs

def requests (env : Env) (reqs : ι → ReceiveRequest) (s : NodeState) : Requests ι :=
  Pool.start s fun i ↦ (reqs i).handle env

variable {x y : Requests ι} {i : ι} {fs : FileSystem}

omit [DecidableEq ι] in
theorem heard_of_undisturbed {c : Call} {a : c.Ans} {s : NodeState} (hgrows : fs.Grows x.state.fs)
    (hc : Undisturbed x i c) (h : Answers c x.state a s) : Heard fs (x.threads i).log c a := by
  cases c with
  | isDir p =>
    obtain ⟨rfl, -⟩ := answers_isDir h
    exact hc
  | fs c =>
    cases c with
    | absolute p =>
      cases a with
      | error e => trivial
      | ok q =>
        rcases answers_fs h with ⟨ha, -⟩ | ⟨⟨e, he⟩, -⟩
        · change p.absolute fs.cwd = .ok q
          rw [← hgrows.cwd]
          exact ha.symm
        · cases he
    | createDirAll p => trivial
  | store c =>
    cases c with
    | loadCollection root =>
      cases a with
      | error e => trivial
      | ok collection =>
        rcases answers_store (by simp) h with ⟨ha, -⟩ | ⟨⟨e, he⟩, -⟩
        · intro p hp m hm
          have hin := hc p hp collection ha.symm m hm
          rwa [LandsIn, hgrows.land, hgrows.land] at hin
        · cases he
    | _ => trivial
  | _ => trivial

/-- Only directories are created and files written, and a file that is exported is there. -/
structure Written (c : Call) (a : c.Ans) (fs fs' : FileSystem) : Prop where
  grows : fs.Grows fs'
  isTree : fs.IsTree → fs'.IsTree
  exported : ∀ target, exportedPath ⟨c, a⟩ = some target → (fs'.nodes[fs.land target]?).isSome

theorem written_of_eq {c : Call} {a : c.Ans} {fs fs' : FileSystem} (hfs : fs' = fs)
    (hc : exportedPath ⟨c, a⟩ = none) : Written c a fs fs' := by
  subst hfs
  refine ⟨FileSystem.grows_refl fs', id, fun target ht ↦ ?_⟩
  rw [hc] at ht
  cases ht

theorem exportedPath_exportBlob {hash : Hash} {target q : Path} {a : Except Error Unit}
    (h : exportedPath ⟨.store (.exportBlob hash target), a⟩ = some q) : a = .ok () ∧ target = q := by
  cases a with
  | error e => cases h
  | ok u => exact ⟨rfl, Option.some.inj h⟩

theorem written_exec (c : Call) (s : NodeState) : Written c (exec c s).1 s.fs (exec c s).2.fs := by
  cases c with
  | fs c =>
    cases c with
    | absolute p => exact written_of_eq rfl rfl
    | createDirAll p =>
      refine ⟨(FileSystem.makes_createDirAll s.fs p).grows, fun htree ↦ htree.createDirAll p, ?_⟩
      rintro target ⟨⟩
  | store c =>
    cases c with
    | exportBlob hash target =>
      simp only [exec, StoreCall.exec]
      split
      · exact written_of_eq rfl rfl
      · rename_i content _
        have hwrites := FileSystem.writes_write s.fs target content
        refine ⟨hwrites.grows, fun htree ↦ htree.write target content, fun q hq ↦ ?_⟩
        obtain ⟨hok, rfl⟩ := exportedPath_exportBlob hq
        rw [hwrites.node hok]
        rfl
    | addPath p =>
      simp only [exec, StoreCall.exec]
      split
      · exact written_of_eq rfl rfl
      · exact written_of_eq rfl rfl
    | getBytes hash =>
      simp only [exec, StoreCall.exec]
      split
      · exact written_of_eq rfl rfl
      · exact written_of_eq rfl rfl
    | _ => exact written_of_eq rfl rfl
  | net c => cases c <;> exact written_of_eq rfl rfl
  | _ => exact written_of_eq rfl rfl

theorem written_of_answers {c : Call} {a : c.Ans} {s s' : NodeState} (h : Answers c s a s') :
    Written c a s.fs s'.fs := by
  cases h with
  | exec => exact written_exec c s
  | refused s e hr =>
    refine written_of_eq rfl ?_
    cases c with
    | store c =>
      obtain rfl := Option.some.inj hr
      cases c <;> rfl
    | _ => rfl
  | _ => exact written_of_eq rfl rfl

theorem exported_concat {log : Trace Call.Ans} (x : (c : Call) × c.Ans) :
    exported (log ++ [x]) = exported log ++ (exportedPath x).toList := by
  unfold exported
  rw [List.filterMap_append]
  cases hx : exportedPath x with
  | none => simp [hx]
  | some target => simp [hx]

theorem exportTarget_of_exportedPath {c : Call} {a : c.Ans} {target : Path}
    (h : exportedPath ⟨c, a⟩ = some target) : exportTarget c = some target := by
  unfold exportedPath at h
  split at h
  · rename_i hx
    cases hx
    exact h
  · cases h

theorem pathExists_of_absent {c : Call} {a : c.Ans} {s s' : NodeState} {p : Path}
    (ha : absentPath ⟨c, a⟩ = some p) (h : Answers c s a s') : c = .pathExists p ∧ s.fs.pathExists p = false := by
  unfold absentPath at ha
  split at ha
  · rename_i hx
    cases hx
    obtain rfl := Option.some.inj ha
    exact ⟨rfl, (answers_pathExists h).1.symm⟩
  · cases ha

theorem nothing_below {fs : FileSystem} {loc cs : List Bytes} (htree : fs.IsTree) (hloc : fs.nodeAt loc = none)
    (hcs : loc <+: cs) : fs.nodes[cs]? = none := by
  have hne : loc ≠ [] := by
    rintro rfl
    cases hloc
  rw [FileSystem.nodeAt_of_ne hne] at hloc
  cases hnode : fs.nodes[cs]? with
  | none => rfl
  | some node =>
    by_cases heq : loc = cs
    · rw [← heq, hloc] at hnode
      cases hnode
    · obtain ⟨r, hr⟩ := (FileSystem.dirAt_iff.mp (htree.parents cs node hnode loc hcs heq)).resolve_left hne
      rw [hloc] at hr
      cases hr

theorem underway_of_resume {c : Call} {k : c.Ans → Action Unit} {a : c.Ans} {s : NodeState} {j : ι}
    (hp : (x.threads i).prog = .call c k) (h : Underway (x.resume i c a k s) j) : Underway x j := by
  by_cases hij : j = i
  · subst hij
    exact ⟨c, k, hp⟩
  · obtain ⟨d, l, hd⟩ := h
    rw [Pool.resume_of_ne _ hij] at hd
    exact ⟨d, l, hd⟩

structure Undisturbing (fs : FileSystem) (x : Requests ι) : Prop where
  grows : fs.Grows x.state.fs
  isTree : x.state.fs.IsTree
  there : ∀ i, ∀ target ∈ exported (x.threads i).log, (x.state.fs.nodes[fs.land target]?).isSome
  apart : ∀ i j, i ≠ j → Underway x i → Underway x j → ∀ p q, checkedDest (x.threads i).log = some p →
    checkedDest (x.threads j).log = some q → p ≠ [] → q ≠ [] → Apart fs p q
  clear : ∀ i, Underway x i → ∀ p, checkedDest (x.threads i).log = some p → p ≠ [] →
    ∀ j, j ≠ i → ∀ target ∈ exported (x.threads j).log, ¬ LandsIn fs p target

theorem Apart.symm {p q : Path} (h : Apart fs p q) : Apart fs q p := ⟨h.2, h.1⟩

theorem Apart.not_inside {p q target : Path} (h : Apart fs p q) (hp : LandsIn fs p target) :
    ¬ LandsIn fs q target := by
  intro hq
  rcases List.prefix_or_prefix_of_prefix hp hq with hpq | hqp
  · exact h.1 hpq
  · exact h.2 hqp

theorem Undisturbing.step {c : Call} {k : c.Ans → Action Unit} {a : c.Ans} {s : NodeState}
    (h : Undisturbing fs x) (hc : Undisturbed x i c) (hp : (x.threads i).prog = .call c k)
    (ha : Answers c x.state a s) (hkeeps : KeepsToDest fs ((x.threads i).log ++ [⟨c, a⟩])) :
    Undisturbing fs (x.resume i c a k s) := by
  have hw := written_of_answers ha
  have hunder : Underway x i := ⟨c, k, hp⟩
  -- a destination that has just been checked is apart from the others
  have hapart : ∀ j, j ≠ i → Underway x j → ∀ p q, checkedDest ((x.threads i).log ++ [⟨c, a⟩]) = some p →
      checkedDest (x.threads j).log = some q → p ≠ [] → q ≠ [] → Apart fs p q := by
    intro j hj hunderj p q hpi hqj hpne hqne
    rcases checkedDest_cases hpi with hold | ⟨hne, habsent⟩
    · exact h.apart i j (Ne.symm hj) hunder hunderj p q hold hqj hpne hqne
    · obtain ⟨rfl, hthere⟩ := pathExists_of_absent habsent ha
      have happart := (hc hne hpne hthere).2 j hj hunderj q hqj hqne
      rwa [Apart, LandsIn, LandsIn, h.grows.land, h.grows.land] at happart
  have hlog : ∀ j, j ≠ i → ((x.resume i c a k s).threads j).log = (x.threads j).log :=
    fun j hj ↦ by rw [x.resume_of_ne hj]
  have hlogi : ((x.resume i c a k s).threads i).log = (x.threads i).log ++ [⟨c, a⟩] := by
    rw [x.resume_self]
  constructor
  · exact h.grows.trans hw.grows
  · exact hw.isTree h.isTree
  · intro j target ht
    by_cases hj : j = i
    · subst hj
      rw [hlogi, exported_concat] at ht
      rcases List.mem_append.mp ht with ht | ht
      · exact hw.grows.kept _ (h.there j target ht)
      · rw [← h.grows.land]
        exact hw.exported target (Option.mem_toList.mp ht)
    · rw [hlog j hj] at ht
      exact hw.grows.kept _ (h.there j target ht)
  · intro j l hjl hj hl p q hpj hql hpne hqne
    have hunderj := underway_of_resume hp hj
    have hunderl := underway_of_resume hp hl
    by_cases hji : j = i
    · subst hji
      rw [hlogi] at hpj
      rw [hlog l (Ne.symm hjl)] at hql
      exact hapart l (Ne.symm hjl) hunderl p q hpj hql hpne hqne
    · rw [hlog j hji] at hpj
      by_cases hli : l = i
      · subst hli
        rw [hlogi] at hql
        exact (hapart j hjl hunderj q p hql hpj hqne hpne).symm
      · rw [hlog l hli] at hql
        exact h.apart j l hjl hunderj hunderl p q hpj hql hpne hqne
  · intro j hj p hpj hpne l hl target ht
    have hunderj := underway_of_resume hp hj
    by_cases hji : j = i
    · subst hji
      rw [hlogi] at hpj
      rw [hlog l hl] at ht
      rcases checkedDest_cases hpj with hold | ⟨hne, habsent⟩
      · exact h.clear j hunderj p hold hpne l hl target ht
      · -- what others have exported is there, so it is not below what was found absent
        obtain ⟨rfl, hthere⟩ := pathExists_of_absent habsent ha
        intro hinside
        have hisSome := h.there l target ht
        have hnone : x.state.fs.land p <+: fs.land target → x.state.fs.nodes[fs.land target]? = none :=
          nothing_below h.isTree (hc hne hpne hthere).1
        rw [h.grows.land] at hnone
        rw [hnone hinside] at hisSome
        cases hisSome
    · rw [hlog j hji] at hpj
      by_cases hli : l = i
      · subst hli
        rw [hlogi, exported_concat] at ht
        rcases List.mem_append.mp ht with ht | ht
        · exact h.clear j hunderj p hpj hpne l hl target ht
        · have hexport := exportTarget_of_exportedPath (Option.mem_toList.mp ht)
          have htried : target ∈ exportTargets ((x.threads l).log ++ [⟨c, a⟩]) := by
            rw [exportTargets_append, hexport]
            simp
          obtain ⟨q, hq, hqne, hinside⟩ := hkeeps target htried
          exact (hapart j hji hunderj q p hq hpj hqne hpne).not_inside hinside
      · rw [hlog l hli] at ht
        exact h.clear j hunderj p hpj hpne l hl target ht

abbrev Reached (x y : Requests ι) : Prop := Pool.Reaches Answers OffDisk Undisturbed x y

theorem grows_of_reached (h : Reached x y) : x.state.fs.Grows y.state.fs := by
  refine h.invariant (I := fun z : Requests ι ↦ x.state.fs.Grows z.state.fs) (FileSystem.grows_refl _) ?_ ?_
  · intro z i c k a s hz _ _ ha
    exact hz.trans (written_of_answers ha).grows
  · intro z s hz henv
    rwa [← show _ = _ from henv] at hz

variable {env : Env} {reqs : ι → ReceiveRequest} {s : NodeState}

/-- Among the others, too, a request keeps to the destination it has checked. -/
theorem thread_of_reached (hcwd : s.fs.cwd.isAbsolute) (h : Reached (requests env reqs s) y) (i : ι) :
    (y.threads i).prog.wpc (Pool.heard (Heard s.fs)) (KeepsToDest s.fs) (fun _ _ ↦ True)
      (y.threads i).log := by
  refine h.thread ?_ (fun j ↦ wpc_handleReceive hcwd (reqs j)) i
  intro z j c k a s' hz hc _ ha
  exact heard_of_undisturbed (grows_of_reached hz) hc ha

theorem keepsToDest_of_call {c : Call} {k : c.Ans → Action Unit} (a : c.Ans) (hcwd : s.fs.cwd.isAbsolute)
    (h : Reached (requests env reqs s) y) (hp : (y.threads i).prog = .call c k)
    (ha : Heard s.fs (y.threads i).log c a) :
    KeepsToDest s.fs ((y.threads i).log ++ [⟨c, a⟩]) := by
  have hthread := thread_of_reached hcwd h i
  rw [hp] at hthread
  exact wpc_invariant (hthread.2 a _ ⟨ha, rfl⟩)

theorem undisturbing_of_reached (htree : s.fs.IsTree) (h : Reached (requests env reqs s) y) :
    Undisturbing s.fs y := by
  induction h with
  | refl =>
    refine ⟨FileSystem.grows_refl _, htree, fun i target ht ↦ ?_, fun i j _ _ _ p q hp ↦ ?_, fun i _ p hp ↦ ?_⟩
    · cases ht
    · cases hp
    · cases hp
  | @step z w i c hz hc hs ih =>
    cases hs with
    | call hp ha =>
      exact ih.step hc hp ha
        (keepsToDest_of_call _ htree.cwd hz hp (heard_of_undisturbed ih.grows hc ha))
  | env _ henv ih =>
    obtain ⟨hgrows, hisTree, hthere, hapart, hclear⟩ := ih
    rw [← show _ = _ from henv] at hgrows hisTree hthere
    exact ⟨hgrows, hisTree, hthere, hapart, hclear⟩

/-- Since the state `x`: nothing has gone, and below the destination of request `i` there
was nothing. -/
structure Since (x : Requests ι) (i : ι) (y : Requests ι) : Prop where
  kept : ∀ cs : List Bytes, (x.state.fs.nodes[cs]?).isSome → (y.state.fs.nodes[cs]?).isSome
  absent : ∀ p, checkedDest (y.threads i).log = some p → p ≠ [] →
    ∀ cs, x.state.fs.land p <+: cs → x.state.fs.nodes[cs]? = none

theorem since_of_reached (htree : s.fs.IsTree) (hx : Reached (requests env reqs s) x)
    (hi : (x.threads i).log = []) (h : Reached x y) : Since x i y := by
  induction h with
  | refl =>
    refine ⟨fun _ h ↦ h, fun p hp ↦ ?_⟩
    rw [hi] at hp
    cases hp
  | @step z w j c hz hc hs ih =>
    cases hs with
    | @call k a s' hp ha =>
      have hw := written_of_answers ha
      have hundisturbing := undisturbing_of_reached htree (hx.trans hz)
      refine ⟨fun cs hcs ↦ hw.grows.kept cs (ih.kept cs hcs), fun p hpi hpne cs hcs ↦ ?_⟩
      by_cases hij : i = j
      · subst hij
        rw [Pool.resume_self] at hpi
        rcases checkedDest_cases hpi with hold | ⟨hne, habsent⟩
        · exact ih.absent p hold hpne cs hcs
        · obtain ⟨rfl, hthere⟩ := pathExists_of_absent habsent ha
          have hnone : z.state.fs.nodes[cs]? = none := by
            apply nothing_below hundisturbing.isTree (hc hne hpne hthere).1
            rwa [(grows_of_reached hz).land]
          cases hold : x.state.fs.nodes[cs]? with
          | none => rfl
          | some node =>
            have hkept := ih.kept cs (by rw [hold]; rfl)
            rw [hnone] at hkept
            cases hkept
      · rw [Pool.resume_of_ne _ hij] at hpi
        exact ih.absent p hpi hpne cs hcs
  | env _ henv ih =>
    refine ⟨fun cs hcs ↦ ?_, ih.absent⟩
    rw [show _ = _ from henv]
    exact ih.kept cs hcs

/-- What request `i` exports to is a file that was there in `fs`, or that another request
has exported. -/
def Overwrites (fs : FileSystem) (y : Requests ι) (i : ι) (target : Path) : Prop :=
  (∃ node, fs.nodes[fs.land target]? = some node ∧ ∀ r, node ≠ .dir r) ∨
    ∃ j, j ≠ i ∧ ∃ q ∈ exported (y.threads j).log, y.state.fs.land q = y.state.fs.land target

/-- For every file system and every interleaving of `receive` requests that do not disturb
each other: at no time does a request export to a file that was there before it started, or
that another one has exported. -/
theorem receive_overwrites_nothing {hash : Hash} {target : Path} {k : Except Error Unit → Action Unit}
    (htree : s.fs.IsTree) (hx : Reached (requests env reqs s) x) (hi : (x.threads i).log = [])
    (hy : Reached x y) (hp : (y.threads i).prog = .call (.store (.exportBlob hash target)) k) :
    ¬ Overwrites x.state.fs y i target := by
  have hreached := hx.trans hy
  have hundisturbing := undisturbing_of_reached htree hreached
  obtain ⟨p, hchecked, hpne, hinside⟩ := keepsToDest_of_call (Except.error offline) htree.cwd hreached hp trivial
    target (by
      rw [exportTargets_append]
      simp [exportTarget])
  have hpi := checkedDest_of_append rfl hchecked
  rintro (⟨node, hnode, -⟩ | ⟨j, hj, q, hq, heq⟩)
  · have hnone := (since_of_reached htree hx hi hy).absent p hpi hpne (x.state.fs.land target) (by
      rw [(grows_of_reached hx).land, (grows_of_reached hx).land]
      exact hinside)
    rw [hnone] at hnode
    cases hnode
  · rw [hundisturbing.grows.land, hundisturbing.grows.land] at heq
    have hclear := hundisturbing.clear i ⟨_, _, hp⟩ p hpi hpne j hj q hq
    rw [LandsIn, heq] at hclear
    exact hclear hinside

end Pools

section TwoRequests

def holdingBlob : NodeState :=
  { emptyNode with store := BlobStore.empty.addBlob ⟨.fromByte 1, 5, none, none⟩, fs := .ofNodes [] }

def twoReceives (p q : Path) (second : Bool) : ReceiveRequest :=
  ⟨.nil, namedUri "a", some (if second then q else p), none⟩

def plainA : Env := .plain [namedWire "a"]

theorem handle_twoReceives (p q : Path) (second : Bool) : (twoReceives p q second).handle plainA =
    ticketDest plainA (namedTicket "a") (some (if second then q else p)) none false >>=
      receiveBlob plainA .nil (namedTicket "a") :=
  handleReceive_eq (fromUri_namedUri "a") ..

/-- Both make their checks, and then the first one gets past its export and the second one up to it. -/
def bothCheckFirst : List Bool :=
  [false, false, true, true] ++ List.replicate 8 false ++ List.replicate 7 true

def bothReceives (p q : Path) : Requests Bool :=
  Pool.start holdingBlob fun second ↦
    ticketDest plainA (namedTicket "a") (some (if second then q else p)) none false >>=
      receiveBlob plainA .nil (namedTicket "a")

theorem requests_twoReceives (p q : Path) : requests plainA (twoReceives p q) holdingBlob = bothReceives p q := by
  unfold requests bothReceives
  rw [funext (handle_twoReceives p q)]

def afterBoth (p q : Path) : Requests Bool := Pool.schedule exec bothCheckFirst (bothReceives p q)

def pendingExport : Action Unit → Option (Hash × Path)
  | .call (.store (.exportBlob hash target)) _ => some (hash, target)
  | _ => none

theorem call_of_pendingExport {prog : Action Unit} {hash : Hash} {target : Path}
    (h : pendingExport prog = some (hash, target)) : ∃ k, prog = .call (.store (.exportBlob hash target)) k := by
  unfold pendingExport at h
  split at h
  · obtain ⟨rfl, rfl⟩ := Prod.mk.inj (Option.some.inj h)
    exact ⟨_, rfl⟩
  · cases h

def undisturbed (x : Requests Bool) (i : Bool) : Call → Bool
  | .pathExists p => (x.state.fs.nodeAt (x.state.fs.land p)).isNone &&
    (checkedDest (x.threads (!i)).log).all fun q ↦ decide (Apart x.state.fs p q)
  | .isDir p => checkedDest (x.threads i).log != some p || !x.state.fs.isDir p
  | .store (.loadCollection _) => false
  | _ => true

theorem undisturbed_of_check {x : Requests Bool} {i : Bool} {c : Call} (h : undisturbed x i c = true) :
    Undisturbed x i c := by
  cases c with
  | pathExists p =>
    intro _ _ _
    obtain ⟨hnone, hapart⟩ := Bool.and_eq_true_iff.mp h
    refine ⟨Option.isNone_iff_eq_none.mp hnone, fun j hj _ q hq _ ↦ ?_⟩
    obtain rfl : j = !i := Bool.eq_not_of_ne hj
    simpa [hq] using hapart
  | isDir p =>
    intro hp
    simpa [undisturbed, hp] using h
  | store c =>
    cases c with
    | loadCollection root => cases h
    | _ => trivial
  | _ => trivial

theorem isTree_holdingBlob : holdingBlob.fs.IsTree := by
  apply FileSystem.isTree_ofNodes
  simp

/-- Two requests with destinations apart, each of which has checked before either exports. -/
theorem receive_overwrites_nothing_apart : ¬ Overwrites holdingBlob.fs
    (afterBoth (Path.ofString "/a") (Path.ofString "/b")) true (Path.ofString "/b") := by
  have hchecked : Pool.scheduleChecked exec undisturbed bothCheckFirst
      (bothReceives (Path.ofString "/a") (Path.ofString "/b")) = true := by
    decide +kernel
  have hreached : Reached (bothReceives (Path.ofString "/a") (Path.ofString "/b"))
      (afterBoth (Path.ofString "/a") (Path.ofString "/b")) :=
    (Pool.reaches_schedule _ _ hchecked).mono (fun _ _ _ _ ↦ answers_of_graph)
      (fun _ _ _ ↦ undisturbed_of_check)
  rw [← requests_twoReceives] at hreached
  have hpending : pendingExport ((afterBoth (Path.ofString "/a") (Path.ofString "/b")).threads true).prog =
      some (.fromByte 1, Path.ofString "/b") := by
    decide +kernel
  obtain ⟨k, hk⟩ := call_of_pendingExport hpending
  exact receive_overwrites_nothing isTree_holdingBlob .refl rfl hreached hk

/-- Two requests with the same destination: the second one replaces what the first one has
exported. -/
theorem receive_overwrites : ∃ x y : Requests Bool, ∃ hash target k s,
    x = requests plainA (twoReceives (Path.ofString "/a") (Path.ofString "/a")) holdingBlob ∧
    Pool.Reaches Answers OffDisk (fun _ _ _ ↦ True) x y ∧
    (y.threads true).prog = .call (.store (.exportBlob hash target)) k ∧
    Overwrites holdingBlob.fs y true target ∧
    Answers (.store (.exportBlob hash target)) y.state (.ok ()) s := by
  have hchecked : Pool.scheduleChecked exec (fun _ _ _ ↦ true) bothCheckFirst
      (bothReceives (Path.ofString "/a") (Path.ofString "/a")) = true := by
    decide +kernel
  have hpending : pendingExport ((afterBoth (Path.ofString "/a") (Path.ofString "/a")).threads true).prog =
      some (.fromByte 1, Path.ofString "/a") := by
    decide +kernel
  obtain ⟨k, hk⟩ := call_of_pendingExport hpending
  have hexported : exported ((afterBoth (Path.ofString "/a") (Path.ofString "/a")).threads false).log =
      [Path.ofString "/a"] := by
    decide +kernel
  have hok : (exec (.store (.exportBlob (.fromByte 1) (Path.ofString "/a")))
      (afterBoth (Path.ofString "/a") (Path.ofString "/a")).state).1 = .ok () := by
    decide +kernel
  have hanswers := Answers.exec (.store (.exportBlob (.fromByte 1) (Path.ofString "/a")))
    (afterBoth (Path.ofString "/a") (Path.ofString "/a")).state
  rw [hok] at hanswers
  refine ⟨_, afterBoth (Path.ofString "/a") (Path.ofString "/a"), _, _, k, _, rfl, ?_, hk, ?_, hanswers⟩
  · rw [requests_twoReceives]
    exact (Pool.reaches_schedule _ _ hchecked).mono (fun _ _ _ _ ↦ answers_of_graph) (fun _ _ _ _ ↦ trivial)
  · refine .inr ⟨false, by simp, Path.ofString "/a", ?_, rfl⟩
    rw [hexported]
    simp

end TwoRequests

end Ringdrop.Handlers
