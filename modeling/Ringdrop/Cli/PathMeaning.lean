import Ringdrop.Cli.Command
import Ringdrop.Core.DirectoryRoundTrip
import Ringdrop.Daemon.ReceiveOverlap

namespace Ringdrop.Cli

open Library Program Handlers

/-- The path at which a call looks for, reads or writes a file or directory. -/
def touched : Call → Option Path
  | .pathExists p => some p
  | .isDir p => some p
  | .walkDir p => some p
  | .store (.addPath p) => some p
  | .store (.exportBlob _ p) => some p
  | _ => none

/-- The paths that a run has touched. At the empty path there is nothing. -/
def touches (log : Trace Call.Ans) : List Path := log.filterMap fun x ↦ (touched x.1).filter (· ≠ [])

/-- The names under which a command finds or puts files, given what its run has been told:
those of directory entries, or those of the blob and of the members of a collection. -/
def Cmd.Names (env : Env) (log : Trace Call.Ans) : Cmd → Bytes → Prop
  | .receive ticketStr _ _, n =>
    (∃ ticket, ShareTicket.fromUri env ticketStr = .ok ticket ∧
      n = blobName ticket.name (toString ticket.hash)) ∨
    ∃ root collection, (⟨.store (.loadCollection root), .ok collection⟩ : (c : Call) × c.Ans) ∈ log ∧
      ∃ m ∈ collection, n = Path.ofString m.1
  | _, n => Path.IsName n

/-- How far the file system follows a path for a process in `cwd`: the place it gets to,
and the names it has left there. -/
def reach (disk : FileSystem) (cwd p : Path) : List Bytes × List Bytes :=
  Lookup.progress (disk.step FileSystem.linkDepth) (disk.origin cwd p) p.components

/-- For the daemon the path `q` leads where some names below `p` lead from `c`, however the
file system has grown meanwhile. -/
def Meant (names : Bytes → Prop) (disk : FileSystem) (c p q : Path) : Prop :=
  ∃ rel : List Bytes, (∀ n ∈ rel, names n) ∧
    ∀ later, disk.Grows later → reach later disk.cwd q = reach later c (p.below rel)

/-- A daemon touches what `p` denotes relative to `c`, and what names below it denote. -/
structure Denoted (names : Bytes → Prop) (disk : FileSystem) (c p : Path) (touches : List Path) : Prop where
  start : ∀ q, touches.head? = some q → reach disk disk.cwd q = reach disk c p
  meant : ∀ q ∈ touches, Meant names disk c p q

/-- A first part of the path leads from both directories to one place. -/
def Meets (disk : FileSystem) (c d p : Path) : Prop :=
  ∃ front back, p.components = front ++ back ∧ ∃ place,
    disk.walk (disk.workingDir c) front = some place ∧ disk.walk (disk.workingDir d) front = some place

section Paths

variable {disk later : FileSystem} {c p q q' : Path}

theorem reach_eq_iff : reach disk disk.cwd p = reach disk c p ↔ p.isAbsolute ∨ Meets disk c disk.cwd p := by
  unfold reach FileSystem.origin Meets
  by_cases hp : p.isAbsolute
  · simp [hp]
  · simp only [hp, Bool.false_eq_true, false_or, if_false]
    rw [eq_comm]
    exact Lookup.progress_eq_iff

theorem Meets.grows (h : Meets disk c disk.cwd p) (hgrows : disk.Grows later) : Meets later c later.cwd p := by
  obtain ⟨front, back, hp, place, hc, hd⟩ := h
  refine ⟨front, back, hp, place, ?_, ?_⟩
  · rw [hgrows.workingDir]
    exact hgrows.walk hc
  · rw [hgrows.workingDir, hgrows.cwd]
    exact hgrows.walk hd

theorem reach_grows (h : reach disk disk.cwd p = reach disk c p) (hgrows : disk.Grows later) :
    reach later disk.cwd p = reach later c p := by
  rw [← hgrows.cwd]
  exact reach_eq_iff.mpr ((reach_eq_iff.mp h).imp_right fun hmeets ↦ hmeets.grows hgrows)

theorem reach_join (cwd p n : Path) : reach disk cwd (p.join n) = if n.isAbsolute then reach disk cwd n
    else Lookup.progress (disk.step FileSystem.linkDepth) (reach disk cwd p).1
      ((reach disk cwd p).2 ++ n.components) := by
  have hcs : (p.join n).components = if n.isAbsolute then n.components else p.components ++ n.components :=
    LexicalPath.components_join p n
  have hjoin : (p.join n).isAbsolute = (p.isAbsolute || n.isAbsolute) := LexicalPath.isAbsolute_join p n
  unfold reach FileSystem.origin
  rw [hcs, hjoin]
  by_cases hn : n.isAbsolute
  · simp [hn]
  · simp only [hn, Bool.or_false, Bool.false_eq_true, if_false]
    exact Lookup.progress_append_eq

theorem reach_join_congr (h : reach later disk.cwd q = reach later c q') (n : Path) :
    reach later disk.cwd (q.join n) = reach later c (q'.join n) := by
  rw [reach_join, reach_join, h]
  by_cases hn : n.isAbsolute
  · simp only [hn, if_true]
    unfold reach FileSystem.origin
    rw [if_pos hn, if_pos hn]
  · simp only [hn, Bool.false_eq_true, if_false]

theorem reach_below_congr (h : reach later disk.cwd q = reach later c q') (rel : List Bytes) :
    reach later disk.cwd (q.below rel) = reach later c (q'.below rel) := by
  induction rel generalizing q q' with
  | nil => exact h
  | cons n rel ih =>
    rw [Path.below_cons, Path.below_cons]
    exact ih (reach_join_congr h n)

variable {names names' : Bytes → Prop}

theorem meant_self (h : reach disk disk.cwd p = reach disk c p) : Meant names disk c p p :=
  ⟨[], by simp, fun _ hgrows ↦ reach_grows h hgrows⟩

theorem Meant.mono (h : Meant names disk c p q) (hn : ∀ n, names n → names' n) : Meant names' disk c p q := by
  obtain ⟨rel, hrel, hq⟩ := h
  exact ⟨rel, fun n hmem ↦ hn n (hrel n hmem), hq⟩

theorem Meant.below (h : Meant names disk c p q) {rel : List Bytes} (hrel : ∀ n ∈ rel, names n) :
    Meant names disk c p (q.below rel) := by
  obtain ⟨rel₀, hrel₀, hq⟩ := h
  refine ⟨rel₀ ++ rel, ?_, fun later hgrows ↦ ?_⟩
  · intro n hn
    rcases List.mem_append.mp hn with hn | hn
    · exact hrel₀ n hn
    · exact hrel n hn
  · rw [show p.below (rel₀ ++ rel) = (p.below rel₀).below rel from List.foldl_append]
    exact reach_below_congr (hq later hgrows) rel

theorem Meant.join (h : Meant names disk c p q) {n : Path} (hn : names n) : Meant names disk c p (q.join n) := by
  have hrel : ∀ m ∈ [n], names m := by simpa using hn
  exact h.below hrel

theorem Meant.absolute (htree : disk.IsTree) (h : Meant names disk c p q) (hq : q.absolute disk.cwd = .ok q') :
    Meant names disk c p q' := by
  obtain ⟨rel, hrel, hreach⟩ := h
  refine ⟨rel, hrel, fun later hgrows ↦ ?_⟩
  rw [← hreach later hgrows]
  obtain ⟨habs, hcs, -⟩ := Path.components_absolute htree.cwd hq
  unfold reach FileSystem.origin
  rw [if_pos habs, hcs]
  split
  · rfl
  · have hworking := hgrows.walk htree.working
    rw [← hgrows.workingDir] at hworking
    exact Lookup.progress_append hworking _

end Paths

theorem touches_append (log rest : Trace Call.Ans) : touches (log ++ rest) = touches log ++ touches rest :=
  List.filterMap_append

theorem touches_singleton {c : Call} (a : c.Ans) {p : Path} (h : touched c = some p) :
    touches [⟨c, a⟩] = if p = [] then [] else [p] := by
  unfold touches
  rw [List.filterMap_cons, List.filterMap_nil, h]
  by_cases hp : p = [] <;> simp [Option.filter, hp]

theorem touches_concat (log : Trace Call.Ans) (x : (c : Call) × c.Ans) :
    touches (log ++ [x]) = touches log ++ ((touched x.1).filter (· ≠ [])).toList := by
  rw [touches_append]
  unfold touches
  rw [List.filterMap_cons, List.filterMap_nil]
  cases (touched x.1).filter (· ≠ []) <;> rfl

theorem ne_nil_of_mem_touches {log : Trace Call.Ans} {p : Path} (h : p ∈ touches log) : p ≠ [] := by
  obtain ⟨x, -, hx⟩ := List.mem_filterMap.mp h
  simpa using (Option.filter_eq_some_iff.mp hx).2

/-- What holds of a daemon whenever its handler has touched `p`, if it began with `disk`. -/
structure Keeps (names : Trace Call.Ans → Bytes → Prop) (disk : FileSystem) (c p : Path)
    (x : NodeState × Trace Call.Ans) : Prop where
  initial : disk.IsTree
  grows : disk.Grows x.1.fs
  tree : x.1.fs.IsTree
  begun : touches x.2 = [] ∧ p = [] ∨ (touches x.2).head? = some p
  meant : ∀ q ∈ touches x.2, Meant (names x.2) disk c p q

section Handling

variable {names : Trace Call.Ans → Bytes → Prop} {disk : FileSystem} {c p : Path} {x y : NodeState × Trace Call.Ans}

theorem Keeps.denoted (h : Keeps names disk c p x) (hp : p ≠ [] → reach disk disk.cwd p = reach disk c p) :
    Denoted (names x.2) disk c p (touches x.2) := by
  refine ⟨fun q hq ↦ ?_, h.meant⟩
  rcases h.begun with ⟨hnil, -⟩ | hhead
  · rw [hnil] at hq
    cases hq
  · obtain rfl := Option.some.inj (hhead.symm.trans hq)
    exact hp (ne_nil_of_mem_touches (List.mem_of_mem_head? hq))

variable (hnames : ∀ log x n, names log n → names (log ++ [x]) n)
include hnames

theorem Keeps.step {q : Call} {a : q.Ans} (h : Keeps names disk c p x) (hlog : logged Answers q x a y)
    (hq : ∀ r, touched q = some r → r ≠ [] → p ≠ [] ∧ Meant (names x.2) disk c p r) : Keeps names disk c p y := by
  obtain ⟨s, log⟩ := x
  obtain ⟨s', log'⟩ := y
  have hans : Answers q s a s' := hlog.1
  obtain rfl : log' = log ++ [⟨q, a⟩] := hlog.2
  have hwritten := written_of_answers hans
  constructor
  · exact h.initial
  · exact h.grows.trans hwritten.grows
  · exact hwritten.isTree h.tree
  · show touches (log ++ [⟨q, a⟩]) = [] ∧ p = [] ∨ (touches (log ++ [⟨q, a⟩])).head? = some p
    rw [touches_concat]
    rcases h.begun with ⟨hnil, rfl⟩ | hhead
    · left
      refine ⟨?_, rfl⟩
      rw [show touches log = [] from hnil, List.nil_append, Option.toList_eq_nil_iff, Option.filter_eq_none_iff]
      intro r hr
      have hempty : ¬ r ≠ [] := fun hne ↦ (hq r hr hne).1 rfl
      simpa using hempty
    · right
      rw [List.head?_append, show (touches log).head? = some p from hhead, Option.some_or]
  · show ∀ r ∈ touches (log ++ [⟨q, a⟩]), Meant (names (log ++ [⟨q, a⟩])) disk c p r
    intro r hr
    rw [touches_concat] at hr
    rcases List.mem_append.mp hr with hr | hr
    · exact (h.meant r hr).mono (hnames log _)
    · obtain ⟨hr, hne⟩ := Option.filter_eq_some_iff.mp (Option.mem_toList.mp hr)
      exact (hq r hr (by simpa using hne)).2.mono (hnames log _)

def Untouching (q : Call) : Prop := touched q = none

omit hnames in
theorem untouching_of_silent : ∀ q : Call, q.Silent → Untouching q := by
  intro q hq
  cases q with
  | pathExists p => exact hq.elim
  | isDir p => exact hq.elim
  | walkDir p => exact hq.elim
  | store q =>
    cases q with
    | addPath p => exact hq.elim
    | exportBlob hash p => exact hq.elim
    | _ => rfl
  | _ => rfl

theorem Keeps.step_untouching {q : Call} {a : q.Ans} (hq : Untouching q) (h : Keeps names disk c p x)
    (hlog : logged Answers q x a y) : Keeps names disk c p y := by
  apply h.step hnames hlog
  intro r hr
  rw [show touched q = none from hq] at hr
  cases hr

theorem wpc_untouching {α : Type} {q : Action α} (hq : q.Uses Untouching) (h : Keeps names disk c p x) :
    q.wpc (logged Answers) (Keeps names disk c p) (fun _ _ ↦ True) x :=
  hq.wpc_invariant (fun _ _ _ _ hc hx hlog ↦ hx.step_untouching hnames hc hlog) h

theorem wpc_touch {q : Call} {r : Path} (htouch : touched q = some r) (h : Keeps names disk c p x)
    (hr : r ≠ [] → p ≠ [] ∧ Meant (names x.2) disk c p r) {Q : q.Ans → NodeState × Trace Call.Ans → Prop}
    (hQ : ∀ a y, logged Answers q x a y → Keeps names disk c p y → Q a y) :
    (Program.ask q : Action q.Ans).wpc (logged Answers) (Keeps names disk c p) Q x := by
  apply wpc_ask h
  intro a y hlog
  have hy : Keeps names disk c p y := by
    apply h.step hnames hlog
    intro r' hr' hne
    obtain rfl := Option.some.inj (htouch.symm.trans hr')
    exact hr hne
  exact ⟨hy, hQ a y hlog hy⟩

theorem wpc_absolute {q : Path} (h : Keeps names disk c p x) :
    (fs (.absolute q)).wpc (logged Answers) (Keeps names disk c p)
      (fun q' _ ↦ q ≠ [] ∧ q.absolute disk.cwd = .ok q') x := by
  apply wpc_bind
  apply wpc_ask h
  intro a y hlog
  have hy : Keeps names disk c p y :=
    h.step_untouching hnames (show Untouching (.fs (.absolute q)) from rfl) hlog
  refine ⟨hy, wpc_ofExcept hy ?_⟩
  rintro q' rfl
  have habs : q.absolute disk.cwd = .ok q' := by
    rcases answers_fs hlog.1 with ⟨ha, -⟩ | ⟨⟨e, ha⟩, -⟩
    · rw [← h.grows.cwd]
      exact ha.symm
    · cases ha
  refine ⟨?_, habs⟩
  rintro rfl
  cases habs

end Handling

section Imports

variable {disk : FileSystem} {c p : Path} {x : NodeState × Trace Call.Ans}

abbrev fileNames : Trace Call.Ans → Bytes → Prop := fun _ ↦ Path.IsName

theorem fileNames_mono (log : Trace Call.Ans) (x : (c : Call) × c.Ans) (n : Bytes)
    (h : fileNames log n) : fileNames (log ++ [x]) n := h

theorem wpc_addPath {q : Path} (h : Keeps fileNames disk c p x) (hq : p ≠ [] ∧ Meant Path.IsName disk c p q) :
    (store (.addPath q)).wpc (logged Answers) (Keeps fileNames disk c p) (fun _ _ ↦ True) x := by
  apply wpc_bind
  refine wpc_touch fileNames_mono rfl h (fun _ ↦ hq) fun a y _ hy ↦ ?_
  exact wpc_ofExcept hy fun _ _ ↦ trivial

theorem wpc_importFile {q : Path} (h : Keeps fileNames disk c p x)
    (hq : q ≠ [] → p ≠ [] ∧ Meant Path.IsName disk c p q) :
    (Node.importFile q).wpc (logged Answers) (Keeps fileNames disk c p) (fun _ _ ↦ True) x := by
  apply wpc_bind
  refine wpc_mono (wpc_absolute fileNames_mono h) fun q' y hy hq' ↦ ?_
  obtain ⟨hp, hmeant⟩ := hq hq'.1
  apply wpc_bind
  apply wpc_mapError
  refine wpc_mono (wpc_addPath hy ⟨hp, hmeant.absolute hy.initial hq'.2⟩) fun tag z hz _ ↦ ?_
  exact wpc_untouching fileNames_mono (Node.uses_pin (fun q h ↦ untouching_of_silent q h.silent) ..) hz

theorem wpc_addToCollection {collection : Collection} {file : String × Path} (h : Keeps fileNames disk c p x)
    (hp : p ≠ []) (hfile : Meant Path.IsName disk c p file.2) :
    (Node.addToCollection collection file).wpc (logged Answers) (Keeps fileNames disk c p) (fun _ _ ↦ True) x := by
  apply wpc_bind
  refine wpc_mono (wpc_absolute fileNames_mono h) fun q' y hy hq' ↦ ?_
  apply wpc_bind
  refine wpc_mono (wpc_addPath hy ⟨hp, hfile.absolute hy.initial hq'.2⟩) fun tag z hz _ ↦ ?_
  apply wpc_untouching fileNames_mono _ hz
  exact (uses_dropTempTag untouching_of_silent tag).bind fun _ ↦ trivial

theorem wpc_importDirectory {env : Env} {dir : Path} (h : Keeps fileNames disk c p x) (hdir : dir ≠ [])
    (hm : p ≠ [] ∧ Meant Path.IsName disk c p dir) :
    (Node.importDirectory env dir).wpc (logged Answers) (Keeps fileNames disk c p) (fun _ _ ↦ True) x := by
  apply wpc_bind
  refine wpc_touch fileNames_mono rfl h (fun _ ↦ hm) fun entries y hlog hy ↦ ?_
  obtain ⟨rfl, -⟩ := answers_walkDir hlog.1
  rw [Node.collectFiles_walkDir h.tree hdir]
  apply wpc_bind
  have hfiles : ∀ file ∈ (x.1.fs.visibleFiles dir).map (fun f ↦ (Node.memberName f.1, dir.below f.1)),
      Meant Path.IsName disk c p file.2 := by
    intro file hfile
    obtain ⟨f, hf, rfl⟩ := List.mem_map.mp hfile
    exact hm.2.below ((FileSystem.mem_visibleFiles.mp hf).1.names h.tree)
  refine wpc_mono (wpc_foldlM (fun _ file hfile z hz ↦ ?_) hy) fun collection z hz _ ↦ ?_
  · exact wpc_addToCollection hz hm.1 (hfiles file hfile)
  apply wpc_untouching fileNames_mono _ hz
  exact (Node.uses_storeCollection (fun q h ↦ untouching_of_silent q h.silent) env collection).bind
    fun tag ↦ Node.uses_pin (fun q h ↦ untouching_of_silent q h.silent) ..

end Imports

def Begins {α : Type} (names : Trace Call.Ans → Bytes → Prop) (disk : FileSystem) (c p : Path) (q : Action α) : Prop :=
  ∃ (first : Call) (k : first.Ans → Action α), q = .call first k ∧ touched first = some p ∧
    ∀ a x y, (p ≠ [] → reach disk disk.cwd p = reach disk c p) → logged Answers first x a y → Keeps names disk c p y →
      (k a).wpc (logged Answers) (Keeps names disk c p) (fun _ _ ↦ True) y

section Beginnings

variable {names : Trace Call.Ans → Bytes → Prop} {disk : FileSystem} {c p : Path} {env : Env} {α β : Type}

theorem Begins.bind {q : Action α} {f : α → Action β} (h : Begins names disk c p q)
    (hf : ∀ v x, Keeps names disk c p x → (f v).wpc (logged Answers) (Keeps names disk c p) (fun _ _ ↦ True) x) :
    Begins names disk c p (q >>= f) := by
  obtain ⟨first, k, rfl, htouch, hk⟩ := h
  refine ⟨first, fun a ↦ k a >>= f, rfl, htouch, fun a x y hp hlog hy ↦ ?_⟩
  apply wpc_bind
  exact wpc_mono (hk a x y hp hlog hy) fun v z hz _ ↦ hf v z hz

theorem wpc_imported {there : Bool} {x : NodeState × Trace Call.Ans} (h : Keeps fileNames disk c p x)
    (hthere : there = true → p ≠ []) (hp : p ≠ [] → reach disk disk.cwd p = reach disk c p) :
    (if there then Node.importDirectory env p else Node.importFile p).wpc (logged Answers)
      (Keeps fileNames disk c p) (fun _ _ ↦ True) x := by
  cases there with
  | true => exact wpc_importDirectory h (hthere rfl) ⟨hthere rfl, meant_self (hp (hthere rfl))⟩
  | false => exact wpc_importFile h fun hne ↦ ⟨hne, meant_self (hp hne)⟩

theorem begins_importPath : Begins fileNames disk c p (Node.importPath env p) := by
  refine ⟨.isDir p, _, rfl, rfl, fun there x y hp hlog hy ↦ ?_⟩
  refine wpc_imported hy ?_ hp
  rintro rfl
  exact FileSystem.ne_nil_of_isDir (answers_isDir hlog.1).1.symm

theorem begins_resolveTarget {target : String} :
    Begins fileNames disk c (Path.ofString target) (resolveTarget env target) := by
  refine ⟨.pathExists (Path.ofString target), _, rfl, rfl, fun there x y hp hlog hy ↦ ?_⟩
  cases there with
  | false => exact wpc_untouching fileNames_mono (uses_ofExcept _) hy
  | true =>
    -- an existing target is imported, which begins with a second look at it
    obtain ⟨first, k, himport, htouch, hk⟩ := begins_importPath (p := Path.ofString target) (c := c)
    have hwhole : (Node.importPath env (Path.ofString target)).wpc (logged Answers)
        (Keeps fileNames disk c (Path.ofString target)) (fun _ _ ↦ True) y := by
      rw [himport]
      exact wpc_bind (wpc_touch fileNames_mono htouch hy (fun hne ↦ ⟨hne, meant_self (hp hne)⟩)
        fun a z hz hkeeps ↦ hk a y z hp hz hkeeps)
    change ((Node.importPath env (Path.ofString target) >>= _ : Action Hash)).wpc _ _ _ _
    apply wpc_bind
    exact wpc_mono hwhole fun imported z hz _ ↦ ⟨hz, trivial⟩

end Beginnings

section Receiving

variable {disk : FileSystem} {c p e : Path} {env : Env} {cmd : Cmd} {x : NodeState × Trace Call.Ans} {ticketStr : String}
  {dest : Option Path} {force : Bool} {ticket : ShareTicket}

theorem Cmd.names_mono (log : Trace Call.Ans) (x : (c : Call) × c.Ans) (n : Bytes)
    (h : cmd.Names env log n) : cmd.Names env (log ++ [x]) n := by
  cases cmd with
  | receive ticketStr dest force =>
    rcases h with h | ⟨root, collection, hmem, hn⟩
    · exact .inl h
    · exact .inr ⟨root, collection, List.mem_append_left _ hmem, hn⟩
  | _ => exact h

abbrev receivedNames (env : Env) (ticketStr : String) (dest : Option Path) (force : Bool) :
    Trace Call.Ans → Bytes → Prop := fun log ↦ (Cmd.receive ticketStr dest force).Names env log

structure Loaded (env : Env) (ticketStr : String) (dest : Option Path) (force : Bool) (disk : FileSystem)
    (c p : Path) (collection : Collection) (x : NodeState × Trace Call.Ans) : Prop where
  keeps : Keeps (receivedNames env ticketStr dest force) disk c p x
  told : ∀ m ∈ collection, receivedNames env ticketStr dest force x.2 (Path.ofString m.1)

theorem Loaded.step {collection : Collection} {y : NodeState × Trace Call.Ans} {q : Call} {a : q.Ans}
    (h : Loaded env ticketStr dest force disk c p collection x) (hlog : logged Answers q x a y)
    (hq : ∀ r, touched q = some r → r ≠ [] → p ≠ [] ∧
      Meant (receivedNames env ticketStr dest force x.2) disk c p r) :
    Loaded env ticketStr dest force disk c p collection y := by
  refine ⟨h.keeps.step Cmd.names_mono hlog hq, fun m hm ↦ ?_⟩
  rw [hlog.2]
  exact Cmd.names_mono _ _ _ (h.told m hm)

theorem wpc_exportMember {collection : Collection} {path : Path} {m : String × Hash}
    (h : Loaded env ticketStr dest force disk c p collection x) (hm : m ∈ collection) (hp : p ≠ [])
    (hpath : ∀ log, Meant (receivedNames env ticketStr dest force log) disk c p path) :
    (RingReceiver.exportMember path m).wpc (logged Answers)
      (Loaded env ticketStr dest force disk c p collection) (fun _ _ ↦ True) x := by
  apply wpc_bind
  have hparent := RingReceiver.uses_createParent untouching_of_silent (path.join (Path.ofString m.1))
  refine wpc_mono (hparent.wpc_invariant ?_ h) fun _ y hy _ ↦ ?_
  · intro q x a y hq hx hlog
    refine hx.step hlog fun r hr ↦ ?_
    rw [show touched q = none from hq] at hr
    cases hr
  · apply wpc_mapError
    apply wpc_bind
    apply wpc_ask hy
    intro a z hlog
    have hz : Loaded env ticketStr dest force disk c p collection z := by
      refine hy.step hlog ?_
      rintro r ⟨⟩ -
      exact ⟨hp, (hpath _).join (hy.told m hm)⟩
    exact ⟨hz, wpc_ofExcept hz fun _ _ ↦ trivial⟩

variable (ht : ShareTicket.fromUri env ticketStr = .ok ticket) (hp : p ≠ [])
  (he : ∀ log, Meant (receivedNames env ticketStr dest force log) disk c p e)
include ht hp he

theorem wpc_export (h : Keeps (receivedNames env ticketStr dest force) disk c p x) :
    (RingReceiver.«export» ticket.hash ticket.format ticket.name e).wpc (logged Answers)
      (Keeps (receivedNames env ticketStr dest force) disk c p) (fun _ _ ↦ True) x := by
  have hname : ∀ log, receivedNames env ticketStr dest force log
      (blobName ticket.name (toString ticket.hash)) := fun log ↦ .inl ⟨ticket, ht, rfl⟩
  unfold RingReceiver.«export»
  apply wpc_bind
  have hpath : (RingReceiver.exportPath ticket.hash ticket.name e).wpc (logged Answers)
      (Keeps (receivedNames env ticketStr dest force) disk c p)
      (fun path _ ↦ ∀ log, Meant (receivedNames env ticketStr dest force log) disk c p path) x := by
    apply wpc_bind
    refine wpc_touch Cmd.names_mono rfl h (fun _ ↦ ⟨hp, he _⟩) fun there y _ hy ↦ ?_
    cases there with
    | true =>
      refine wpc_mono (wpc_absolute Cmd.names_mono hy) fun path z hz hq log ↦ ?_
      exact ((he log).join (hname log)).absolute hz.initial hq.2
    | false =>
      refine wpc_mono (wpc_absolute Cmd.names_mono hy) fun path z hz hq log ↦ ?_
      exact (he log).absolute hz.initial hq.2
  refine wpc_mono hpath fun path y hy hmeant ↦ ?_
  cases ticket.format with
  | raw =>
    apply wpc_mapError
    apply wpc_bind
    refine wpc_touch Cmd.names_mono rfl hy (fun _ ↦ ⟨hp, hmeant _⟩) fun a z _ hz ↦ ?_
    exact wpc_ofExcept hz fun _ _ ↦ trivial
  | hashSeq =>
    apply wpc_bind
    refine wpc_mono (wpc_untouching Cmd.names_mono (uses_fs untouching_of_silent) hy) fun _ z hz _ ↦ ?_
    apply wpc_bind
    apply wpc_mapError
    apply wpc_bind
    apply wpc_ask hz
    intro a w hlog
    have hw := hz.step_untouching Cmd.names_mono
      (show Untouching (.store (.loadCollection ticket.hash)) from rfl) hlog
    refine ⟨hw, wpc_ofExcept hw ?_⟩
    rintro collection rfl
    have hloaded : Loaded env ticketStr dest force disk c p collection w := by
      refine ⟨hw, fun m hm ↦ .inr ⟨ticket.hash, collection, ?_, m, hm, rfl⟩⟩
      rw [hlog.2]
      exact List.mem_append_right _ (List.mem_singleton_self _)
    refine wpc_weaken (wpc_forM (fun m hm x hx ↦ ?_) hloaded) fun x hx ↦ hx.keeps
    exact wpc_exportMember hx hm hp hmeant

omit he in
theorem begins_handleReceive (reqId : Uuid) (defaultReceiveDir : Option Path) :
    Begins (receivedNames env ticketStr (some p) force) disk c p
      (handleReceive env reqId ticketStr (some p) defaultReceiveDir force) := by
  have hdest : ticketDest env ticket (some p) defaultReceiveDir force = (do
      let there ← isDir p
      rejectExisting (if there then p.join (blobName ticket.name (toString ticket.hash)) else p) force) := by
    have hexplicit : resolveDest (some p) defaultReceiveDir env.homeDir = .ok (.explicit p) := if_neg hp
    unfold ticketDest
    rw [hexplicit]
    change (checkDest p ticket.name (toString ticket.hash) force >>= pure) = _
    rw [bind_pure]
    unfold checkDest
    congr 1
    funext there
    cases there <;> rfl
  rw [handleReceive_eq ht, hdest, bind_assoc]
  refine ⟨.isDir p, fun there ↦ rejectExisting (if there then p.join (blobName ticket.name
    (toString ticket.hash)) else p) force >>= receiveBlob env reqId ticket, rfl, rfl, ?_⟩
  intro there x y hres _ hy
  dsimp only
  generalize he : (if there then p.join (blobName ticket.name (toString ticket.hash)) else p) = e
  have hmeant : ∀ log, Meant (receivedNames env ticketStr (some p) force log) disk c p e := by
    intro log
    rw [← he]
    cases there with
    | true => exact (meant_self (hres hp)).join (.inl ⟨ticket, ht, rfl⟩)
    | false => exact meant_self (hres hp)
  apply wpc_bind
  apply wpc_bind
  refine wpc_touch Cmd.names_mono rfl hy (fun _ ↦ ⟨hp, hmeant _⟩) fun exists? z _ hz ↦ ?_
  split
  · exact hz
  · refine ⟨hz, wpc_receiveBlob (P := Untouching) (fun c h ↦ untouching_of_silent c h.silent) (fun _ ↦ rfl)
      (fun _ ↦ rfl) rfl rfl ?_ (fun x hx ↦ wpc_export ht hp hmeant hx) hz⟩
    exact fun _ _ _ _ hq hx hlog ↦ hx.step_untouching Cmd.names_mono hq hlog

end Receiving

theorem log_grows {α : Type} (q : Action α) (x : NodeState × Trace Call.Ans) :
    x.2 <+: (run execLogged q x).2.2 := by
  have hrun := runs_execLogged Answers.exec q x
  refine hrun.invariant (I := fun y ↦ x.2 <+: y.2) ?_ List.prefix_rfl
  intro c y a z hy hz
  rw [hz.2]
  exact hy.trans (List.prefix_append _ _)

theorem keeps_first {names : Trace Call.Ans → Bytes → Prop} {c p : Path} {s : NodeState} {first : Call}
    {a : first.Ans} {y : NodeState × Trace Call.Ans} (htree : s.fs.IsTree) (htouch : touched first = some p)
    (hp : p ≠ [] → reach s.fs s.fs.cwd p = reach s.fs c p) (hlog : logged Answers first (s, []) a y) :
    Keeps names s.fs c p y := by
  obtain ⟨s', log⟩ := y
  obtain rfl : log = [⟨first, a⟩] := hlog.2
  have hwritten := written_of_answers (show Answers first s a s' from hlog.1)
  have htouches := touches_singleton a htouch
  refine ⟨htree, hwritten.grows, hwritten.isTree htree, ?_, ?_⟩
  · show touches [⟨first, a⟩] = [] ∧ p = [] ∨ (touches [⟨first, a⟩]).head? = some p
    rw [htouches]
    by_cases hne : p = []
    · exact .inl ⟨if_pos hne, hne⟩
    · right
      rw [if_neg hne]
      rfl
  · show ∀ q ∈ touches [⟨first, a⟩], Meant (names [⟨first, a⟩]) s.fs c p q
    intro q hq
    have hne := ne_nil_of_mem_touches hq
    rw [htouches] at hq
    split at hq
    · cases hq
    · obtain rfl := List.mem_singleton.mp hq
      exact meant_self (hp hne)

section Commands

variable {env : Env} {cmd : Cmd} {op : Op} {disk : FileSystem} {c p : Path}

theorem begins_handleOp (hparses : cmd.Parses) (hop : cmd.op env = .ok op) (hp : cmd.path = some p)
    (reqId : Uuid) (defaultReceiveDir : Option Path) :
    Begins (fun log ↦ cmd.Names env log) disk c p (Server.handleOp env defaultReceiveDir reqId op) := by
  have hsend : ∀ kind, Untouching (.send ⟨reqId, kind⟩) := fun _ ↦ rfl
  have himport : ∀ rings «open», Begins fileNames disk c p (handleImport env reqId p rings «open») := by
    intro rings «open»
    obtain ⟨f, hf, huses⟩ := handleImport_eq_bind untouching_of_silent hsend env p rings «open»
    rw [hf]
    exact begins_importPath.bind fun imported x hx ↦ wpc_untouching fileNames_mono (huses imported) hx
  have htarget : ∀ {target : String} {q : Action Unit}, (∃ f, q = resolveTarget env target >>= f ∧
      ∀ hash, (f hash).Uses Untouching) → Begins fileNames disk c (Path.ofString target) q := by
    rintro target q ⟨f, rfl, huses⟩
    exact begins_resolveTarget.bind fun hash x hx ↦ wpc_untouching fileNames_mono (huses hash) hx
  have hsent : ∀ {path : Path} {rings «open»},
      (do return .import (← sent path) rings «open» : Except Error Op) = .ok op →
        op = .import path rings «open» := by
    intro path rings «open» h
    cases hpath : sent path with
    | error e =>
      rw [hpath] at h
      cases h
    | ok path' =>
      rw [hpath, sent_ok hpath] at h
      exact (Except.ok.inj h).symm
  cases cmd with
  | «import» path rings «open» =>
    obtain rfl := Option.some.inj hp
    obtain rfl := hsent hop
    exact himport rings «open»
  | blobImport path rings «open» =>
    obtain rfl := Option.some.inj hp
    obtain rfl := hsent hop
    exact himport rings «open»
  | blobRemove target =>
    obtain rfl := Option.some.inj hp
    obtain rfl := Except.ok.inj hop
    exact htarget (handleBlobRemove_eq_bind untouching_of_silent hsend (fun _ ↦ rfl) env target)
  | blobAttach target rings «open» =>
    obtain rfl := Option.some.inj hp
    obtain rfl := Except.ok.inj hop
    apply htarget
    apply handleAttach_eq_bind untouching_of_silent hsend env target
    rintro ⟨hrings, hopen⟩
    rcases hparses.1 with h | h
    · exact h hrings
    · rw [hopen] at h
      cases h
  | blobDetach target rings «open» all =>
    obtain rfl := Option.some.inj hp
    obtain rfl := Except.ok.inj hop
    exact htarget (handleDetach_eq_bind untouching_of_silent hsend env target rings «open» all)
  | receive ticketStr dest force =>
    obtain rfl : dest = some p := hp
    have hne : p ≠ [] := by
      rintro rfl
      cases hparses [] rfl
    cases ht : ShareTicket.fromUri env ticketStr with
    | error e =>
      simp only [Cmd.op, ht] at hop
      cases hop
    | ok ticket =>
      cases hpath : sent p with
      | error e =>
        simp only [Cmd.op, ht, Option.mapM_some, hpath] at hop
        cases hop
      | ok p' =>
        obtain rfl : op = .receive ticketStr (some p) force := by
          simp only [Cmd.op, ht, Option.mapM_some, hpath, sent_ok hpath] at hop
          exact (Except.ok.inj hop).symm
        exact begins_handleReceive ht hne reqId defaultReceiveDir

/-- For every command with a path, every client working in `c` and every daemon: in all runs
of the daemon's handler the files and directories it touches are the ones that the path
denotes relative to `c` exactly when the path is absolute, or a first part of it leads from
`c` and from the daemon's own directory to one place. The empty path denotes nothing. -/
theorem denoted_iff (hparses : cmd.Parses) (hop : cmd.op env = .ok op) (hp : cmd.path = some p)
    {s : NodeState} (htree : s.fs.IsTree) (reqId : Uuid) (defaultReceiveDir : Option Path) (c : Path) :
    (∀ r s' log, Runs (logged Answers) (Server.handleOp env defaultReceiveDir reqId op) (s, []) r (s', log) →
      Denoted (cmd.Names env log) s.fs c p (touches log)) ↔
      p = [] ∨ p.isAbsolute ∨ Meets s.fs c s.fs.cwd p := by
  rw [← reach_eq_iff]
  have hbegins : Begins (fun log ↦ cmd.Names env log) s.fs c p (Server.handleOp env defaultReceiveDir reqId op) :=
    begins_handleOp hparses hop hp reqId defaultReceiveDir
  obtain ⟨first, k, hprog, htouch, hk⟩ := hbegins
  rw [hprog]
  constructor
  · intro h
    by_cases hne : p = []
    · exact .inl hne
    · right
      have hrun := runs_execLogged Answers.exec (.call first k) (s, [])
      apply (h _ _ _ hrun).start p
      have hgrows : [⟨first, (exec first s).1⟩] <+: (run execLogged (.call first k) (s, [])).2.2 :=
        log_grows (k (exec first s).1) ((exec first s).2, [⟨first, (exec first s).1⟩])
      obtain ⟨rest, hrest⟩ := hgrows
      rw [← hrest, touches_append, touches_singleton _ htouch, if_neg hne]
      rfl
  · intro h r s' log hrun
    have hp' : p ≠ [] → reach s.fs s.fs.cwd p = reach s.fs c p := fun hne ↦ h.resolve_left hne
    cases hrun with
    | call hfirst hrest =>
      have hfirst' : Keeps (fun log ↦ cmd.Names env log) s.fs c p _ :=
        keeps_first htree htouch hp' hfirst
      have hw := (wp_iff_runs _).mp (wp_of_wpc (hk _ _ _ hp' hfirst hfirst'))
      have hkeeps : Keeps (fun log ↦ cmd.Names env log) s.fs c p (s', log) := by
        cases r with
        | ok v => exact hw.1 v _ hrest
        | error e => exact hw.2 e _ hrest
      exact hkeeps.denoted hp'

end Commands

section TwoFiles

/-- A daemon in the root directory, with a file `a` there and another one in `u`. -/
def inRoot : NodeState :=
  { emptyNode with
    fs := .ofNodes [([[0x61]], .file ⟨.fromByte 1, 5, none, none⟩ true), ([[0x75]], .dir true),
      ([[0x75], [0x61]], .file ⟨.fromByte 2, 5, none, none⟩ true)] }

theorem isTree_inRoot : inRoot.fs.IsTree := by
  apply FileSystem.isTree_ofNodes
  decide +kernel

def imported (path : Path) : Except Error Unit × NodeState × Trace Call.Ans :=
  run execLogged (Server.handleOp (.plain []) none .nil (.import path [] true)) (inRoot, [])

theorem op_import {text : String} :
    (Cmd.import (Path.ofString text) [] true).op (.plain []) = .ok (.import (Path.ofString text) [] true) := by
  have hsent : sent (Path.ofString text) = .ok (Path.ofString text) := by
    unfold sent
    rw [show Utf8.fromUtf8 (Path.ofString text) = some text from Utf8.fromUtf8_eq_some_iff.mpr rfl]
  rw [Cmd.op, hsent]
  rfl

/-- Both from `/u` and from the root the path `../a` leads to the file `a` in the root. -/
theorem import_denoted_climbing : Denoted Path.IsName inRoot.fs (Path.ofString "/u") (Path.ofString "../a")
    (touches (imported (Path.ofString "../a")).2.2) := by
  have hparses : (Cmd.import (Path.ofString "../a") [] true).Parses := by simp [Cmd.Parses]
  have hmeets : Meets inRoot.fs (Path.ofString "/u") inRoot.fs.cwd (Path.ofString "../a") :=
    ⟨[[Path.period, Path.period]], [[0x61]], by decide, [], by decide +kernel, by decide +kernel⟩
  exact (denoted_iff hparses op_import rfl isTree_inRoot .nil none (Path.ofString "/u")).mpr
    (.inr (.inr hmeets)) _ _ _ (runs_execLogged Answers.exec _ _)

/-- For a user in `/u` the path `a` is the file `/u/a`, and the daemon reads `/a`. -/
theorem import_elsewhere : ∃ r s' log,
    (Cmd.import (Path.ofString "a") [] true).Parses ∧
    (Cmd.import (Path.ofString "a") [] true).op (.plain []) = .ok (.import (Path.ofString "a") [] true) ∧
    (Path.ofString "a").isAbsolute = false ∧ inRoot.fs.IsTree ∧
    Runs (logged Answers) (Server.handleOp (.plain []) none .nil (.import (Path.ofString "a") [] true))
      (inRoot, []) r (s', log) ∧
    reach inRoot.fs (Path.ofString "/u") (Path.ofString "a") = ([[0x75], [0x61]], []) ∧
    touches log = [Path.ofString "a", Path.ofString "/a"] ∧
    ¬ Denoted Path.IsName inRoot.fs (Path.ofString "/u") (Path.ofString "a") (touches log) := by
  have htouches : touches (imported (Path.ofString "a")).2.2 = [Path.ofString "a", Path.ofString "/a"] := by
    decide +kernel
  have hreach : reach inRoot.fs (Path.ofString "/u") (Path.ofString "a") = ([[0x75], [0x61]], []) := by
    decide +kernel
  have hdaemon : reach inRoot.fs inRoot.fs.cwd (Path.ofString "a") = ([[0x61]], []) := by decide +kernel
  refine ⟨_, _, (imported (Path.ofString "a")).2.2, by simp [Cmd.Parses], op_import, rfl, isTree_inRoot,
    runs_execLogged Answers.exec _ _, hreach, htouches, ?_⟩
  intro h
  rw [htouches] at h
  have hstart := h.start (Path.ofString "a") rfl
  rw [hreach, hdaemon] at hstart
  revert hstart
  decide

end TwoFiles

end Ringdrop.Cli
