import Ringdrop.Core.ExportConfinement
import Ringdrop.Core.FileTree
import Ringdrop.Daemon.HandlerCalls
import Ringdrop.Daemon.ReceiveConfinement

namespace Ringdrop

open Library Program

namespace Handlers

open RingReceiver

def checkedPath (fs : FileSystem) (name : Path) : ResolvedDest → Path
  | .explicit dest => if fs.isDir dest then dest.join name else dest
  | .directory dir => dir.join name

/-- The path is a directory once the receive directory has been created. -/
def BecomesDir (fs : FileSystem) (resolved : ResolvedDest) (p : Path) : Prop :=
  match resolved with
  | .explicit _ => fs.isDir p
  | .directory dir => (fs.createDirAll dir).2.isDir p

/-- The export takes the checked path for the directory to put the blob in, and its name
leads elsewhere from there. -/
def Redirected (fs : FileSystem) (name : Path) (resolved : ResolvedDest) : Prop :=
  BecomesDir fs resolved (checkedPath fs name resolved) ∧
    ((checkedPath fs name resolved).join name).absolute fs.cwd ≠ (checkedPath fs name resolved).absolute fs.cwd

/-- Where a call makes the export write: the file, or the directory of the collection. -/
def exportLocation : BlobFormat → Call → Option Path
  | .raw, .store (.exportBlob _ target) => some target
  | .hashSeq, .fs (.createDirAll path) => some path
  | _, _ => none

/-- The first place a run has written to, or has tried to. -/
def location (format : BlobFormat) (log : Trace Call.Ans) : Option Path :=
  log.findSome? fun x ↦ exportLocation format x.1

section Checks

variable {s : NodeState} {resolved : ResolvedDest} {name : Option String} {hex : String} {force : Bool}

theorem wp_checkResolved_path : (checkResolved resolved name hex force).wp AnyDisk
    (fun p s' ↦ p = checkedPath s.fs (blobName name hex) resolved ∧ s' = s) (fun _ _ ↦ True) s := by
  have hreject : ∀ expected, (rejectExisting expected force).wp AnyDisk (fun p s' ↦ p = expected ∧ s' = s)
      (fun _ _ ↦ True) s := by
    intro expected
    rw [wp_rejectExisting]
    by_cases hthere : s.fs.pathExists expected ∧ force = false
    · rw [if_pos hthere]
      trivial
    · rw [if_neg hthere]
      exact ⟨rfl, rfl⟩
  cases resolved with
  | explicit dest =>
    unfold checkResolved checkDest checkedPath
    rw [wp_bind, wp_anyDisk_isDir]
    dsimp only
    split_ifs
    · exact hreject _
    · exact hreject _
  | directory dir =>
    unfold checkResolved checkDirDest checkedPath
    rw [wp_bind, wp_anyDisk_pathExists]
    split_ifs
    · rw [wp_bind, wp_anyDisk_isDir]
      split_ifs
      · exact hreject _
      · trivial
    · exact hreject _

theorem wp_createReceiveDir_isDir (p : Path) : (createReceiveDir resolved).wp Answers
    (fun _ s' ↦ s'.fs.cwd = s.fs.cwd ∧ (s'.fs.isDir p ↔ BecomesDir s.fs resolved p)) (fun _ _ ↦ True) s := by
  cases resolved with
  | explicit dest => exact ⟨rfl, Iff.rfl⟩
  | directory dir =>
    unfold createReceiveDir
    rw [wp_context, wp_fs]
    intro a s' h
    cases a with
    | error e => trivial
    | ok u =>
      rcases answers_fs h with ⟨-, rfl⟩ | ⟨⟨e, he⟩, _⟩
      · exact ⟨(FileSystem.makes_createDirAll s.fs dir).cwd, Iff.rfl⟩
      · cases he

theorem wp_ticketDest {env : Env} {ticket : ShareTicket} {dest defaultReceiveDir : Option Path}
    (hr : resolveDest dest defaultReceiveDir env.homeDir = .ok resolved) :
    (ticketDest env ticket dest defaultReceiveDir force).wp Answers
      (fun p s' ↦ p = checkedPath s.fs (blobName ticket.name (toString ticket.hash)) resolved ∧
        s'.fs.cwd = s.fs.cwd ∧ (s'.fs.isDir p ↔ BecomesDir s.fs resolved p)) (fun _ _ ↦ True) s := by
  unfold ticketDest
  rw [hr, ofExcept_ok, ret_bind, wp_bind]
  refine wp_mono (wp_anti (fun _ _ _ _ h ↦ .answer h) wp_checkResolved_path) ?_ (fun _ _ h ↦ h)
  intro p s₁ hp
  obtain ⟨hpath, rfl⟩ := hp
  rw [wp_bind]
  refine wp_mono (wp_createReceiveDir_isDir p) ?_ (fun _ _ h ↦ h)
  intro _ s' hs'
  exact ⟨hpath, hs'⟩

end Checks

section Location

variable {fs : FileSystem} {ticket : ShareTicket} {p : Path} {x y : NodeState × Trace Call.Ans}

theorem location_concat (format : BlobFormat) (log : Trace Call.Ans) (c : Call) (a : c.Ans) :
    location format (log ++ [⟨c, a⟩]) = (location format log).or (exportLocation format c) := by
  unfold location
  rw [List.findSome?_append]
  simp

/-- Nothing is written before the export of the ticket's blob to `p`, which starts with
the file system as it was; and what is written first is where that export leads. -/
def Located (fs : FileSystem) (ticket : ShareTicket) (p : Path) (x : NodeState × Trace Call.Ans) : Prop :=
  (x.1.fs = fs ∧ location ticket.format x.2 = none) ∨
    ∃ q, location ticket.format x.2 = some q ∧ exportDir fs ticket.hash ticket.name p = .ok q

def Diskless (c : Call) : Prop :=
  (∀ format, exportLocation format c = none) ∧ ∀ s a s', Answers c s a s' → s'.fs = s.fs

theorem diskless_of_gathers {c : Call} (h : c.Gathers) : Diskless c := by
  constructor
  · intro format
    cases c with
    | store c => cases c <;> cases format <;> first | rfl | exact h.elim
    | fs c => exact h.elim
    | _ => cases format <;> rfl
  · intro s a s' hanswer
    cases hanswer with
    | exec =>
      cases c with
      | store c =>
        cases c with
        | getBytes hash =>
          simp only [exec, StoreCall.exec]
          split <;> rfl
        | _ => first | rfl | exact h.elim
      | net c => cases c <;> rfl
      | fs c => exact h.elim
      | _ => rfl
    | _ => rfl

theorem location_written {q : Path} (hq : location ticket.format x.2 = some q) {c : Call} {a : c.Ans}
    (hxy : logged Answers c x a y) : location ticket.format y.2 = some q := by
  rw [hxy.2, location_concat, hq]
  rfl

theorem Located.step (h : Located fs ticket p x) {c : Call} {a : c.Ans} (hc : Diskless c)
    (hxy : logged Answers c x a y) : Located fs ticket p y := by
  rcases h with ⟨hfs, hnone⟩ | ⟨q, hq, hdir⟩
  · refine .inl ⟨(hc.2 _ _ _ hxy.1).trans hfs, ?_⟩
    rw [hxy.2, location_concat, hnone, hc.1]
    rfl
  · exact .inr ⟨q, location_written hq hxy, hdir⟩

theorem wpc_written {α : Type} {prog : Action α} {q : Path} (hq : location ticket.format x.2 = some q)
    (hdir : exportDir fs ticket.hash ticket.name p = .ok q) :
    prog.wpc (logged Answers) (Located fs ticket p) (fun _ y ↦ location ticket.format y.2 = some q) x := by
  have hkept : prog.wpc (logged Answers) (fun z ↦ location ticket.format z.2 = some q)
      (fun _ z ↦ location ticket.format z.2 = some q) x :=
    wpc_mono ((uses_true prog).wpc_invariant (fun _ _ _ _ _ hz h ↦ location_written hz h) hq)
      (fun _ _ hz _ ↦ hz)
  exact wpc_weaken hkept (fun z hz ↦ .inr ⟨q, hz, hdir⟩)

theorem wpc_exportPath (hfs : x.1.fs = fs) (hnone : location ticket.format x.2 = none) :
    (exportPath ticket.hash ticket.name p).wpc (logged Answers) (Located fs ticket p)
      (fun path y ↦ location ticket.format y.2 = none ∧ exportDir fs ticket.hash ticket.name p = .ok path) x := by
  unfold exportPath
  apply wpc_bind
  apply wpc_ask (.inl ⟨hfs, hnone⟩)
  intro there y hxy
  obtain ⟨hthere, hy⟩ := answers_isDir hxy.1
  have hfs' : y.1.fs = fs := by rw [hy, hfs]
  have hnone' : location ticket.format y.2 = none := by
    rw [hxy.2, location_concat, hnone]
    cases ticket.format <;> rfl
  refine ⟨.inl ⟨hfs', hnone'⟩, ?_⟩
  rw [hfs] at hthere
  have habsolute : ∀ path, exportDir fs ticket.hash ticket.name p = Path.absolute path fs.cwd →
      (Ringdrop.fs (.absolute path)).wpc (logged Answers) (Located fs ticket p)
        (fun path y ↦ location ticket.format y.2 = none ∧ exportDir fs ticket.hash ticket.name p = .ok path) y := by
    intro path hpath
    apply wpc_bind
    apply wpc_ask (.inl ⟨hfs', hnone'⟩)
    intro a z hyz
    have hnone'' : location ticket.format z.2 = none := by
      rw [hyz.2, location_concat, hnone']
      cases ticket.format <;> rfl
    rcases answers_fs hyz.1 with ⟨ha, hz⟩ | ⟨⟨e, he⟩, hz⟩
    · have hfs'' : z.1.fs = fs := by
        rw [hz]
        exact hfs'
      refine ⟨.inl ⟨hfs'', hnone''⟩, wpc_ofExcept (.inl ⟨hfs'', hnone''⟩) ?_⟩
      intro path' hpath'
      refine ⟨hnone'', ?_⟩
      rw [hpath, ← hpath', ha, ← hfs']
      rfl
    · have hfs'' : z.1.fs = fs := by rw [hz, hfs']
      refine ⟨.inl ⟨hfs'', hnone''⟩, wpc_ofExcept (.inl ⟨hfs'', hnone''⟩) ?_⟩
      intro path' hpath'
      rw [he] at hpath'
      cases hpath'
  split
  · next hdir =>
    apply habsolute
    unfold exportDir
    rw [← hthere, if_pos hdir]
  · next hdir =>
    apply habsolute
    unfold exportDir
    rw [← hthere, if_neg hdir]

theorem wpc_export_located (hx : Located fs ticket p x) :
    («export» ticket.hash ticket.format ticket.name p).wpc (logged Answers) (Located fs ticket p)
      (fun _ _ ↦ True) x := by
  rcases hx with ⟨hfs, hnone⟩ | ⟨q, hq, hdir⟩
  · unfold «export»
    apply wpc_bind
    refine wpc_mono (wpc_exportPath hfs hnone) ?_
    intro path y hy hpath
    obtain ⟨hnone', hdir⟩ := hpath
    have hwritten : ∀ {c : Call} {a : c.Ans} {z}, exportLocation ticket.format c = some path →
        logged Answers c y a z → location ticket.format z.2 = some path := by
      intro c a z hc hyz
      rw [hyz.2, location_concat, hnone', hc]
      rfl
    cases hformat : ticket.format with
    | raw =>
      apply wpc_mapError
      apply wpc_bind
      apply wpc_ask hy
      intro a z hyz
      have hz := hwritten (by rw [hformat]; rfl) hyz
      exact ⟨.inr ⟨path, hz, hdir⟩, wpc_mono (wpc_written hz hdir) (fun _ _ _ _ ↦ trivial)⟩
    | hashSeq =>
      apply wpc_bind
      apply wpc_bind
      apply wpc_ask hy
      intro a z hyz
      have hz := hwritten (by rw [hformat]; rfl) hyz
      refine ⟨.inr ⟨path, hz, hdir⟩, wpc_mono (wpc_written hz hdir) ?_⟩
      -- the members go below the directory that has just been created
      intro _ w _ hw
      exact wpc_mono (wpc_written hw hdir) (fun _ _ _ _ ↦ trivial)
  · exact wpc_mono (wpc_written hq hdir) (fun _ _ _ _ ↦ trivial)

theorem Located.receiveBlob {env : Env} {reqId : Uuid} (hx : Located fs ticket p x) :
    (receiveBlob env reqId ticket p).wp (logged Answers) (fun _ ↦ Located fs ticket p)
      (fun _ ↦ Located fs ticket p) x := by
  have hsilent : ∀ c : Call, (∀ format, exportLocation format c = none) →
      (∀ s a s', Answers c s a s' → s' = s) → Diskless c := by
    intro c hc hs
    refine ⟨hc, fun s a s' h ↦ ?_⟩
    rw [hs s a s' h]
  apply wp_of_wpc (Q := fun _ _ ↦ True)
  refine wpc_receiveBlob (P := Diskless) (fun c hc ↦ diskless_of_gathers hc) ?_ ?_ ?_ ?_ ?_ ?_ hx
  · intro e
    apply hsilent
    · intro format
      cases format <;> rfl
    · rintro s a s' h
      cases h <;> rfl
  · intro e
    apply hsilent
    · intro format
      cases format <;> rfl
    · rintro s a s' h
      cases h <;> rfl
  · apply hsilent
    · intro format
      cases format <;> rfl
    · rintro s a s' h
      cases h <;> rfl
  · apply hsilent
    · intro format
      cases format <;> rfl
    · rintro s a s' h
      cases h <;> rfl
  · intro c y a z hc hy hyz
    exact hy.step hc hyz
  · intro y hy
    exact wpc_export_located hy

def announcement (reqId : Uuid) (p : Path) : Event := .line reqId s!"Destination: {p.toStringLossy}"

theorem logged_mem {e : (c : Call) × c.Ans} (hx : e ∈ x.2) {c : Call} {a : c.Ans} (hxy : logged Answers c x a y) :
    e ∈ y.2 := by
  rw [hxy.2]
  exact List.mem_append_left _ hx

theorem wp_sendLines_logged {reqId : Uuid} {lines : List String} {Z : Error → NodeState × Trace Call.Ans → Prop} :
    (sendLines reqId lines).wp (logged Answers)
      (fun _ y ↦ ∀ line ∈ lines, ⟨.send (.line reqId line), ()⟩ ∈ y.2) Z x := by
  unfold sendLines
  refine wp_forM (I := fun rest y ↦ ∀ line ∈ lines, line ∈ rest ∨ ⟨.send (.line reqId line), ()⟩ ∈ y.2) ?_ ?_ ?_
  · intro line rest y hy
    rw [wp_send]
    intro a z hyz line' hline'
    rcases hy line' hline' with hin | hsent
    · rcases List.mem_cons.mp hin with rfl | hrest
      · refine .inr ?_
        rw [hyz.2]
        exact List.mem_append_right _ (List.mem_singleton_self _)
      · exact .inl hrest
    · exact .inr (logged_mem hsent hyz)
  · intro y hy line hline
    exact (hy line hline).resolve_left List.not_mem_nil
  · intro line hline
    exact .inl hline

theorem wp_receiveBlob_announces {env : Env} {reqId : Uuid} :
    (receiveBlob env reqId ticket p).wp (logged Answers)
      (fun _ y ↦ ⟨.send (announcement reqId p), ()⟩ ∈ y.2) (fun _ y ↦ ⟨.send (announcement reqId p), ()⟩ ∈ y.2)
      x := by
  unfold receiveBlob
  rw [wp_bind]
  refine wp_mono wp_sendLines_logged ?_ (fun _ _ h ↦ h)
  intro _ y hy
  refine (uses_true _).wp_invariant (fun _ _ _ _ _ hz h ↦ logged_mem hz h) (hy _ ?_)
  simp

end Location

/-- For every file system, destination, ticket and flag for which the checks pass with a
path: that path is what the client is told, and whatever a run of the download writes
first it writes there, unless the path is or becomes a directory from which the name leads
elsewhere. -/
theorem receive_location_iff {env : Env} {s s₁ : NodeState} {ticket : ShareTicket}
    {dest defaultReceiveDir : Option Path} {force : Bool} {resolved : ResolvedDest} {p : Path}
    (hr : resolveDest dest defaultReceiveDir env.homeDir = .ok resolved)
    (hpass : Runs Answers (ticketDest env ticket dest defaultReceiveDir force) s (.ok p) s₁) :
    p = checkedPath s.fs (blobName ticket.name (toString ticket.hash)) resolved ∧
      ∀ reqId r s' log, Runs (logged Answers) (receiveBlob env reqId ticket p) (s₁, []) r (s', log) →
        ⟨.send (announcement reqId p), ()⟩ ∈ log ∧
        ∀ q, location ticket.format log = some q →
          (p.absolute s.fs.cwd = .ok q ↔
            ¬ Redirected s.fs (blobName ticket.name (toString ticket.hash)) resolved) := by
  obtain ⟨hpath, hcwd, hdir⟩ := hpass.ok_of_wp (wp_ticketDest hr)
  refine ⟨hpath, ?_⟩
  intro reqId r s' log hrun
  have hsent : ⟨.send (announcement reqId p), ()⟩ ∈ log := by
    cases r with
    | ok u => exact hrun.ok_of_wp wp_receiveBlob_announces
    | error e => exact hrun.error_of_wp wp_receiveBlob_announces
  refine ⟨hsent, ?_⟩
  intro q hq
  have hstart : Located s₁.fs ticket p (s₁, []) := .inl ⟨rfl, rfl⟩
  have hend : Located s₁.fs ticket p (s', log) := by
    cases r with
    | ok u => exact hrun.ok_of_wp hstart.receiveBlob
    | error e => exact hrun.error_of_wp hstart.receiveBlob
  have hexport : RingReceiver.exportDir s₁.fs ticket.hash ticket.name p = .ok q := by
    rcases hend with ⟨_, hnone⟩ | ⟨q', hq', hexport⟩
    · rw [hnone] at hq
      cases hq
    · obtain rfl := Option.some.inj (hq'.symm.trans hq)
      exact hexport
  unfold RingReceiver.exportDir at hexport
  rw [hcwd] at hexport
  unfold Redirected
  rw [← hpath, ← hdir]
  by_cases hbecomes : s₁.fs.isDir p = true
  · rw [if_pos hbecomes] at hexport
    simp only [hbecomes, true_and, not_not]
    unfold blobName
    rw [hexport]
    exact eq_comm
  · rw [if_neg hbecomes] at hexport
    simp [hbecomes, hexport]

section OneRequest

def receivingAmong (dirs : List String) : NodeState :=
  { withReceiveDir with
    store := BlobStore.empty.addBlob ⟨.fromByte 1, 5, none, none⟩
    fs := FileSystem.home.holding (dirs.map fun dir ↦ (dir, .dir true)) }

def plainJpg : Env := .plain [namedWire "a.jpg"]

def checksJpg (force : Bool) : Action Path :=
  ticketDest plainJpg (namedTicket "a.jpg") (some (Path.ofString "in")) none force

def downloadsJpg : Action Unit :=
  receiveBlob plainJpg .nil (namedTicket "a.jpg") (Path.ofString "in/a.jpg")

/-- A file that is new in the receive directory is written where it was announced. -/
theorem receive_location_new : ∃ r s' log q,
    Runs (logged Answers) downloadsJpg (receivingAmong ["/home/u/in"], []) r (s', log) ∧
      location .raw log = some q ∧ Path.absolute (Path.ofString "in/a.jpg") (Path.ofString "/home/u") = .ok q := by
  have hpass : Runs Answers (checksJpg false) (receivingAmong ["/home/u/in"]) (.ok (Path.ofString "in/a.jpg"))
      (receivingAmong ["/home/u/in"]) := runs_exec _ _
  have hrun := runs_execLogged Answers.exec downloadsJpg (receivingAmong ["/home/u/in"], [])
  have hq : location .raw (run execLogged downloadsJpg (receivingAmong ["/home/u/in"], [])).2.2 =
      some (Path.ofString "/home/u/in/a.jpg") := by
    decide +kernel
  have hdir : (receivingAmong ["/home/u/in"]).fs.isDir (Path.ofString "in/a.jpg") = false := by
    decide +kernel
  generalize run execLogged downloadsJpg (receivingAmong ["/home/u/in"], []) = x at hrun hq
  obtain ⟨r, s', log⟩ := x
  refine ⟨r, s', log, _, hrun, hq, ?_⟩
  refine (((receive_location_iff rfl hpass).2 .nil r s' log hrun).2 _ hq).mpr ?_
  rintro ⟨hbecomes, _⟩
  exact absurd (hdir.symm.trans hbecomes) Bool.false_ne_true

/-- Where the ticket's name belongs to a directory and may be replaced, the file is written
inside that directory. -/
theorem receive_elsewhere :
    ShareTicket.fromUri plainJpg (namedUri "a.jpg") = .ok (namedTicket "a.jpg") ∧
    Runs Answers (checksJpg true) (receivingAmong ["/home/u/in", "/home/u/in/a.jpg"])
      (.ok (Path.ofString "in/a.jpg")) (receivingAmong ["/home/u/in", "/home/u/in/a.jpg"]) ∧
    ∃ s' log, Runs (logged Answers) downloadsJpg (receivingAmong ["/home/u/in", "/home/u/in/a.jpg"], []) (.ok ())
        (s', log) ∧
      ⟨.send (announcement .nil (Path.ofString "in/a.jpg")), ()⟩ ∈ log ∧
      location .raw log = some (Path.ofString "/home/u/in/a.jpg/a.jpg") ∧
      Path.absolute (Path.ofString "in/a.jpg") (Path.ofString "/home/u") ≠
        .ok (Path.ofString "/home/u/in/a.jpg/a.jpg") := by
  have hrun := runs_execLogged Answers.exec downloadsJpg (receivingAmong ["/home/u/in", "/home/u/in/a.jpg"], [])
  have hok : (run execLogged downloadsJpg (receivingAmong ["/home/u/in", "/home/u/in/a.jpg"], [])).1 = .ok () := by
    rfl
  have hq : location .raw (run execLogged downloadsJpg (receivingAmong ["/home/u/in", "/home/u/in/a.jpg"], [])).2.2 =
      some (Path.ofString "/home/u/in/a.jpg/a.jpg") := by
    decide +kernel
  generalize run execLogged downloadsJpg (receivingAmong ["/home/u/in", "/home/u/in/a.jpg"], []) = x at hrun hok hq
  obtain ⟨r, s', log⟩ := x
  obtain rfl : r = .ok () := hok
  exact ⟨fromUri_namedUri "a.jpg", runs_exec _ _, s', log, hrun, hrun.ok_of_wp wp_receiveBlob_announces, hq,
    by decide +kernel⟩

end OneRequest

end Handlers

end Ringdrop
