import Ringdrop.Daemon.Handlers.Receive

namespace Ringdrop.Handlers

open Library Program

def ResolvedDest.directory? (fs : FileSystem) : ResolvedDest → Option Path
  | .explicit dest => if fs.isDir dest then some dest else none
  | .directory dir => some dir

/-- `p` lies inside the directory `dir` and is not `dir` itself, both taken lexically. -/
def StrictlyInside (cwd dir p : Path) : Prop :=
  dir.resolve cwd <+: p.resolve cwd ∧ p.resolve cwd ≠ dir.resolve cwd

/-- Seen from inside `dir`, a name leads to something below `dir`. -/
def StaysBelow (cwd dir name : Path) : Prop :=
  LexicalPath.StaysBelow Path.slash Path.period (dir.resolve cwd) name

instance (cwd dir name : Path) : Decidable (StaysBelow cwd dir name) := by
  unfold StaysBelow
  infer_instance

instance (cwd dir p : Path) : Decidable (StrictlyInside cwd dir p) := by
  unfold StrictlyInside
  infer_instance

/-- The checks refuse: there is something in the blob's place that may not be
replaced, or something other than a directory where the receive directory should be. -/
def Refuses (fs : FileSystem) (resolved : ResolvedDest) (dir name : Path) (forceOverwrite : Bool) :
    Prop :=
  (fs.pathExists (dir.join name) ∧ forceOverwrite = false) ∨
    (resolved = .directory dir ∧ fs.pathExists dir ∧ fs.isDir dir = false)

instance (fs : FileSystem) (resolved : ResolvedDest) (dir name : Path) (forceOverwrite : Bool) :
    Decidable (Refuses fs resolved dir name forceOverwrite) := by
  unfold Refuses
  infer_instance

theorem strictlyInside_join (cwd dir name : Path) :
    StrictlyInside cwd dir (dir.join name) ↔ StaysBelow cwd dir name :=
  @LexicalPath.strict_prefix_resolve_join UInt8 _ Path.slash Path.period
    (LexicalPath.resolve Path.slash Path.period [] cwd) dir name

theorem staysBelow_hash (cwd dir : Path) (hash : Hash) :
    StaysBelow cwd dir (Path.ofString (toString hash)) := by
  have hbytes : ∀ b ∈ Path.ofString (toString hash), b ≠ Path.slash ∧ b ≠ Path.period := hexChars_bytes
  have hne : Path.ofString (toString hash) ≠ [] := by
    refine hexChars_ne_nil ?_
    have hlen := hash.length_eq
    rintro h
    simp [h] at hlen
  refine LexicalPath.staysBelow_of_plain (fun h ↦ (hbytes _ h).1 rfl) hne ?_ ?_
  · intro h
    exact (hbytes Path.period (by simp [h])).2 rfl
  · intro h
    exact (hbytes Path.period (by simp [h])).2 rfl

section Checks

variable {s : NodeState} {resolved : ResolvedDest} {dir : Path} {name : Option String} {hex : String}
  {force : Bool} {Q : Path → NodeState → Prop} {Z : Error → NodeState → Prop}

theorem wp_rejectExisting {expected : Path} : (rejectExisting expected force).wp AnyDisk Q Z s ↔
    if s.fs.pathExists expected ∧ force = false then Z (alreadyExists expected) s else Q expected s := by
  unfold rejectExisting
  rw [wp_bind, wp_anyDisk_pathExists]
  cases s.fs.pathExists expected <;> cases force <;> simp

theorem wp_checkResolved_of_refuses (hd : resolved.directory? s.fs = some dir)
    (h : Refuses s.fs resolved dir (blobName name hex) force) :
    (checkResolved resolved name hex force).wp AnyDisk (fun _ _ ↦ False) (fun _ _ ↦ True) s := by
  cases resolved with
  | explicit dest =>
    obtain ⟨hdir, rfl⟩ : s.fs.isDir dest = true ∧ dest = dir := by
      simpa [ResolvedDest.directory?] using hd
    have hexists : s.fs.pathExists (dest.join (blobName name hex)) ∧ force = false := by
      simpa [Refuses] using h
    unfold checkResolved checkDest
    simp [wp_bind, wp_anyDisk_isDir, hdir, wp_rejectExisting, hexists]
  | directory d =>
    obtain rfl : d = dir := by simpa [ResolvedDest.directory?] using hd
    unfold checkResolved checkDirDest
    rw [wp_bind, wp_anyDisk_pathExists]
    cases hx : s.fs.pathExists d with
    | false =>
      have hexists : s.fs.pathExists (d.join (blobName name hex)) ∧ force = false := by
        simpa [Refuses, hx] using h
      simp [wp_rejectExisting, hexists]
    | true =>
      rw [if_pos rfl, wp_bind, wp_anyDisk_isDir]
      cases hdir : s.fs.isDir d with
      | false => simp
      | true =>
        have hexists : s.fs.pathExists (d.join (blobName name hex)) ∧ force = false := by
          simpa [Refuses, hdir] using h
        simp [wp_rejectExisting, hexists]

theorem wp_checkResolved (hd : resolved.directory? s.fs = some dir)
    (h : ¬ Refuses s.fs resolved dir (blobName name hex) force) :
    (checkResolved resolved name hex force).wp AnyDisk Q Z s ↔ Q (dir.join (blobName name hex)) s := by
  obtain ⟨hexists, hnodir⟩ := not_or.mp h
  cases resolved with
  | explicit dest =>
    obtain ⟨hdir, rfl⟩ : s.fs.isDir dest = true ∧ dest = dir := by
      simpa [ResolvedDest.directory?] using hd
    unfold checkResolved checkDest
    rw [wp_bind, wp_anyDisk_isDir, hdir, if_pos rfl, wp_rejectExisting, if_neg hexists]
  | directory d =>
    obtain rfl : d = dir := by simpa [ResolvedDest.directory?] using hd
    unfold checkResolved checkDirDest
    rw [wp_bind, wp_anyDisk_pathExists]
    cases hx : s.fs.pathExists d with
    | false => rw [if_neg (by simp), wp_rejectExisting, if_neg hexists]
    | true =>
      have hdir : s.fs.isDir d = true := by simpa [hx] using hnodir
      rw [if_pos rfl, wp_bind, wp_anyDisk_isDir, hdir, if_pos rfl, wp_rejectExisting,
        if_neg hexists]

theorem wp_createReceiveDir {P : Prop} (hP : P) :
    (createReceiveDir resolved).wp AnyDisk (fun _ _ ↦ P) (fun _ _ ↦ True) s := by
  cases resolved with
  | explicit dest => exact hP
  | directory d =>
    unfold createReceiveDir
    rw [wp_context, wp_fs]
    rintro (e | u) s' -
    · trivial
    · exact hP

theorem exists_of_wp_createReceiveDir {Q : Unit → NodeState → Prop}
    (h : (createReceiveDir resolved).wp AnyDisk Q Z s) : ∃ s', Q () s' := by
  cases resolved with
  | explicit dest => exact ⟨s, h⟩
  | directory d =>
    unfold createReceiveDir at h
    rw [wp_context, wp_fs] at h
    exact ⟨_, h (.ok ()) _ (.created d s s.fs rfl)⟩

end Checks

theorem handleReceive_eq {env : Env} {ticketStr : String} {ticket : ShareTicket}
    (ht : ShareTicket.fromUri env ticketStr = .ok ticket) (reqId : Uuid)
    (dest defaultReceiveDir : Option Path) (force : Bool) :
    handleReceive env reqId ticketStr dest defaultReceiveDir force =
      ticketDest env ticket dest defaultReceiveDir force >>= receiveBlob env reqId ticket := by
  unfold handleReceive
  rw [ht]
  rfl

/-- For every ticket that can be read, every file system and every destination that
denotes a directory: the path the handler sends the download to lies strictly inside
that directory exactly when the checks refuse, or the ticket has no name, or its name
stays below the directory. -/
theorem receive_strictlyInside_iff {env : Env} {s : NodeState} {ticketStr : String}
    {ticket : ShareTicket} {dest defaultReceiveDir : Option Path} {force : Bool}
    {resolved : ResolvedDest} {dir : Path} (reqId : Uuid) (ht : ShareTicket.fromUri env ticketStr = .ok ticket)
    (hr : resolveDest dest defaultReceiveDir env.homeDir = .ok resolved)
    (hd : resolved.directory? s.fs = some dir) :
    handleReceive env reqId ticketStr dest defaultReceiveDir force =
        ticketDest env ticket dest defaultReceiveDir force >>= receiveBlob env reqId ticket ∧
      ((∀ p s', Runs AnyDisk (ticketDest env ticket dest defaultReceiveDir force) s (.ok p) s' →
        StrictlyInside s.fs.cwd dir p) ↔
        Refuses s.fs resolved dir (blobName ticket.name (toString ticket.hash)) force ∨
          ∀ name, ticket.name = some name → StaysBelow s.fs.cwd dir (Path.ofString name)) := by
  refine ⟨handleReceive_eq ht reqId dest defaultReceiveDir force, ?_⟩
  have hruns : (∀ p s', Runs AnyDisk (ticketDest env ticket dest defaultReceiveDir force) s
      (.ok p) s' → StrictlyInside s.fs.cwd dir p) ↔
      (ticketDest env ticket dest defaultReceiveDir force).wp AnyDisk
        (fun p _ ↦ StrictlyInside s.fs.cwd dir p) (fun _ _ ↦ True) s := by
    rw [wp_iff_runs]
    exact ⟨fun h ↦ ⟨h, fun _ _ _ ↦ trivial⟩, fun h ↦ h.1⟩
  have hname : StrictlyInside s.fs.cwd dir (dir.join (blobName ticket.name (toString ticket.hash))) ↔
      ∀ name, ticket.name = some name → StaysBelow s.fs.cwd dir (Path.ofString name) := by
    rw [strictlyInside_join]
    cases ticket.name with
    | none => exact iff_of_true (staysBelow_hash _ _ _) (by simp)
    | some name => exact ⟨fun h n hn ↦ Option.some.inj hn ▸ h, fun h ↦ h name rfl⟩
  rw [hruns, ← hname]
  unfold ticketDest
  rw [hr, ofExcept_ok, ret_bind, wp_bind]
  by_cases href : Refuses s.fs resolved dir (blobName ticket.name (toString ticket.hash)) force
  · refine iff_of_true ?_ (.inl href)
    exact wp_mono (wp_checkResolved_of_refuses hd href) (fun _ _ h ↦ h.elim) (fun _ _ _ ↦ trivial)
  · rw [wp_checkResolved hd href, wp_bind]
    constructor
    · intro h
      obtain ⟨s', h'⟩ := exists_of_wp_createReceiveDir h
      exact .inr h'
    · rintro (h | h)
      · exact absurd h href
      · exact wp_createReceiveDir h

def withReceiveDir : NodeState where
  endpoint := .new (.fromByte 8)
  clock := 0
  registry := .empty
  localStore := .empty
  store := .empty
  fs := FileSystem.home.holding [("/home/u/in", .dir true)]

/-- A plain name is received inside the directory given as destination. -/
theorem receive_plain_strictlyInside :
    StrictlyInside (Path.ofString "/home/u") (Path.ofString "in") (Path.ofString "in/a.jpg") := by
  have hrun : Runs AnyDisk
      (ticketDest (.plain [namedWire "a.jpg"]) (namedTicket "a.jpg") (some (Path.ofString "in")) none false)
      withReceiveDir (.ok (Path.ofString "in/a.jpg")) _ :=
    (runs_exec _ withReceiveDir).mono (fun _ _ _ _ h ↦ .answer h)
  exact (receive_strictlyInside_iff (s := withReceiveDir) .nil (fromUri_namedUri "a.jpg") rfl
    rfl).2.mpr (.inr (by rintro name ⟨⟩; decide)) _ _ hrun

/-- A ticket whose name is `../x` is received next to the directory it should be
received in, and one with an empty name, when files may be replaced, in its place. -/
theorem receive_escapes :
    (ShareTicket.fromUri (.plain [namedWire "../x"]) (namedUri "../x") = .ok (namedTicket "../x") ∧
      ∃ p s', Runs Answers (ticketDest (.plain [namedWire "../x"]) (namedTicket "../x")
        (some (Path.ofString "in")) none false) withReceiveDir (.ok p) s' ∧
        ¬ StrictlyInside (Path.ofString "/home/u") (Path.ofString "in") p) ∧
    (ShareTicket.fromUri (.plain [namedWire ""]) (namedUri "") = .ok (namedTicket "") ∧
      ∃ p s', Runs Answers (ticketDest (.plain [namedWire ""]) (namedTicket "") none
        (some (Path.ofString "in")) true) withReceiveDir (.ok p) s' ∧
        ¬ StrictlyInside (Path.ofString "/home/u") (Path.ofString "in") p) := by
  constructor
  · exact ⟨fromUri_namedUri "../x", Path.ofString "in/../x", _, runs_exec _ withReceiveDir, by decide⟩
  · exact ⟨fromUri_namedUri "", Path.ofString "in/", _, runs_exec _ withReceiveDir, by decide⟩

end Ringdrop.Handlers
