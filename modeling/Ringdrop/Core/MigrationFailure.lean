import Ringdrop.Core.MigrationCrash
import Ringdrop.Library.Strict

namespace Ringdrop.Migration

open Std Library Program

/-- A failure that the migration hands on: any but that of a table to open. -/
def Propagated : (c : FileCall) → c.Answer → Prop
  | .io (.openTable _ _), _ => False
  | .io _, .error _ => True
  | _, _ => False

/-- A step before the rename fails. That a table does not exist is no failure. -/
def FailedEarly : (c : FileCall) → c.Answer → Prop
  | .io (.openTable _ t), .error e => e ≠ tableDoesNotExist t
  | .io (.rename _ _), _ => False
  | .io (.removeFile f), .error _ => f = .localTmp
  | .io _, .error _ => True
  | _, _ => False

/-- An old table is there, and cannot be opened. -/
def Unread : (c : FileCall) → c.Answer → Prop
  | .io (.openTable _ t), .error e => e ≠ tableDoesNotExist t
  | _, _ => False

/-- The calls by which tables of `src` are copied to `dst`. -/
inductive CopyCall (dst src : DataFile) : FileCall → Prop
  | openDb : CopyCall dst src (.io (.openDb src))
  | beginRead : CopyCall dst src (.io (.beginRead src))
  | openTable (t : Table) : CopyCall dst src (.io (.openTable src t))
  | beginWrite : CopyCall dst src (.io (.beginWrite dst))
  | read : CopyCall dst src (.io (.access src))
  | write : CopyCall dst src (.io (.access dst))
  | commit (d : Db) : CopyCall dst src (.io (.commit dst d))
  | dropDb : CopyCall dst src (.dropDb src)

section Uses

variable {P : FileCall → Prop} {dst src : DataFile}

theorem uses_io {c : IoCall} (hc : P (.io c)) : (io c).Uses P := by
  apply (uses_ask hc).bind
  intro r
  exact uses_ofExcept r

theorem uses_step {c : IoCall} {m : String} (hc : P (.io c)) : (context m (io c)).Uses P := (uses_io hc).mapError

theorem uses_ifPresent {b : Bool} {p : FileProgram Unit} (hp : p.Uses P) : (ifPresent b p).Uses P := by
  cases b with
  | true => exact hp
  | false => trivial

theorem uses_withDb {f : DataFile} {acquire body : FileProgram Unit} (hacquire : acquire.Uses P)
    (hbody : body.Uses P) (hdrop : P (.dropDb f)) : (withDb f acquire body).Uses P := by
  apply hacquire.bind
  intro _
  apply hbody.attempt.bind
  intro r
  apply (uses_ask (P := P) (c := .dropDb f) hdrop).bind
  intro _
  exact uses_ofExcept r

theorem uses_copyTable {β : Type} {rows row : String} {name : Table} {table : Db → Option (ExtTreeMap Bytes β)}
    {withTable : Db → ExtTreeMap Bytes β → Db} :
    (copyTable rows row name table withTable dst src).Uses (CopyCall dst src) := by
  apply uses_withDb (uses_step .openDb) _ .dropDb
  apply (uses_step .beginRead).bind
  intro read
  apply (uses_io (.openTable name)).attempt.bind
  intro opened
  cases opened with
  | error e => trivial
  | ok v =>
    apply (uses_step .beginWrite).bind
    intro write
    apply (uses_step .write).bind
    intro _
    apply (uses_step .read).bind
    intro _
    apply Uses.bind
    · apply Uses.foldlM
      intro new item
      apply (uses_step .read).bind
      intro _
      apply (uses_step .write).bind
      intro _
      trivial
    · intro new
      exact uses_step (.commit _)

theorem uses_copyRingPeers : (copyRingPeers dst src).Uses (CopyCall dst src) := by
  apply uses_withDb (uses_step .openDb) _ .dropDb
  apply (uses_step .beginRead).bind
  intro read
  apply (uses_io (.openTable .rings)).attempt.bind
  intro opened
  cases opened with
  | error e => trivial
  | ok v =>
    apply (uses_step .beginWrite).bind
    intro write
    apply (uses_step .write).bind
    intro _
    apply (uses_step .read).bind
    intro _
    apply Uses.bind
    · apply Uses.foldlM
      intro peers row
      apply (uses_step .read).bind
      intro _
      split
      · trivial
      · apply Uses.foldlM
        intro peers chunk
        apply (uses_step .write).bind
        intro _
        split
        · trivial
        · apply (uses_step .write).bind
          intro _
          trivial
    · intro new
      exact uses_step (.commit _)

end Uses

section Strictness

theorem strict_io {c : IoCall} (hc : ∀ a, Propagated (.io c) a ↔ ∃ e, a = .error e) : (io c).Strict Propagated := by
  intro a
  rw [hc a]
  cases a with
  | ok v => exact ⟨by simp, fun _ ↦ trivial⟩
  | error e => exact ⟨fun _ ↦ trivial, by simp⟩

theorem propagated_iff {c : IoCall} (hc : ∀ f t, c ≠ .openTable f t) (a : Except Error c.Reply) :
    Propagated (.io c) a ↔ ∃ e, a = .error e := by
  cases c with
  | openTable f t => exact absurd rfl (hc f t)
  | _ =>
    cases a with
    | ok v => simp [Propagated]
    | error e => simp [Propagated]

theorem strict_step {c : IoCall} {m : String} (hc : ∀ f t, c ≠ .openTable f t) :
    (context m (io c)).Strict Propagated := (strict_io (propagated_iff hc)).mapError _

theorem strict_ifPresent {b : Bool} {p : FileProgram Unit} (hp : p.Strict Propagated) :
    (ifPresent b p).Strict Propagated := by
  cases b with
  | true => exact hp
  | false => trivial

theorem strict_withDb {f : DataFile} {acquire body : FileProgram Unit} (hacquire : acquire.Strict Propagated)
    (hbody : body.Strict Propagated) : (withDb f acquire body).Strict Propagated := by
  apply hacquire.bind
  intro _
  exact hbody.finally (strict_ask fun _ ↦ id)

/-- The failure to open a table goes no further. -/
theorem strict_openTable {f : DataFile} {t : Table} {k : Except Error Unit → FileProgram Unit}
    (hk : ∀ r, (k r).Strict Propagated) : ((io (.openTable f t)).attempt >>= k).Strict Propagated := by
  intro a
  refine ⟨fun hbad ↦ hbad.elim, fun _ ↦ ?_⟩
  cases a with
  | ok v => exact hk (.ok v)
  | error e => exact hk (.error e)

theorem strict_copyTable {β : Type} {rows row : String} {name : Table} {table : Db → Option (ExtTreeMap Bytes β)}
    {withTable : Db → ExtTreeMap Bytes β → Db} {dst src : DataFile} :
    (copyTable rows row name table withTable dst src).Strict Propagated := by
  apply strict_withDb (strict_step (by nofun))
  apply (strict_step (by nofun)).bind
  intro read
  apply strict_openTable
  intro opened
  cases opened with
  | error e => trivial
  | ok v =>
    apply (strict_step (by nofun)).bind
    intro write
    apply (strict_step (by nofun)).bind
    intro _
    apply (strict_step (by nofun)).bind
    intro _
    apply Strict.bind
    · apply Strict.foldlM
      intro new item
      apply (strict_step (by nofun)).bind
      intro _
      apply (strict_step (by nofun)).bind
      intro _
      trivial
    · intro new
      exact strict_step (by nofun)

theorem strict_copyRingPeers {dst src : DataFile} : (copyRingPeers dst src).Strict Propagated := by
  apply strict_withDb (strict_step (by nofun))
  apply (strict_step (by nofun)).bind
  intro read
  apply strict_openTable
  intro opened
  cases opened with
  | error e => trivial
  | ok v =>
    apply (strict_step (by nofun)).bind
    intro write
    apply (strict_step (by nofun)).bind
    intro _
    apply (strict_step (by nofun)).bind
    intro _
    apply Strict.bind
    · apply Strict.foldlM
      intro peers row
      apply (strict_step (by nofun)).bind
      intro _
      split
      · trivial
      · apply Strict.foldlM
        intro peers chunk
        apply (strict_step (by nofun)).bind
        intro _
        split
        · trivial
        · apply (strict_step (by nofun)).bind
          intro _
          trivial
    · intro new
      exact strict_step (by nofun)

theorem strict_fileExists {f : DataFile} {k : Bool → FileProgram Unit} (hk : ∀ b, (k b).Strict Propagated) :
    (ask (FileCall.fileExists f) >>= k).Strict Propagated :=
  (strict_ask fun _ ↦ id).bind hk

theorem strict_fillTmp {hasGrants hasPeers : Bool} : (fillTmp hasGrants hasPeers).Strict Propagated := by
  apply strict_withDb (strict_step (by nofun))
  apply (strict_step (by nofun)).bind
  intro write
  apply (strict_step (by nofun)).bind
  intro _
  apply (strict_step (by nofun)).bind
  intro _
  apply (strict_step (by nofun)).bind
  intro _
  apply (strict_ifPresent strict_copyTable).bind
  intro _
  apply (strict_ifPresent strict_copyTable).bind
  intro _
  apply strict_fileExists
  intro hasRegistry
  exact strict_ifPresent strict_copyRingPeers

theorem strict_migrateIfNeeded : migrateIfNeeded.Strict Propagated := by
  apply strict_fileExists
  intro hasLocal
  split
  · trivial
  · apply strict_fileExists
    intro hasGrants
    apply strict_fileExists
    intro hasPeers
    split
    · trivial
    · apply strict_fileExists
      intro stale
      apply (strict_ifPresent (strict_step (by nofun))).bind
      intro _
      apply strict_fillTmp.bind
      intro _
      apply (strict_step (by nofun)).bind
      intro _
      apply (strict_ifPresent (strict_step (by nofun))).bind
      intro _
      exact strict_ifPresent (strict_step (by nofun))

end Strictness

/-- Calls that write to the new files only, or delete a file. -/
def Gentle : FileCall → Prop
  | .io (.rename src dst) => src = .localTmp ∧ dst = .localDb
  | .io (.createDb f) => f = .localTmp
  | .io (.commit f _) => f = .localTmp
  | _ => True

/-- Calls that leave the old files alone: they are for the new file that is not yet in place. -/
def Preparing : FileCall → Prop
  | .io (.rename _ _) => False
  | .io (.createDb f) => f = .localTmp
  | .io (.commit f _) => f = .localTmp
  | .io (.removeFile f) => f = .localTmp
  | _ => True

def Deleted (f : DataFile) (log : Trace FileCall.Answer) : Prop :=
  (⟨.io (.removeFile f), .ok ()⟩ : (c : FileCall) × c.Answer) ∈ log

/-- An old file is as it was unless it has been deleted. -/
def Deletions (d : DataDir) (x : DataState × Trace FileCall.Answer) : Prop :=
  ∀ f, f ≠ .localDb → f ≠ .localTmp →
    ¬ Deleted f x.2 ∧ x.1.files f = d f ∨ Deleted f x.2 ∧ (d f).isSome ∧ x.1.files f = none

section OldFiles

variable {d : DataDir} {s s' : DataState}

theorem acquire_files (f : DataFile) (s : DataState) : (acquire f s).2.files = s.files := by
  unfold acquire
  split
  · rfl
  · split <;> rfl

/-- A gentle call deletes a file or leaves it, if it is not the temporary one or the one
that takes its place. -/
theorem exec_files {c : FileCall} (hc : Gentle c) {f : DataFile} (htmp : f ≠ .localTmp)
    (hlocal : f = .localDb → c ≠ .io (.rename .localTmp .localDb)) :
    (exec c s).2.files f = s.files f ∨
      (⟨c, (exec c s).1⟩ : (c : FileCall) × c.Answer) = ⟨.io (.removeFile f), .ok ()⟩ := by
  cases c with
  | fileExists g => exact .inl rfl
  | dropDb g => exact .inl rfl
  | io c =>
    cases c with
    | removeFile g =>
      simp only [exec, execIo]
      split
      · by_cases hg : f = g
        · subst hg
          exact .inr rfl
        · exact .inl (Function.update_of_ne hg ..)
      · exact .inl rfl
    | rename src dst =>
      obtain ⟨rfl, rfl⟩ := hc
      simp only [exec, execIo]
      split
      · exact .inl ((Function.update_of_ne (fun h ↦ hlocal h rfl) ..).trans (Function.update_of_ne htmp ..))
      · exact .inl rfl
    | createDb g =>
      obtain rfl : g = .localTmp := hc
      simp only [exec, execIo]
      split
      · exact .inl (Function.update_of_ne htmp ..)
      · exact .inl (congrFun (acquire_files ..) f)
    | openDb g => exact .inl (congrFun (acquire_files ..) f)
    | beginRead g =>
      simp only [exec, execIo, transaction]
      split <;> exact .inl rfl
    | beginWrite g =>
      simp only [exec, execIo, transaction]
      split <;> exact .inl rfl
    | openTable g t =>
      simp only [exec, execIo, openTable]
      split
      · split <;> exact .inl rfl
      · exact .inl rfl
    | access g => exact .inl rfl
    | commit g x =>
      obtain rfl : g = .localTmp := hc
      exact .inl (Function.update_of_ne htmp ..)
    | start c => exact .inl rfl

theorem deleted_concat {f : DataFile} {log : Trace FileCall.Answer} {y : (c : FileCall) × c.Answer} :
    Deleted f (log ++ [y]) ↔ Deleted f log ∨ y = ⟨.io (.removeFile f), .ok ()⟩ := by
  unfold Deleted
  rw [List.mem_append, List.mem_singleton]
  exact or_congr_right eq_comm

theorem removed {f : DataFile} (h : Answers (.io (.removeFile f)) s (.ok ()) s') :
    (s.files f).isSome ∧ s'.files f = none := by
  have hexec : execIo (.removeFile f) s = (.ok (), s') := h.resolve_right id
  simp only [execIo] at hexec
  split at hexec
  · rename_i hsome
    cases hexec
    exact ⟨hsome, Function.update_self ..⟩
  · cases hexec

theorem answers_files {c : FileCall} {a : c.Answer} (hc : Gentle c) (ha : Answers c s a s') {f : DataFile}
    (htmp : f ≠ .localTmp) (hlocal : f = .localDb → c ≠ .io (.rename .localTmp .localDb))
    (hkeep : (⟨c, a⟩ : (c : FileCall) × c.Answer) ≠ ⟨.io (.removeFile f), .ok ()⟩) : s'.files f = s.files f := by
  rcases ha with ha | ha
  · have hfiles := (exec_files (s := s) hc htmp hlocal).resolve_right (by rwa [ha])
    rwa [ha] at hfiles
  · cases c with
    | io c =>
      cases a with
      | error e => exact congrArg (fun s ↦ s.files f) ha
      | ok v => exact ha.elim
    | fileExists g => exact ha.elim
    | dropDb g => exact ha.elim

theorem Deletions.step {c : FileCall} {x y : DataState × Trace FileCall.Answer} {a : c.Answer} (hc : Gentle c)
    (h : Deletions d x) (ha : logged Answers c x a y) : Deletions d y := by
  obtain ⟨s, log⟩ := x
  obtain ⟨s', log'⟩ := y
  obtain ⟨ha, hlog⟩ := ha
  obtain rfl : log' = log ++ [⟨c, a⟩] := hlog
  intro f hlocal htmp
  rw [deleted_concat]
  by_cases hkeep : (⟨c, a⟩ : (c : FileCall) × c.Answer) = ⟨.io (.removeFile f), .ok ()⟩
  · cases hkeep
    obtain ⟨hsome, hnone⟩ := removed ha
    rcases h f hlocal htmp with ⟨-, hsame⟩ | ⟨hdeleted, hold, -⟩
    · exact .inr ⟨.inr rfl, by rwa [← hsame], hnone⟩
    · exact .inr ⟨.inl hdeleted, hold, hnone⟩
  · have hsame : s'.files f = s.files f := answers_files hc ha htmp (fun h ↦ absurd h hlocal) hkeep
    rw [or_iff_left hkeep, hsame]
    exact h f hlocal htmp

theorem preparing_copyCall {src : DataFile} {c : FileCall} (h : CopyCall .localTmp src c) : Preparing c := by
  cases h with
  | commit x => exact rfl
  | _ => trivial

theorem gentle_of_preparing {c : FileCall} (h : Preparing c) : Gentle c := by
  cases c with
  | io c =>
    cases c with
    | rename src dst => exact h.elim
    | createDb f => exact h
    | commit f x => exact h
    | _ => trivial
  | fileExists f => trivial
  | dropDb f => trivial

theorem uses_fileExists {P : FileCall → Prop} {f : DataFile} {k : Bool → FileProgram Unit}
    (hf : P (.fileExists f)) (hk : ∀ b, (k b).Uses P) : (ask (FileCall.fileExists f) >>= k : FileProgram Unit).Uses P := by
  apply Uses.bind (uses_ask (P := P) (c := .fileExists f) hf)
  exact hk

theorem uses_removeStale {b : Bool} {m : String} : (ifPresent b (context m (io (.removeFile .localTmp)))).Uses Preparing :=
  uses_ifPresent (uses_step (by exact rfl))

theorem uses_fillTmp (hasGrants hasPeers : Bool) : (fillTmp hasGrants hasPeers).Uses Preparing := by
  apply uses_withDb (uses_step (by exact rfl)) _ trivial
  apply (uses_step (c := .beginWrite .localTmp) trivial).bind
  intro write
  apply (uses_step (c := .access .localTmp) trivial).bind
  intro _
  apply (uses_step (c := .access .localTmp) trivial).bind
  intro _
  apply (uses_step (by exact rfl)).bind
  intro _
  apply (uses_ifPresent (uses_copyTable.mono fun _ ↦ preparing_copyCall)).bind
  intro _
  apply (uses_ifPresent (uses_copyTable.mono fun _ ↦ preparing_copyCall)).bind
  intro _
  apply uses_fileExists trivial
  intro hasRegistry
  exact uses_ifPresent (uses_copyRingPeers.mono fun _ ↦ preparing_copyCall)

theorem uses_migrateIfNeeded : migrateIfNeeded.Uses Gentle := by
  apply uses_fileExists trivial
  intro hasLocal
  split
  · trivial
  · apply uses_fileExists trivial
    intro hasGrants
    apply uses_fileExists trivial
    intro hasPeers
    split
    · trivial
    · apply uses_fileExists trivial
      intro stale
      apply (uses_removeStale.mono fun _ ↦ gentle_of_preparing).bind
      intro _
      apply ((uses_fillTmp hasGrants hasPeers).mono fun _ ↦ gentle_of_preparing).bind
      intro _
      apply (uses_step (by exact ⟨rfl, rfl⟩)).bind
      intro _
      apply (uses_ifPresent (uses_step (c := .removeFile .grantsDb) trivial)).bind
      intro _
      exact uses_ifPresent (uses_step (c := .removeFile .peersDb) trivial)

theorem deletions_migrateIfNeeded {r : Except Error Unit} {log : Trace FileCall.Answer}
    (h : Runs (logged Answers) migrateIfNeeded (boot d, []) r (s, log)) : Deletions d (s, log) := by
  have hstart : Deletions d (boot d, []) := fun f _ _ ↦ .inl ⟨List.not_mem_nil, rfl⟩
  have hw := uses_migrateIfNeeded.wp_invariant (R := logged Answers) (I := Deletions d)
    (fun c x a y hc hx ha ↦ hx.step hc ha) hstart
  cases r with
  | ok v => exact h.ok_of_wp hw
  | error e => exact h.error_of_wp hw

end OldFiles

section Order

variable {d : DataDir} {Q : Unit → DataState × Trace FileCall.Answer → Prop} {s s' : DataState} {log : Trace FileCall.Answer}

/-- No old file has been asked to be removed, and the new one is not in place. -/
structure Before (d : DataDir) (x : DataState × Trace FileCall.Answer) : Prop where
  kept : ∀ y ∈ x.2, ∀ f, y.1 = .io (.removeFile f) → f = .localTmp
  absent : x.1.files .localDb = d .localDb

/-- The new file is in place, and nothing that is handed on has failed but the removal of
old ones. -/
structure After (d : DataDir) (x : DataState × Trace FileCall.Answer) : Prop where
  late : ∀ y ∈ x.2, Propagated y.1 y.2 → ∃ f, f ≠ .localTmp ∧ y.1 = .io (.removeFile f)
  placed : x.1.files .localDb ≠ d .localDb

structure Prepared (d : DataDir) (x : DataState × Trace FileCall.Answer) : Prop extends Before d x where
  sound : ∀ y ∈ x.2, ¬ Propagated y.1 y.2

theorem Before.step {c : FileCall} {a : c.Answer} {x y : DataState × Trace FileCall.Answer} (h : Before d x)
    (hc : Preparing c) (ha : logged Answers c x a y) : Before d y := by
  obtain ⟨s, log⟩ := x
  obtain ⟨s', log'⟩ := y
  obtain ⟨ha, hlog⟩ := ha
  obtain rfl : log' = log ++ [⟨c, a⟩] := hlog
  constructor
  · intro y hy f hf
    rcases List.mem_append.mp hy with hy | hy
    · exact h.kept y hy f hf
    · obtain rfl := List.mem_singleton.mp hy
      obtain rfl : c = .io (.removeFile f) := hf
      exact hc
  · refine Eq.trans (answers_files (gentle_of_preparing hc) ha (by nofun) ?_ ?_) h.absent
    · rintro - rfl
      exact hc
    · intro hremoval
      cases hremoval
      cases hc

theorem wp_preparing {p : FileProgram Unit} (huses : p.Uses Preparing) (hstrict : p.Strict Propagated)
    (h : Prepared d (s, log)) (hQ : ∀ v x, Prepared d x → Q v x) :
    p.wp (logged Answers) Q (fun _ x ↦ Before d x ∨ After d x) (s, log) := by
  have hbefore := huses.wp_invariant (R := logged Answers) (I := Before d) (fun c x a y hc hx ha ↦ hx.step hc ha)
    h.toBefore
  refine wp_mono (wp_and hbefore (hstrict.wp h.sound s)) ?_ ?_
  · intro v x hx
    exact hQ v x ⟨hx.1, hx.2⟩
  · intro e x hx
    exact .inl hx.1

theorem renamed {src dst : DataFile} (h : Answers (.io (.rename src dst)) s (.ok ()) s') : (s'.files dst).isSome := by
  have hexec : execIo (.rename src dst) s = (.ok (), s') := h.resolve_right id
  simp only [execIo] at hexec
  split at hexec
  · rename_i hsome
    cases hexec
    change (Function.update (Function.update s.files src none) dst (s.files src) dst).isSome = true
    rwa [Function.update_self]
  · cases hexec

theorem not_renamed {src dst : DataFile} {e : Error} (h : Answers (.io (.rename src dst)) s (.error e) s') : s' = s := by
  rcases h with h | h
  · have hexec : execIo (.rename src dst) s = (.error e, s') := h
    simp only [execIo] at hexec
    split at hexec
    · cases hexec
    · exact (Prod.mk.inj hexec).2.symm
  · exact h

def RemovesOld (c : FileCall) : Prop := ∃ f, f ≠ .localDb ∧ f ≠ .localTmp ∧ c = .io (.removeFile f)

theorem After.step {c : FileCall} {a : c.Answer} {x y : DataState × Trace FileCall.Answer} (h : After d x)
    (hc : RemovesOld c) (ha : logged Answers c x a y) : After d y := by
  obtain ⟨s, log⟩ := x
  obtain ⟨s', log'⟩ := y
  obtain ⟨ha, hlog⟩ := ha
  obtain ⟨f, hlocal, htmp, rfl⟩ := hc
  obtain rfl : log' = log ++ [⟨.io (.removeFile f), a⟩] := hlog
  constructor
  · intro y hy hbad
    rcases List.mem_append.mp hy with hy | hy
    · exact h.late y hy hbad
    · obtain rfl := List.mem_singleton.mp hy
      exact ⟨f, htmp, rfl⟩
  · have hsame : s'.files .localDb = s.files .localDb := by
      refine answers_files (c := .io (.removeFile f)) trivial ha (by nofun) (by nofun) fun hremoval ↦ ?_
      cases hremoval
      exact hlocal rfl
    exact fun heq ↦ h.placed (hsame.symm.trans heq)

theorem wp_step {c : IoCall} {m : String} {Q : c.Reply → DataState × Trace FileCall.Answer → Prop}
    {Z : DataState × Trace FileCall.Answer → Prop} {x : DataState × Trace FileCall.Answer}
    (hok : ∀ v y, logged Answers (.io c) x (.ok v) y → Q v y)
    (herror : ∀ e y, logged Answers (.io c) x (.error e) y → Z y) :
    (context m (io c)).wp (logged Answers) Q (fun _ x ↦ Z x) x := by
  unfold context
  rw [wp_mapError]
  intro a y hstep
  cases a with
  | ok v => exact hok v y hstep
  | error e => exact herror e y hstep

theorem wp_replaceOldFiles {hasGrants hasPeers : Bool} (hlocal : d .localDb = none) (h : Prepared d (s, log)) :
    (replaceOldFiles hasGrants hasPeers).wp (logged Answers) (fun _ x ↦ Before d x ∨ After d x)
      (fun _ x ↦ Before d x ∨ After d x) (s, log) := by
  have hremove : ∀ {b f m}, f ≠ DataFile.localDb → f ≠ .localTmp →
      (ifPresent b (context m (io (.removeFile f)))).Uses RemovesOld :=
    fun hlocal htmp ↦ uses_ifPresent (uses_step ⟨_, hlocal, htmp, rfl⟩)
  unfold replaceOldFiles
  rw [wp_bind]
  apply wp_step
  · rintro v ⟨s', log'⟩ ⟨hanswer, hlog⟩
    obtain rfl : log' = log ++ [⟨.io (.rename .localTmp .localDb), .ok v⟩] := hlog
    have hafter : After d (s', log ++ [⟨.io (.rename .localTmp .localDb), .ok v⟩]) := by
      constructor
      · intro y hy hbad
        rcases List.mem_append.mp hy with hy | hy
        · exact absurd hbad (h.sound y hy)
        · obtain rfl := List.mem_singleton.mp hy
          exact hbad.elim
      · rw [hlocal]
        exact Option.isSome_iff_ne_none.mp (renamed hanswer)
    have huses := (hremove (b := hasGrants) (m := "deleting grants.redb") (f := .grantsDb) (by nofun) (by nofun)).bind
      fun _ ↦ hremove (b := hasPeers) (m := "deleting peers.redb") (f := .peersDb) (by nofun) (by nofun)
    have hinv := huses.wp_invariant (R := logged Answers) (I := After d) (fun c x a y hc hx ha ↦ hx.step hc ha) hafter
    exact wp_mono hinv (fun _ x hx ↦ .inr hx) (fun _ x hx ↦ .inr hx)
  · rintro e ⟨s', log'⟩ ⟨hanswer, hlog⟩
    obtain rfl : log' = log ++ [⟨.io (.rename .localTmp .localDb), .error e⟩] := hlog
    refine .inl ⟨fun y hy f hf ↦ ?_, (congrArg (fun s ↦ s.files .localDb) (not_renamed hanswer)).trans h.absent⟩
    rcases List.mem_append.mp hy with hy | hy
    · exact h.kept y hy f hf
    · obtain rfl := List.mem_singleton.mp hy
      cases hf

theorem sound_concat {c : FileCall} {a : c.Answer} (h : ∀ y ∈ log, ¬ Propagated y.1 y.2) (ha : ¬ Propagated c a) :
    ∀ y ∈ log ++ [⟨c, a⟩], ¬ Propagated y.1 y.2 :=
  List.forall_mem_append.mpr ⟨h, List.forall_mem_singleton.mpr ha⟩

theorem wp_fileExists {f : DataFile} {k : Bool → FileProgram Unit} {Z : Error → DataState × Trace FileCall.Answer → Prop}
    (h : Prepared d (s, log))
    (hk : ∀ log', Prepared d (s, log') → (k (s.files f).isSome).wp (logged Answers) Q Z (s, log')) :
    (ask (FileCall.fileExists f) >>= k : FileProgram Unit).wp (logged Answers) Q Z (s, log) := by
  rw [wp_bind]
  intro a x hstep
  have hbefore := h.toBefore.step (c := .fileExists f) trivial hstep
  obtain ⟨s', log'⟩ := x
  obtain ⟨hanswer, hlog⟩ := hstep
  obtain rfl : log' = log ++ [⟨.fileExists f, a⟩] := hlog
  have hexec : exec (.fileExists f) s = (a, s') := hanswer.resolve_right id
  obtain ⟨rfl, rfl⟩ := Prod.mk.inj hexec
  exact hk _ ⟨hbefore, sound_concat h.sound id⟩

/-- Every run ends before the new file is in place, or after that. -/
theorem before_or_after {r : Except Error Unit} (h : Runs (logged Answers) migrateIfNeeded (boot d, []) r (s, log)) :
    Before d (s, log) ∨ After d (s, log) := by
  have hw : migrateIfNeeded.wp (logged Answers) (fun _ x ↦ Before d x ∨ After d x) (fun _ x ↦ Before d x ∨ After d x)
      (boot d, []) := by
    have hnil : Prepared d (boot d, []) := ⟨⟨List.forall_mem_nil _, rfl⟩, List.forall_mem_nil _⟩
    apply wp_fileExists hnil
    intro log₁ h₁
    split
    · exact .inl h₁.toBefore
    · rename_i hlocal
      have hlocal : d .localDb = none := Option.not_isSome_iff_eq_none.mp hlocal
      apply wp_fileExists h₁
      intro log₂ h₂
      apply wp_fileExists h₂
      intro log₃ h₃
      split
      · exact .inl h₃.toBefore
      · apply wp_fileExists h₃
        intro log₄ h₄
        rw [wp_bind]
        apply wp_preparing uses_removeStale (strict_ifPresent (strict_step (by nofun))) h₄
        rintro _ ⟨s₅, log₅⟩ h₅
        rw [wp_bind]
        apply wp_preparing (uses_fillTmp _ _) strict_fillTmp h₅
        rintro _ ⟨s₆, log₆⟩ h₆
        exact wp_replaceOldFiles hlocal h₆
  cases r with
  | ok v => exact h.ok_of_wp hw
  | error e => exact h.error_of_wp hw

end Order

theorem failedEarly_cases {c : FileCall} {a : c.Answer} (h : FailedEarly c a) :
    Unread c a ∨ Propagated c a ∧ ∀ f, c = .io (.removeFile f) → f = .localTmp := by
  cases c with
  | io c =>
    cases a with
    | ok v => cases c <;> exact h.elim
    | error e =>
      cases c with
      | openTable f t => exact .inl h
      | removeFile f =>
        refine .inr ⟨trivial, fun g hg ↦ ?_⟩
        obtain rfl : f = g := IoCall.removeFile.inj (FileCall.io.inj hg)
        exact h
      | rename src dst => exact h.elim
      | _ => exact .inr ⟨trivial, by nofun⟩
  | fileExists f => exact h.elim
  | dropDb f => exact h.elim

/-- A migration with a failed step before the rename fails with the old files in place, and
puts no new file in place if it could not read an old table, unless nothing that is handed on
has failed but the removal of an old file: it has taken a table that does not open for an
empty one. -/
theorem migrateIfNeeded_failure_iff {d : DataDir} {r : Except Error Unit} {s : DataState}
    {log : Trace FileCall.Answer} (h : Runs (logged Answers) migrateIfNeeded (boot d, []) r (s, log)) :
    ((∃ y ∈ log, FailedEarly y.1 y.2) →
      (∃ e, r = .error e) ∧ (∀ f, f ≠ .localDb → f ≠ .localTmp → s.files f = d f) ∧
        ((∃ y ∈ log, Unread y.1 y.2) → s.files .localDb = d .localDb)) ↔
    (∀ y ∈ log, ¬ FailedEarly y.1 y.2) ∨
      ∃ y ∈ log, Propagated y.1 y.2 ∧ ∀ f, y.1 = .io (.removeFile f) → f = .localTmp := by
  have herror : (∃ e, r = .error e) ↔ ∃ y ∈ log, Propagated y.1 y.2 := strict_migrateIfNeeded.error_iff h
  constructor
  · intro hclaim
    by_cases hearly : ∃ y ∈ log, FailedEarly y.1 y.2
    · right
      obtain ⟨hfailed, -, hunread⟩ := hclaim hearly
      rcases before_or_after h with hbefore | hafter
      · obtain ⟨y, hy, hbad⟩ := herror.mp hfailed
        exact ⟨y, hy, hbad, hbefore.kept y hy⟩
      · obtain ⟨y, hy, hbad⟩ := hearly
        rcases failedEarly_cases hbad with hopen | hbad
        · exact absurd (hunread ⟨y, hy, hopen⟩) hafter.placed
        · exact ⟨y, hy, hbad⟩
    · exact .inl fun y hy hbad ↦ hearly ⟨y, hy, hbad⟩
  · rintro (hnone | ⟨y, hy, hbad, hearly⟩) ⟨z, hz, hfailed⟩
    · exact absurd hfailed (hnone z hz)
    · have hbefore : Before d (s, log) := by
        refine (before_or_after h).resolve_right fun hafter ↦ ?_
        obtain ⟨f, htmp, hf⟩ := hafter.late y hy hbad
        exact htmp (hearly f hf)
      refine ⟨herror.mpr ⟨y, hy, hbad⟩, fun f hlocal htmp ↦ ?_, fun _ ↦ hbefore.absent⟩
      rcases deletions_migrateIfNeeded h f hlocal htmp with ⟨-, hsame⟩ | ⟨hdeleted, -, -⟩
      · exact hsame
      · exact absurd (hbefore.kept _ hdeleted f rfl) htmp

def failingOn (fails : IoCall → Bool) : (c : FileCall) → DataState → c.Answer × DataState
  | .io c, s => if fails c then (.error (.msg "storage error"), s) else execIo c s
  | c, s => exec c s

theorem runs_failingOn (fails : IoCall → Bool) (p : FileProgram Unit) (x : DataState × Trace FileCall.Answer) :
    Runs (logged Answers) p x (run (logging (failingOn fails)) p x).1 (run (logging (failingOn fails)) p x).2 := by
  refine (runs_logging p x).mono fun c x a y h ↦ ?_
  obtain ⟨ha, hlog⟩ := h
  refine ⟨?_, hlog⟩
  cases c with
  | io c =>
    simp only [graph, failingOn] at ha
    split at ha
    · obtain ⟨rfl, hsame⟩ := Prod.mk.inj ha
      exact .inr hsame.symm
    · exact .inl ha
  | fileExists f => exact .inl ha
  | dropDb f => exact .inl ha

def grantsTableUnreadable : IoCall → Bool
  | .openTable .grantsDb .grants => true
  | _ => false

def nothingReadable : IoCall → Bool
  | .openTable .grantsDb .grants => true
  | .beginRead .peersDb => true
  | _ => false

/-- Where the peers cannot be read either, the grants are there for the next attempt. -/
theorem migrateIfNeeded_failure_oldDataDir :
    (∃ e, (run (logging (failingOn nothingReadable)) migrateIfNeeded (boot oldDataDir, [])).1 = .error e) ∧
      (∀ f, f ≠ .localDb → f ≠ .localTmp →
        (run (logging (failingOn nothingReadable)) migrateIfNeeded (boot oldDataDir, [])).2.1.files f = oldDataDir f) ∧
      (run (logging (failingOn nothingReadable)) migrateIfNeeded (boot oldDataDir, [])).2.1.files .localDb = none := by
  have hrun := runs_failingOn nothingReadable migrateIfNeeded (boot oldDataDir, [])
  have hunread : (⟨.io (.openTable .grantsDb .grants), .error (.msg "storage error")⟩ : (c : FileCall) × c.Answer) ∈
      (run (logging (failingOn nothingReadable)) migrateIfNeeded (boot oldDataDir, [])).2.2 :=
    List.mem_of_getElem? (i := 12) rfl
  have hfailed : (⟨.io (.beginRead .peersDb), .error (.msg "storage error")⟩ : (c : FileCall) × c.Answer) ∈
      (run (logging (failingOn nothingReadable)) migrateIfNeeded (boot oldDataDir, [])).2.2 :=
    List.mem_of_getElem? (i := 15) rfl
  have hstorage : Error.msg "storage error" ≠ tableDoesNotExist .grants := by decide
  obtain ⟨herror, hkept, habsent⟩ :=
    (migrateIfNeeded_failure_iff hrun).mpr (.inr ⟨_, hfailed, trivial, by nofun⟩) ⟨_, hfailed, trivial⟩
  exact ⟨herror, hkept, habsent ⟨_, hunread, hstorage⟩⟩

/-- The table of the grants does not open, and the grants are gone. -/
theorem migrateIfNeeded_loses_grants : ∃ s log,
    Runs (logged Answers) migrateIfNeeded (boot oldDataDir, []) (.ok ()) (s, log) ∧
      (∃ y ∈ log, FailedEarly y.1 y.2) ∧ s.files .grantsDb = none ∧
      (DataDir.db s.files .localDb).grants.map ExtTreeMap.toList = some [] := by
  have hrun := runs_failingOn grantsTableUnreadable migrateIfNeeded (boot oldDataDir, [])
  have hfailed : (⟨.io (.openTable .grantsDb .grants), .error (.msg "storage error")⟩ : (c : FileCall) × c.Answer) ∈
      (run (logging (failingOn grantsTableUnreadable)) migrateIfNeeded (boot oldDataDir, [])).2.2 :=
    List.mem_of_getElem? (i := 12) rfl
  have hstorage : Error.msg "storage error" ≠ tableDoesNotExist .grants := by decide
  refine ⟨_, _, hrun, ⟨_, hfailed, hstorage⟩, rfl, ?_⟩
  decide +kernel

end Ringdrop.Migration
