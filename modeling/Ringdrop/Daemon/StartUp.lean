import Ringdrop.Core.MigrationFailure

namespace Ringdrop.Migration

open Std Library Program

/-- What is known of `RedbRegistry::open`: the file is there afterwards and its database
stays open, and no other file is touched. -/
def OpensRegistry (openRegistry : FileProgram Unit) : Prop :=
  ∀ s, wp Answers openRegistry
    (fun _ s' ↦ (s'.files .registryDb).isSome ∧ .registryDb ∈ s'.opened ∧
      ∀ f ≠ .registryDb, s'.files f = s.files f)
    (fun _ s' ↦ ∀ f ≠ .registryDb, s'.files f = s.files f) s

structure Untouched (d : DataDir) (s : DataState) : Prop where
  localDb : s.files .localDb = none
  grantsDb : s.files .grantsDb = d .grantsDb
  peersDb : s.files .peersDb = d .peersDb

structure RegistryHeld (d : DataDir) (s : DataState) : Prop extends Untouched d s where
  registry : (s.files .registryDb).isSome
  held : .registryDb ∈ s.opened

def Harmless : FileCall → Prop
  | .io (.removeFile f) => f = .localTmp
  | .io (.rename _ _) => False
  | .io (.createDb f) => f = .localTmp
  | .io (.commit f _) => f = .localTmp
  | .dropDb f => f ≠ .registryDb
  | _ => True

section Held

variable {d : DataDir} {s s' : DataState}

theorem RegistryHeld.update (h : RegistryHeld d s) {x : Option FileContent} {opened : List DataFile}
    (hopened : .registryDb ∈ opened) : RegistryHeld d ⟨Function.update s.files .localTmp x, opened⟩ := by
  have hne : ∀ f ≠ DataFile.localTmp, Function.update s.files .localTmp x f = s.files f :=
    fun f hf ↦ Function.update_of_ne hf x s.files
  refine ⟨⟨?_, ?_, ?_⟩, ?_, hopened⟩
  · exact (hne .localDb (by decide)).trans h.localDb
  · exact (hne .grantsDb (by decide)).trans h.grantsDb
  · exact (hne .peersDb (by decide)).trans h.peersDb
  · exact (congrArg Option.isSome (hne .registryDb (by decide))).trans h.registry

theorem RegistryHeld.acquire (h : RegistryHeld d s) (f : DataFile) :
    RegistryHeld d (acquire f s).2 := by
  unfold Migration.acquire
  split
  · exact h
  · split
    · exact ⟨⟨h.localDb, h.grantsDb, h.peersDb⟩, h.registry, List.mem_cons_of_mem _ h.held⟩
    · exact h
    · exact h

theorem RegistryHeld.transaction (h : RegistryHeld d s) (f : DataFile) :
    RegistryHeld d (transaction f s).2 := by
  unfold Migration.transaction
  split <;> exact h

theorem RegistryHeld.openTable (h : RegistryHeld d s) (f : DataFile) (t : Table) :
    RegistryHeld d (openTable f t s).2 := by
  unfold Migration.openTable
  split
  · split <;> exact h
  · exact h

theorem RegistryHeld.exec (h : RegistryHeld d s) {c : FileCall} (hc : Harmless c) :
    RegistryHeld d (exec c s).2 := by
  cases c with
  | fileExists f => exact h
  | dropDb f =>
    have hheld : .registryDb ∈ s.opened.erase f := (List.mem_erase_of_ne (Ne.symm hc)).mpr h.held
    exact ⟨⟨h.localDb, h.grantsDb, h.peersDb⟩, h.registry, hheld⟩
  | io c =>
    cases c with
    | removeFile f =>
      obtain rfl : f = .localTmp := hc
      simp only [Migration.exec, execIo]
      split
      · exact h.update h.held
      · exact h
    | rename src dst => exact hc.elim
    | createDb f =>
      obtain rfl : f = .localTmp := hc
      simp only [Migration.exec, execIo]
      split
      · exact h.update (List.mem_cons_of_mem _ h.held)
      · exact h.acquire _
    | openDb f => exact h.acquire f
    | beginRead f => exact h.transaction f
    | beginWrite f => exact h.transaction f
    | openTable f t => exact h.openTable f t
    | access f => exact h
    | commit f x =>
      obtain rfl : f = .localTmp := hc
      exact h.update h.held
    | start c => exact h

theorem RegistryHeld.answer (h : RegistryHeld d s) {c : FileCall} {a : c.Answer} (hc : Harmless c)
    (ha : Answers c s a s') : RegistryHeld d s' := by
  rcases ha with ha | ha
  · have hs := h.exec hc
    rwa [ha] at hs
  · cases c with
    | io c =>
      cases a with
      | error e =>
        obtain rfl : s' = s := ha
        exact h
      | ok v => exact ha.elim
    | fileExists f => exact ha.elim
    | dropDb f => exact ha.elim

theorem harmless_copyCall {src : DataFile} (hsrc : src ≠ .registryDb) {c : FileCall}
    (h : CopyCall .localTmp src c) : Harmless c := by
  cases h with
  | commit x => exact rfl
  | dropDb => exact hsrc
  | _ => trivial

theorem uses_copy {β : Type} {rows row : String} {name : Table} {table : Db → Option (ExtTreeMap Bytes β)}
    {withTable : Db → ExtTreeMap Bytes β → Db} {src : DataFile} (hsrc : src ≠ .registryDb) :
    (copyTable rows row name table withTable .localTmp src).Uses Harmless :=
  uses_copyTable.mono fun _ ↦ harmless_copyCall hsrc

variable {Q : Unit → DataState → Prop}

/-- The registry cannot be opened again. -/
theorem wp_copyRingPeers (h : RegistryHeld d s) :
    wp Answers (copyRingPeers .localTmp .registryDb) Q (fun _ ↦ RegistryHeld d) s := by
  rw [copyRingPeers, withDb, wp_bind, context, wp_mapError, io, wp_bind, wp_ask]
  intro a s' ha
  rw [wp_ofExcept]
  cases a with
  | error e => exact h.answer (c := .io (.openDb .registryDb)) trivial ha
  | ok v =>
    rcases ha with ha | ha
    · have hopen : acquire .registryDb s = (.ok v, s') := ha
      rw [acquire, if_pos h.held] at hopen
      cases hopen
    · exact ha.elim

theorem wp_harmless {α : Type} {p : FileProgram α} (hp : p.Uses Harmless) (h : RegistryHeld d s) :
    wp Answers p (fun _ ↦ RegistryHeld d) (fun _ ↦ RegistryHeld d) s :=
  hp.wp_invariant (fun _ _ _ _ hc h ha ↦ h.answer hc ha) h

theorem wp_harmless_bind {α β : Type} {p : FileProgram α} {f : α → FileProgram β} {Q : β → DataState → Prop}
    (hp : p.Uses Harmless) (h : RegistryHeld d s)
    (hf : ∀ v s, RegistryHeld d s → wp Answers (f v) Q (fun _ ↦ RegistryHeld d) s) :
    wp Answers (p >>= f) Q (fun _ ↦ RegistryHeld d) s := by
  rw [wp_bind]
  exact wp_mono (wp_harmless hp h) hf (fun _ _ h ↦ h)

theorem wp_withDb {f : DataFile} {acquire body : FileProgram Unit} (hf : f ≠ .registryDb)
    (hacquire : acquire.Uses Harmless) (h : RegistryHeld d s)
    (hbody : ∀ s, RegistryHeld d s → wp Answers body (fun _ _ ↦ False) (fun _ ↦ RegistryHeld d) s) :
    wp Answers (withDb f acquire body) Q (fun _ ↦ RegistryHeld d) s := by
  apply wp_harmless_bind hacquire h
  intro _ s h
  rw [wp_bind, wp_attempt]
  apply wp_mono (hbody s h)
  · intro _ _ hfalse
    exact hfalse.elim
  · intro e s h
    apply wp_harmless_bind (uses_ask (P := Harmless) (c := .dropDb f) hf) h
    intro _ s h
    exact h

theorem wp_fillTmp {hasGrants hasPeers : Bool} (h : RegistryHeld d s) :
    wp Answers (fillTmp hasGrants hasPeers) Q (fun _ ↦ RegistryHeld d) s := by
  apply wp_withDb (by decide) (uses_step (by exact rfl)) h
  intro s h
  apply wp_harmless_bind (uses_step (c := .beginWrite .localTmp) trivial) h
  intro write s h
  apply wp_harmless_bind (uses_step (c := .access .localTmp) trivial) h
  intro _ s h
  apply wp_harmless_bind (uses_step (c := .access .localTmp) trivial) h
  intro _ s h
  apply wp_harmless_bind (uses_step (by exact rfl)) h
  intro _ s h
  apply wp_harmless_bind (uses_ifPresent (uses_copy (by decide))) h
  intro _ s h
  apply wp_harmless_bind (uses_ifPresent (uses_copy (by decide))) h
  intro _ s h
  rw [wp_bind, wp_ask]
  intro hasRegistry s' ha
  rcases ha with ha | ha
  · cases ha
    rw [h.registry]
    exact wp_copyRingPeers h
  · exact ha.elim

theorem wp_migrateIfNeeded (hold : (d .grantsDb).isSome ∨ (d .peersDb).isSome) (h : RegistryHeld d s) :
    wp Answers migrateIfNeeded Q (fun _ ↦ RegistryHeld d) s := by
  have hexists : ∀ {α : Type} {f : DataFile} {k : Bool → FileProgram α} {Q : α → DataState → Prop},
      wp Answers (k (s.files f).isSome) Q (fun _ ↦ RegistryHeld d) s →
      wp Answers (ask (FileCall.fileExists f) >>= k) Q (fun _ ↦ RegistryHeld d) s := by
    intro α f k Q hk
    rw [wp_bind, wp_ask]
    intro a s' ha
    rcases ha with ha | ha
    · cases ha
      exact hk
    · exact ha.elim
  apply hexists
  rw [h.localDb]
  apply hexists
  apply hexists
  rw [h.grantsDb, h.peersDb]
  split
  · rename_i hnone
    simp only [Bool.and_eq_true, Bool.not_eq_true'] at hnone
    simp [hnone] at hold
  · apply hexists
    apply wp_harmless_bind (uses_ifPresent (uses_step (by exact rfl))) h
    intro _ s h
    rw [wp_bind]
    exact wp_mono (wp_fillTmp (Q := fun _ _ ↦ False) h) (fun _ _ hfalse ↦ hfalse.elim) (fun _ _ h ↦ h)

end Held

theorem wp_nodeStart {relayUrl : Option String} {d : DataDir} {s : DataState}
    (hold : (d .grantsDb).isSome ∨ (d .peersDb).isSome) (h : RegistryHeld d s) :
    wp Answers (nodeStart relayUrl) (fun _ _ ↦ False) (fun _ ↦ RegistryHeld d) s := by
  have hstart : ∀ c, (io (.start c)).Uses Harmless := fun c ↦ uses_io (c := .start c) trivial
  apply wp_harmless_bind (hstart .createDataDir) h
  intro _ s h
  have hrelay : (probeRelay relayUrl).Uses Harmless := by
    cases relayUrl with
    | none => trivial
    | some url => exact (hstart .probeRelay).mapError
  apply wp_harmless_bind hrelay h
  intro _ s h
  apply wp_harmless_bind (hstart .bindEndpoint).mapError h
  intro _ s h
  apply wp_harmless_bind (hstart .loadBlobs).mapError h
  intro _ s h
  rw [openLocalStore, wp_bind, wp_bind, context, wp_mapError]
  exact wp_migrateIfNeeded hold h

theorem Untouched.of_files {d : DataDir} {s s' : DataState} (h : Untouched d s)
    (hs : ∀ f ≠ .registryDb, s'.files f = s.files f) : Untouched d s' where
  localDb := by rw [hs _ (by decide), h.localDb]
  grantsDb := by rw [hs _ (by decide), h.grantsDb]
  peersDb := by rw [hs _ (by decide), h.peersDb]

theorem wp_runServe {openRegistry : FileProgram Unit} {relayUrl : Option String} {d : DataDir}
    (hopen : OpensRegistry openRegistry) (hlocal : d .localDb = none)
    (hold : (d .grantsDb).isSome ∨ (d .peersDb).isSome) :
    wp Answers (runServe openRegistry relayUrl) (fun _ _ ↦ False) (fun _ ↦ Untouched d) (boot d) := by
  have hboot : Untouched d (boot d) := ⟨hlocal, rfl, rfl⟩
  rw [runServe, wp_bind, context, wp_mapError, io, wp_bind, wp_ask]
  intro a s ha
  have hs : s = boot d := by
    rcases ha with ha | ha
    · exact (congrArg Prod.snd ha).symm
    · cases a with
      | error e => exact ha
      | ok v => exact ha.elim
  subst hs
  rw [wp_ofExcept]
  cases a with
  | error e => exact hboot
  | ok v =>
    rw [outcome_ok, wp_bind, context, wp_mapError]
    apply wp_mono (hopen (boot d))
    · intro _ s hs
      obtain ⟨hregistry, hheld, hfiles⟩ := hs
      have h : RegistryHeld d s := ⟨hboot.of_files hfiles, hregistry, hheld⟩
      rw [wp_bind]
      apply wp_mono (wp_nodeStart hold h)
      · intro _ _ hfalse
        exact hfalse.elim
      · intro e s h
        exact h.toUntouched
    · intro e s hs
      exact hboot.of_files hs

/-- `run_serve` opens the registry before the migration does, so with a data directory that
is to be migrated the daemon never comes up. -/
theorem runServe_never_migrates {openRegistry : FileProgram Unit} (hopen : OpensRegistry openRegistry)
    (relayUrl : Option String) {d : DataDir} {r : Except Error Unit} {s : DataState}
    (hlocal : d .localDb = none) (hold : (d .grantsDb).isSome ∨ (d .peersDb).isSome)
    (h : Runs Answers (runServe openRegistry relayUrl) (boot d) r s) :
    (∃ e, r = .error e) ∧ s.files .localDb = none ∧ s.files .grantsDb = d .grantsDb ∧
      s.files .peersDb = d .peersDb := by
  cases r with
  | ok v => exact (h.ok_of_wp (wp_runServe hopen hlocal hold)).elim
  | error e =>
    have hs : Untouched d s := h.error_of_wp (wp_runServe hopen hlocal hold)
    exact ⟨⟨e, rfl⟩, hs.localDb, hs.grantsDb, hs.peersDb⟩

def openRedb : FileProgram Unit := io (.createDb .registryDb)

theorem opensRegistry_openRedb : OpensRegistry openRedb := by
  intro s
  rw [openRedb, io, wp_bind, wp_ask]
  intro a s' ha
  rw [wp_ofExcept]
  cases a with
  | error e =>
    have hs : s' = s := by
      rcases ha with ha | ha
      · exact execIo_error (c := .createDb .registryDb) ha
      · exact ha
    rw [hs]
    exact fun _ _ ↦ rfl
  | ok v =>
    rcases ha with ha | ha
    · have hcreate : execIo (.createDb .registryDb) s = (.ok v, s') := ha
      simp only [execIo, acquire] at hcreate
      split at hcreate
      · cases hcreate
        refine ⟨by simp, by simp, fun f hf ↦ Function.update_of_ne hf ..⟩
      · split at hcreate
        · cases hcreate
        · split at hcreate <;> cases hcreate
          rename_i hfile
          exact ⟨by simp [hfile], by simp, fun _ _ ↦ rfl⟩
    · exact ha.elim

theorem runServe_never_migrates_oldDataDir :
    ∃ e, (run exec (runServe openRedb none) (boot oldDataDir)).1 = .error e :=
  (runServe_never_migrates opensRegistry_openRedb none rfl (.inl rfl)
    ((runs_run _ _).mono (fun _ _ _ _ h ↦ .inl h))).1

/-- The same data directory is migrated when nobody holds the registry open, and the start
of the daemon fails on it although no call does. -/
theorem start_fails_where_migration_works :
    (run exec migrateIfNeeded (boot oldDataDir)).1 = .ok () ∧
      (run exec (runServe openRedb none) (boot oldDataDir)).1 =
        .error ⟨"migrating to local.redb", ["opening registry.redb", alreadyOpen.message]⟩ := by
  decide +kernel

end Ringdrop.Migration
