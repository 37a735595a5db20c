import Ringdrop.Core.MigrationCrash

namespace Ringdrop.Migration

open Std Library Program

def Db.initialised (x : Db) : Db :=
  { x with grants := some (x.grants.getD ∅), peers := some (x.peers.getD ∅) }

section Open

variable {d d' : DataDir} {Q : Unit → DataDir → Prop}

theorem keeps_createDb_existing {f : DataFile} {m : String} {x : Db} (hx : d f = some (.db x)) (hQ : Q () d) :
    Keeps (fun _ ↦ True) (context m (io (.createDb f))) Q d := by
  apply keeps_io trivial
  intro v s s' hs h
  subst hs
  have hacquired : acquire f s = (.ok v, s') := by
    simp only [execIo] at h
    rwa [if_neg (by simp [hx])] at h
  rw [acquire_ok hacquired]
  exact ⟨trivial, hQ⟩

theorem keeps_context {J : DataDir → Prop} {m : String} {p : FileProgram Unit} (h : Keeps J p Q d) :
    Keeps J (context m p) Q d :=
  fun s hs ↦ wpc_mapError (h s hs)

theorem keeps_init {m₁ m₂ m₃ : String} {x : Db} {g : Db → Db} (hx : d .localDb = some (.db x))
    (hQ : Q () (Function.update d .localDb (some (.db (g x))))) :
    Keeps (fun _ ↦ True) (do
      let write ← context m₁ (io (.beginWrite .localDb))
      context m₂ (io (.access .localDb))
      context m₃ (io (.commit .localDb (g write)))) Q d := by
  apply keeps_bind
  apply keeps_beginWrite trivial
  intro write hwrite
  obtain rfl : x = write := by
    rw [hx] at hwrite
    cases hwrite
    rfl
  apply keeps_bind
  apply keeps_access trivial
  exact keeps_commit trivial ⟨trivial, hQ⟩

theorem keeps_initStores {x : Db} (hx : d .localDb = some (.db x))
    (hQ : ∀ d', d' .localDb = some (.db x.initialised) → Q () d') :
    Keeps (fun _ ↦ True) (do
      context "initialising grant store" initGrants
      context "initialising peer store" initPeers) Q d := by
  apply keeps_bind
  apply keeps_context
  apply keeps_init hx
  apply keeps_context
  apply keeps_init (Function.update_self ..)
  exact hQ _ (Function.update_self ..)

theorem keeps_openLocalStore (hlocal : d .localDb = none) :
    Keeps (fun _ ↦ True) openLocalStore (fun _ d' ↦ ∃ x peers, d' .localDb = some (.db x) ∧ x.peers = some peers ∧
      if (d .grantsDb).isSome ∨ (d .peersDb).isSome then Extends d.IsRingPeer d.oldPeers peers else peers = ∅) d := by
  apply keeps_bind
  apply keeps_context
  by_cases hold : (d .grantsDb).isSome ∨ (d .peersDb).isSome
  · have hmigrate : Keeps (fun _ ↦ True) migrateIfNeeded (fun _ d' ↦ Migrated d (d' .localDb)) d :=
      fun s hs ↦ wpc_weaken (keeps_migrateIfNeeded hold (.inr ⟨hlocal, fun _ _ _ ↦ rfl⟩) s hs) fun _ _ ↦ trivial
    apply hmigrate.mono
    intro _ d' hmigrated
    obtain ⟨x, peers, hx, -, hpeers, hext⟩ := hmigrated
    apply keeps_bind
    apply keeps_createDb_existing hx
    apply keeps_initStores hx
    intro d'' hd''
    refine ⟨x.initialised, peers, hd'', ?_, ?_⟩
    · rw [Db.initialised, hpeers, Option.getD_some]
    · rwa [if_pos hold]
  · -- no old file, nothing to migrate
    have hnone : Keeps (fun _ ↦ True) migrateIfNeeded (fun _ d' ↦ d' = d) d := by
      apply keeps_bind
      apply keeps_fileExists trivial
      rw [hlocal]
      apply keeps_bind
      apply keeps_fileExists trivial
      apply keeps_bind
      apply keeps_fileExists trivial
      rw [if_pos (by simpa using hold)]
      exact keeps_ret trivial rfl
    apply hnone.mono
    intro _ d' hd
    subst hd
    apply keeps_bind
    apply keeps_createDb hlocal trivial
    refine ⟨trivial, ?_⟩
    apply keeps_initStores (Function.update_self ..)
    intro d'' hd''
    exact ⟨_, ∅, hd'', rfl, by rw [if_neg hold]⟩

end Open

theorem Extends.mem {P : Bytes → Prop} {old new : Peers} (h : Extends P old new) {k : Bytes} (hk : P k) : k ∈ new := by
  rw [ExtTreeMap.mem_iff_isSome_getElem?]
  cases hold : old[k]? with
  | some v => rw [(h k v).mpr (.inl hold)]; rfl
  | none => rw [(h k "").mpr (.inr ⟨hold, rfl, hk⟩)]; rfl

/-- Once the local stores are open the members of the named rings are in the address book,
provided that there was an old file to migrate; otherwise the address book is empty. -/
theorem openLocalStore_ringPeers {d : DataDir} {s : DataState} (hlocal : d .localDb = none)
    (h : Runs Readable openLocalStore (boot d) (.ok ()) s) :
    ∃ x peers, s.files .localDb = some (.db x) ∧ x.peers = some peers ∧
      ((∀ k, d.IsRingPeer k → k ∈ peers) ↔
        (d .grantsDb).isSome ∨ (d .peersDb).isSome ∨ ∀ k, ¬ d.IsRingPeer k) ∧
      (d .grantsDb = none → d .peersDb = none → peers = ∅) := by
  obtain ⟨-, x, peers, hx, hpeers, hrows⟩ := h.of_wpc (keeps_openLocalStore hlocal (boot d) rfl)
  refine ⟨x, peers, hx, hpeers, ?_⟩
  rw [← or_assoc]
  by_cases hold : (d .grantsDb).isSome ∨ (d .peersDb).isSome
  · rw [if_pos hold] at hrows
    refine ⟨iff_of_true (fun k hk ↦ hrows.mem hk) (.inl hold), fun hgrants hpeers ↦ ?_⟩
    rw [hgrants, hpeers] at hold
    rcases hold with hold | hold
    · cases hold
    · cases hold
  · rw [if_neg hold] at hrows
    subst hrows
    rw [or_iff_right hold]
    exact ⟨forall₂_congr fun k _ ↦ iff_of_false ExtTreeMap.not_mem_empty id, fun _ _ ↦ rfl⟩

theorem runs_readable {α : Type} (p : FileProgram α) (s : DataState) :
    Runs Readable p s (run exec p s).1 (run exec p s).2 :=
  (runs_run p s).mono fun _ _ _ _ h ↦ .inl h

theorem openLocalStore_ringPeers_oldDataDir :
    ∃ x peers, (run exec openLocalStore (boot oldDataDir)).2.files .localDb = some (.db x) ∧ x.peers = some peers ∧
      ∀ k, oldDataDir.IsRingPeer k → k ∈ peers := by
  have hok : (run exec openLocalStore (boot oldDataDir)).1 = .ok () := by decide +kernel
  have hrun := runs_readable openLocalStore (boot oldDataDir)
  rw [hok] at hrun
  obtain ⟨x, peers, hx, hpeers, hiff, -⟩ := openLocalStore_ringPeers rfl hrun
  exact ⟨x, peers, hx, hpeers, hiff.mpr (.inl rfl)⟩

def registryOnly : DataDir
  | .registryDb => oldDataDir .registryDb
  | _ => none

/-- A registry without grants and peers beside it counts as a fresh install. -/
theorem openLocalStore_registryOnly : ∃ s x,
    Runs Readable openLocalStore (boot registryOnly) (.ok ()) s ∧ s.files .localDb = some (.db x) ∧
      x.peers.map ExtTreeMap.toList = some [] ∧ registryOnly.IsRingPeer (List.replicate 32 1) := by
  have hok : (run exec openLocalStore (boot registryOnly)).1 = .ok () := by decide +kernel
  have hrun := runs_readable openLocalStore (boot registryOnly)
  rw [hok] at hrun
  refine ⟨_, ⟨some ∅, some ∅, none⟩, hrun, rfl, rfl, "friends", List.replicate 32 1 ++ List.replicate 32 2, ?_, ?_, ?_⟩
  · decide +kernel
  · decide
  · decide +kernel

end Ringdrop.Migration
