import Ringdrop.Core.Migration
import Ringdrop.Library.Crash

namespace Ringdrop.Migration

open Std Library Program

variable {α β γ : Type}

def FileCall.opensTable : FileCall → Prop
  | .io (.openTable _ _) => True
  | _ => False

/-- As `Answers`, with the old tables readable: one that is there opens. -/
def Readable (c : FileCall) (s : DataState) (a : c.Answer) (s' : DataState) : Prop :=
  exec c s = (a, s') ∨ Answers c s a s' ∧ ¬ c.opensTable

theorem Readable.answers {c : FileCall} {s s' : DataState} {a : c.Answer} (h : Readable c s a s') :
    Answers c s a s' := h.elim Or.inl And.left

/-- From the files `d`, every call of `p` leaves files in `J`, and if `p` returns they are
in `Q` as well. Which databases are open makes no difference. -/
def Keeps (J : DataDir → Prop) (p : FileProgram α) (Q : α → DataDir → Prop) (d : DataDir) : Prop :=
  ∀ s : DataState, s.files = d → wpc Readable (fun s ↦ J s.files) p (fun v s ↦ Q v s.files) s

section Rules

variable {J : DataDir → Prop} {Q : α → DataDir → Prop} {d : DataDir}

theorem keeps_ret {v : α} (hJ : J d) (hQ : Q v d) : Keeps J (.ret v) Q d := by
  rintro s rfl
  exact ⟨hJ, hQ⟩

theorem keeps_bind {p : FileProgram β} {f : β → FileProgram α} (h : Keeps J p (fun v ↦ Keeps J (f v) Q) d) :
    Keeps J (p >>= f) Q d := by
  intro s hs
  apply wpc_bind
  apply wpc_mono (h s hs)
  intro v s' _ hf
  exact hf s' rfl

theorem Keeps.mono {p : FileProgram α} {Q' : α → DataDir → Prop} (h : Keeps J p Q d)
    (hQ : ∀ v d', Q v d' → Q' v d') : Keeps J p Q' d :=
  fun s hs ↦ wpc_mono (h s hs) (fun v s' _ ↦ hQ v s'.files)

theorem keeps_foldlM {f : γ → β → FileProgram γ} {g : γ → β → γ} {xs : List β} {acc : γ}
    {Q : γ → DataDir → Prop} (hf : ∀ acc x d (Q : γ → DataDir → Prop), J d → Q (g acc x) d → Keeps J (f acc x) Q d)
    (hJ : J d) (hQ : Q (xs.foldl g acc) d) : Keeps J (xs.foldlM f acc) Q d := by
  induction xs generalizing acc with
  | nil => exact keeps_ret hJ hQ
  | cons x rest ih =>
    rw [List.foldlM_cons]
    apply keeps_bind
    apply hf _ _ _ _ hJ
    exact ih hQ

theorem keeps_fileExists {f : DataFile} {Q : Bool → DataDir → Prop} (hJ : J d) (hQ : Q (d f).isSome d) :
    Keeps J (ask (FileCall.fileExists f)) Q d := by
  rintro s rfl
  refine ⟨hJ, fun a s' ha ↦ ?_⟩
  rcases ha.answers with ha | ha
  · cases ha
    exact ⟨hJ, hQ⟩
  · exact ha.elim

theorem keeps_dropDb {f : DataFile} {Q : Unit → DataDir → Prop} (hJ : J d) (hQ : Q () d) :
    Keeps J (ask (FileCall.dropDb f)) Q d := by
  rintro s rfl
  refine ⟨hJ, fun a s' ha ↦ ?_⟩
  rcases ha.answers with ha | ha
  · cases ha
    exact ⟨hJ, hQ⟩
  · exact ha.elim

theorem keeps_withDb {f : DataFile} {acquire body : FileProgram Unit} {Q : Unit → DataDir → Prop}
    (h : Keeps J acquire (fun _ ↦ Keeps J body Q) d) : Keeps J (withDb f acquire body) Q d := by
  apply keeps_bind
  intro s hs
  apply wpc_mono (h s hs)
  intro _ s' _ hbody s' hs'
  apply wpc_finally
  · apply wpc_mono (hbody s' hs')
    intro _ s hJ hQ
    exact keeps_dropDb hJ hQ s rfl
  · intro s hJ
    exact keeps_dropDb (Q := fun _ _ ↦ True) hJ trivial s rfl

theorem keeps_ifPresent {b : Bool} {p : FileProgram Unit} {Q : Unit → DataDir → Prop}
    (hp : b = true → Keeps J p Q d) (hJ : J d) (hQ : b = false → Q () d) : Keeps J (ifPresent b p) Q d := by
  cases b with
  | true => exact hp rfl
  | false => exact keeps_ret hJ (hQ rfl)

theorem execIo_error {c : IoCall} {s s' : DataState} {e : Error} (h : execIo c s = (.error e, s')) :
    s' = s := by
  cases c <;> simp only [execIo, acquire, transaction, openTable] at h <;> (repeat' split at h) <;>
    cases h <;> rfl

/-- A fallible call may also fail and do nothing, so only its success is to be looked at. -/
theorem keeps_io {c : IoCall} {m : String} {Q : c.Reply → DataDir → Prop} (hJ : J d)
    (h : ∀ v s s', s.files = d → execIo c s = (.ok v, s') → J s'.files ∧ Q v s'.files) :
    Keeps J (context m (io c)) Q d := by
  rintro s rfl
  apply wpc_mapError
  refine ⟨hJ, fun a s' ha ↦ ?_⟩
  cases a with
  | error e =>
    rcases ha.answers with ha | ha
    · rw [execIo_error ha]
      exact hJ
    · rw [show s' = s from ha]
      exact hJ
  | ok v =>
    rcases ha.answers with ha | ha
    · exact h v s s' rfl ha
    · exact ha.elim

variable {f : DataFile} {m : String}

theorem keeps_access {Q : Unit → DataDir → Prop} (hJ : J d) (hQ : Q () d) :
    Keeps J (context m (io (.access f))) Q d := by
  apply keeps_io hJ
  rintro v s s' rfl h
  cases h
  exact ⟨hJ, hQ⟩

theorem keeps_removeFile {Q : Unit → DataDir → Prop} (hJ : J d) (hJ' : J (Function.update d f none))
    (hQ : Q () (Function.update d f none)) : Keeps J (context m (io (.removeFile f))) Q d := by
  apply keeps_io hJ
  rintro v s s' rfl h
  simp only [execIo] at h
  split at h
  · cases h
    exact ⟨hJ', hQ⟩
  · cases h

theorem keeps_rename {src dst : DataFile} {Q : Unit → DataDir → Prop} (hJ : J d)
    (hQ : J (Function.update (Function.update d src none) dst (d src)) ∧
      Q () (Function.update (Function.update d src none) dst (d src))) :
    Keeps J (context m (io (.rename src dst))) Q d := by
  apply keeps_io hJ
  rintro v s s' rfl h
  simp only [execIo] at h
  split at h
  · cases h
    exact hQ
  · cases h

theorem acquire_ok {s s' : DataState} {v : Unit} (h : acquire f s = (.ok v, s')) : s'.files = s.files := by
  unfold acquire at h
  split at h
  · cases h
  · split at h <;> cases h
    rfl

theorem keeps_openDb {Q : Unit → DataDir → Prop} (hJ : J d) (hQ : Q () d) :
    Keeps J (context m (io (.openDb f))) Q d := by
  apply keeps_io hJ
  rintro v s s' rfl h
  rw [acquire_ok h]
  exact ⟨hJ, hQ⟩

theorem keeps_createDb {Q : Unit → DataDir → Prop} (hf : d f = none) (hJ : J d)
    (hQ : J (Function.update d f (some (.db .empty))) ∧ Q () (Function.update d f (some (.db .empty)))) :
    Keeps J (context m (io (.createDb f))) Q d := by
  apply keeps_io hJ
  rintro v s s' rfl h
  simp only [execIo] at h
  split at h
  · cases h
    exact hQ
  · have hacquired : acquire f s = (.ok v, s') := h
    simp only [acquire, hf] at hacquired
    split at hacquired <;> cases hacquired

theorem transaction_ok {s s' : DataState} {v : Db} (h : transaction f s = (.ok v, s')) :
    s.files f = some (.db v) ∧ s' = s := by
  unfold transaction at h
  split at h
  · cases h
    exact ⟨by assumption, rfl⟩
  · cases h

theorem keeps_beginRead {Q : Db → DataDir → Prop} (hJ : J d) (hQ : ∀ v, d f = some (.db v) → Q v d) :
    Keeps J (context m (io (.beginRead f))) Q d := by
  apply keeps_io hJ
  rintro v s s' rfl h
  obtain ⟨hv, rfl⟩ := transaction_ok h
  exact ⟨hJ, hQ v hv⟩

theorem keeps_beginWrite {Q : Db → DataDir → Prop} (hJ : J d) (hQ : ∀ v, d f = some (.db v) → Q v d) :
    Keeps J (context m (io (.beginWrite f))) Q d := by
  apply keeps_io hJ
  rintro v s s' rfl h
  obtain ⟨hv, rfl⟩ := transaction_ok h
  exact ⟨hJ, hQ v hv⟩

theorem keeps_openTable {t : Table} {x : Db} {Q : Except Error Unit → DataDir → Prop} (hx : d f = some (.db x))
    (hJ : J d) (hok : ∀ v, x.has t = true → Q (.ok v) d) (herror : ∀ e, x.has t = false → Q (.error e) d) :
    Keeps J (io (.openTable f t)).attempt Q d := by
  rintro s rfl
  refine ⟨hJ, fun a s' ha ↦ ?_⟩
  have hopen : openTable f t s = (a, s') := ha.resolve_right fun h ↦ h.2 trivial
  simp only [openTable, hx] at hopen
  split at hopen
  · rename_i hhas
    cases hopen
    exact ⟨hJ, hok () hhas⟩
  · rename_i hhas
    cases hopen
    exact ⟨hJ, herror _ (by simpa using hhas)⟩

theorem keeps_commit {db : Db} {Q : Unit → DataDir → Prop} (hJ : J d)
    (hQ : J (Function.update d f (some (.db db))) ∧ Q () (Function.update d f (some (.db db)))) :
    Keeps J (context m (io (.commit f db))) Q d := by
  apply keeps_io hJ
  rintro v s s' rfl h
  cases h
  exact hQ

end Rules

section Tables

theorem foldl_insert_toList {β : Type} (t : ExtTreeMap Bytes β) :
    t.toList.foldl (fun new row ↦ new.insert row.1 row.2) ∅ = t := by
  have hmany : ∀ (rows : List (Bytes × β)) (new : ExtTreeMap Bytes β),
      rows.foldl (fun new row ↦ new.insert row.1 row.2) new = new.insertMany rows := by
    intro rows
    induction rows with
    | nil => intro new; rfl
    | cons row rows ih => intro new; rw [List.foldl_cons, ih, ExtTreeMap.insertMany_cons]
  rw [hmany]
  apply ExtTreeMap.ext_getElem?
  intro k
  cases hk : t[k]? with
  | some v =>
    exact ExtTreeMap.getElem?_insertMany_list_of_mem ReflOrd.compare_self ExtTreeMap.distinct_keys_toList
      (ExtTreeMap.mem_toList_iff_getElem?_eq_some.mpr hk)
  | none =>
    rw [ExtTreeMap.getElem?_insertMany_list_of_contains_eq_false]
    · exact ExtTreeMap.getElem?_empty
    · rw [ExtTreeMap.map_fst_toList_eq_keys, ExtTreeMap.contains_keys]
      rw [← ExtTreeMap.isSome_getElem?_eq_contains, hk]
      rfl

/-- `new` has the rows of `old`, and rows without a nickname for all other keys in `P`. -/
def Extends (P : Bytes → Prop) (old new : Peers) : Prop :=
  ∀ k v, new[k]? = some v ↔ old[k]? = some v ∨ old[k]? = none ∧ v = "" ∧ P k

def backfill (peers : Peers) (chunk : Bytes) : Peers :=
  if chunk ∈ peers then peers else peers.insert chunk ""

def backfillRing (peers : Peers) (row : String × Bytes) : Peers :=
  if row.1 = "open" then peers else (asChunks row.2).foldl backfill peers

theorem Extends.refl {P : Bytes → Prop} (hP : ∀ k, ¬ P k) (t : Peers) : Extends P t t := by
  intro k v
  constructor
  · exact Or.inl
  · rintro (h | ⟨-, -, h⟩)
    · exact h
    · exact absurd h (hP k)

theorem Extends.trans {P P' : Bytes → Prop} {a b c : Peers} (h : Extends P a b) (h' : Extends P' b c) :
    Extends (fun k ↦ P k ∨ P' k) a c := by
  intro k v
  have hb := h k
  rw [h' k v, hb v]
  cases ha : a[k]? with
  | some w =>
    have hw : b[k]? = some w := (hb w).mpr (.inl ha)
    simp [hw]
  | none =>
    simp only [ha] at hb
    cases hbk : b[k]? with
    | some w =>
      obtain ⟨-, rfl, hP⟩ := ((hb w).mp hbk).resolve_left (by simp)
      simp [hP]
    | none =>
      have hP : ¬ P k := by
        intro hP
        have hw := (hb "").mpr (.inr ⟨trivial, rfl, hP⟩)
        rw [hbk] at hw
        cases hw
      simp [hP]

theorem extends_foldl {β : Type} {P : β → Bytes → Prop} {f : Peers → β → Peers}
    (hf : ∀ x peers, Extends (P x) peers (f peers x)) (xs : List β) (peers : Peers) :
    Extends (fun k ↦ ∃ x ∈ xs, P x k) peers (xs.foldl f peers) := by
  induction xs generalizing peers with
  | nil =>
    apply Extends.refl
    simp
  | cons x rest ih =>
    simpa using (hf x peers).trans (ih (f peers x))

theorem extends_backfill (chunk : Bytes) (peers : Peers) :
    Extends (fun k ↦ chunk = k) peers (backfill peers chunk) := by
  intro k v
  unfold backfill
  by_cases hk : chunk = k
  · subst hk
    split
    · rename_i hmem
      obtain ⟨w, hw⟩ := Option.isSome_iff_exists.mp (ExtTreeMap.mem_iff_isSome_getElem?.mp hmem)
      simp [hw]
    · rename_i hmem
      rw [ExtTreeMap.getElem?_insert_self, ExtTreeMap.getElem?_eq_none hmem]
      simp [eq_comm]
  · split
    · simp [hk]
    · rw [ExtTreeMap.getElem?_insert]
      simp [hk]

theorem extends_backfillRing (row : String × Bytes) (peers : Peers) :
    Extends (fun k ↦ row.1 ≠ "open" ∧ k ∈ asChunks row.2) peers (backfillRing peers row) := by
  unfold backfillRing
  by_cases hopen : row.1 = "open"
  · rw [if_pos hopen]
    apply Extends.refl
    simp [hopen]
  · rw [if_neg hopen]
    simpa [hopen] using extends_foldl extends_backfill (asChunks row.2) peers

end Tables

/-- The tables of a database file; a missing file has none. -/
def DataDir.db (d : DataDir) (f : DataFile) : Db :=
  match d f with
  | some (.db x) => x
  | _ => .empty

namespace DataDir

def oldGrants (d : DataDir) : Grants := (d.db .grantsDb).grants.getD ∅

def oldPeers (d : DataDir) : Peers := (d.db .peersDb).peers.getD ∅

def oldRings (d : DataDir) : Rings := (d.db .registryDb).rings.getD ∅

/-- The key is one of the 32-byte chunks of the row of a named ring. -/
def IsRingPeer (d : DataDir) (k : Bytes) : Prop :=
  ∃ name members, d.oldRings[name]? = some members ∧ name ≠ "open" ∧ k ∈ asChunks members

end DataDir

def Migrated (d : DataDir) (content : Option FileContent) : Prop :=
  ∃ db peers, content = some (.db db) ∧ db.grants = some d.oldGrants ∧ db.peers = some peers ∧
    Extends d.IsRingPeer d.oldPeers peers

structure Unmigrated (d d' : DataDir) : Prop where
  localDb : d' .localDb = none
  old : ∀ f, f ≠ .localDb → f ≠ .localTmp → d' f = d f

def Safe (d d' : DataDir) : Prop := Migrated d (d' .localDb) ∨ Unmigrated d d'

structure Filling (d : DataDir) (t : Db) (d' : DataDir) : Prop extends Unmigrated d d' where
  localTmp : d' .localTmp = some (.db t)

section Migrate

variable {d d' : DataDir} {t : Db} {Q : Unit → DataDir → Prop}

theorem Unmigrated.update (h : Unmigrated d d') (x : Option FileContent) :
    Unmigrated d (Function.update d' .localTmp x) where
  localDb := by rw [Function.update_of_ne (by decide), h.localDb]
  old := by
    intro f hlocal htmp
    rw [Function.update_of_ne htmp, h.old f hlocal htmp]

theorem Filling.write (h : Filling d t d') (t' : Db) :
    Filling d t' (Function.update d' .localTmp (some (.db t'))) where
  toUnmigrated := h.update _
  localTmp := Function.update_self ..

theorem Filling.eq (h : Filling d t d') {t' : Db} (ht : d' .localTmp = some (.db t')) : t' = t := by
  rw [h.localTmp] at ht
  cases ht
  rfl

theorem Filling.safe (h : Filling d t d') : Safe d d' := .inr h.toUnmigrated

theorem Filling.db_eq (h : Filling d t d') {f : DataFile} (hlocal : f ≠ .localDb) (htmp : f ≠ .localTmp)
    {x : Db} (hx : d' f = some (.db x)) : d.db f = x := by
  rw [h.old f hlocal htmp] at hx
  rw [DataDir.db, hx]

theorem keeps_copyTable {β : Type} {rows row : String} {name : Table} {table : Db → Option (ExtTreeMap Bytes β)}
    {withTable : Db → ExtTreeMap Bytes β → Db} {src : DataFile} (hlocal : src ≠ .localDb)
    (htmp : src ≠ .localTmp) (hhas : ∀ x : Db, x.has name = (table x).isSome)
    (hwith : withTable t ∅ = t) (h : Filling d t d') (ht : table t = some ∅)
    (hQ : ∀ d'', Filling d (withTable t ((table (d.db src)).getD ∅)) d'' → Q () d'') :
    Keeps (Safe d) (copyTable rows row name table withTable .localTmp src) Q d' := by
  apply keeps_withDb
  apply keeps_openDb h.safe
  apply keeps_bind
  apply keeps_beginRead h.safe
  intro read hread
  rw [h.db_eq hlocal htmp hread] at hQ
  apply keeps_bind
  apply keeps_openTable hread h.safe
  · intro _ _
    apply keeps_bind
    apply keeps_beginWrite h.safe
    intro write hwrite
    obtain rfl := h.eq hwrite
    apply keeps_bind
    apply keeps_access h.safe
    apply keeps_bind
    apply keeps_access h.safe
    apply keeps_bind
    apply @keeps_foldlM _ _ _ _ _ (fun new item ↦ new.insert item.1 item.2)
    · intro new item d'' Q hJ hQ
      apply keeps_bind
      apply keeps_access hJ
      apply keeps_bind
      apply keeps_access hJ
      exact keeps_ret hJ hQ
    · exact h.safe
    · apply keeps_commit h.safe
      rw [ht, Option.getD_some, foldl_insert_toList]
      exact ⟨(h.write _).safe, hQ _ (h.write _)⟩
  · intro _ hnone
    apply keeps_ret h.safe
    apply hQ
    rw [hhas, Option.isSome_eq_false_iff, Option.isNone_iff_eq_none] at hnone
    rw [hnone, Option.getD_none, hwith]
    exact h

theorem extends_rings {old : Peers} {rings : Rings} (hold : d.oldRings = rings) :
    Extends d.IsRingPeer old (rings.toList.foldl backfillRing old) := by
  have hfold := extends_foldl extends_backfillRing rings.toList old
  intro k v
  rw [hfold k v]
  simp only [DataDir.IsRingPeer, hold, Prod.exists, ExtTreeMap.mem_toList_iff_getElem?_eq_some]

theorem keeps_copyRingPeers {old : Peers} (h : Filling d t d') (ht : t.peers = some old)
    (hQ : ∀ peers d'', Extends d.IsRingPeer old peers → Filling d { t with peers := some peers } d'' → Q () d'') :
    Keeps (Safe d) (copyRingPeers .localTmp .registryDb) Q d' := by
  apply keeps_withDb
  apply keeps_openDb h.safe
  apply keeps_bind
  apply keeps_beginRead h.safe
  intro read hread
  have hold : d.oldRings = read.rings.getD ∅ := by
    rw [DataDir.oldRings, h.db_eq (by decide) (by decide) hread]
  apply keeps_bind
  apply keeps_openTable hread h.safe
  · intro _ _
    apply keeps_bind
    apply keeps_beginWrite h.safe
    intro write hwrite
    obtain rfl := h.eq hwrite
    apply keeps_bind
    apply keeps_access h.safe
    apply keeps_bind
    apply keeps_access h.safe
    apply keeps_bind
    apply @keeps_foldlM _ _ _ _ _ backfillRing
    · intro peers row d'' Q hJ hQ
      apply keeps_bind
      apply keeps_access hJ
      unfold backfillRing at hQ
      split
      · rename_i hopen
        rw [if_pos hopen] at hQ
        exact keeps_ret hJ hQ
      · rename_i hopen
        rw [if_neg hopen] at hQ
        apply @keeps_foldlM _ _ _ _ _ backfill
        · intro peers chunk d'' Q hJ hQ
          apply keeps_bind
          apply keeps_access hJ
          unfold backfill at hQ
          split
          · rename_i hmem
            rw [if_pos hmem] at hQ
            exact keeps_ret hJ hQ
          · rename_i hmem
            rw [if_neg hmem] at hQ
            apply keeps_bind
            apply keeps_access hJ
            exact keeps_ret hJ hQ
        · exact hJ
        · exact hQ
    · exact h.safe
    · apply keeps_commit h.safe
      rw [ht]
      exact ⟨(h.write _).safe, hQ _ _ (extends_rings hold) (h.write _)⟩
  · intro _ hnone
    apply keeps_ret h.safe
    apply hQ old
    · apply Extends.refl
      rintro k ⟨name, members, hmem, -⟩
      have hrows : read.rings = none := Option.isNone_iff_eq_none.mp (Option.isSome_eq_false_iff.mp hnone)
      simp [hold, hrows] at hmem
    · rw [← ht]
      exact h

theorem db_eq_empty {f : DataFile} (h : (d f).isSome = false) : d.db f = .empty := by
  rw [Option.isSome_eq_false_iff, Option.isNone_iff_eq_none] at h
  rw [DataDir.db, h]

theorem keeps_fillTmp {hasGrants hasPeers : Bool} (hgrants : hasGrants = (d .grantsDb).isSome)
    (hpeers : hasPeers = (d .peersDb).isSome) (h : Unmigrated d d') (htmp : d' .localTmp = none)
    (hQ : ∀ t d'', Filling d t d'' → Migrated d (some (.db t)) → Q () d'') :
    Keeps (Safe d) (fillTmp hasGrants hasPeers) Q d' := by
  apply keeps_withDb
  apply keeps_createDb htmp (.inr h)
  refine ⟨.inr (h.update _), ?_⟩
  have h₁ : Filling d .empty (Function.update d' .localTmp (some (.db .empty))) :=
    ⟨h.update _, Function.update_self ..⟩
  apply keeps_bind
  apply keeps_beginWrite h₁.safe
  intro write hwrite
  obtain rfl := h₁.eq hwrite
  apply keeps_bind
  apply keeps_access h₁.safe
  apply keeps_bind
  apply keeps_access h₁.safe
  apply keeps_bind
  apply keeps_commit h₁.safe
  refine ⟨(h₁.write _).safe, ?_⟩
  -- each table that has no old file is already what it has to be
  have hcopyGrants : ∀ d', Filling d ⟨some ∅, some ∅, none⟩ d' →
      Keeps (Safe d) (ifPresent hasGrants (copyGrants .localTmp .grantsDb))
        (fun _ ↦ Filling d ⟨some d.oldGrants, some ∅, none⟩) d' := by
    intro d' h
    apply keeps_ifPresent
    · intro _
      exact keeps_copyTable (by decide) (by decide) (fun _ ↦ rfl) rfl h rfl (fun _ h ↦ h)
    · exact h.safe
    · intro hnone
      rw [DataDir.oldGrants, db_eq_empty (hgrants.symm.trans hnone)]
      exact h
  have hcopyPeers : ∀ d', Filling d ⟨some d.oldGrants, some ∅, none⟩ d' →
      Keeps (Safe d) (ifPresent hasPeers (copyPeers .localTmp .peersDb))
        (fun _ ↦ Filling d ⟨some d.oldGrants, some d.oldPeers, none⟩) d' := by
    intro d' h
    apply keeps_ifPresent
    · intro _
      exact keeps_copyTable (by decide) (by decide) (fun _ ↦ rfl) rfl h rfl (fun _ h ↦ h)
    · exact h.safe
    · intro hnone
      rw [DataDir.oldPeers, db_eq_empty (hpeers.symm.trans hnone)]
      exact h
  apply keeps_bind
  apply (hcopyGrants _ (h₁.write _)).mono
  intro _ d₂ h₂
  apply keeps_bind
  apply (hcopyPeers d₂ h₂).mono
  intro _ d₃ h₃
  apply keeps_bind
  apply keeps_fileExists h₃.safe
  apply keeps_ifPresent
  · intro _
    apply keeps_copyRingPeers h₃ rfl
    intro peers d₄ hext h₄
    exact hQ _ d₄ h₄ ⟨_, peers, rfl, rfl, rfl, hext⟩
  · exact h₃.safe
  · intro hnone
    apply hQ _ d₃ h₃
    refine ⟨_, d.oldPeers, rfl, rfl, rfl, ?_⟩
    apply Extends.refl
    rintro k ⟨name, members, hmem, -⟩
    rw [h₃.old .registryDb (by decide) (by decide)] at hnone
    rw [DataDir.oldRings, db_eq_empty hnone] at hmem
    simp [Db.empty] at hmem

theorem Migrated.update {content : Option FileContent} {f : DataFile} (h : Migrated d (d' .localDb))
    (hf : f ≠ .localDb) : Migrated d (Function.update d' f content .localDb) := by
  rwa [Function.update_of_ne hf.symm]

theorem keeps_removeOld {f : DataFile} {m : String} {b : Bool} (hf : f ≠ .localDb)
    (h : Migrated d (d' .localDb)) :
    Keeps (Safe d) (ifPresent b (context m (io (.removeFile f))))
      (fun _ d'' ↦ Migrated d (d'' .localDb)) d' := by
  apply keeps_ifPresent
  · intro _
    exact keeps_removeFile (.inl h) (.inl (h.update hf)) (h.update hf)
  · exact .inl h
  · intro _
    exact h

theorem keeps_replaceOldFiles {hasGrants hasPeers : Bool} (h : Filling d t d')
    (ht : Migrated d (some (.db t))) :
    Keeps (Safe d) (replaceOldFiles hasGrants hasPeers) (fun _ d'' ↦ Migrated d (d'' .localDb)) d' := by
  apply keeps_bind
  apply keeps_rename h.safe
  have hrenamed : Migrated d
      (Function.update (Function.update d' .localTmp none) .localDb (d' .localTmp) .localDb) := by
    rw [Function.update_self, h.localTmp]
    exact ht
  refine ⟨.inl hrenamed, ?_⟩
  apply keeps_bind
  apply (keeps_removeOld (by decide) hrenamed).mono
  intro _ d₁ h₁
  exact keeps_removeOld (by decide) h₁

theorem keeps_migrateIfNeeded (hold : (d .grantsDb).isSome ∨ (d .peersDb).isSome) (h : Safe d d') :
    Keeps (Safe d) migrateIfNeeded (fun _ d'' ↦ Migrated d (d'' .localDb)) d' := by
  apply keeps_bind
  apply keeps_fileExists h
  rcases h with hmigrated | h
  · obtain ⟨db, -, hdb, -⟩ := id hmigrated
    rw [hdb]
    exact keeps_ret (.inl hmigrated) hmigrated
  · have hsafe : Safe d d' := .inr h
    rw [h.localDb]
    apply keeps_bind
    apply keeps_fileExists hsafe
    apply keeps_bind
    apply keeps_fileExists hsafe
    rw [h.old .grantsDb (by decide) (by decide), h.old .peersDb (by decide) (by decide)]
    split
    · rename_i hnone
      simp only [Bool.and_eq_true, Bool.not_eq_true'] at hnone
      simp [hnone] at hold
    · apply keeps_bind
      apply keeps_fileExists hsafe
      have hclear : Keeps (Safe d) (ifPresent (d' .localTmp).isSome
          (context "removing stale local.redb.tmp" (io (.removeFile .localTmp))))
          (fun _ d'' ↦ Unmigrated d d'' ∧ d'' .localTmp = none) d' := by
        apply keeps_ifPresent
        · intro _
          apply keeps_removeFile hsafe (.inr (h.update none))
          exact ⟨h.update none, Function.update_self ..⟩
        · exact hsafe
        · intro hnone
          rw [Option.isSome_eq_false_iff, Option.isNone_iff_eq_none] at hnone
          exact ⟨h, hnone⟩
      apply keeps_bind
      apply hclear.mono
      intro _ d₁ h₁
      apply keeps_bind
      apply keeps_fillTmp rfl rfl h₁.1 h₁.2
      intro t d₂ h₂ ht
      exact keeps_replaceOldFiles h₂ ht

end Migrate

/-- However often the migration is cut off, at every moment either `local.redb` holds all
grants and all peers, the members of named rings among them, or the old files are as they
were; and once an attempt completes it is the former. -/
theorem migrateIfNeeded_crash {d d' : DataDir} (hlocal : d .localDb = none)
    (hold : (d .grantsDb).isSome ∨ (d .peersDb).isSome)
    (h : Attempts Readable DataState.files boot migrateIfNeeded d d') :
    (Migrated d (d' .localDb) ∨ ∀ f, f ≠ .localDb → f ≠ .localTmp → d' f = d f) ∧
      ∀ s, Runs Readable migrateIfNeeded (boot d') (.ok ()) s → Migrated d (s.files .localDb) := by
  have hstart : Safe d d := .inr ⟨hlocal, fun _ _ _ ↦ rfl⟩
  have hsafe : Safe d d' := h.invariant hstart (fun d₁ h₁ ↦ keeps_migrateIfNeeded hold h₁ (boot d₁) rfl)
  refine ⟨hsafe.imp_right Unmigrated.old, fun s hs ↦ ?_⟩
  exact (hs.of_wpc (keeps_migrateIfNeeded hold hsafe (boot d') rfl)).2

def oldDataDir : DataDir
  | .localDb => none
  | .localTmp => some .other
  | .grantsDb => some (.db ⟨some ((∅ : Grants).insert (List.replicate 32 7) ()), none, none⟩)
  | .peersDb => some (.db ⟨none, some ((∅ : Peers).insert (List.replicate 32 1) "alice"), none⟩)
  | .registryDb => some (.db ⟨none, none, some (((∅ : Rings).insert "open" []).insert "friends"
      (List.replicate 32 1 ++ List.replicate 32 2))⟩)

/-- The first attempt is cut off while it copies ring members, the second one completes. -/
theorem migrateIfNeeded_crash_oldDataDir :
    Migrated oldDataDir ((run exec migrateIfNeeded
      (boot (cut exec 37 migrateIfNeeded (boot oldDataDir)).2.files)).2.files .localDb) := by
  have hexec : ∀ c s, Readable c s (exec c s).1 (exec c s).2 := fun c s ↦ .inl rfl
  have hcut : Attempts Readable DataState.files boot migrateIfNeeded oldDataDir
      (cut exec 37 migrateIfNeeded (boot oldDataDir)).2.files :=
    .crash .none (partial_cut hexec 37 migrateIfNeeded (boot oldDataDir))
  have hrun : Runs Readable migrateIfNeeded (boot (cut exec 37 migrateIfNeeded (boot oldDataDir)).2.files)
      (run exec migrateIfNeeded (boot (cut exec 37 migrateIfNeeded (boot oldDataDir)).2.files)).1
      (run exec migrateIfNeeded (boot (cut exec 37 migrateIfNeeded (boot oldDataDir)).2.files)).2 :=
    (runs_run _ _).mono (fun _ _ _ _ h ↦ .inl h)
  have hok : (run exec migrateIfNeeded
      (boot (cut exec 37 migrateIfNeeded (boot oldDataDir)).2.files)).1.toOption = some () := by
    decide +kernel
  generalize run exec migrateIfNeeded (boot (cut exec 37 migrateIfNeeded (boot oldDataDir)).2.files) = x
    at hrun hok ⊢
  obtain ⟨r, s⟩ := x
  cases r with
  | error e => cases hok
  | ok v => exact (migrateIfNeeded_crash rfl (.inl rfl) hcut).2 s hrun

end Ringdrop.Migration
