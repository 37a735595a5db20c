import Ringdrop.Core.Basic
import Ringdrop.Library.Interleaving
import Ringdrop.Library.Json

namespace Ringdrop

open Library Program

@[ext]
structure SecretKey where
  asBytes : Bytes
  length_eq : asBytes.length = 32

instance : DecidableEq SecretKey :=
  fun key key' ↦ decidable_of_iff (key.asBytes = key'.asBytes) SecretKey.ext_iff.symm

structure Config where
  secretKey : SecretKey
  daemonPort : UInt16
  relayUrl : Option String
  defaultReceiveDir : Option Path
deriving DecidableEq

/-- The serialised form of a configuration. What is written reads back, and an empty text
is no configuration. -/
structure ConfigFormat where
  toStringPretty : Config → Except Error String
  fromStr : String → Except Error Config
  fromStr_toStringPretty : ∀ cfg raw, toStringPretty cfg = .ok raw → fromStr raw = .ok cfg
  fromStr_empty : ∀ cfg, fromStr "" ≠ .ok cfg

/-- What a process does to `config.json`, its directory and the random numbers. A file is
written in two steps: it is opened, which creates or empties it, and then the bytes go in. -/
inductive ConfigCall
  | pathExists
  | createDirAll
  | generateKey
  | createFile
  | writeAll (bytes : Bytes)
  | readToString

@[reducible] def ConfigCall.Ans : ConfigCall → Type
  | pathExists => Bool
  | generateKey => SecretKey
  | readToString => Except Error String
  | _ => Except Error Unit

abbrev Loading (α : Type) := Program Error ConfigCall ConfigCall.Ans α

namespace Config

def defaultDaemonPort : UInt16 := 60001

def readToString : Loading String := do .ofExcept (← .ask .readToString)

def createDirAll : Loading Unit := do .ofExcept (← .ask .createDirAll)

def write (raw : String) : Loading Unit := do
  .ofExcept (← .ask .createFile)
  .ofExcept (← .ask (.writeAll (Utf8.toBytes raw)))

def loadOrCreate (format : ConfigFormat) (dataDir : Path) : Loading Config := do
  let path := (dataDir.join (Path.ofString "config.json")).toStringLossy
  if ← .ask .pathExists then
    let raw ← readToString.mapError (Error.context s!"reading {path}")
    (Program.ofExcept (format.fromStr raw)).mapError (Error.context s!"parsing {path}")
  else
    createDirAll.mapError (Error.context s!"creating {dataDir.toStringLossy}")
    let cfg : Config := ⟨← .ask .generateKey, defaultDaemonPort, none, none⟩
    let raw ← .ofExcept (format.toStringPretty cfg)
    (write raw).mapError (Error.context s!"writing {path}")
    return cfg

end Config

/-- What a call can be answered where the file is as it is, or is missing. Whatever cannot
be looked at does not exist, and what goes wrong may leave some of the bytes behind. -/
inductive ConfigAnswers : (c : ConfigCall) → Option Bytes → c.Ans → Option Bytes → Prop
  | present (bytes : Bytes) : ConfigAnswers .pathExists (some bytes) true (some bytes)
  | absent (file : Option Bytes) : ConfigAnswers .pathExists file false file
  | createDirAll (file : Option Bytes) (r : Except Error Unit) : ConfigAnswers .createDirAll file r file
  | generateKey (file : Option Bytes) (key : SecretKey) : ConfigAnswers .generateKey file key file
  | created (file : Option Bytes) : ConfigAnswers .createFile file (.ok ()) (some [])
  | notCreated (file : Option Bytes) (e : Error) : ConfigAnswers .createFile file (.error e) file
  | written (file : Option Bytes) (bytes : Bytes) :
      ConfigAnswers (.writeAll bytes) file (.ok ()) (file.map fun old ↦ bytes ++ old.drop bytes.length)
  | cutShort (file : Option Bytes) (bytes : Bytes) (n : ℕ) (e : Error) :
      ConfigAnswers (.writeAll bytes) file (.error e) (file.map fun old ↦ bytes.take n ++ old.drop n)
  | read (text : String) : ConfigAnswers .readToString (some (Utf8.toBytes text)) (.ok text) (some (Utf8.toBytes text))
  | notRead (file : Option Bytes) (e : Error) : ConfigAnswers .readToString file (.error e) file

namespace Config

variable {format : ConfigFormat} {log : Trace ConfigCall.Ans}

/-- The process has created the file and is about to write it. -/
def Opened (log : Trace ConfigCall.Ans) : Prop := ∃ before, log = before ++ [⟨.createFile, .ok ()⟩]

/-- The file is written right after it has been created. -/
def Orderly (log : Trace ConfigCall.Ans) : ConfigCall → Prop
  | .writeAll _ => Opened log
  | _ => True

/-- The process knows that the file has been read, or written, with this text. -/
def Seen (log : Trace ConfigCall.Ans) (raw : String) : Prop :=
  ⟨.readToString, .ok raw⟩ ∈ log ∨ ⟨.writeAll (Utf8.toBytes raw), .ok ()⟩ ∈ log

def Holds (format : ConfigFormat) (cfg : Config) (log : Trace ConfigCall.Ans) : Prop :=
  ∃ raw, Seen log raw ∧ format.fromStr raw = .ok cfg

theorem opened_concat {x : (c : ConfigCall) × c.Ans} : Opened (log ++ [x]) ↔ x = ⟨.createFile, .ok ()⟩ := by
  constructor
  · intro ⟨before, h⟩
    obtain ⟨-, hlast⟩ := List.append_inj' h rfl
    exact List.head_eq_of_cons_eq hlast
  · intro h
    exact ⟨log, by rw [h]⟩

theorem wpc_asking {c : ConfigCall} {α : Type} {f : c.Ans → Except Error α} {Q : α → Trace ConfigCall.Ans → Prop}
    (hlog : Follows Orderly log) (hc : Orderly log c)
    (hQ : ∀ a v, f a = .ok v → Follows Orderly (log ++ [⟨c, a⟩]) → Q v (log ++ [⟨c, a⟩])) :
    (Program.ask c >>= fun a ↦ Program.ofExcept (f a) : Loading α).wpc Pool.hearing (Follows Orderly) Q log := by
  apply wpc_bind
  apply wpc_ask hlog
  intro a log' hheard
  have hlog' : Follows Orderly log' := by
    rw [hheard.2]
    exact follows_concat.mpr hc
  have hnext := hQ a
  rw [← hheard.2] at hnext
  exact ⟨hlog', wpc_ofExcept hlog' fun v hv ↦ hnext v hv hlog'⟩

theorem wpc_write {raw : String} (hlog : Follows Orderly log) :
    (write raw).wpc Pool.hearing (Follows Orderly) (fun _ log' ↦ Seen log' raw) log := by
  have hcreate : (write raw) = ((Program.ask .createFile >>= fun a ↦ Program.ofExcept (id a)) >>= fun _ ↦
      Program.ask (.writeAll (Utf8.toBytes raw)) >>= fun a ↦ Program.ofExcept (id a)) := (bind_assoc ..).symm
  rw [hcreate]
  apply wpc_bind
  apply wpc_asking (c := .createFile) (f := id) hlog trivial
  intro a _ ha hlog'
  obtain rfl : a = .ok () := ha
  apply wpc_asking (c := .writeAll (Utf8.toBytes raw)) (f := id) hlog' (opened_concat.mpr rfl)
  intro b _ hb _
  obtain rfl : b = .ok () := hb
  exact .inr (List.mem_append_right _ (List.mem_singleton_self _))

theorem wpc_loadOrCreate (format : ConfigFormat) (dataDir : Path) :
    (loadOrCreate format dataDir).wpc Pool.hearing (Follows Orderly) (fun cfg ↦ Holds format cfg) [] := by
  unfold loadOrCreate
  apply wpc_bind
  apply wpc_ask follows_nil
  intro there log hheard
  have hlog : Follows Orderly log := by
    rw [hheard.2]
    exact follows_concat.mpr trivial
  refine ⟨hlog, ?_⟩
  split
  · apply wpc_bind
    apply wpc_mapError
    apply wpc_asking (c := .readToString) (f := id) hlog trivial
    intro a raw ha hlog'
    obtain rfl : a = .ok raw := ha
    apply wpc_mapError
    refine wpc_ofExcept hlog' fun cfg hcfg ↦ ⟨raw, .inl ?_, hcfg⟩
    exact List.mem_append_right _ (List.mem_singleton_self _)
  · apply wpc_bind
    apply wpc_mapError
    apply wpc_asking (c := .createDirAll) (f := id) hlog trivial
    intro _ _ _ hlog₁
    apply wpc_bind
    apply wpc_ask hlog₁
    intro key log₂ hheard₂
    have hlog₂ : Follows Orderly log₂ := by
      rw [hheard₂.2]
      exact follows_concat.mpr trivial
    refine ⟨hlog₂, wpc_bind ?_⟩
    refine wpc_ofExcept hlog₂ fun raw hraw ↦ wpc_bind ?_
    apply wpc_mapError
    apply wpc_mono (wpc_write hlog₂)
    intro _ log₃ hlog₃ hseen
    exact ⟨hlog₃, raw, hseen, format.fromStr_toStringPretty _ _ hraw⟩

section Runs

variable {ι : Type}

/-- Calls of `load_or_create` on one data directory, by any number of processes. -/
abbrev Loads (ι : Type) := Pool ι (Option Bytes) Error ConfigCall ConfigCall.Ans Config

def loads (format : ConfigFormat) (dataDir : ι → Path) : Loads ι :=
  Pool.start none fun i ↦ loadOrCreate format (dataDir i)

def Created (log : Trace ConfigCall.Ans) : Prop := ⟨.createFile, .ok ()⟩ ∈ log

def CreatesAbsent (x : Loads ι) (_ : ι) : ConfigCall → Prop
  | .createFile => x.state = none
  | _ => True

def Untouched (file file' : Option Bytes) : Prop := file' = file

/-- One process at most has created the file, and what has been seen of it as a configuration
is what there is. -/
structure Undisputed (format : ConfigFormat) (x : Loads ι) : Prop where
  absent : x.state = none → ∀ i, ¬ Created (x.threads i).log
  unique : ∀ i j, Created (x.threads i).log → Created (x.threads j).log → i = j
  opened : ∀ i, Opened (x.threads i).log → x.state = some []
  seen : ∀ i raw cfg, Seen (x.threads i).log raw → format.fromStr raw = .ok cfg → x.state = some (Utf8.toBytes raw)

theorem undisputed_loads (format : ConfigFormat) (dataDir : ι → Path) : Undisputed format (loads format dataDir) := by
  have hlog : ∀ i, ((loads format dataDir).threads i).log = [] := fun _ ↦ rfl
  refine ⟨fun _ i h ↦ ?_, fun i _ h ↦ ?_, fun i h ↦ ?_, fun i raw cfg h ↦ ?_⟩
  · simp [Created, hlog] at h
  · simp [Created, hlog] at h
  · obtain ⟨before, h⟩ := h
    simp [hlog] at h
  · simp [Seen, hlog] at h

theorem created_of_opened (h : Opened log) : Created log := by
  obtain ⟨before, rfl⟩ := h
  exact List.mem_append_right _ (List.mem_singleton_self _)

theorem created_concat {x : (c : ConfigCall) × c.Ans} :
    Created (log ++ [x]) ↔ Created log ∨ x = ⟨.createFile, .ok ()⟩ := by
  rw [Created, List.mem_append, List.mem_singleton, Created, eq_comm]

theorem seen_concat {x : (c : ConfigCall) × c.Ans} {raw : String} :
    Seen (log ++ [x]) raw ↔ Seen log raw ∨ Seen [x] raw := by
  rw [Seen, List.mem_append, List.mem_append, Seen, Seen]
  tauto

variable [DecidableEq ι] {x : Loads ι} {i : ι} {c : ConfigCall} {a : c.Ans} {k : c.Ans → Loading Config}
  {file : Option Bytes}

theorem created_resume {j : ι} (h : Created ((x.resume i c a k file).threads j).log) :
    Created (x.threads j).log ∨ (j = i ∧ (⟨c, a⟩ : (c : ConfigCall) × c.Ans) = ⟨.createFile, .ok ()⟩) := by
  by_cases hij : j = i
  · subst hij
    rw [Pool.resume_self, created_concat] at h
    exact h.imp_right fun hnew ↦ ⟨rfl, hnew⟩
  · rw [Pool.resume_of_ne _ hij] at h
    exact .inl h

theorem opened_resume {j : ι} (h : Opened ((x.resume i c a k file).threads j).log) :
    (j ≠ i ∧ Opened (x.threads j).log) ∨ (⟨c, a⟩ : (c : ConfigCall) × c.Ans) = ⟨.createFile, .ok ()⟩ := by
  by_cases hij : j = i
  · subst hij
    rw [Pool.resume_self] at h
    exact .inr (opened_concat.mp h)
  · rw [Pool.resume_of_ne _ hij] at h
    exact .inl ⟨hij, h⟩

theorem seen_resume {j : ι} {raw : String} (h : Seen ((x.resume i c a k file).threads j).log raw) :
    Seen (x.threads j).log raw ∨ Seen [⟨c, a⟩] raw := by
  by_cases hij : j = i
  · subst hij
    rw [Pool.resume_self] at h
    exact seen_concat.mp h
  · rw [Pool.resume_of_ne _ hij] at h
    exact .inl h

theorem Undisputed.unchanged (h : Undisputed format x)
    (hnew : (⟨c, a⟩ : (c : ConfigCall) × c.Ans) ≠ ⟨.createFile, .ok ()⟩)
    (hseen : ∀ raw, Seen [⟨c, a⟩] raw → x.state = some (Utf8.toBytes raw)) :
    Undisputed format (x.resume i c a k x.state) := by
  have hcreated : ∀ j, Created ((x.resume i c a k x.state).threads j).log → Created (x.threads j).log :=
    fun j hj ↦ (created_resume hj).elim id fun hj ↦ absurd hj.2 hnew
  refine ⟨fun hnone j hj ↦ h.absent hnone j (hcreated j hj),
    fun j l hj hl ↦ h.unique j l (hcreated j hj) (hcreated l hl), fun j hj ↦ ?_, fun j raw cfg hj hcfg ↦ ?_⟩
  · rcases opened_resume hj with ⟨-, hj⟩ | hj
    · exact h.opened j hj
    · exact absurd hj hnew
  · rcases seen_resume hj with hj | hj
    · exact h.seen j raw cfg hj hcfg
    · exact hseen raw hj

theorem Undisputed.created (h : Undisputed format x) (habsent : x.state = none)
    {k : ConfigCall.createFile.Ans → Loading Config} :
    Undisputed format (x.resume i .createFile (.ok ()) k (some [])) := by
  have hcreated : ∀ j, Created ((x.resume i .createFile (.ok ()) k (some [])).threads j).log → j = i :=
    fun j hj ↦ (created_resume hj).elim (fun hj ↦ absurd hj (h.absent habsent j)) And.left
  refine ⟨fun hnone ↦ absurd hnone (Option.some_ne_none _),
    fun j l hj hl ↦ (hcreated j hj).trans (hcreated l hl).symm, fun _ _ ↦ rfl, fun j raw cfg hj hcfg ↦ ?_⟩
  rcases seen_resume hj with hj | hj
  · have hstate := h.seen j raw cfg hj hcfg
    rw [habsent] at hstate
    cases hstate
  · simp [Seen] at hj

theorem Undisputed.filled (h : Undisputed format x) (hopened : Opened (x.threads i).log)
    (hnew : (⟨c, a⟩ : (c : ConfigCall) × c.Ans) ≠ ⟨.createFile, .ok ()⟩) {bytes : Bytes}
    (hseen : ∀ raw, Seen [⟨c, a⟩] raw → bytes = Utf8.toBytes raw) :
    Undisputed format (x.resume i c a k (some bytes)) := by
  have hcreated : ∀ j, Created ((x.resume i c a k (some bytes)).threads j).log → Created (x.threads j).log :=
    fun j hj ↦ (created_resume hj).elim id fun hj ↦ absurd hj.2 hnew
  refine ⟨fun hnone ↦ absurd hnone (Option.some_ne_none _),
    fun j l hj hl ↦ h.unique j l (hcreated j hj) (hcreated l hl), fun j hj ↦ ?_, fun j raw cfg hj hcfg ↦ ?_⟩
  · rcases opened_resume hj with ⟨hne, hj⟩ | hj
    · exact absurd (h.unique j i (created_of_opened hj) (created_of_opened hopened)) hne
    · exact absurd hj hnew
  · rcases seen_resume hj with hj | hj
    · -- so far there was nothing in the file to be seen
      have hstate := h.seen j raw cfg hj hcfg
      rw [h.opened i hopened] at hstate
      have hempty : raw = "" := Utf8.toBytes_injective (Option.some.inj hstate).symm
      rw [hempty] at hcfg
      exact absurd hcfg (format.fromStr_empty cfg)
    · rw [Pool.resume_state, hseen raw hj]

theorem Undisputed.step (h : Undisputed format x) (hc : Orderly (x.threads i).log c) (hg : CreatesAbsent x i c)
    {file : Option Bytes} (ha : ConfigAnswers c x.state a file) : Undisputed format (x.resume i c a k file) := by
  generalize hstate : x.state = before at ha
  cases ha with
  | present _ | absent | createDirAll _ | generateKey _ | notCreated _ | notRead _ =>
    rw [← hstate]
    exact h.unchanged (by simp) (by simp [Seen])
  | created => exact h.created hg
  | written _ bytes =>
    rw [← hstate, h.opened i hc]
    refine h.filled hc (by simp) fun raw hraw ↦ ?_
    have hbytes : Utf8.toBytes raw = bytes := by simpa [Seen] using hraw
    dsimp only
    rw [List.drop_nil, List.append_nil, hbytes]
  | cutShort _ bytes n e =>
    rw [← hstate, h.opened i hc]
    exact h.filled hc (by simp) (by simp [Seen])
  | read text =>
    rw [← hstate]
    refine h.unchanged (by simp) fun raw hraw ↦ ?_
    have htext : raw = text := by simpa [Seen] using hraw
    rw [htext, hstate]

variable {dataDir : ι → Path} {calls : List (ι × (c : ConfigCall) × c.Ans)}

/-- In every interleaving in which the file is only created where there is none: what each
call returns is what the file holds, so that all of them have the key that is on disk. -/
theorem loadOrCreate_stored (h : Pool.History ConfigAnswers Untouched CreatesAbsent (loads format dataDir) calls x) :
    (∀ i cfg, (x.threads i).prog = .ret cfg →
      ∃ raw, x.state = some (Utf8.toBytes raw) ∧ format.fromStr raw = .ok cfg) ∧
    ∀ i j cfg cfg', (x.threads i).prog = .ret cfg → (x.threads j).prog = .ret cfg' →
      cfg.secretKey = cfg'.secretKey := by
  have hall : Undisputed format x ∧ ∀ i, (x.threads i).prog.wpc Pool.hearing (Follows Orderly)
      (fun cfg ↦ Holds format cfg) (x.threads i).log := by
    induction h with
    | refl => exact ⟨undisputed_loads format dataDir, fun i ↦ wpc_loadOrCreate format (dataDir i)⟩
    | @step y calls i c k a s _ hg hp ha ih =>
      obtain ⟨hundisputed, hthreads⟩ := ih
      have hi := hthreads i
      rw [hp] at hi
      have hnext := hi.2 a _ ⟨trivial, rfl⟩
      have hc : Orderly (y.threads i).log c := follows_concat.mp (wpc_invariant hnext)
      refine ⟨hundisputed.step hc hg ha, ?_⟩
      exact Pool.forall_resume
        (J := fun _ prog log ↦ prog.wpc Pool.hearing (Follows Orderly) (fun cfg ↦ Holds format cfg) log) hthreads hnext
    | env _ he ih =>
      obtain rfl := he
      exact ih
  have hstored : ∀ i cfg, (x.threads i).prog = .ret cfg →
      ∃ raw, x.state = some (Utf8.toBytes raw) ∧ format.fromStr raw = .ok cfg := by
    intro i cfg hret
    have hi := hall.2 i
    rw [hret] at hi
    obtain ⟨-, raw, hseen, hcfg⟩ := hi
    exact ⟨raw, hall.1.seen i raw cfg hseen hcfg, hcfg⟩
  refine ⟨hstored, fun i j cfg cfg' hi hj ↦ ?_⟩
  obtain ⟨raw, hraw, hcfg⟩ := hstored i cfg hi
  obtain ⟨raw', hraw', hcfg'⟩ := hstored j cfg' hj
  obtain rfl : raw = raw' := Utf8.toBytes_injective (Option.some.inj (hraw.symm.trans hraw'))
  rw [Except.ok.inj (hcfg.symm.trans hcfg')]

end Runs

section TwoCalls

def fresh (b : UInt8) : Config := ⟨⟨List.replicate 31 0 ++ [b], rfl⟩, defaultDaemonPort, none, none⟩

def configJson (cfg : Config) : String :=
  String.ofList (Json.print (.obj
    [("secret_key", .str (String.ofList (hexChars cfg.secretKey.asBytes))), ("daemon_port", .num cfg.daemonPort.toNat),
      ("relay_url", .null), ("default_receive_dir", .null)]))

def twoConfigs : List Config := [fresh 1, fresh 2]

def twoFormat : ConfigFormat where
  toStringPretty cfg := if cfg ∈ twoConfigs then .ok (configJson cfg) else .error (.msg "unsupported configuration")
  fromStr raw := match twoConfigs.find? (fun cfg ↦ configJson cfg == raw) with
    | some cfg => .ok cfg
    | none => .error (.msg "expected value")
  fromStr_toStringPretty cfg raw h := by
    have hall : ∀ cfg ∈ twoConfigs, twoConfigs.find? (fun c ↦ configJson c == configJson cfg) = some cfg := by
      decide +kernel
    split at h
    · rename_i hcfg
      rw [← Except.ok.inj h, hall cfg hcfg]
    · cases h
  fromStr_empty cfg := by
    have hnone : twoConfigs.find? (fun c ↦ configJson c == "") = none := by decide +kernel
    rw [hnone]
    exact fun h ↦ nomatch h

def tryCall : (c : ConfigCall) → Option Bytes → c.Ans × Option Bytes
  | .pathExists, file => (file.isSome, file)
  | .createDirAll, file => (.ok (), file)
  | .generateKey, file => ((fresh (if file.isSome then 2 else 1)).secretKey, file)
  | .createFile, _ => (.ok (), some [])
  | .writeAll bytes, file => (.ok (), file.map fun old ↦ bytes ++ old.drop bytes.length)
  | .readToString, file => match file.bind Utf8.fromUtf8 with
    | some text => (.ok text, file)
    | none => (.error (.msg "stream did not contain valid UTF-8"), file)

theorem configAnswers_of_graph {c : ConfigCall} {file file' : Option Bytes} {a : c.Ans}
    (h : graph tryCall c file a file') : ConfigAnswers c file a file' := by
  have ha : (tryCall c file).1 = a := congrArg Prod.fst h
  have hfile : (tryCall c file).2 = file' := congrArg Prod.snd h
  subst ha hfile
  cases c with
  | pathExists =>
    cases file with
    | none => exact .absent none
    | some bytes => exact .present bytes
  | createDirAll => exact .createDirAll file _
  | generateKey => exact .generateKey file _
  | createFile => exact .created file
  | writeAll bytes => exact .written file bytes
  | readToString =>
    simp only [tryCall]
    split
    · rename_i text htext
      obtain ⟨bytes, rfl, hbytes⟩ := Option.bind_eq_some_iff.mp htext
      obtain rfl := Utf8.fromUtf8_eq_some_iff.mp hbytes
      exact .read text
    · exact .notRead file _

def twoLoads : Loads Bool := loads twoFormat fun _ ↦ Path.ofString "/home/u/.ringdrop"

def oneAfterTheOther : List Bool := List.replicate 5 false ++ List.replicate 2 true

def bothCreate : List Bool := [false, true] ++ List.replicate 4 false ++ List.replicate 4 true

def returned : Loading Config → Option Config
  | .ret cfg => some cfg
  | _ => none

theorem eq_ret_of_returned {prog : Loading Config} {cfg : Config} (h : returned prog = some cfg) : prog = .ret cfg := by
  cases prog with
  | ret v => rw [Option.some.inj h]
  | fail e => cases h
  | call c k => cases h

def createsAbsent (x : Loads Bool) (_ : Bool) : ConfigCall → Bool
  | .createFile => x.state.isNone
  | _ => true

theorem loadOrCreate_stored_twice :
    ∃ raw, (Pool.schedule tryCall oneAfterTheOther twoLoads).state = some (Utf8.toBytes raw) ∧
      twoFormat.fromStr raw = .ok (fresh 1) := by
  have hchecked : Pool.scheduleChecked tryCall createsAbsent oneAfterTheOther twoLoads = true := by decide +kernel
  have hhistory : Pool.History ConfigAnswers Untouched CreatesAbsent twoLoads
      (Pool.scheduleCalls tryCall oneAfterTheOther twoLoads) (Pool.schedule tryCall oneAfterTheOther twoLoads) := by
    refine (Pool.history_schedule _ _ hchecked).mono (fun _ _ _ _ ↦ configAnswers_of_graph) fun x i c hc ↦ ?_
    cases c with
    | createFile => exact Option.isNone_iff_eq_none.mp hc
    | _ => trivial
  exact (loadOrCreate_stored hhistory).1 true (fresh 1) (eq_ret_of_returned (by decide +kernel))

/-- Two processes that both find no file go on with different keys, and only one of them is
kept. -/
theorem loadOrCreate_differ : ∃ calls x, Pool.History ConfigAnswers Untouched (fun _ _ _ ↦ True) twoLoads calls x ∧
    (x.threads false).prog = .ret (fresh 1) ∧ (x.threads true).prog = .ret (fresh 2) ∧
    (fresh 1).secretKey ≠ (fresh 2).secretKey ∧
    ∃ raw, x.state = some (Utf8.toBytes raw) ∧ twoFormat.fromStr raw = .ok (fresh 2) := by
  have hchecked : Pool.scheduleChecked tryCall (fun _ _ _ ↦ true) bothCreate twoLoads = true := by decide +kernel
  refine ⟨Pool.scheduleCalls tryCall bothCreate twoLoads, Pool.schedule tryCall bothCreate twoLoads, ?_,
    eq_ret_of_returned (by decide +kernel), eq_ret_of_returned (by decide +kernel), by decide +kernel,
    configJson (fresh 2), by decide +kernel, ?_⟩
  · exact (Pool.history_schedule _ _ hchecked).mono (fun _ _ _ _ ↦ configAnswers_of_graph) fun _ _ _ _ ↦ trivial
  · exact twoFormat.fromStr_toStringPretty _ _ (by rfl)

end TwoCalls

end Config

end Ringdrop
