import Ringdrop.Daemon.ReceiveLocation
import Ringdrop.Daemon.Session

namespace Ringdrop.Cli

open Library Program Server Handlers Relation

/-- The index of a file, the number of files, and its name. -/
abbrev File := ℕ × ℕ × String

/-- What `receive` shows on a terminal: the lines above the progress bar, and the bar. -/
structure Display where
  printed : List String
  currentFile : Option File
  errorMsg : Option String
  length : UInt64
  position : UInt64
  message : String
  cleared : Bool

namespace Display

def new : Display := ⟨[], none, none, 0, 0, "", false⟩

def tick (file : File) : String := s!"  ✓ [{file.1}/{file.2.1}] {file.2.2}"

def takeFile (x : Display) : Display :=
  match x.currentFile with
  | some file => { x with printed := x.printed ++ [tick file], currentFile := none }
  | none => x

def onEvent (x : Display) (event : Event) : Display :=
  match event.kind with
  | .line text => { x with printed := x.printed ++ [text] }
  | .progress received total => { x with length := total, position := received }
  | .fileProgress fileIndex fileTotal fileName received total =>
    let isNewFile := x.currentFile.all (fun file ↦ file.1 ≠ fileIndex)
    let x := if isNewFile then
        { x.takeFile with
          currentFile := some (fileIndex, fileTotal, fileName)
          message := s!" [{fileIndex}/{fileTotal}] {fileName}" }
      else x
    { x with length := total, position := received }
  | .done => { x.takeFile with cleared := true }
  | .error message => { x with currentFile := none, cleared := true, errorMsg := some message }
  | .record _ => x

theorem printed_takeFile (x : Display) : x.takeFile.printed = x.printed ++ x.currentFile.toList.map tick := by
  unfold takeFile
  cases x.currentFile <;> simp

def bump (file : File) (shown : List String × Option File) : List String × Option File :=
  if shown.2.all (fun f ↦ f.1 ≠ file.1) then (shown.1 ++ shown.2.toList.map tick, some file) else shown

theorem onEvent_fileProgress (x : Display) (reqId : Uuid) (file : File) (received total : UInt64) :
    ((x.onEvent (.fileProgress reqId file.1 file.2.1 file.2.2 received total)).printed,
      (x.onEvent (.fileProgress reqId file.1 file.2.1 file.2.2 received total)).currentFile) =
      bump file (x.printed, x.currentFile) := by
  unfold onEvent bump
  dsimp only [Event.fileProgress]
  split
  · exact congrArg (·, some file) (printed_takeFile x)
  · rfl

end Display

def receive (parse : String → Except String Event) (stream : Bytes) : Except Error Unit × Display :=
  DaemonClient.listen parse Display.onEvent (stream.length + 1) stream .new

/-- The file of a collection whose turn it is, and those that were missing at theirs. -/
structure Turns where
  file : Option File
  missing : List File

def Turns.after (t : Turns) : (c : Call) → c.Ans → Turns
  | .progress (.fileStart index total name), _ => { t with file := some (index, total, name) }
  | .store (.status _), .ok (.complete _) => { t with file := none }
  | .store (.status _), _ => ⟨none, t.missing ++ t.file.toList⟩
  | _, _ => t

def turns (log : Trace Call.Ans) : Turns := log.foldl (fun t y ↦ t.after y.1 y.2) ⟨none, []⟩

theorem turns_concat (log : Trace Call.Ans) (c : Call) (a : c.Ans) :
    turns (log ++ [⟨c, a⟩]) = (turns log).after c a := List.foldl_concat ..

def shown (log : Trace Call.Ans) : Display := (deliver log).events.foldl Display.onEvent .new

/-- The fetch of a file as a member of its collection has been gone through and has succeeded. -/
def Fetched (env : Env) (log : Trace Call.Ans) (file : File) : Prop :=
  ∃ (hash : Hash) (index : ℕ) (before run after : Trace Call.Ans), file.1 = index + 1 ∧ log = before ++ run ++ after ∧
    Runs Recorded (RingReceiver.fetchMember env (fun e ↦ Program.ask (Call.progress e)) file.2.1
      ((file.2.2, hash), index)) [] (.ok ()) run

theorem Fetched.mono {env : Env} {log : Trace Call.Ans} {file : File} (h : Fetched env log file)
    (more : Trace Call.Ans) : Fetched env (log ++ more) file := by
  obtain ⟨hash, index, before, run, after, hindex, rfl, hrun⟩ := h
  exact ⟨hash, index, before, run, after ++ more, hindex, by rw [List.append_assoc], hrun⟩

section Fetching

variable {env : Env} {I M : Trace Call.Ans → Prop} {log : Trace Call.Ans}

def Complete (a : Except Error BlobStatus) : Prop := ∃ size, a = .ok (.complete size)

theorem wpc_isComplete {hash : Hash} {Q : Bool → Trace Call.Ans → Prop} (hI : I log)
    (hcomplete : ∀ a : Except Error BlobStatus, Complete a →
      I (log ++ [⟨.store (.status hash), a⟩]) ∧ Q true (log ++ [⟨.store (.status hash), a⟩]))
    (hmissing : ∀ a : Except Error BlobStatus, ¬ Complete a →
      I (log ++ [⟨.store (.status hash), a⟩]) ∧ Q false (log ++ [⟨.store (.status hash), a⟩])) :
    (RingReceiver.isComplete hash).wpc Recorded I Q log := by
  refine ⟨hI, fun a log' ha ↦ ?_⟩
  rw [ha.2]
  cases a with
  | error e => exact hmissing (.error e) (by rintro ⟨size, h⟩; cases h)
  | ok status =>
    cases status with
    | complete size => exact hcomplete _ ⟨size, rfl⟩
    | _ => exact hmissing _ (by rintro ⟨size, h⟩; cases h)

theorem wpc_kept {α : Type} {p : Action α} (hp : p.Uses fun c ↦ Wired c = false)
    (hM : ∀ log (c : Call) (a : c.Ans), Wired c = false → M log → M (log ++ [⟨c, a⟩])) (hI : ∀ log, M log → I log)
    (h : M log) : p.wpc Recorded I (fun _ ↦ M) log := by
  have hkept : p.wpc Recorded M (fun _ _ ↦ True) log := by
    refine hp.wpc_invariant (fun c log a log' hc hlog ha ↦ ?_) h
    rw [ha.2]
    exact hM log c a hc hlog
  exact wpc_weaken (wpc_mono hkept fun _ _ hM' _ ↦ hM') hI

/-- A fetch finds its blob complete, or reports its bytes at least once before it succeeds. -/
theorem wpc_fetchBlob {before complete missing reported : Trace Call.Ans → Prop} {hash : Hash}
    (hbefore : before log) (hI : ∀ log, before log ∨ complete log ∨ missing log ∨ reported log → I log)
    (hcomplete : ∀ a : Except Error BlobStatus, Complete a → complete (log ++ [⟨.store (.status hash), a⟩]))
    (hmissing : ∀ a : Except Error BlobStatus, ¬ Complete a → missing (log ++ [⟨.store (.status hash), a⟩]))
    (hkept : ∀ log (c : Call) (a : c.Ans), Wired c = false →
      (missing log → missing (log ++ [⟨c, a⟩])) ∧ (reported log → reported (log ++ [⟨c, a⟩])))
    (hreport : ∀ log received total, missing log ∨ reported log →
      reported (log ++ [⟨.progress (.bytes received total), ()⟩])) :
    (RingReceiver.fetchBlob env hash (some fun e ↦ Program.ask (Call.progress e))).wpc Recorded I
      (fun _ log' ↦ complete log' ∨ reported log') log := by
  have hquiet : ∀ {α : Type} {p : Action α} {log : Trace Call.Ans}, p.Uses (fun c ↦ Wired c = false) →
      missing log → p.wpc Recorded I (fun _ ↦ missing) log :=
    fun hp h ↦ wpc_kept hp (fun log c a hc ↦ (hkept log c a hc).1) (fun log h ↦ hI log (.inr (.inr (.inl h)))) h
  have hreported : ∀ {α : Type} {p : Action α} {log : Trace Call.Ans}, p.Uses (fun c ↦ Wired c = false) →
      reported log → p.wpc Recorded I (fun _ ↦ reported) log :=
    fun hp h ↦ wpc_kept hp (fun log c a hc ↦ (hkept log c a hc).2) (fun log h ↦ hI log (.inr (.inr (.inr h)))) h
  have hspoken : ∀ {log : Trace Call.Ans} (received total : UInt64), missing log ∨ reported log →
      (RingReceiver.report (some fun e ↦ Program.ask (Call.progress e)) (.bytes received total)).wpc Recorded I
        (fun _ ↦ reported) log := by
    intro log received total h
    refine ⟨hI log (.inr (.inr h)), fun a log' ha ↦ ?_⟩
    rw [ha.2]
    have hnext := hreport log received total h
    exact ⟨hI _ (.inr (.inr (.inr hnext))), hnext⟩
  have hnet : ∀ c : NetCall, (net c).Uses fun c ↦ Wired c = false := fun c ↦ uses_asking (.net c) id rfl
  apply wpc_bind
  refine wpc_isComplete (hI log (.inl hbefore)) (fun a ha ↦ ?_) fun a ha ↦ ?_
  · have hdone := hcomplete a ha
    exact ⟨hI _ (.inr (.inl hdone)), hI _ (.inr (.inl hdone)), .inl hdone⟩
  · have hstart := hmissing a ha
    refine ⟨hI _ (.inr (.inr (.inl hstart))), ?_⟩
    rw [if_neg Bool.false_ne_true]
    apply wpc_bind
    refine wpc_mono (hquiet (hnet .openBi) hstart) fun _ log₁ _ h₁ ↦ ?_
    apply wpc_bind
    refine wpc_mono (hquiet (hnet (.sendRequest hash .read)) h₁) fun _ log₂ _ h₂ ↦ ?_
    apply wpc_bind
    refine wpc_mono (hquiet (hnet (.sendRanges [])) h₂) fun _ log₃ _ h₃ ↦ ?_
    apply wpc_bind
    refine wpc_mono (hquiet (hnet .finish) h₃) fun _ log₄ _ h₄ ↦ ?_
    apply wpc_bind
    have hrecv : recv.Uses fun c ↦ Wired c = false := uses_ask rfl
    refine wpc_mono (hquiet hrecv h₄) fun stream log₅ _ h₅ ↦ ?_
    apply wpc_bind
    refine wpc_mono (hquiet (uses_context (uses_ofExcept _)) h₅) fun r log₆ _ h₆ ↦ ?_
    dsimp only
    have hstop := hI log₆ (.inr (.inr (.inl h₆)))
    split
    · exact hstop
    · exact hstop
    · exact hstop
    · apply wpc_bind
      refine wpc_mono (hquiet (uses_context (uses_ofExcept _)) h₆) fun r log₇ _ h₇ ↦ ?_
      apply wpc_bind
      refine wpc_mono (hspoken _ _ (.inl h₇)) fun _ log₈ hi₈ h₈ ↦ ?_
      unfold RingReceiver.importBao
      split
      · exact ⟨hi₈, .inr h₈⟩
      · apply wpc_bind
        refine wpc_mono (hreported (uses_context (uses_asking (.store (.importBao hash _)) id rfl)) h₈) fun _ log₉ _ h₉ ↦ ?_
        apply wpc_bind
        refine wpc_mono (hreported (uses_ask rfl) h₉) fun result log₁₀ _ h₁₀ ↦ ?_
        apply wpc_bind
        refine wpc_mono (wpc_forM_mem (J := reported) (fun log h ↦ hI log (.inr (.inr (.inr h))))
          (fun leaf _ log h ↦ hspoken _ _ (.inr h)) h₁₀) fun _ log₁₁ _ h₁₁ ↦ ?_
        apply wpc_bind
        refine wpc_mono (hreported (uses_context (uses_ofExcept _)) h₁₁) fun _ log₁₂ _ h₁₂ ↦ ?_
        exact wpc_mono (hreported (uses_context (uses_ofExcept _)) h₁₂) fun _ _ _ h ↦ .inr h

end Fetching

theorem sentLines_subset (log : Trace Call.Ans) (c : Call) (a : c.Ans) {text : String} (h : text ∈ sentLines log) :
    text ∈ sentLines (log ++ [⟨c, a⟩]) := by
  rw [sentLines_concat]
  exact List.mem_append_left _ h

theorem after_of_unwired {c : Call} (hc : Wired c = false) (d : Delivery) : d.after c = d := by
  cases c with
  | send e => cases hc
  | startProgress reqId => cases hc
  | progress e => cases hc
  | joinProgress => cases hc
  | _ => rfl

theorem shown_unwired {log : Trace Call.Ans} {c : Call} (hc : Wired c = false) (a : c.Ans) :
    shown (log ++ [⟨c, a⟩]) = shown log := by
  rw [shown, deliver_concat, after_of_unwired hc, shown]

theorem shown_send (log : Trace Call.Ans) (e : Event) :
    shown (log ++ [⟨.send e, ()⟩]) = (shown log).onEvent e := by
  rw [shown, deliver_concat]
  exact List.foldl_concat ..

/-- Every line shown has been sent by the handler or is the completion line of a file that has been
fetched. -/
def Truthful (env : Env) (log : Trace Call.Ans) : Prop :=
  ∀ text ∈ (shown log).printed, text ∈ sentLines log ∨ ∃ file, Fetched env log file ∧ text = Display.tick file

/-- It stays so as long as nothing new is shown. -/
theorem Truthful.call {env : Env} {log : Trace Call.Ans} (h : Truthful env log) {c : Call} {a : c.Ans}
    (hprinted : (shown (log ++ [⟨c, a⟩])).printed = (shown log).printed) : Truthful env (log ++ [⟨c, a⟩]) := by
  intro text htext
  rw [hprinted] at htext
  rcases h text htext with hsent | ⟨file, hfile, rfl⟩
  · exact .inl (sentLines_subset log c a hsent)
  · exact .inr ⟨file, hfile.mono _, rfl⟩

theorem Truthful.line {env : Env} {log : Trace Call.Ans} (h : Truthful env log) (reqId : Uuid) (line : String) (a : Unit) :
    Truthful env (log ++ [⟨.send (.line reqId line), a⟩]) := by
  intro text htext
  have hprinted : (shown (log ++ [⟨.send (.line reqId line), a⟩])).printed = (shown log).printed ++ [line] := by
    rw [shown_send]
    rfl
  rw [hprinted, List.mem_append] at htext
  rcases htext with htext | htext
  · rcases h text htext with hsent | ⟨file, hfile, rfl⟩
    · exact .inl (sentLines_subset log _ _ hsent)
    · exact .inr ⟨file, hfile.mono _, rfl⟩
  · refine .inl ?_
    rw [sentLines_concat]
    exact List.mem_append_right _ htext

/-- The last file has its completion line when all is done, so that it must have been fetched. -/
theorem Truthful.done {env : Env} {log : Trace Call.Ans} (h : Truthful env log) (reqId : Uuid) (a : Unit)
    (hcurrent : ∀ file ∈ (shown log).currentFile, Fetched env log file) :
    Truthful env (log ++ [⟨.send (.done reqId), a⟩]) := by
  intro text htext
  have hprinted : (shown (log ++ [⟨.send (.done reqId), a⟩])).printed =
      (shown log).printed ++ (shown log).currentFile.toList.map Display.tick := by
    rw [shown_send]
    exact Display.printed_takeFile _
  rw [hprinted, List.mem_append, List.mem_map] at htext
  rcases htext with htext | ⟨file, hfile, rfl⟩
  · rcases h text htext with hsent | ⟨file, hfile, rfl⟩
    · exact .inl (sentLines_subset log _ _ hsent)
    · exact .inr ⟨file, hfile.mono _, rfl⟩
  · exact .inr ⟨file, (hcurrent file (Option.mem_toList.mp hfile)).mono _, rfl⟩

/-- The display in the course of a download: below the lines sent before it, the completion lines of
the files that are `ended`, all of them among those that are `ready`. -/
structure Going (env : Env) (lines : List String) (task : Option ProgressTask) (t : Turns) (ended ready : List File)
    (current : Option File) (log : Trace Call.Ans) : Prop where
  task : (deliver log).task = task
  turns : turns log = t
  printed : (shown log).printed = lines ++ ended.map Display.tick
  current : (shown log).currentFile = current
  lines : ∀ text ∈ lines, text ∈ sentLines log
  ended : ∀ file ∈ ended, file ∈ ready
  fetched : ∀ file ∈ ready, Fetched env log file

section Steps

variable {env : Env} {lines : List String} {task : ProgressTask} {wired : Option ProgressTask} {t : Turns}
  {ended ready : List File}
  {current : Option File} {log : Trace Call.Ans}

theorem Going.truthful (h : Going env lines wired t ended ready current log) : Truthful env log := by
  intro text htext
  rw [h.printed, List.mem_append, List.mem_map] at htext
  rcases htext with htext | ⟨file, hfile, rfl⟩
  · exact .inl (h.lines text htext)
  · exact .inr ⟨file, h.fetched file (h.ended file hfile), rfl⟩

theorem turns_after_of_none {c : Call} (hc : Wired c = false) (a : c.Ans) {t : Turns} (ht : t.file = none) :
    t.after c a = t := by
  obtain ⟨file, missing⟩ := t
  obtain rfl : file = none := ht
  cases c with
  | progress e => cases hc
  | store c =>
    cases c with
    | status hash =>
      cases a with
      | error e => exact congrArg (Turns.mk none) (List.append_nil _)
      | ok status => cases status <;> first | rfl | exact congrArg (Turns.mk none) (List.append_nil _)
    | _ => rfl
  | _ => rfl

theorem Going.call {c : Call} {a : c.Ans} {wired' : Option ProgressTask} {t' : Turns}
    (h : Going env lines wired t ended ready current log) (htask : ((deliver log).after c).task = wired')
    (hevents : ((deliver log).after c).events = (deliver log).events) (ht : t.after c a = t') :
    Going env lines wired' t' ended ready current (log ++ [⟨c, a⟩]) where
  task := by rw [deliver_concat]; exact htask
  turns := by rw [turns_concat, h.turns, ht]
  printed := by rw [shown, deliver_concat, hevents]; exact h.printed
  current := by rw [shown, deliver_concat, hevents]; exact h.current
  lines text htext := sentLines_subset log c a (h.lines text htext)
  ended := h.ended
  fetched file hfile := (h.fetched file hfile).mono _

theorem Going.unwired {c : Call} (h : Going env lines wired t ended ready current log) (hc : Wired c = false)
    (ht : t.file = none) (a : c.Ans) : Going env lines wired t ended ready current (log ++ [⟨c, a⟩]) := by
  have hafter := after_of_unwired hc (deliver log)
  refine h.call ?_ ?_ (turns_after_of_none hc a ht)
  · rw [hafter, h.task]
  · rw [hafter]

theorem Going.fileStart (h : Going env lines (some task) t ended ready current log) (file : File) :
    Going env lines (some { task with currentFile := some file }) { t with file := some file } ended ready current
      (log ++ [⟨.progress (.fileStart file.1 file.2.1 file.2.2), ()⟩]) := by
  refine h.call ?_ ?_ rfl
  · rw [Delivery.after, h.task]
    rfl
  · rw [Delivery.after, h.task]
    exact List.append_nil _

theorem Going.status {hash : Hash} (h : Going env lines wired t ended ready current log) (a : Except Error BlobStatus) :
    Going env lines wired (t.after (.store (.status hash)) a) ended ready current
      (log ++ [⟨.store (.status hash), a⟩]) :=
  h.call h.task rfl rfl

theorem turns_after_complete {a : Except Error BlobStatus} (h : Complete a) (hash : Hash) (t : Turns) :
    t.after (.store (.status hash)) a = { t with file := none } := by
  obtain ⟨size, rfl⟩ := h
  rfl

theorem turns_after_missing {a : Except Error BlobStatus} (h : ¬ Complete a) (hash : Hash) (t : Turns) :
    t.after (.store (.status hash)) a = ⟨none, t.missing ++ t.file.toList⟩ := by
  cases a with
  | error e => rfl
  | ok status =>
    cases status with
    | complete size => exact absurd ⟨size, rfl⟩ h
    | _ => rfl

theorem shown_bytes (htask : (deliver log).task = some task) (received total : UInt64) :
    shown (log ++ [⟨.progress (.bytes received total), ()⟩]) = (shown log).onEvent (task.event received total) := by
  rw [shown, deliver_concat, Delivery.after, htask]
  exact List.foldl_concat ..

theorem Going.bytes_alone (h : Going env lines (some task) t ended ready current log) (hfile : task.currentFile = none)
    (received total : UInt64) :
    Going env lines (some task) t ended ready current (log ++ [⟨.progress (.bytes received total), ()⟩]) where
  task := by rw [deliver_concat, Delivery.after, h.task]; rfl
  turns := by rw [turns_concat, h.turns]; rfl
  printed := by rw [shown_bytes h.task, ProgressTask.event, hfile]; exact h.printed
  current := by rw [shown_bytes h.task, ProgressTask.event, hfile]; exact h.current
  lines text htext := sentLines_subset log _ _ (h.lines text htext)
  ended := h.ended
  fetched file hfile := (h.fetched file hfile).mono _

/-- The first progress of a file has the one before it over, and more of it changes nothing. -/
theorem Going.bytes {file : File} (h : Going env lines (some task) t ended ready current log)
    (hfile : task.currentFile = some file) (received total : UInt64) :
    ((∀ f ∈ current, f.1 ≠ file.1 ∧ f ∈ ready) →
      Going env lines (some task) t (ended ++ current.toList) ready (some file)
        (log ++ [⟨.progress (.bytes received total), ()⟩])) ∧
    (current = some file → Going env lines (some task) t ended ready (some file)
      (log ++ [⟨.progress (.bytes received total), ()⟩])) := by
  have hshown : ((shown (log ++ [⟨.progress (.bytes received total), ()⟩])).printed,
      (shown (log ++ [⟨.progress (.bytes received total), ()⟩])).currentFile) =
      Display.bump file (lines ++ ended.map Display.tick, current) := by
    rw [shown_bytes h.task, ProgressTask.event, hfile, ← h.printed, ← h.current]
    exact Display.onEvent_fileProgress (shown log) task.reqId file received total
  have htask : (deliver (log ++ [⟨.progress (.bytes received total), ()⟩])).task = some task := by
    rw [deliver_concat, Delivery.after, h.task]
    rfl
  have hturns : Cli.turns (log ++ [⟨.progress (.bytes received total), ()⟩]) = t := by
    rw [turns_concat, h.turns]
    rfl
  refine ⟨fun hcurrent ↦ ?_, fun hcurrent ↦ ?_⟩
  · have hnew : current.all (fun f ↦ f.1 ≠ file.1) = true := by
      cases current with
      | none => rfl
      | some f => exact decide_eq_true (hcurrent f rfl).1
    rw [Display.bump, if_pos hnew, List.append_assoc, ← List.map_append] at hshown
    refine ⟨htask, hturns, congrArg Prod.fst hshown, congrArg Prod.snd hshown,
      fun text htext ↦ sentLines_subset log _ _ (h.lines text htext), ?_, fun f hf ↦ (h.fetched f hf).mono _⟩
    intro f hf
    rcases List.mem_append.mp hf with hf | hf
    · exact h.ended f hf
    · exact (hcurrent f (Option.mem_toList.mp hf)).2
  · have hsame : ¬ current.all (fun f ↦ f.1 ≠ file.1) = true := by
      rw [hcurrent]
      simp
    rw [Display.bump, if_neg hsame, hcurrent] at hshown
    exact ⟨htask, hturns, congrArg Prod.fst hshown, congrArg Prod.snd hshown,
      fun text htext ↦ sentLines_subset log _ _ (h.lines text htext), h.ended, fun f hf ↦ (h.fetched f hf).mono _⟩

end Steps

/-- Between two fetches, the files up to index `k` behind it: those that were missing have been
fetched, and all but the last of them have their completion lines. -/
def Between (env : Env) (lines : List String) (k : ℕ) (log : Trace Call.Ans) : Prop :=
  ∃ task ended current,
    Going env lines (some task) ⟨none, ended ++ current.toList⟩ ended (ended ++ current.toList) current log ∧
      (∀ file ∈ current, file.1 ≤ k) ∧ (current = none → ended = [])

def Alone (env : Env) (lines : List String) (log : Trace Call.Ans) : Prop :=
  ∃ task : ProgressTask, task.currentFile = none ∧ Going env lines (some task) ⟨none, []⟩ [] [] none log

section Downloads

variable {env : Env} {lines : List String} {log : Trace Call.Ans}

theorem Between.truthful {k : ℕ} (h : Between env lines k log) : Truthful env log := by
  obtain ⟨task, ended, current, h, -⟩ := h
  exact h.truthful

theorem Between.unwired {k : ℕ} {c : Call} (h : Between env lines k log) (hc : Wired c = false) (a : c.Ans) :
    Between env lines k (log ++ [⟨c, a⟩]) := by
  obtain ⟨task, ended, current, h, hk⟩ := h
  exact ⟨task, ended, current, h.unwired hc rfl a, hk⟩

theorem Alone.truthful (h : Alone env lines log) : Truthful env log := by
  obtain ⟨task, -, h⟩ := h
  exact h.truthful

theorem Alone.unwired {c : Call} (h : Alone env lines log) (hc : Wired c = false) (a : c.Ans) :
    Alone env lines (log ++ [⟨c, a⟩]) := by
  obtain ⟨task, hfile, h⟩ := h
  exact ⟨task, hfile, h.unwired hc rfl a⟩

theorem Alone.between (h : Alone env lines log) : Between env lines 0 log := by
  obtain ⟨task, -, h⟩ := h
  exact ⟨task, [], none, h, fun file hfile ↦ (by cases hfile), fun _ ↦ rfl⟩

theorem wpc_between {α : Type} {p : Action α} {k : ℕ} (hp : p.Uses fun c ↦ Wired c = false)
    (h : Between env lines k log) : p.wpc Recorded (Truthful env) (fun _ ↦ Between env lines k) log :=
  wpc_kept hp (fun _ _ a hc hlog ↦ hlog.unwired hc a) (fun _ hlog ↦ hlog.truthful) h

theorem wpc_alone {α : Type} {p : Action α} (hp : p.Uses fun c ↦ Wired c = false) (h : Alone env lines log) :
    p.wpc Recorded (Truthful env) (fun _ ↦ Alone env lines) log :=
  wpc_kept hp (fun _ _ a hc hlog ↦ hlog.unwired hc a) (fun _ hlog ↦ hlog.truthful) h

theorem wpc_truthful {α : Type} {p : Action α} (hp : p.Uses fun c ↦ Wired c = false) (h : Truthful env log) :
    p.wpc Recorded (Truthful env) (fun _ ↦ Truthful env) log :=
  wpc_kept hp (fun _ _ a hc hlog ↦ hlog.call (congrArg Display.printed (shown_unwired hc a))) (fun _ hlog ↦ hlog) h

theorem unwired_of_gathers (c : Call) (hc : c.Gathers) : Wired c = false :=
  unwired_of_silent_or_looks (.inl hc.silent)

theorem wpc_fetchMember {total index : ℕ} {name : String} {hash : Hash} (h : Between env lines index log) :
    (RingReceiver.fetchMember env (fun e ↦ Program.ask (Call.progress e)) total ((name, hash), index)).wpc Recorded
      (Truthful env) (fun _ ↦ Between env lines (index + 1)) log := by
  obtain ⟨task, ended, current, h, hcurrent, hnone⟩ := h
  obtain ⟨file, hfile⟩ : ∃ file : File, file = (index + 1, total, name) := ⟨_, rfl⟩
  obtain ⟨task', htask'⟩ : ∃ task' : ProgressTask, task' = { task with currentFile := some file } := ⟨_, rfl⟩
  have hstart := h.fileStart file
  rw [← htask'] at hstart
  have hbefore : (RingReceiver.fetchMember env (fun e ↦ Program.ask (Call.progress e)) total ((name, hash), index)).wpc
      Recorded (Truthful env) (fun _ log' ↦
        Going env lines (some task') ⟨none, ended ++ current.toList⟩ ended (ended ++ current.toList) current log' ∨
        Going env lines (some task') ⟨none, ended ++ current.toList ++ [file]⟩ (ended ++ current.toList)
          (ended ++ current.toList) (some file) log') log := by
    refine ⟨h.truthful, fun a log' ha ↦ ?_⟩
    rw [ha.2]
    rw [hfile] at hstart
    refine @wpc_fetchBlob env _ _ _ _ (Going env lines (some task') ⟨none, ended ++ current.toList ++ [file]⟩ ended
      (ended ++ current.toList) current) _ _ hstart ?_ (fun a ha ↦ ?_) (fun a ha ↦ ?_) (fun log c a hc ↦ ?_) ?_
    · rintro log (hlog | hlog | hlog | hlog) <;> exact hlog.truthful
    · have hnext := @Going.status _ _ _ _ _ _ _ _ hash hstart a
      rwa [turns_after_complete ha] at hnext
    · have hnext := @Going.status _ _ _ _ _ _ _ _ hash hstart a
      rw [turns_after_missing ha] at hnext
      rw [hfile]
      exact hnext
    · exact ⟨fun hlog ↦ hlog.unwired hc rfl a, fun hlog ↦ hlog.unwired hc rfl a⟩
    · have hunder : task'.currentFile = some file := by rw [htask']
      rintro log received size (hlog | hlog)
      · refine (hlog.bytes hunder received size).1 fun f hf ↦ ⟨?_, ?_⟩
        · have hle := hcurrent f hf
          rw [hfile]
          dsimp only
          omega
        · exact List.mem_append_right _ (Option.mem_toList.mpr hf)
      · exact (hlog.bytes hunder received size).2 rfl
  refine wpc_mono (wpc_recorded hbefore) fun _ log' _ hQ ↦ ?_
  obtain ⟨hlog | hlog, run, hrecord, hrun⟩ := hQ
  · exact ⟨task', ended, current, hlog, fun f hf ↦ Nat.le_succ_of_le (hcurrent f hf), hnone⟩
  · refine ⟨task', ended ++ current.toList, some file, ⟨hlog.task, hlog.turns, hlog.printed, hlog.current, hlog.lines,
      fun f hf ↦ List.mem_append_left _ hf, fun f hf ↦ ?_⟩, fun f hf ↦ ?_, fun h ↦ by cases h⟩
    · rcases List.mem_append.mp hf with hf | hf
      · exact hlog.fetched f hf
      · obtain rfl := List.mem_singleton.mp hf
        refine ⟨hash, index, log, run, [], by rw [hfile], by rw [hrecord, List.append_nil], ?_⟩
        rw [hfile]
        exact hrun
    · obtain rfl : file = f := Option.some.inj hf
      rw [hfile]

theorem wpc_fetchMembers {total : ℕ} (collection : Collection) (index : ℕ) (h : Between env lines index log) :
    ((collection.zipIdx index).forM
      (RingReceiver.fetchMember env (fun e ↦ Program.ask (Call.progress e)) total)).wpc Recorded
      (Truthful env) (fun _ log' ↦ ∃ k, Between env lines k log') log := by
  induction collection generalizing index log with
  | nil => exact ⟨h.truthful, index, h⟩
  | cons member rest ih =>
    rw [List.zipIdx_cons, List.forM_eq_forM, List.forM_cons]
    apply wpc_bind
    exact wpc_mono (wpc_fetchMember h) fun _ log' _ hlog' ↦ ih (index + 1) hlog'

theorem wpc_fetchCollection {hash : Hash} (h : Between env lines 0 log) :
    (RingReceiver.fetchCollection env (fun e ↦ Program.ask (Call.progress e)) hash).wpc Recorded
      (Truthful env) (fun _ log' ↦ ∃ k, Between env lines k log') log := by
  apply wpc_bind
  refine wpc_mono (wpc_between (uses_context (uses_asking (.store (.getBytes hash)) id rfl)) h) fun root log₁ _ h₁ ↦ ?_
  apply wpc_bind
  refine wpc_mono (wpc_between (uses_ofExcept _) h₁) fun links log₂ _ h₂ ↦ ?_
  have hmeta : (links.head?.forM (fun metaHash ↦ RingReceiver.fetchBlob env metaHash none)).Uses
      fun c ↦ Wired c = false := by
    cases links.head? with
    | none => trivial
    | some metaHash =>
      exact @RingReceiver.uses_fetchBlob _ unwired_of_gathers (fun _ ↦ return ()) (fun _ ↦ trivial) env metaHash false
  apply wpc_bind
  refine wpc_mono (wpc_between hmeta h₂) fun _ log₃ _ h₃ ↦ ?_
  apply wpc_bind
  refine wpc_mono (wpc_between (uses_context (uses_asking (.store (.loadCollection hash)) id rfl)) h₃)
    fun collection log₄ _ h₄ ↦ ?_
  exact wpc_fetchMembers collection 0 h₄

theorem wpc_receiverDownload {hash : Hash} {format : BlobFormat} {name : Option String} {dest : Path}
    (h : Alone env lines log) :
    (RingReceiver.download env hash format name dest (fun e ↦ Program.ask (Call.progress e))).wpc Recorded
      (Truthful env) (fun _ log' ↦ ∃ k, Between env lines k log') log := by
  have hexport : (RingReceiver.export hash format name dest).Uses fun c ↦ Wired c = false :=
    RingReceiver.uses_export (fun c hc ↦ unwired_of_silent_or_looks (.inl hc))
      (fun c hc ↦ unwired_of_silent_or_looks (.inr hc)) (fun _ _ ↦ rfl) hash format name dest
  have hrest : ∀ log, Alone env lines log → (do
      if format = .hashSeq then RingReceiver.fetchCollection env (fun e ↦ Program.ask (Call.progress e)) hash
      RingReceiver.export hash format name dest : Action Unit).wpc Recorded (Truthful env)
        (fun _ log' ↦ ∃ k, Between env lines k log') log := by
    intro log h
    dsimp only
    split
    · apply wpc_bind
      refine wpc_mono (wpc_fetchCollection h.between) fun _ log₁ _ h₁ ↦ ?_
      obtain ⟨k, h₁⟩ := h₁
      exact wpc_mono (wpc_between hexport h₁) fun _ log₂ _ h₂ ↦ ⟨k, h₂⟩
    · exact wpc_mono (wpc_between hexport h.between) fun _ log₁ _ h₁ ↦ ⟨0, h₁⟩
  apply wpc_bind
  refine wpc_mono (wpc_alone (RingReceiver.uses_isComplete unwired_of_gathers hash) h) fun complete log₁ _ h₁ ↦ ?_
  cases complete with
  | true => exact hrest log₁ h₁
  | false =>
    have hroot : (RingReceiver.fetchBlob env hash
        (if format = .raw then some fun e ↦ Program.ask (Call.progress e) else none)).wpc Recorded (Truthful env)
        (fun _ ↦ Alone env lines) log₁ := by
      cases format with
      | hashSeq =>
        exact wpc_alone
          (@RingReceiver.uses_fetchBlob _ unwired_of_gathers (fun _ ↦ return ()) (fun _ ↦ trivial) env hash false) h₁
      | raw =>
        have hstatus (a : Except Error BlobStatus) : Alone env lines (log₁ ++ [⟨.store (.status hash), a⟩]) :=
          @Alone.unwired _ _ _ (.store (.status hash)) h₁ rfl a
        rw [if_pos rfl]
        refine wpc_mono (@wpc_fetchBlob env _ _ (Alone env lines) (Alone env lines) (Alone env lines) (Alone env lines) hash
          h₁ ?_ (fun a _ ↦ hstatus a) (fun a _ ↦ hstatus a)
          (fun log c a hc ↦ ⟨fun hlog ↦ hlog.unwired hc a, fun hlog ↦ hlog.unwired hc a⟩) ?_)
          fun _ _ _ hlog ↦ hlog.elim id id
        · rintro log (hlog | hlog | hlog | hlog) <;> exact hlog.truthful
        · intro log received total hlog
          obtain ⟨task, hfile, hlog⟩ := hlog.elim id id
          exact ⟨task, hfile, hlog.bytes_alone hfile received total⟩
    apply wpc_bind
    exact wpc_mono hroot fun _ log₂ _ h₂ ↦ hrest log₂ h₂

theorem wpc_nodeDownload {ticket : ShareTicket} {dest : Path} (h : Alone env lines log) :
    (Node.download env ticket dest (fun e ↦ Program.ask (Call.progress e))).wpc Recorded
      (Truthful env) (fun _ log' ↦ ∃ k, Between env lines k log') log := by
  have hexport : (RingReceiver.export ticket.hash ticket.format ticket.name dest).Uses fun c ↦ Wired c = false :=
    RingReceiver.uses_export (fun c hc ↦ unwired_of_silent_or_looks (.inl hc))
      (fun c hc ↦ unwired_of_silent_or_looks (.inr hc)) (fun _ _ ↦ rfl) ..
  have hfetch : ∀ log, Alone env lines log → (do
      context "creating download scope" (store .batch)
      let guard ← context "creating temp tag" (store (.tempTag ⟨ticket.hash, ticket.format⟩))
      let result ← (do
        context "connecting to sender" (net (.connect ticket.addr .rings))
        RingReceiver.download env ticket.hash ticket.format ticket.name dest
          (fun e ↦ Program.ask (Call.progress e))).attempt
      dropTempTag guard
      .ofExcept result : Action Unit).wpc Recorded (Truthful env) (fun _ log' ↦ ∃ k, Between env lines k log') log := by
    intro log h
    apply wpc_bind
    refine wpc_mono (wpc_alone (uses_context (uses_asking (.store .batch) id rfl)) h) fun _ log₁ _ h₁ ↦ ?_
    apply wpc_bind
    refine wpc_mono (wpc_alone (uses_context (uses_asking (.store (.tempTag _)) id rfl)) h₁) fun guard log₂ _ h₂ ↦ ?_
    have hdrop : (dropTempTag guard).Uses fun c ↦ Wired c = false := uses_ask rfl
    refine wpc_finally ?_ fun log h ↦ wpc_mono (wpc_truthful hdrop h) fun _ _ _ _ ↦ trivial
    apply wpc_bind
    refine wpc_mono (wpc_alone (uses_context (uses_asking (.net (.connect ticket.addr .rings)) id rfl)) h₂)
      fun _ log₃ _ h₃ ↦ ?_
    refine wpc_mono (wpc_receiverDownload h₃) fun _ log₄ _ h₄ ↦ ?_
    obtain ⟨k, h₄⟩ := h₄
    exact wpc_mono (wpc_between hdrop h₄) fun _ log₅ _ h₅ ↦ ⟨k, h₅⟩
  unfold Node.download
  dsimp only
  split
  · apply wpc_bind
    refine wpc_mono (wpc_alone (RingReceiver.uses_isComplete unwired_of_gathers ticket.hash) h) fun skip log₁ _ h₁ ↦ ?_
    cases skip with
    | true => exact wpc_mono (wpc_between hexport h₁.between) fun _ log₂ _ h₂ ↦ ⟨0, h₂⟩
    | false => exact hfetch log₁ h₁
  · exact hfetch log h

end Downloads

def announced (ticket : ShareTicket) (destPath : Path) : List String :=
  [fetchingLine ticket, s!"Destination: {destPath.toStringLossy}",
    "(If interrupted, re-run this command to resume from where it stopped.)"]

/-- All that a transfer shows when it is over: every file that had to be fetched has been, and has
its completion line, the last one below the line that says so. -/
def Completed (env : Env) (lines : List String) (log : Trace Call.Ans) : Prop :=
  (shown log).printed = lines ++ (turns log).missing.dropLast.map Display.tick ++
    "Transfer complete." :: (turns log).missing.getLast?.toList.map Display.tick ∧
  ∀ file ∈ (turns log).missing, Fetched env log file

section Requests

variable {env : Env} {reqId : Uuid} {log : Trace Call.Ans}

theorem Going.line {lines : List String} (h : Going env lines none ⟨none, []⟩ [] [] none log) (reqId : Uuid)
    (text : String) (a : Unit) :
    Going env (lines ++ [text]) none ⟨none, []⟩ [] [] none (log ++ [⟨.send (.line reqId text), a⟩]) where
  task := by rw [deliver_concat]; exact h.task
  turns := by rw [turns_concat, h.turns]; rfl
  printed := by
    rw [shown_send, List.map_nil, List.append_nil]
    change (shown log).printed ++ [text] = _
    rw [h.printed, List.map_nil, List.append_nil]
  current := by rw [shown_send]; exact h.current
  lines := by
    intro t ht
    rw [sentLines_concat]
    rcases List.mem_append.mp ht with ht | ht
    · exact List.mem_append_left _ (h.lines t ht)
    · exact List.mem_append_right _ ht
  ended := h.ended
  fetched file hfile := by cases hfile

theorem wpc_sendLines (texts lines : List String) (h : Going env lines none ⟨none, []⟩ [] [] none log) :
    (sendLines reqId texts).wpc Recorded (Truthful env) (fun _ ↦ Going env (lines ++ texts) none ⟨none, []⟩ [] [] none)
      log := by
  induction texts generalizing lines log with
  | nil =>
    rw [List.append_nil]
    exact ⟨h.truthful, h⟩
  | cons text texts ih =>
    rw [sendLines, List.forM_eq_forM, List.forM_cons]
    apply wpc_bind
    refine wpc_ask h.truthful fun a log' ha ↦ ?_
    have hnext := h.line reqId text a
    have hrest := ih (lines ++ [text]) hnext
    rw [List.append_assoc, List.singleton_append] at hrest
    rw [ha.2]
    exact ⟨hnext.truthful, hrest⟩

theorem completed_of_between {lines : List String} {k : ℕ} (h : Between env lines k log) (a b c : Unit) :
    Completed env lines (log ++ [⟨.joinProgress, a⟩] ++ [⟨.send (.line reqId "Transfer complete."), b⟩] ++
      [⟨.send (.done reqId), c⟩]) := by
  obtain ⟨task, ended, current, h, -, hnone⟩ := h
  have hturns : turns (log ++ [⟨.joinProgress, a⟩] ++ [⟨.send (.line reqId "Transfer complete."), b⟩] ++
      [⟨.send (.done reqId), c⟩]) = ⟨none, ended ++ current.toList⟩ := by
    rw [turns_concat, turns_concat, turns_concat, h.turns]
    rfl
  have hjoin : shown (log ++ [⟨.joinProgress, a⟩]) = shown log := by
    rw [shown, deliver_concat]
    rfl
  have hprinted : (shown (log ++ [⟨.joinProgress, a⟩] ++ [⟨.send (.line reqId "Transfer complete."), b⟩] ++
      [⟨.send (.done reqId), c⟩])).printed =
      lines ++ ended.map Display.tick ++ ["Transfer complete."] ++ current.toList.map Display.tick := by
    rw [shown_send, shown_send, hjoin, ← h.printed, ← h.current]
    exact Display.printed_takeFile _
  refine ⟨?_, fun file hfile ↦ ?_⟩
  · rw [hprinted, hturns, List.append_assoc _ ["Transfer complete."], List.singleton_append]
    cases hcurrent : current with
    | none =>
      rw [hnone hcurrent]
      rfl
    | some file =>
      rw [Option.toList_some, List.dropLast_concat, List.getLast?_concat, Option.toList_some]
  · rw [hturns] at hfile
    exact (((h.fetched file hfile).mono _).mono _).mono _

theorem wpc_receiveBlob {ticket : ShareTicket} {destPath : Path}
    (h : Going env [] none ⟨none, []⟩ [] [] none log) :
    (receiveBlob env reqId ticket destPath).wpc Recorded (Truthful env)
      (fun _ ↦ Completed env (announced ticket destPath)) log := by
  unfold receiveBlob
  apply wpc_bind
  refine wpc_mono (wpc_sendLines (announced ticket destPath) [] h) fun _ log₁ hi₁ h₁ ↦ ?_
  rw [List.nil_append] at h₁
  apply wpc_bind
  refine wpc_ask hi₁ fun a log₂ ha ↦ ?_
  have hstart : Alone env (announced ticket destPath) log₂ := by
    rw [ha.2]
    exact ⟨⟨reqId, [], none⟩, rfl, h₁.call rfl rfl rfl⟩
  refine ⟨hstart.truthful, ?_⟩
  apply wpc_bind
  have hshown : ∀ (log : Trace Call.Ans) (a : Unit), shown (log ++ [⟨.joinProgress, a⟩]) = shown log := by
    intro log a
    rw [shown, deliver_concat]
    rfl
  have hjoin : ∀ {log : Trace Call.Ans} (a : Unit), Truthful env log → Truthful env (log ++ [⟨.joinProgress, a⟩]) :=
    fun a hlog ↦ hlog.call (congrArg Display.printed (hshown _ a))
  refine wpc_attempt ?_ fun e log₃ hi₃ ↦ ?_
  · refine wpc_mono (wpc_nodeDownload hstart) fun _ log₃ hi₃ h₃ ↦ ?_
    obtain ⟨k, h₃⟩ := h₃
    refine ⟨hi₃, fun a log₄ ha ↦ ?_⟩
    have hi₄ : Truthful env log₄ := ha.2 ▸ hjoin a hi₃
    refine ⟨hi₄, fun b log₅ hb ↦ ?_⟩
    have hi₅ : Truthful env log₅ := hb.2 ▸ hi₄.line reqId "Transfer complete." b
    refine ⟨hi₅, fun c log₆ hc ↦ ?_⟩
    have hdone := @completed_of_between env reqId _ _ _ h₃ a b c
    rw [← ha.2, ← hb.2, ← hc.2] at hdone
    refine ⟨?_, hdone⟩
    rw [hc.2]
    refine hi₅.done reqId c fun file hfile ↦ ?_
    obtain ⟨task, ended, current, h₃, -, -⟩ := h₃
    have hcurrent : (shown log₅).currentFile = current := by
      rw [hb.2, shown_send, ha.2, hshown, ← h₃.current]
      rfl
    rw [hcurrent] at hfile
    rw [hb.2, ha.2]
    exact ((h₃.fetched file (List.mem_append_right _ (Option.mem_toList.mpr hfile))).mono _).mono _
  · apply wpc_bind
    refine wpc_ask hi₃ fun a log₄ ha ↦ ?_
    have hi₄ : Truthful env log₄ := ha.2 ▸ hjoin a hi₃
    refine ⟨hi₄, ?_⟩
    dsimp only
    split
    · apply wpc_bind
      exact wpc_mono (wpc_truthful (uses_ask rfl) hi₄) fun addr log₅ hi₅ _ ↦ hi₅
    · exact hi₄

theorem wpc_handleReceive {ticketStr : String} {dest defaultReceiveDir : Option Path} {force : Bool}
    (h : Going env [] none ⟨none, []⟩ [] [] none log) :
    (handleReceive env reqId ticketStr dest defaultReceiveDir force).wpc Recorded (Truthful env)
      (fun _ log' ↦ ∃ ticket destPath, ShareTicket.fromUri env ticketStr = .ok ticket ∧
        Completed env (announced ticket destPath) log') log := by
  have hkept : ∀ {α : Type} {p : Action α} {log : Trace Call.Ans}, p.Uses (fun c ↦ Wired c = false) →
      Going env [] none ⟨none, []⟩ [] [] none log →
      p.wpc Recorded (Truthful env) (fun _ ↦ Going env [] none ⟨none, []⟩ [] [] none) log :=
    fun hp h ↦ wpc_kept hp (fun _ _ a hc hlog ↦ hlog.unwired hc rfl a) (fun _ hlog ↦ hlog.truthful) h
  apply wpc_bind
  refine wpc_ofExcept h.truthful fun ticket hticket ↦ ?_
  apply wpc_bind
  refine wpc_mono (hkept (uses_ticketDest (fun c hc ↦ unwired_of_silent_or_looks (.inl hc))
    (fun c hc ↦ unwired_of_silent_or_looks (.inr hc)) ..) h) fun destPath log₁ _ h₁ ↦ ?_
  exact wpc_mono (wpc_receiveBlob h₁) fun _ log₂ _ h₂ ↦ ⟨ticket, destPath, hticket, h₂⟩

variable {parse : String → Except String Event} {ticketStr : String} {dest defaultReceiveDir : Option Path} {force : Bool}
  {s : NodeState} {x : Connection}

end Requests

section Pair

end Pair

end Ringdrop.Cli
