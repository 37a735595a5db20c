import Ringdrop.Core.CatalogResponse
import Ringdrop.Core.CatalogStream

namespace Ringdrop.Catalog

open Library Program

/-- A program of writes: whenever it succeeds it has put out `b.1`, and it can succeed
only if `b.2` is set. -/
def Sends (p : Action Unit) (b : Bytes × Bool) : Prop :=
  ∀ s log, p.wp (logged Answers)
    (fun _ x ↦ output sentBytes x.2 = output sentBytes log ++ b.1 ∧ b.2 = true) (fun _ _ ↦ True) (s, log)

theorem sends_write (bs : Bytes) : Sends (net (.writeAll bs)) (bs, true) := by
  intro s log a x h
  obtain ⟨-, hlog⟩ := h
  cases a with
  | error e => trivial
  | ok u =>
    refine ⟨?_, rfl⟩
    rw [hlog, output_concat]
    rfl

theorem Sends.mapError {p : Action Unit} {b : Bytes × Bool} {g : Error → Error} (hp : Sends p b) :
    Sends (p.mapError g) b := by
  intro s log
  rw [wp_mapError]
  exact hp s log

theorem Sends.bind {p q : Action Unit} {b d : Bytes × Bool} (hp : Sends p b) (hq : Sends q d) :
    Sends (p >>= fun _ ↦ q) (if b.2 then (b.1 ++ d.1, d.2) else b) := by
  intro s log
  rw [wp_bind]
  refine wp_mono (hp s log) ?_ (fun _ _ _ ↦ trivial)
  intro u x hx
  obtain ⟨hout, hb⟩ := hx
  refine wp_mono (hq x.1 x.2) ?_ (fun _ _ _ ↦ trivial)
  intro u' y hy
  obtain ⟨hout', hd⟩ := hy
  rw [if_pos hb, hout', hout, List.append_assoc]
  exact ⟨rfl, hd⟩

theorem Sends.forM {α : Type} {f : α → Action Unit} {g : α → Bytes × Bool} {xs : List α}
    (hf : ∀ x ∈ xs, Sends (f x) (g x)) : Sends (xs.forM f) (loopOutput g xs) := by
  induction xs with
  | nil => exact fun s log ↦ ⟨(List.append_nil _).symm, rfl⟩
  | cons x xs ih =>
    rw [List.forM_eq_forM, List.forM_cons]
    exact (hf x (by simp)).bind (ih (fun y hy ↦ hf y (by simp [hy])))

theorem sends_writeLengthPrefixed (data : Bytes) : Sends (writeLengthPrefixed data) (lengthPrefixed data) := by
  unfold writeLengthPrefixed lengthPrefixed
  split_ifs
  · exact (sends_write _).bind (sends_write _)
  · exact fun s log ↦ trivial

theorem sends_writeEntry (hash : Hash) (format : BlobFormat) (name ticketUri : String)
    (fileCount : Option ℕ) (totalSize : Option UInt64) :
    Sends (writeEntry hash format name ticketUri fileCount totalSize)
      (frame hash format name ticketUri fileCount totalSize) := by
  unfold writeEntry frame
  refine (sends_write _).mapError.bind ?_
  refine (sends_write _).mapError.bind ?_
  refine (sends_writeLengthPrefixed _).mapError.bind ?_
  refine (sends_writeLengthPrefixed _).mapError.bind ?_
  refine (sends_write _).mapError.bind ?_
  have hlast : Sends (context "writing file_count"
      (net (.writeAll (toLeBytes 4 ((fileCount.map (· % 2 ^ 32)).getD (2 ^ 32 - 1)))))) _ :=
    (sends_write _).mapError
  simpa [loopOutput] using hlast

theorem Sends.output_eq {p : Action Unit} {b : Bytes × Bool} (hp : Sends p b) {s s' : NodeState}
    {log : Trace Call.Ans} (h : Runs (logged Answers) p (s, []) (.ok ()) (s', log)) :
    output sentBytes log = b.1 ∧ b.2 = true := by
  obtain ⟨hout, hb⟩ := h.ok_of_wp (hp s [])
  exact ⟨by simpa [output] using hout, hb⟩

def countField (fileCount : Option ℕ) : Bytes := toLeBytes 4 ((fileCount.map (· % 2 ^ 32)).getD (2 ^ 32 - 1))

def sizeField (totalSize : Option UInt64) : Bytes := toLeBytes 8 (totalSize.getD (2 ^ 64 - 1)).toNat

theorem readCount_countField_eq (fileCount : Option ℕ) : readCount (countField fileCount) =
    fileCount.bind fun n ↦ if n % 2 ^ 32 = 2 ^ 32 - 1 then none else some (n % 2 ^ 32) := by
  rw [readCount, countField, ofLeBytes_toLeBytes]
  cases fileCount with
  | none => exact if_pos (by decide)
  | some n =>
    have hmod : n % 2 ^ 32 % 256 ^ 4 = n % 2 ^ 32 := by omega
    rw [Option.map_some, Option.getD_some, hmod, Option.bind_some]

theorem readSize_sizeField_eq (totalSize : Option UInt64) : readSize (sizeField totalSize) =
    totalSize.bind fun n ↦ if n.toNat = 2 ^ 64 - 1 then none else some n := by
  rw [readSize, sizeField, ofLeBytes_toLeBytes]
  cases totalSize with
  | none =>
    have hunknown : (Option.getD none (2 ^ 64 - 1) : UInt64).toNat % 256 ^ 8 = 2 ^ 64 - 1 := by decide +kernel
    exact if_pos hunknown
  | some n =>
    have hlt := n.toNat_lt
    have hmod : n.toNat % 256 ^ 8 = n.toNat := by omega
    rw [Option.getD_some, hmod, Option.bind_some, UInt64.ofNat_toNat]

theorem readCount_countField {fileCount : Option ℕ} (hcount : ∀ n, fileCount = some n → n < 2 ^ 32 - 1) :
    readCount (countField fileCount) = fileCount := by
  rw [readCount_countField_eq]
  cases fileCount with
  | none => rfl
  | some n =>
    have hn := hcount n rfl
    have hmod : n % 2 ^ 32 = n := by omega
    rw [Option.bind_some, hmod, if_neg (by omega)]

theorem readSize_sizeField {totalSize : Option UInt64}
    (hsize : ∀ n, totalSize = some n → n.toNat < 2 ^ 64 - 1) : readSize (sizeField totalSize) = totalSize := by
  rw [readSize_sizeField_eq]
  cases totalSize with
  | none => rfl
  | some n =>
    have hn := hsize n rfl
    rw [Option.bind_some, if_neg (by omega)]

section Frames

variable {env : Env} {hash : Hash} {format : BlobFormat} {name ticketUri : String} {fileCount : Option ℕ}
  {totalSize : Option UInt64}

theorem fits_of_frame (h : (frame hash format name ticketUri fileCount totalSize).2 = true) :
    (Utf8.toBytes name).length < 2 ^ 16 ∧ (Utf8.toBytes ticketUri).length < 2 ^ 16 := by
  have hall := forall_of_loopOutput h
  have hname := hall (lengthPrefixed (Utf8.toBytes name)) (by simp)
  have hticket := hall (lengthPrefixed (Utf8.toBytes ticketUri)) (by simp)
  unfold lengthPrefixed at hname hticket
  dsimp only [id] at hname hticket
  split_ifs at hname with hn
  split_ifs at hticket with ht
  exact ⟨hn, ht⟩

theorem frame_of_fits (hname : (Utf8.toBytes name).length < 2 ^ 16)
    (hticket : (Utf8.toBytes ticketUri).length < 2 ^ 16) :
    frame hash format name ticketUri fileCount totalSize =
      (hash.asBytes ++ formatByte format :: (toLeBytes 2 (Utf8.toBytes name).length ++ Utf8.toBytes name ++
        (toLeBytes 2 (Utf8.toBytes ticketUri).length ++ Utf8.toBytes ticketUri ++
          (sizeField totalSize ++ countField fileCount))), true) := by
  have hfull (data : Bytes) (h : data.length < 2 ^ 16) :
      lengthPrefixed data = (toLeBytes 2 data.length ++ data, true) := if_pos h
  rw [frame, hfull _ hname, hfull _ hticket]
  simp [loopOutput, sizeField, countField]

def wireFrame (fileCount : Option ℕ) (totalSize : Option UInt64)
    (h : (frame hash format name ticketUri fileCount totalSize).2 = true) (ticket : ShareTicket)
    (hticket : ShareTicket.fromUri env ticketUri = .ok ticket) : WireFrame env where
  hash := hash
  format := format
  name := name
  name_fits := (fits_of_frame h).1
  ticketText := ticketUri
  ticket_fits := (fits_of_frame h).2
  ticket := ticket
  parsed := hticket
  size := sizeField totalSize
  size_length := length_toLeBytes ..
  count := countField fileCount
  count_length := length_toLeBytes ..

theorem bytes_wireFrame (h : (frame hash format name ticketUri fileCount totalSize).2 = true)
    {ticket : ShareTicket} (hticket : ShareTicket.fromUri env ticketUri = .ok ticket) :
    (wireFrame fileCount totalSize h ticket hticket).bytes =
      (frame hash format name ticketUri fileCount totalSize).1 := by
  rw [frame_of_fits (fits_of_frame h).1 (fits_of_frame h).2]
  rfl

theorem entry_wireFrame (h : (frame hash format name ticketUri fileCount totalSize).2 = true)
    {ticket : ShareTicket} (hticket : ShareTicket.fromUri env ticketUri = .ok ticket)
    (hcount : ∀ n, fileCount = some n → n < 2 ^ 32 - 1)
    (hsize : ∀ n, totalSize = some n → n.toNat < 2 ^ 64 - 1) :
    (wireFrame fileCount totalSize h ticket hticket).entry =
      ⟨hash, format, name, ticket, fileCount, totalSize⟩ := by
  rw [WireFrame.entry]
  simp only [wireFrame, readCount_countField hcount, readSize_sizeField hsize]

end Frames

/-- `write_entry` for an entry, with the text of its ticket. -/
def writeCatalogEntry (env : Env) (e : CatalogEntry) : Action Unit := do
  let ticketUri ← .ofExcept (e.ticket.toUri env)
  writeEntry e.hash e.format e.name ticketUri e.fileCount e.totalSize

def entryFrame (env : Env) (e : CatalogEntry) : Bytes × Bool :=
  match e.ticket.toUri env with
  | .error _ => ([], false)
  | .ok ticketUri => frame e.hash e.format e.name ticketUri e.fileCount e.totalSize

theorem sends_writeCatalogEntry (env : Env) (e : CatalogEntry) :
    Sends (writeCatalogEntry env e) (entryFrame env e) := by
  unfold writeCatalogEntry entryFrame
  cases e.ticket.toUri env with
  | error err => exact fun s log ↦ trivial
  | ok ticketUri => exact sends_writeEntry e.hash e.format e.name ticketUri e.fileCount e.totalSize

/-- Whatever list of entries is written without an error is read back as it was, up to
the last byte, if tickets are read back from their texts and no number is one of those
that stand for unknown. -/
theorem decodeEntries_written {env : Env} {entries : List CatalogEntry} {s s' : NodeState}
    {log : Trace Call.Ans}
    (hticket : ∀ e ∈ entries, ∀ uri, e.ticket.toUri env = .ok uri → ShareTicket.fromUri env uri = .ok e.ticket)
    (hcount : ∀ e ∈ entries, ∀ n, e.fileCount = some n → n < 2 ^ 32 - 1)
    (hsize : ∀ e ∈ entries, ∀ n, e.totalSize = some n → n.toNat < 2 ^ 64 - 1)
    (h : Runs (logged Answers) (entries.forM (writeCatalogEntry env)) (s, []) (.ok ()) (s', log)) :
    decodeEntries env ⟨output sentBytes log, none⟩ = .ok entries ∧
      Reads env ⟨output sentBytes log, none⟩ entries ⟨[], none⟩ := by
  have hsends := Sends.forM (fun e (_ : e ∈ entries) ↦ sends_writeCatalogEntry env e)
  obtain ⟨hout, hall⟩ := hsends.output_eq h
  have hflags := forall_of_loopOutput hall
  have hframe : ∀ e ∈ entries, FrameOf env e (entryFrame env e).1 := by
    intro e he
    have hflag := hflags e he
    unfold entryFrame at hflag ⊢
    cases huri : e.ticket.toUri env with
    | error err =>
      rw [huri] at hflag
      cases hflag
    | ok uri =>
      rw [huri] at hflag
      have hfrom := hticket e he uri huri
      exact ⟨wireFrame e.fileCount e.totalSize hflag e.ticket hfrom,
        (entry_wireFrame hflag hfrom (hcount e he) (hsize e he)).symm, (bytes_wireFrame hflag hfrom).symm⟩
  have hframed := framed_flatMap (f := id) hframe
  rw [List.map_id] at hframed
  rw [hout, loopOutput_of_forall hflags]
  exact ⟨decodeEntries_eq_ok.mpr hframed, reads_of_framed hframed⟩

def notesEntry : CatalogEntry := ⟨.fromByte 1, .raw, "notes", namedTicket "notes", some 2, some 5⟩

theorem decodeEntries_notes : ∃ log : Trace Call.Ans,
    decodeEntries (.plain [namedWire "notes"]) ⟨output sentBytes log, none⟩ = .ok [notesEntry, notesEntry] ∧
      Reads (.plain [namedWire "notes"]) ⟨output sentBytes log, none⟩ [notesEntry, notesEntry] ⟨[], none⟩ := by
  have hrun := runs_execLogged (R := Answers) Answers.exec
    ([notesEntry, notesEntry].forM (writeCatalogEntry (.plain [namedWire "notes"]))) (emptyNode, [])
  have hok : (run execLogged ([notesEntry, notesEntry].forM (writeCatalogEntry (.plain [namedWire "notes"])))
      (emptyNode, [])).1 = .ok () := by
    decide +kernel
  generalize run execLogged _ (emptyNode, []) = x at hrun hok
  obtain ⟨r, s', log⟩ := x
  obtain rfl : r = .ok () := hok
  refine ⟨log, decodeEntries_written ?_ ?_ ?_ hrun⟩
  · intro e he uri huri
    obtain rfl : e = notesEntry := by simpa using he
    have htext : (namedTicket "notes").toUri (.plain [namedWire "notes"]) = .ok (namedUri "notes") := rfl
    obtain rfl := Except.ok.inj (htext.symm.trans huri)
    exact fromUri_namedUri "notes"
  · intro e he n hn
    obtain rfl : e = notesEntry := by simpa using he
    obtain rfl : 2 = n := Option.some.inj hn
    decide
  · intro e he n hn
    obtain rfl : e = notesEntry := by simpa using he
    obtain rfl : 5 = n := Option.some.inj hn
    decide

section Decoding

variable {env : Env}

theorem eq_of_lengthPrefixed {a b : String} {x y : Bytes} (ha : (Utf8.toBytes a).length < 2 ^ 16)
    (hb : (Utf8.toBytes b).length < 2 ^ 16)
    (h : toLeBytes 2 (Utf8.toBytes a).length ++ (Utf8.toBytes a ++ x) =
      toLeBytes 2 (Utf8.toBytes b).length ++ (Utf8.toBytes b ++ y)) : a = b ∧ x = y := by
  have hwidth (n : ℕ) : (toLeBytes 2 n).length = 2 := length_toLeBytes 2 n
  obtain ⟨hlen, h⟩ := List.append_inj h ((hwidth _).trans (hwidth _).symm)
  have hvalue := congrArg ofLeBytes hlen
  rw [ofLeBytes_toLeBytes, ofLeBytes_toLeBytes] at hvalue
  obtain ⟨htext, h⟩ := List.append_inj h (by omega)
  exact ⟨Utf8.toBytes_injective htext, h⟩

theorem eq_of_fields {hash hash' : Hash} {format format' : BlobFormat} {name name' text text' : String}
    {size size' count count' x y : Bytes} (hname : (Utf8.toBytes name).length < 2 ^ 16)
    (hname' : (Utf8.toBytes name').length < 2 ^ 16) (htext : (Utf8.toBytes text).length < 2 ^ 16)
    (htext' : (Utf8.toBytes text').length < 2 ^ 16) (hsize : size.length = size'.length)
    (hcount : count.length = count'.length)
    (h : hash.asBytes ++ formatByte format :: (toLeBytes 2 (Utf8.toBytes name).length ++ Utf8.toBytes name ++
        (toLeBytes 2 (Utf8.toBytes text).length ++ Utf8.toBytes text ++ (size ++ count))) ++ x =
      hash'.asBytes ++ formatByte format' :: (toLeBytes 2 (Utf8.toBytes name').length ++ Utf8.toBytes name' ++
        (toLeBytes 2 (Utf8.toBytes text').length ++ Utf8.toBytes text' ++ (size' ++ count'))) ++ y) :
    (hash = hash' ∧ format = format' ∧ name = name' ∧ text = text' ∧ size = size' ∧ count = count') ∧ x = y := by
  obtain ⟨hash, hlen⟩ := hash
  obtain ⟨hash', hlen'⟩ := hash'
  simp only [List.append_assoc, List.cons_append] at h
  obtain ⟨hhash, h1⟩ := List.append_inj h (hlen.trans hlen'.symm)
  obtain ⟨hfmt, h2⟩ := List.cons.inj h1
  obtain ⟨hn, h3⟩ := eq_of_lengthPrefixed hname hname' h2
  obtain ⟨ht, h4⟩ := eq_of_lengthPrefixed htext htext' h3
  obtain ⟨hs, h5⟩ := List.append_inj h4 hsize
  obtain ⟨hc, h6⟩ := List.append_inj h5 hcount
  have hformat : format = format' := by
    cases format <;> cases format' <;> first | rfl | exact absurd hfmt (by decide)
  subst hhash
  exact ⟨⟨rfl, hformat, hn, ht, hs, hc⟩, h6⟩

theorem WireFrame.eq_of_bytes {f g : WireFrame env} {x y : Bytes} (h : f.bytes ++ x = g.bytes ++ y) :
    f = g ∧ x = y := by
  obtain ⟨⟨hhash, hformat, hname, htext, hsize, hcount⟩, hrest⟩ := eq_of_fields f.name_fits g.name_fits
    f.ticket_fits g.ticket_fits (f.size_length.trans g.size_length.symm)
    (f.count_length.trans g.count_length.symm) h
  obtain ⟨hash, format, name, hn, text, ht, ticket, hparsed, size, hs, count, hc⟩ := f
  obtain ⟨hash', format', name', hn', text', ht', ticket', hparsed', size', hs', count', hc'⟩ := g
  dsimp only at hhash hformat hname htext hsize hcount
  subst hhash hformat hname htext hsize hcount
  obtain rfl := Except.ok.inj (hparsed.symm.trans hparsed')
  exact ⟨rfl, hrest⟩

theorem WireFrame.flatMap_bytes_injective {fs gs : List (WireFrame env)}
    (h : fs.flatMap bytes = gs.flatMap bytes) : fs = gs := by
  have hne (f : WireFrame env) (x : Bytes) : f.bytes ++ x ≠ [] := by simp [WireFrame.bytes]
  induction fs generalizing gs with
  | nil =>
    cases gs with
    | nil => rfl
    | cons g gs => exact absurd h.symm (hne g _)
  | cons f fs ih =>
    cases gs with
    | nil => exact absurd h (hne f _)
    | cons g gs =>
      obtain ⟨rfl, hrest⟩ := WireFrame.eq_of_bytes h
      rw [ih hrest]

theorem framed_frameOf_iff {bs : Bytes} {entries : List CatalogEntry} :
    Framed (FrameOf env) entries bs ↔
      ∃ frames : List (WireFrame env), bs = frames.flatMap WireFrame.bytes ∧ entries = frames.map WireFrame.entry := by
  constructor
  · intro h
    induction h with
    | nil => exact ⟨[], rfl, rfl⟩
    | cons hx _ ih =>
      obtain ⟨f, rfl, rfl⟩ := hx
      obtain ⟨frames, rfl, rfl⟩ := ih
      exact ⟨f :: frames, rfl, rfl⟩
  · intro h
    obtain ⟨frames, rfl, rfl⟩ := h
    exact framed_flatMap (fun f _ ↦ ⟨f, rfl, rfl⟩)

theorem frame_entry (f : WireFrame env) :
    frame f.entry.hash f.entry.format f.entry.name f.ticketText f.entry.fileCount f.entry.totalSize =
      (f.bytes, true) := by
  have hcount : countField (readCount f.count) = f.count := by
    have hlt := ofLeBytes_lt f.count
    have hback := toLeBytes_ofLeBytes f.count
    rw [f.count_length] at hlt hback
    unfold readCount countField
    split_ifs with h
    · rw [← hback, h]
      rfl
    · rw [Option.map_some, Option.getD_some, Nat.mod_eq_of_lt (by omega)]
      exact hback
  have hsize : sizeField (readSize f.size) = f.size := by
    have hlt := ofLeBytes_lt f.size
    have hback := toLeBytes_ofLeBytes f.size
    rw [f.size_length] at hlt hback
    have hunknown : (Option.getD none (2 ^ 64 - 1) : UInt64).toNat = 2 ^ 64 - 1 := by decide +kernel
    unfold readSize sizeField
    split_ifs with h
    · rw [hunknown, ← h]
      exact hback
    · have hnat : (UInt64.ofNat (ofLeBytes f.size)).toNat = ofLeBytes f.size :=
        UInt64.toNat_ofNat_of_lt' (by show _ < 2 ^ 64; omega)
      rw [Option.getD_some, hnat]
      exact hback
  rw [frame_of_fits (by exact f.name_fits) f.ticket_fits]
  simp only [WireFrame.entry, hcount, hsize]
  rfl

/-- Exactly the sequences of well-formed frames are accepted. The frames of an accepted
stream are determined by it, and writing their fields again gives the same bytes; any
other stream is refused with an error. -/
theorem decodeEntries_wellFormed (env : Env) (bs : Bytes) :
    (∀ entries, decodeEntries env ⟨bs, none⟩ = .ok entries ↔
      ∃ frames : List (WireFrame env), bs = frames.flatMap WireFrame.bytes ∧
        entries = frames.map WireFrame.entry) ∧
    (∀ frames : List (WireFrame env), bs = frames.flatMap WireFrame.bytes →
      (∀ frames' : List (WireFrame env), bs = frames'.flatMap WireFrame.bytes → frames' = frames) ∧
        ∀ peer s, Emits (Serving peer) sentBytes s (frames.forM (fun f ↦ writeEntry f.entry.hash f.entry.format
          f.entry.name f.ticketText f.entry.fileCount f.entry.totalSize)) bs (some ())) ∧
    ((¬ ∃ frames : List (WireFrame env), bs = frames.flatMap WireFrame.bytes) →
      ∃ e, decodeEntries env ⟨bs, none⟩ = .error e) := by
  refine ⟨fun entries ↦ decodeEntries_eq_ok.trans framed_frameOf_iff, ?_, ?_⟩
  · intro frames hbs
    refine ⟨fun frames' hbs' ↦ WireFrame.flatMap_bytes_injective (hbs'.symm.trans hbs), fun peer s ↦ ?_⟩
    have hentry : ∀ f ∈ frames, Emits (Serving peer) sentBytes s (writeEntry f.entry.hash f.entry.format
        f.entry.name f.ticketText f.entry.fileCount f.entry.totalSize) _ _ :=
      fun f _ ↦ emits_writeEntry f.entry.hash f.entry.format f.entry.name f.ticketText f.entry.fileCount
        f.entry.totalSize
    have hemits := Emits.forM hentry
    have hloop := loopOutput_of_forall (fun f (_ : f ∈ frames) ↦ congrArg Prod.snd (frame_entry f))
    rw [hloop] at hemits
    rw [hbs]
    simpa [frame_entry, unitIf] using hemits
  · intro hnone
    cases hd : decodeEntries env ⟨bs, none⟩ with
    | error e => exact ⟨e, rfl⟩
    | ok entries =>
      obtain ⟨frames, hbs, -⟩ := framed_frameOf_iff.mp (decodeEntries_eq_ok.mp hd)
      exact absurd ⟨frames, hbs⟩ hnone

structure Row where
  hash : Hash
  format : BlobFormat
  name : String
  ticketUri : String
  fileCount : Option ℕ
  totalSize : Option UInt64

namespace Row

def write (r : Row) : Action Unit := writeEntry r.hash r.format r.name r.ticketUri r.fileCount r.totalSize

def written (r : Row) : Bytes × Bool := frame r.hash r.format r.name r.ticketUri r.fileCount r.totalSize

def boundary (rows : List Row) (k : ℕ) : Bytes := (rows.take k).flatMap (fun r ↦ r.written.1)

end Row

/-- A stream that is cut short between two entries is read as the entries before the
cut, and one that is cut anywhere else is refused. -/
theorem decodeEntries_cut {rows : List Row} {s s' : NodeState} {log : Trace Call.Ans}
    (hticket : ∀ r ∈ rows, ∃ t, ShareTicket.fromUri env r.ticketUri = .ok t)
    (h : Runs (logged Answers) (rows.forM Row.write) (s, []) (.ok ()) (s', log)) :
    ∃ entries, decodeEntries env ⟨output sentBytes log, none⟩ = .ok entries ∧ entries.length = rows.length ∧
      ∀ p, p <+: output sentBytes log → p ≠ output sentBytes log →
        (∀ k, p = Row.boundary rows k → decodeEntries env ⟨p, none⟩ = .ok (entries.take k)) ∧
          ((∀ k, p ≠ Row.boundary rows k) → ∃ e, decodeEntries env ⟨p, none⟩ = .error e) := by
  have hsends : Sends (rows.forM Row.write) (loopOutput Row.written rows) :=
    Sends.forM (fun r _ ↦ sends_writeEntry r.hash r.format r.name r.ticketUri r.fileCount r.totalSize)
  obtain ⟨hout, hall⟩ := hsends.output_eq h
  have hflags := forall_of_loopOutput hall
  rw [loopOutput_of_forall hflags] at hout
  have hframe : ∀ r ∈ rows, ∃ e, FrameOf env e r.written.1 := by
    intro r hr
    obtain ⟨t, ht⟩ := hticket r hr
    exact ⟨_, wireFrame r.fileCount r.totalSize (hflags r hr) t ht, rfl, (bytes_wireFrame (hflags r hr) ht).symm⟩
  obtain ⟨entries, hlength, hcut⟩ := exists_framed_take hframe
  have hwhole : Framed (FrameOf env) entries (output sentBytes log) := by
    rw [hout]
    exact (hcut 0).2
  refine ⟨entries, decodeEntries_eq_ok.mpr hwhole, hlength, fun p hp _ ↦ ⟨?_, ?_⟩⟩
  · intro k hk
    rw [hk]
    exact decodeEntries_eq_ok.mpr (hcut k).1
  · intro hcuts
    cases hd : decodeEntries env ⟨p, none⟩ with
    | error e => exact ⟨e, rfl⟩
    | ok es =>
      -- what is accepted are the first entries, so the cut is after them
      have hes := decodeEntries_eq_ok.mp hd
      obtain ⟨t, ht⟩ := hp
      obtain ⟨us, rfl, -⟩ := hes.of_prefix (delimits_decodeBytes env) hwhole ht.symm
      have hfirst := (hcut es.length).1
      rw [List.take_left] at hfirst
      have hrows : output sentBytes log =
          Row.boundary rows es.length ++ (rows.drop es.length).flatMap (fun r ↦ r.written.1) := by
        rw [hout, Row.boundary, ← List.flatMap_append, List.take_append_drop]
      have hp := hes.eq_of_prefix (delimits_decodeBytes env) hfirst (ht.trans hrows)
      exact absurd hp (hcuts es.length)

def notesRow : Row := ⟨.fromByte 1, .raw, "notes", namedUri "notes", some 2, some 5⟩

theorem decodeEntries_cut_notes : ∃ log : Trace Call.Ans, ∃ entries,
    decodeEntries (.plain [namedWire "notes"]) ⟨output sentBytes log, none⟩ = .ok entries ∧ entries.length = 2 := by
  have hrun := runs_execLogged (R := Answers) Answers.exec ([notesRow, notesRow].forM Row.write) (emptyNode, [])
  have hok : (run execLogged ([notesRow, notesRow].forM Row.write) (emptyNode, [])).1 = .ok () := by
    decide +kernel
  generalize run execLogged _ (emptyNode, []) = x at hrun hok
  obtain ⟨r, s', log⟩ := x
  obtain rfl : r = .ok () := hok
  have hticket : ∀ r ∈ [notesRow, notesRow], ∃ t,
      ShareTicket.fromUri (.plain [namedWire "notes"]) r.ticketUri = .ok t := by
    intro r hr
    obtain rfl : r = notesRow := by simpa using hr
    exact ⟨_, fromUri_namedUri "notes"⟩
  obtain ⟨entries, hdecode, hlength, -⟩ := decodeEntries_cut hticket hrun
  exact ⟨log, entries, hdecode, hlength⟩

end Decoding

end Ringdrop.Catalog
