import Ringdrop.Daemon.Deserialize
import Ringdrop.Daemon.LinesCodec
import Ringdrop.Daemon.Server

namespace Ringdrop

open Library Json

def emitted (e : Event) : Bytes := Utf8.toBytes (e.text ++ "\n")

def DaemonClient.received (parse : String → Option Event) (stream : Bytes) : Option (List Event × Bytes) :=
  match LinesCodec.lines maxLineBytes stream.length stream with
  | .error _ => none
  | .ok (texts, rest) => (texts.mapM parse).map (·, rest)

inductive HandlerRecord : Json → Prop
  | nodeId (peerId : EndpointId) : HandlerRecord (Server.nodeIdRecord peerId)
  | imported (hash : Hash) (format : BlobFormat) (displayName : Option String) (ticketStr : String) :
    HandlerRecord (Handlers.importRecord hash format displayName ticketStr)
  | blob (hash : Hash) (name kind : String) (fileCount : Option ℕ) (totalSize : Option UInt64)
    (ringNames : List String) (ticketStr : String) (h : ∀ n ∈ fileCount, n < 2 ^ 64) :
    HandlerRecord (.object
      [("hash", .str (toString hash)), ("name", .str name), ("kind", .str kind),
        ("file_count", Handlers.optNum fileCount), ("size_bytes", Handlers.optNum (totalSize.map UInt64.toNat)),
        ("rings", strings ringNames), ("ticket", .str ticketStr)])
  | removed (hash : Hash) : HandlerRecord (.object [("hash", .str (toString hash))])
  | remoteBlob (hash : Hash) (name kind : String) (fileCount : Option ℕ) (totalSize : Option UInt64)
    (ticketStr : String) (h : ∀ n ∈ fileCount, n < 2 ^ 64) :
    HandlerRecord (.object
      [("hash", .str (toString hash)), ("name", .str name), ("kind", .str kind),
        ("file_count", Handlers.optNum fileCount), ("size_bytes", Handlers.optNum (totalSize.map UInt64.toNat)),
        ("ticket", .str ticketStr)])
  | grant (privilege : Privilege) (peerId : EndpointId) :
    HandlerRecord (.object [("privilege", .str privilege.asStr), ("peer_id", .str (toString peerId))])
  | ringNew (name : String) : HandlerRecord (.object [("name", .str name)])
  | ring (name : String) (isOpen : Bool) : HandlerRecord (.object [("name", .str name), ("open", .bool isOpen)])
  | peer (peerId : String) (nickname : Option String) :
    HandlerRecord (.object [("peer_id", .str peerId), ("nickname", optStr nickname)])
  | expiringMember (peerId : EndpointId) (nickname : Option String) (expiresAt : UInt64) :
    HandlerRecord (.object ([("peer_id", .str (toString peerId)), ("nickname", optStr nickname)] ++
      [("expires_at", .num expiresAt.toNat)]))

section Records

theorem isValue_str (depth : ℕ) (s : String) : IsValue depth (.str s) := by
  cases depth <;> trivial

theorem isValue_optStr (depth : ℕ) (s : Option String) : IsValue depth (optStr s) := by
  cases s with
  | none => cases depth <;> trivial
  | some s => exact isValue_str depth s

theorem isValue_optNum (depth : ℕ) {n : Option ℕ} (h : ∀ m ∈ n, m < 2 ^ 64) : IsValue depth (Handlers.optNum n) := by
  cases n with
  | none => cases depth <;> trivial
  | some n => cases depth <;> exact h n rfl

theorem isValue_size (depth : ℕ) (size : Option UInt64) :
    IsValue depth (Handlers.optNum (size.map UInt64.toNat)) := by
  refine isValue_optNum depth fun m hm ↦ ?_
  obtain ⟨n, -, rfl⟩ := Option.mem_map.mp hm
  exact n.toNat_lt

theorem isValue_strings (depth : ℕ) (xs : List String) : IsValue (depth + 1) (strings xs) := by
  intro v hv
  obtain ⟨s, -, rfl⟩ := List.mem_map.mp hv
  exact isValue_str depth s

theorem isValue_of_handlerRecord {v : Json} (h : HandlerRecord v) : IsValue 126 v := by
  cases h with
  | nodeId peerId => exact isValue_object (by simp) (by simp [isValue_str])
  | imported hash format displayName ticketStr => exact isValue_object (by simp) (by simp [isValue_str])
  | blob hash name kind fileCount totalSize ringNames ticketStr h =>
    refine isValue_object (by simp) ?_
    simp [isValue_str, isValue_optNum 125 h, isValue_size, isValue_strings 124]
  | removed hash => exact isValue_object (by simp) (by simp [isValue_str])
  | remoteBlob hash name kind fileCount totalSize ticketStr h =>
    refine isValue_object (by simp) ?_
    simp [isValue_str, isValue_optNum 125 h, isValue_size]
  | grant privilege peerId => exact isValue_object (by simp) (by simp [isValue_str])
  | ringNew name => exact isValue_object (by simp) (by simp [isValue_str])
  | ring name isOpen => exact isValue_object (by simp) (by simp [IsValue])
  | peer peerId nickname => exact isValue_object (by simp) (by simp [isValue_str, isValue_optStr])
  | expiringMember peerId nickname expiresAt =>
    have hlt : IsValue 125 (.num expiresAt.toNat) := expiresAt.toNat_lt
    refine isValue_object (by simp) ?_
    simpa [isValue_str, isValue_optStr] using hlt

end Records

section Stream

variable {maxLength : ℕ} {s : String}

theorem toBytes_line (s : String) : Utf8.toBytes (s ++ "\n") = Utf8.toBytes s ++ [LinesCodec.newline] := by
  obtain ⟨cs, rfl⟩ : ∃ cs, s = String.ofList cs := ⟨s.toList, String.ofList_toList.symm⟩
  have hnewline : String.ofList cs ++ "\n" = String.ofList (cs ++ ['\n']) := (String.ofList_append ..).symm
  rw [hnewline, Utf8.toBytes_ofList, Utf8.toBytes_ofList, List.flatMap_append]
  rfl

theorem not_mem_toBytes (h : Printable s.toList) {b : UInt8} (hb : b.toNat < 32) : b ∉ Utf8.toBytes s := by
  intro hmem
  rw [← String.ofList_toList (s := s), Utf8.toBytes_ofList] at hmem
  obtain ⟨c, hc, hmem⟩ := List.mem_flatMap.mp hmem
  have hge := h c hc
  rw [Utf8.toNat_of_mem_utf8EncodeChar (by omega) hmem] at hge
  omega

theorem decode_printable (h : Printable s.toList) (hlength : s.utf8ByteSize ≤ maxLength) (rest : Bytes) :
    LinesCodec.decode maxLength (Utf8.toBytes (s ++ "\n") ++ rest) = some (.ok (s, rest)) := by
  have hreturn : LinesCodec.withoutCarriageReturn (Utf8.toBytes s) = Utf8.toBytes s := by
    refine if_neg fun hlast ↦ ?_
    exact not_mem_toBytes h (b := 13) (by decide) (List.mem_of_getLast? hlast)
  have hfits : ¬ maxLength < (Utf8.toBytes s).length := by
    rw [← String.ofList_toList (s := s), Utf8.utf8ByteSize_ofList, ← Utf8.toBytes_ofList] at hlength
    rw [← String.ofList_toList (s := s)]
    omega
  have hnewline := not_mem_toBytes h (b := LinesCodec.newline) (by decide)
  rw [toBytes_line, List.append_assoc, List.singleton_append, LinesCodec.decode_line hnewline, if_neg hfits, hreturn,
    LinesCodec.utf8, Utf8.fromUtf8_eq_some_iff.mpr rfl]
  rfl

theorem lines_flatMap {texts : List String} {fuel : ℕ}
    (h : ∀ s ∈ texts, Printable s.toList ∧ s.utf8ByteSize ≤ maxLength) (hfuel : texts.length ≤ fuel) :
    LinesCodec.lines maxLength fuel (texts.flatMap (fun s ↦ Utf8.toBytes (s ++ "\n"))) = .ok (texts, []) := by
  induction texts generalizing fuel with
  | nil =>
    cases fuel with
    | zero => rfl
    | succ fuel =>
      have hshort : ¬ maxLength < ([] : Bytes).length := Nat.not_lt_zero _
      have hnone : LinesCodec.decode maxLength [] = none := by
        unfold LinesCodec.decode
        rw [List.takeWhile_nil]
        dsimp only
        rw [if_neg hshort]
        rfl
      rw [List.flatMap_nil, LinesCodec.lines, hnone]
  | cons s texts ih =>
    obtain ⟨fuel, rfl⟩ : ∃ n, fuel = n + 1 := ⟨fuel - 1, by simp at hfuel; omega⟩
    obtain ⟨⟨hprintable, hlength⟩, hrest⟩ := List.forall_mem_cons.mp h
    rw [List.flatMap_cons, LinesCodec.lines, decode_printable hprintable hlength]
    dsimp only
    rw [ih hrest (Nat.le_of_succ_le_succ hfuel)]
    rfl

theorem length_le_flatMap (texts : List String) :
    texts.length ≤ (texts.flatMap (fun s ↦ Utf8.toBytes (s ++ "\n"))).length := by
  induction texts with
  | nil => exact Nat.le_refl _
  | cons s texts ih =>
    rw [List.flatMap_cons, toBytes_line, List.length_append, List.length_append, List.length_singleton, List.length_cons]
    omega

end Stream

section RoundTrips

variable {parseUuid : String → Option Uuid}

theorem printable_eventText (e : Event) : Printable e.text.toList := by
  rw [Event.text, String.toList_ofList]
  exact printable_print _

theorem printable_requestText {r : Request} {line : String} (h : r.text = .ok line) : Printable line.toList := by
  obtain ⟨fields, -, rfl⟩ := text_eq_ok.mp h
  rw [String.toList_ofList]
  exact printable_print _

theorem newline_not_mem {s : String} (h : Printable s.toList) : '\n' ∉ s.toList := by
  intro hmem
  exact absurd (h _ hmem) (by decide)

def Op.HasTextPaths : Op → Prop
  | .import path _ _ => ∃ text, Path.ofString text = path
  | .receive _ (some path) _ => ∃ text, Path.ofString text = path
  | _ => True

theorem exists_fields {op : Op} (h : op.HasTextPaths) : ∃ fields, op.fields = .ok fields := by
  cases op with
  | «import» path rings «open» =>
    obtain ⟨text, rfl⟩ := h
    rw [Op.fields, pathJson_ofString]
    exact ⟨_, rfl⟩
  | receive ticket dest forceOverwrite =>
    cases dest with
    | none => exact ⟨_, rfl⟩
    | some path =>
      obtain ⟨text, rfl⟩ := h
      rw [Op.fields]
      dsimp only
      rw [pathJson_ofString]
      exact ⟨_, rfl⟩
  | _ => exact ⟨_, rfl⟩

theorem mapM_parse {events : List Event} (hid : ∀ u, parseUuid (toString u) = some u)
    (h : ∀ e ∈ events, e.kind.InRange) : (events.map Event.text).mapM (Event.parse parseUuid) = some events := by
  induction events with
  | nil => rfl
  | cons e events ih =>
    obtain ⟨he, hevents⟩ := List.forall_mem_cons.mp h
    rw [List.map_cons, List.mapM_cons, parse_eventText (hid e.reqId) he, ih hevents]
    rfl

theorem received_emitted {events : List Event} (hid : ∀ u, parseUuid (toString u) = some u)
    (h : ∀ e ∈ events, e.kind.InRange ∧ fitsLine e.text) :
    DaemonClient.received (Event.parse parseUuid) (events.flatMap emitted) = some (events, []) := by
  have htexts : events.flatMap emitted = (events.map Event.text).flatMap (fun s ↦ Utf8.toBytes (s ++ "\n")) := by
    rw [List.flatMap_map]
    rfl
  have hlines : ∀ s ∈ events.map Event.text, Printable s.toList ∧ s.utf8ByteSize ≤ maxLineBytes := by
    intro s hs
    obtain ⟨e, he, rfl⟩ := List.mem_map.mp hs
    exact ⟨printable_eventText e, of_decide_eq_true (h e he).2⟩
  rw [htexts, DaemonClient.received, lines_flatMap hlines (length_le_flatMap _)]
  dsimp only
  rw [mapM_parse hid fun e he ↦ (h e he).1]
  rfl

/-- Requests and events come through a line unchanged, and a stream of events is taken apart
into the same events. A UUID that is read back from its text is all that is asked of the
other side. -/
theorem wire_roundTrip (hid : ∀ u, parseUuid (toString u) = some u) :
    (∀ r : Request, r.op.HasTextPaths →
      ∃ line, r.text = .ok line ∧ '\n' ∉ line.toList ∧ Request.parse parseUuid line = some r) ∧
    (∀ e : Event, e.kind.InRange → '\n' ∉ e.text.toList ∧ Event.parse parseUuid e.text = some e) ∧
    (∀ v, HandlerRecord v → IsValue 126 v) ∧
    ∀ events : List Event, (∀ e ∈ events, e.kind.InRange ∧ fitsLine e.text) →
      DaemonClient.received (Event.parse parseUuid) (events.flatMap emitted) = some (events, []) := by
  refine ⟨fun r hr ↦ ?_, fun e he ↦ ?_, fun v ↦ isValue_of_handlerRecord, fun events ↦ received_emitted hid⟩
  · obtain ⟨fields, hfields⟩ := exists_fields hr
    have hline := text_eq_ok.mpr ⟨fields, hfields, rfl⟩
    exact ⟨_, hline, newline_not_mem (printable_requestText hline), parse_requestText (hid r.reqId) hline⟩
  · exact ⟨newline_not_mem (printable_eventText e), parse_eventText (hid e.reqId) he⟩

end RoundTrips

section Hyphenated

def parseHyphenated (s : String) : Option Uuid := do
  let bs ← Env.hexBytes (s.toList.filter (· ≠ '-'))
  if h : bs.length = 16 then some ⟨bs, h⟩ else none

theorem hexValue_hexDigit : ∀ n < 16, Env.hexValue (hexDigit n) = some n := by decide +kernel

theorem hexDigit_ne_hyphen : ∀ n < 16, hexDigit n ≠ '-' := by decide +kernel

theorem hexBytes_hexChars (bs : Bytes) : Env.hexBytes (hexChars bs) = some bs := by
  induction bs with
  | nil => rfl
  | cons b bs ih =>
    have hb := b.toNat_lt
    have hbyte : UInt8.ofNat (16 * (b.toNat / 16) + b.toNat % 16) = b := by
      rw [Nat.div_add_mod, UInt8.ofNat_toNat]
    change Env.hexBytes (hexDigit (b.toNat / 16) :: hexDigit (b.toNat % 16) :: hexChars bs) = _
    rw [Env.hexBytes, hexValue_hexDigit _ (by omega), hexValue_hexDigit _ (by omega), ih]
    exact congrArg (fun c ↦ some (c :: bs)) hbyte

theorem hexChars_append (bs bs' : Bytes) : hexChars (bs ++ bs') = hexChars bs ++ hexChars bs' := List.flatMap_append

theorem filter_hexChars (bs : Bytes) : (hexChars bs).filter (· ≠ '-') = hexChars bs := by
  rw [List.filter_eq_self]
  intro c hc
  obtain ⟨b, -, hc⟩ := List.mem_flatMap.mp hc
  have hb := b.toNat_lt
  simp only [List.mem_cons, List.not_mem_nil, or_false] at hc
  rcases hc with rfl | rfl
  · exact decide_eq_true (hexDigit_ne_hyphen _ (by omega))
  · exact decide_eq_true (hexDigit_ne_hyphen _ (by omega))

theorem filter_chars (u : Uuid) : u.chars.filter (· ≠ '-') = hexChars u.asBytes := by
  obtain ⟨bs, hlength⟩ := u
  have hparts : bs = bs.take 4 ++
      ((bs.drop 4).take 2 ++ ((bs.drop 6).take 2 ++ ((bs.drop 8).take 2 ++ (bs.drop 10).take 6))) := by
    have hlast : (bs.drop 10).take 6 = bs.drop 10 := List.take_of_length_le (by simp [hlength])
    have hjoin : ∀ i n, (bs.drop i).take n ++ bs.drop (i + n) = bs.drop i := by
      intro i n
      rw [← List.drop_drop, List.take_append_drop]
    rw [hlast, hjoin 8 2, hjoin 6 2, hjoin 4 2, List.take_append_drop]
  have hjoined := congrArg hexChars hparts
  have hhyphen : ∀ cs : List Char, ('-' :: cs).filter (· ≠ '-') = cs.filter (· ≠ '-') :=
    fun cs ↦ List.filter_cons_of_neg (by simp)
  simp only [hexChars_append] at hjoined
  rw [hjoined, Uuid.chars]
  simp only [List.filter_append, hhyphen, filter_hexChars, List.drop_zero, List.append_assoc]

theorem parseHyphenated_toString (u : Uuid) : parseHyphenated (toString u) = some u := by
  have hbytes : Env.hexBytes ((toString u).toList.filter (· ≠ '-')) = some u.asBytes := by
    change Env.hexBytes ((String.ofList u.chars).toList.filter (· ≠ '-')) = _
    rw [String.toList_ofList, filter_chars, hexBytes_hexChars]
  rw [parseHyphenated, hbytes]
  exact dif_pos u.length_eq

theorem wire_roundTrip_nil :
    (∃ line, Request.text ⟨Uuid.nil, .receive "t" (some (Path.ofString "out")) true⟩ = .ok line ∧
      '\n' ∉ line.toList ∧
      Request.parse parseHyphenated line = some ⟨Uuid.nil, .receive "t" (some (Path.ofString "out")) true⟩) ∧
    ('\n' ∉ (Event.error Uuid.nil "one\ntwo").text.toList ∧
      Event.parse parseHyphenated (Event.error Uuid.nil "one\ntwo").text = some (.error Uuid.nil "one\ntwo")) ∧
    IsValue 126 (.object [("name", .str "work"), ("open", .bool false)]) ∧
    DaemonClient.received (Event.parse parseHyphenated)
        ([Event.fileProgress Uuid.nil 1 3 "readme.txt" 50 100, Event.error Uuid.nil "one\ntwo"].flatMap emitted) =
      some ([Event.fileProgress Uuid.nil 1 3 "readme.txt" 50 100, Event.error Uuid.nil "one\ntwo"], []) := by
  obtain ⟨hrequests, hevents, hrecords, hstreams⟩ := wire_roundTrip parseHyphenated_toString
  refine ⟨hrequests _ ⟨"out", rfl⟩, hevents _ trivial, hrecords _ (.ring "work" false), hstreams _ ?_⟩
  intro e he
  simp only [List.mem_cons, List.not_mem_nil, or_false] at he
  rcases he with rfl | rfl
  · exact ⟨⟨by decide, by decide⟩, by decide +kernel⟩
  · exact ⟨trivial, by decide +kernel⟩

end Hyphenated

end Ringdrop
