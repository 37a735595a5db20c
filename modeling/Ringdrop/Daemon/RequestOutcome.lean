import Ringdrop.Daemon.Connection

namespace Ringdrop

open Library Program Relation Server

namespace DaemonClient

section Reading

variable {parse : String → Except String Event} {quiet : List Event} {last : Event}

theorem send_line {e : Event} {rest : List String} (hparse : parse e.text = .ok e)
    (hfits : fitsLine e.text = true) :
    DaemonClient.send parse (e.text :: rest) = if e.kind.isEos then .ok [e]
      else match DaemonClient.send parse rest with
        | .ok events => .ok (e :: events)
        | .error err => .error err := by
  rw [DaemonClient.send, if_pos hfits, hparse]
  cases hkind : e.kind <;> cases DaemonClient.send parse rest <;> simp [EventKind.isEos, hkind]

theorem send_long {text : String} {rest : List String} (hlong : fitsLine text = false) :
    ∃ e, DaemonClient.send parse (text :: rest) = .error e :=
  ⟨(Error.msg "max line length exceeded").context "framing error reading from daemon",
    by simp [DaemonClient.send, hlong]⟩

theorem send_eq_ok (hquiet : ∀ e ∈ quiet, e.kind.isEos = false) (hlast : last.kind.isEos = true)
    (hparse : ∀ e ∈ quiet ++ [last], parse e.text = .ok e)
    (hfits : ∀ e ∈ quiet ++ [last], fitsLine e.text = true) :
    DaemonClient.send parse ((quiet ++ [last]).map Event.text) = .ok (quiet ++ [last]) := by
  induction quiet with
  | nil =>
    have hline : DaemonClient.send parse [last.text] = _ := send_line (hparse last (by simp)) (hfits last (by simp))
    rwa [if_pos hlast] at hline
  | cons e quiet ih =>
    have hrest := ih (fun x hx ↦ hquiet x (by simp [hx])) (fun x hx ↦ hparse x (List.mem_cons_of_mem _ hx))
      (fun x hx ↦ hfits x (List.mem_cons_of_mem _ hx))
    have he : e.kind.isEos = false := hquiet e (by simp)
    rw [List.cons_append, List.map_cons, send_line (hparse e (by simp)) (hfits e (by simp)), hrest, he]
    rfl

theorem send_ne_ok (hquiet : ∀ e ∈ quiet, e.kind.isEos = false)
    (hparse : ∀ e ∈ quiet ++ [last], parse e.text = .ok e)
    (hlong : ∃ e ∈ quiet ++ [last], fitsLine e.text = false) :
    ∃ e, DaemonClient.send parse ((quiet ++ [last]).map Event.text) = .error e := by
  induction quiet with
  | nil =>
    obtain ⟨e, he, hfits⟩ := hlong
    obtain rfl := List.mem_singleton.mp he
    exact send_long hfits
  | cons e quiet ih =>
    cases hfits : fitsLine e.text with
    | false => exact send_long hfits
    | true =>
      have hrest : ∃ x ∈ quiet ++ [last], fitsLine x.text = false := by
        obtain ⟨x, hx, hxlong⟩ := hlong
        rcases List.mem_cons.mp hx with rfl | hx
        · rw [hfits] at hxlong
          cases hxlong
        · exact ⟨x, hx, hxlong⟩
      obtain ⟨err, herr⟩ := ih (fun x hx ↦ hquiet x (by simp [hx]))
        (fun x hx ↦ hparse x (List.mem_cons_of_mem _ hx)) hrest
      have he : e.kind.isEos = false := hquiet e (by simp)
      refine ⟨err, ?_⟩
      rw [List.cons_append, List.map_cons, send_line (hparse e (by simp)) hfits, herr, he]
      rfl

theorem foldl_onEvent (hquiet : ∀ e ∈ quiet, e.kind.isEos = false) (err : Option String) :
    quiet.foldl onEvent err = err := by
  induction quiet with
  | nil => rfl
  | cons e quiet ih =>
    have he : onEvent err e = err := by
      have heos := hquiet e (by simp)
      unfold onEvent
      cases hkind : e.kind <;> simp [EventKind.isEos, hkind] at heos ⊢
    rw [List.foldl_cons, he]
    exact ih (fun x hx ↦ hquiet x (by simp [hx]))

end Reading

theorem run_iff {parse : String → Except String Event} {reqId : Uuid} {r : Except Error Unit}
    {events : List Event} (h : EndsWith reqId (finalKind r) events)
    (hparse : ∀ e ∈ events, parse e.text = .ok e) :
    DaemonClient.run parse (events.map Event.text) = .ok () ↔
      r = .ok () ∧ ∀ e ∈ events, fitsLine e.text = true := by
  obtain ⟨quiet, rfl, hall⟩ := h
  have hquiet : ∀ e ∈ quiet, e.kind.isEos = false := fun e he ↦ (hall e he).2
  have hlast : (finalKind r).isEos = true := by cases r <;> rfl
  by_cases hfits : ∀ e ∈ quiet ++ [⟨reqId, finalKind r⟩], fitsLine e.text = true
  · rw [DaemonClient.run, send_eq_ok hquiet hlast hparse hfits]
    dsimp only
    rw [List.foldl_append, foldl_onEvent hquiet]
    cases r with
    | ok u => exact iff_of_true rfl ⟨rfl, hfits⟩
    | error e => simp [finalKind, onEvent]
  · have hlong : ∃ e ∈ quiet ++ [⟨reqId, finalKind r⟩], fitsLine e.text = false := by
      simpa using hfits
    obtain ⟨err, herr⟩ := send_ne_ok hquiet hparse hlong
    rw [DaemonClient.run, herr]
    exact iff_of_false (by simp) (fun h ↦ hfits h.2)

end DaemonClient

namespace Server

/-- For every request, node and choice of failures, in every interleaving of the
dispatch with the progress task and the writer: a request that is over has sent events
of its own id only, of which the last one is that of the outcome and no other ends the
stream, and it sends nothing more. A client that can read the lines then succeeds
exactly when the handler has and all lines are within the limit. -/
theorem request_outcome {env : Env} {defaultReceiveDir : Option Path} {reqId : Uuid} {op : Op}
    {s : NodeState} {x : Connection} {r : Except Error Unit}
    (h : ReflTransGen Connection.Step (.start (dispatch env defaultReceiveDir reqId op) s) x)
    (hr : x.dispatch = .ret r) (hchannel : x.channel = []) :
    EndsWith reqId (finalKind r) x.written ∧ (∀ y, ¬ Connection.Step x y) ∧
      ∀ parse, (∀ e ∈ x.written, parse e.text = .ok e) →
        (DaemonClient.run parse (x.written.map Event.text) = .ok () ↔
          r = .ok () ∧ ∀ e ∈ x.written, fitsLine e.text = true) := by
  have hsound := Connection.sound_steps h (Connection.sound_start env defaultReceiveDir reqId op s)
  obtain ⟨htask, hends⟩ := Connection.events_of_returned hsound hr
  rw [Connection.events, hchannel, List.append_nil] at hends
  refine ⟨hends, ?_, fun parse hparse ↦ DaemonClient.run_iff hends hparse⟩
  intro y hy
  cases hy <;> simp_all

def drive : Action (Except Error Unit) → NodeState → List Event →
    Option (Except Error Unit × NodeState × List Event)
  | .ret r, s, written => some (r, s, written)
  | .fail _, _, _ => none
  | .call (.send e) k, s, written => drive (k ()) s (written ++ [e])
  | .call c k, s, written => if Wired c then none else drive (k (exec c s).1) (exec c s).2 written

theorem steps_drive {p : Action (Except Error Unit)} {s s' : NodeState} {written written' : List Event}
    {r : Except Error Unit} (h : drive p s written = some (r, s', written')) :
    ReflTransGen Connection.Step ⟨p, s, none, [], written⟩ ⟨.ret r, s', none, [], written'⟩ := by
  induction p generalizing s written with
  | ret v =>
    obtain ⟨rfl, rfl, rfl⟩ : v = r ∧ s = s' ∧ written = written' := by simpa [drive] using h
    exact .refl
  | fail e => cases h
  | call c k ih =>
    by_cases hc : ∃ e, c = .send e
    · obtain ⟨e, rfl⟩ := hc
      have hsend : Connection.Step ⟨.call (.send e) k, s, none, [], written⟩
        ⟨k (), s, none, [e], written⟩ := .send rfl (by simp [channelCapacity])
      have hwrite : Connection.Step ⟨k (), s, none, [e], written⟩
        ⟨k (), s, none, [], written ++ [e]⟩ := .write rfl
      exact .head hsend (.head hwrite (ih () h))
    · have hdrive : drive (.call c k) s written =
          if Wired c then none else drive (k (exec c s).1) (exec c s).2 written := by
        cases c with
        | send e => exact absurd ⟨e, rfl⟩ hc
        | _ => rfl
      rw [hdrive] at h
      cases hw : Wired c with
      | true => simp [hw] at h
      | false =>
        rw [hw] at h
        exact .head (.call rfl hw (.exec c s)) (ih _ h)

def namePeer (nickname : String) : Op := .peerAdd (toString (EndpointId.fromByte 3)) (some nickname)

def namedPeerEvents (nickname : String) : List Event :=
  [.line .nil s!"Peer {EndpointId.fromByte 3} added ({nickname})",
    .record .nil (.object [("peer_id", .str (toString (EndpointId.fromByte 3))), ("nickname", .str nickname)]),
    .done .nil]

theorem drive_namePeer (nickname : String) : ∃ s', drive (dispatch (.plain []) none .nil (namePeer nickname))
    emptyNode [] = some (.ok (), s', namedPeerEvents nickname) := by
  exact ⟨_, rfl⟩

theorem exists_run_namePeer (nickname : String) : ∃ s',
    ReflTransGen Connection.Step (.start (dispatch (.plain []) none .nil (namePeer nickname)) emptyNode)
      ⟨.ret (.ok ()), s', none, [], namedPeerEvents nickname⟩ := by
  obtain ⟨s', h⟩ := drive_namePeer nickname
  exact ⟨s', steps_drive h⟩

/-- The line of an event of the nil request, up to the name of its kind. -/
def lineHead : List Char :=
  '{' :: (Json.quote "req_id" ++ ':' :: Json.quote (toString Uuid.nil)) ++
    ',' :: (Json.quote "type" ++ [':', Json.quoteMark])

def kindInitial (text : String) : Option Char := text.toList[lineHead.length]?

theorem kindInitial_text {e : Event} (hid : e.reqId = .nil) {kind : String} {rest : List (String × Json)}
    (hkind : e.kind.fields = ("type", .str kind) :: rest) :
    kindInitial e.text = (kind.toList.flatMap Json.escapeChar ++ [Json.quoteMark])[0]? := by
  have htext : ∃ more, e.text.toList =
      lineHead ++ (kind.toList.flatMap Json.escapeChar ++ [Json.quoteMark] ++ more) := by
    rw [Event.text, hid, hkind, String.toList_ofList]
    cases rest with
    | nil =>
      refine ⟨['}'], ?_⟩
      simp [lineHead, Json.print, Json.printFields, Json.printField, Json.separated, Json.quote]
    | cons f rest =>
      refine ⟨',' :: Json.separated (Json.printFields (f :: rest)) ++ ['}'], ?_⟩
      simp [lineHead, Json.print, Json.printFields, Json.printField, Json.separated, Json.quote]
  obtain ⟨more, htext⟩ := htext
  rw [kindInitial, htext, List.getElem?_append_right (Nat.le_refl _), Nat.sub_self,
    List.getElem?_append_left (by simp)]

def readBack (events : List Event) (text : String) : Except String Event :=
  match events.find? (fun e ↦ kindInitial e.text = kindInitial text) with
  | some e => .ok e
  | none => .error "unknown event"

theorem readBack_namedPeer (nickname : String) : ∀ e ∈ namedPeerEvents nickname,
    readBack (namedPeerEvents nickname) e.text = .ok e := by
  have hline (text : String) : kindInitial (Event.line .nil text).text = some 'l' :=
    @kindInitial_text (.line .nil text) rfl "line" _ rfl
  have hrecord (value : Json) : kindInitial (Event.record .nil value).text = some 'r' :=
    @kindInitial_text (.record .nil value) rfl "record" _ rfl
  have hdone : kindInitial (Event.done .nil).text = some 'd' :=
    @kindInitial_text (.done .nil) rfl "done" _ rfl
  simp [readBack, namedPeerEvents, hline, hrecord, hdone]

theorem request_outcome_namePeer : ∃ s',
    EndsWith .nil .done (namedPeerEvents "desk") ∧
      (∀ y, ¬ Connection.Step ⟨.ret (.ok ()), s', none, [], namedPeerEvents "desk"⟩ y) ∧
      DaemonClient.run (readBack (namedPeerEvents "desk"))
        ((namedPeerEvents "desk").map Event.text) = .ok () := by
  obtain ⟨s', h⟩ := exists_run_namePeer "desk"
  obtain ⟨hends, hlast, hclient⟩ := request_outcome h rfl rfl
  refine ⟨s', hends, hlast, (hclient _ (readBack_namedPeer "desk")).mpr ⟨rfl, ?_⟩⟩
  intro e he
  simp only [namedPeerEvents, List.mem_cons, List.not_mem_nil, or_false] at he
  rcases he with rfl | rfl | rfl <;> decide +kernel

section LongNickname

variable (n : ℕ)

def longNickname : String := String.ofList (List.replicate n 'a')

theorem flatMap_replicate {α : Type*} {f : Char → List α} {x : α} (h : f 'a' = [x]) :
    (List.replicate n 'a').flatMap f = List.replicate n x := by
  induction n with
  | zero => rfl
  | succ n ih => rw [List.replicate_succ, List.flatMap_cons, ih, h]; rfl

theorem quote_longNickname : Json.quote (longNickname n) =
    Json.quoteMark :: List.replicate n 'a' ++ [Json.quoteMark] := by
  rw [Json.quote, longNickname, String.toList_ofList, flatMap_replicate n (x := 'a') (by decide)]

theorem utf8ByteSize_padded (front back : List Char) :
    (String.ofList (front ++ List.replicate n 'a' ++ back)).utf8ByteSize =
      (String.ofList front).utf8ByteSize + n + (String.ofList back).utf8ByteSize := by
  have h : (List.replicate n 'a').flatMap String.utf8EncodeChar = List.replicate n 0x61 :=
    flatMap_replicate n (by decide)
  rw [Utf8.utf8ByteSize_ofList, Utf8.utf8ByteSize_ofList, Utf8.utf8ByteSize_ofList, List.flatMap_append,
    List.flatMap_append, List.length_append, List.length_append, h, List.length_replicate]

def requestHead : List Char :=
  '{' :: (Json.quote "req_id" ++ ':' :: Json.quote (toString Uuid.nil)) ++
    ',' :: (Json.quote "op" ++ ':' :: Json.quote "peer_add") ++
    ',' :: (Json.quote "peer" ++ ':' :: Json.quote (toString (EndpointId.fromByte 3))) ++
    ',' :: (Json.quote "nickname" ++ [':', Json.quoteMark])

theorem text_namePeer : ∃ text, (Request.mk .nil (namePeer (longNickname n))).text = .ok text ∧
    text.utf8ByteSize = 151 + n + 2 := by
  have htext : (Request.mk .nil (namePeer (longNickname n))).text =
      .ok (String.ofList (requestHead ++ List.replicate n 'a' ++ [Json.quoteMark, '}'])) := by
    simp [Request.text, namePeer, Op.fields, optField, requestHead, quote_longNickname, Json.print,
      Json.printFields, Json.printField, Json.separated, bind, Except.bind]
  have hhead : (String.ofList requestHead).utf8ByteSize = 151 := by decide +kernel
  have hback : (String.ofList [Json.quoteMark, '}']).utf8ByteSize = 2 := by decide +kernel
  refine ⟨_, htext, ?_⟩
  rw [utf8ByteSize_padded, hhead, hback]

def recordHead : List Char :=
  lineHead ++ "record".toList ++ Json.quoteMark :: ',' :: (Json.quote "value" ++ ':' :: '{' ::
    (Json.quote "nickname" ++ [':', Json.quoteMark]))

def recordTail : List Char :=
  Json.quoteMark :: ',' :: (Json.quote "peer_id" ++ ':' ::
    Json.quote (toString (EndpointId.fromByte 3)) ++ ['}', '}'])

theorem text_record : (Event.record .nil (.object [("peer_id", .str (toString (EndpointId.fromByte 3))),
    ("nickname", .str (longNickname n))])).text.utf8ByteSize = 86 + n + 80 := by
  have htext : (Event.record .nil (.object [("peer_id", .str (toString (EndpointId.fromByte 3))),
      ("nickname", .str (longNickname n))])).text =
      String.ofList (recordHead ++ List.replicate n 'a' ++ recordTail) := by
    have hsort : Json.object [("peer_id", .str (toString (EndpointId.fromByte 3))),
        ("nickname", .str (longNickname n))] = .obj [("nickname", .str (longNickname n)),
          ("peer_id", .str (toString (EndpointId.fromByte 3)))] := by
      have hle : ¬ "peer_id" ≤ "nickname" := by decide
      simp [Json.object, List.insertionSort, hle]
    have hrecord : Json.quote "record" = Json.quoteMark :: "record".toList ++ [Json.quoteMark] := by decide
    rw [hsort]
    simp [Event.text, Event.record, EventKind.fields, recordHead, recordTail, lineHead,
      quote_longNickname, hrecord, Json.print, Json.printFields, Json.printField, Json.separated]
  have hhead : (String.ofList recordHead).utf8ByteSize = 86 := by decide +kernel
  have hback : (String.ofList recordTail).utf8ByteSize = 80 := by decide +kernel
  rw [htext, utf8ByteSize_padded, hhead, hback]

end LongNickname

/-- A peer is named as asked, by a request within the limit, and the client reports an
error: the record with the nickname is over the limit. -/
theorem named_but_reported : ∃ (x : Connection) (parse : String → Except String Event) (line : String),
    (Request.mk .nil (namePeer (longNickname 524130))).text = .ok line ∧ fitsLine line = true ∧
      ReflTransGen Connection.Step
        (.start (dispatch (.plain []) none .nil (namePeer (longNickname 524130))) emptyNode) x ∧
      x.dispatch = .ret (.ok ()) ∧ x.channel = [] ∧ (∀ e ∈ x.written, parse e.text = .ok e) ∧
      DaemonClient.run parse (x.written.map Event.text) ≠ .ok () := by
  obtain ⟨line, hline, hsize⟩ := text_namePeer 524130
  obtain ⟨s', hrun⟩ := exists_run_namePeer (longNickname 524130)
  have hparse := readBack_namedPeer (longNickname 524130)
  refine ⟨_, readBack (namedPeerEvents (longNickname 524130)), line, hline, ?_, hrun, rfl, rfl, hparse, ?_⟩
  · rw [fitsLine, hsize]
    rfl
  · intro hok
    have hends : EndsWith .nil (finalKind (.ok ())) (namedPeerEvents (longNickname 524130)) :=
      ⟨[_, _], rfl, by simp [AllQuiet, Event.line, Event.record, EventKind.isEos]⟩
    obtain ⟨-, hfits⟩ := (DaemonClient.run_iff hends hparse).mp hok
    have hrecord := hfits (.record .nil (.object [("peer_id", .str (toString (EndpointId.fromByte 3))),
      ("nickname", .str (longNickname 524130))])) (by simp [namedPeerEvents])
    rw [fitsLine, text_record] at hrecord
    exact absurd hrecord (by decide)

end Server

end Ringdrop
