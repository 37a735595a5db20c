import Ringdrop.Core.CatalogAudit
import Ringdrop.Core.CatalogTickets
import Ringdrop.Daemon.CatalogDisclosure

namespace Ringdrop

open Library Program Handlers Server

namespace Catalog

structure Listed.ReadAs (env : Env) (e : Listed) (entry : CatalogEntry) : Prop where
  hash : entry.hash = e.info.hash
  format : entry.format = e.info.format
  name : entry.name = e.name
  ticket : ShareTicket.fromUri env e.uri = .ok entry.ticket
  fileCount : entry.fileCount = readCount (countField e.fileCount)
  totalSize : entry.totalSize = readSize (sizeField e.totalSize)

section Reading

variable {env : Env} {e : Listed} {es : List Listed} {f : WireFrame env} {s t : Bytes}

theorem Listed.frame_eq (hname : (Utf8.toBytes e.name).length < 2 ^ 16) (huri : (Utf8.toBytes e.uri).length < 2 ^ 16) :
    e.frame.1 = e.info.hash.asBytes ++ formatByte e.info.format ::
      (toLeBytes 2 (Utf8.toBytes e.name).length ++ Utf8.toBytes e.name ++
        (toLeBytes 2 (Utf8.toBytes e.uri).length ++ Utf8.toBytes e.uri ++
          (sizeField e.totalSize ++ countField e.fileCount))) := by
  rw [frame, frame_of_fits hname huri]

theorem readAs_of_whole (hwhole : e.frame.2 = true) (h : f.bytes ++ s = e.frame.1 ++ t) :
    e.ReadAs env f.entry ∧ s = t := by
  obtain ⟨hname, huri⟩ := fits_of_frame hwhole
  rw [Listed.frame_eq hname huri] at h
  have hsize : f.size.length = (sizeField e.totalSize).length := f.size_length.trans (length_toLeBytes ..).symm
  have hcount : f.count.length = (countField e.fileCount).length := f.count_length.trans (length_toLeBytes ..).symm
  obtain ⟨⟨hhash, hformat, hnames, htext, hsizes, hcounts⟩, hrest⟩ :=
    eq_of_fields f.name_fits hname f.ticket_fits huri hsize hcount h
  refine ⟨⟨hhash, hformat, hnames, ?_, ?_, ?_⟩, hrest⟩
  · rw [← htext]
    exact f.parsed
  · rw [← hcounts]
    rfl
  · rw [← hsizes]
    rfl

theorem ne_of_broken (hbroken : e.frame.2 = false) : f.bytes ++ s ≠ e.frame.1 := by
  intro h
  by_cases hname : (Utf8.toBytes e.name).length < 2 ^ 16
  · -- with the ticket that has been read in its place, the entry would be whole
    have huri : ¬ (Utf8.toBytes e.uri).length < 2 ^ 16 := by
      intro huri
      rw [Listed.frame, frame_of_fits hname huri] at hbroken
      cases hbroken
    have hcut : e.frame.1 = e.info.hash.asBytes ++ formatByte e.info.format ::
        (toLeBytes 2 (Utf8.toBytes e.name).length ++ Utf8.toBytes e.name) := by
      have hlong : lengthPrefixed (Utf8.toBytes e.uri) = ([], false) := if_neg huri
      have hfull : lengthPrefixed (Utf8.toBytes e.name) = (toLeBytes 2 (Utf8.toBytes e.name).length ++ Utf8.toBytes e.name,
        true) := if_pos hname
      rw [Listed.frame, Catalog.frame, hlong, hfull]
      simp [loopOutput]
    have hpadded := congrArg (· ++ (toLeBytes 2 (Utf8.toBytes f.ticketText).length ++ Utf8.toBytes f.ticketText ++
      (f.size ++ f.count))) (h.trans hcut)
    simp only [List.append_assoc, List.cons_append] at hpadded
    obtain ⟨-, hrest⟩ := eq_of_fields (y := []) f.name_fits hname f.ticket_fits f.ticket_fits rfl rfl
      (by simpa only [List.append_assoc, List.cons_append, List.append_nil, WireFrame.bytes] using hpadded)
    have hlength := congrArg List.length hrest
    simp only [List.length_append, length_toLeBytes, List.length_nil] at hlength
    omega
  · have hcut : e.frame.1 = e.info.hash.asBytes ++ [formatByte e.info.format] := by
      have hlong : lengthPrefixed (Utf8.toBytes e.name) = ([], false) := if_neg hname
      rw [Listed.frame, Catalog.frame, hlong]
      simp [loopOutput]
    have hlength := congrArg List.length (h.trans hcut)
    have hhash := e.info.hash.length_eq
    have hhash' := f.hash.length_eq
    simp only [WireFrame.bytes, List.length_append, List.length_cons, List.length_nil, length_toLeBytes, hhash,
      hhash'] at hlength
    omega

theorem Listed.frame_ne_nil : e.frame.1 ≠ [] := by
  intro h
  obtain ⟨rest, hrest⟩ : ∃ rest, e.frame.1 = e.info.hash.asBytes ++ rest := ⟨_, rfl⟩
  rw [hrest] at h
  have hhash := e.info.hash.length_eq
  rw [(List.append_eq_nil_iff.mp h).1] at hhash
  cases hhash

theorem readAs_of_prefix {entries : List CatalogEntry} {p : Bytes} (hp : Framed (FrameOf env) entries p)
    (hpre : p <+: (listing es).1) : ∃ es', es' <+: es ∧ List.Forall₂ (Listed.ReadAs env) es' entries ∧
      (p = (listing es).1 → (listing es).2 = true → es' = es) := by
  refine hp.forall₂_of_prefix (delimits_decodeBytes env) (fun e _ ↦ e.frame_ne_nil) ?_ ?_ hpre
  · intro e _ hwhole entry y s t hy h
    obtain ⟨f, rfl, rfl⟩ := hy
    exact readAs_of_whole hwhole h
  · intro e _ hbroken entry y s hy
    obtain ⟨f, -, rfl⟩ := hy
    exact ne_of_broken hbroken

end Reading

section Client

def Receiving (S : RecvStream → Prop) : (c : Call) → c.Ans → Prop
  | .recv, stream => S stream
  | _, _ => True

def sentRecords : (c : Call) → c.Ans → List Json
  | .send ⟨_, .record v⟩, _ => [v]
  | _, _ => []

abbrev records (log : Trace Call.Ans) : List Json := output sentRecords log

def Presents (env : Env) (entry : CatalogEntry) (v : Json) : Prop :=
  ∃ ticketStr, entry.ticket.toUri env = .ok ticketStr ∧ v = .object
    [("hash", .str (toString entry.hash)), ("name", .str entry.name),
      ("kind", .str (kindStr entry.format entry.fileCount)), ("file_count", optNum entry.fileCount),
      ("size_bytes", optNum (entry.totalSize.map UInt64.toNat)), ("ticket", .str ticketStr)]

def Answered (env : Env) (S : RecvStream → Prop) (entries : List CatalogEntry) : Prop :=
  ∃ rest, S ⟨allowed :: rest, none⟩ ∧ Framed (FrameOf env) entries rest

def Presented (env : Env) (S : RecvStream → Prop) (log : Trace Call.Ans) : Prop :=
  records log = [] ∨ ∃ entries shown, Answered env S entries ∧ shown <+: entries ∧
    List.Forall₂ (Presents env) shown (records log)

variable {env : Env} {S : RecvStream → Prop} {I : Trace Call.Ans → Prop} {log : Trace Call.Ans} {reqId : Uuid}

theorem wpc_catalogConnect (addr : EndpointAddr) (hI : ∀ log', records log' = records log → I log') :
    (Node.catalogConnect env addr).wpc (Pool.heard fun _ ↦ Receiving S) I
      (fun entries log' ↦ records log' = records log ∧ Answered env S entries) log := by
  have hnet : ∀ {p : Action Unit} {q : Action (List CatalogEntry)} {log₁ : Trace Call.Ans} {Q},
      p.Uses (fun c ↦ ∀ a, sentRecords c a = []) → records log₁ = records log →
      (∀ log₂, records log₂ = records log → q.wpc (Pool.heard fun _ ↦ Receiving S) I Q log₂) →
      (p >>= fun _ ↦ q).wpc (Pool.heard fun _ ↦ Receiving S) I Q log₁ := by
    intro p q log₁ Q hp h₁ hq
    apply wpc_bind
    refine wpc_mono (wpc_quiet hp fun log' hsame _ ↦ hI log' (hsame.trans h₁)) fun _ log₂ _ h₂ ↦ ?_
    exact hq log₂ (h₂.1.trans h₁)
  have hasked : ∀ c, (net c).Uses (fun c ↦ ∀ a, sentRecords c a = []) :=
    fun c ↦ uses_asking (.net c) id fun a ↦ by cases c <;> rfl
  unfold Node.catalogConnect
  refine hnet (hasked _).mapError rfl fun log₁ h₁ ↦ ?_
  refine hnet (uses_context (hasked _)) h₁ fun log₂ h₂ ↦ ?_
  refine hnet (uses_context (hasked _)) h₂ fun log₃ h₃ ↦ ?_
  refine hnet (hasked _) h₃ fun log₄ h₄ ↦ ⟨hI log₄ h₄, fun stream log₅ h₅ ↦ ?_⟩
  obtain ⟨hstream, rfl⟩ := h₅
  have h₅ : records (log₄ ++ [⟨.recv, stream⟩]) = records log := by
    rw [records, output_concat]
    exact (List.append_nil _).trans h₄
  change (context "reading catalog status" (Program.ofExcept (stream.readExact 1)) >>= _).wpc _ _ _ _
  cases hread : stream.readExact 1 with
  | error e => exact hI _ h₅
  | ok r =>
    obtain ⟨status, left⟩ := r
    obtain ⟨hstatus, rfl⟩ := RecvStream.readExact_eq_ok.mp hread
    change (if status ≠ [allowed] then _ else _ : Action (List CatalogEntry)).wpc _ _ _ _
    split
    · exact hI _ h₅
    · rename_i hallowed
      obtain rfl := not_not.mp hallowed
      refine wpc_ofExcept (hI _ h₅) fun entries hentries ↦ ⟨h₅, left.bytes, ?_⟩
      obtain ⟨hfinished, hframes⟩ := decodeEntries_ok_iff.mp hentries
      rw [hfinished] at hstream
      exact ⟨hstream, framed_frameOf_iff.mpr hframes⟩

theorem wpc_remoteEntry (entry : CatalogEntry)
    (hI : ∀ log', records log' = records log ∨ (∃ v, Presents env entry v ∧ records log' = records log ++ [v]) → I log') :
    (remoteEntry env reqId entry).wpc (Pool.heard fun _ ↦ Receiving S) I
      (fun _ log' ↦ ∃ v, Presents env entry v ∧ records log' = records log ++ [v]) log := by
  have hlines : ∀ lines, (sendLines reqId lines).Uses (fun c ↦ ∀ a, sentRecords c a = []) :=
    fun lines ↦ Uses.forM (fun line ↦ uses_ask fun a ↦ rfl) lines
  unfold remoteEntry
  apply wpc_bind
  refine wpc_ofExcept (hI log (.inl rfl)) fun ticketStr hticket ↦ ?_
  apply wpc_bind
  refine wpc_mono (wpc_quiet (hlines _) fun log₁ hsame _ ↦ hI log₁ (.inl hsame)) fun _ log₁ _ h₁ ↦ ?_
  refine wpc_ask (hI log₁ (.inl h₁.1)) fun a log₂ h₂ ↦ ?_
  have hshown : ∃ v, Presents env entry v ∧ records log₂ = records log ++ [v] := by
    refine ⟨_, ⟨ticketStr, hticket, rfl⟩, ?_⟩
    rw [h₂.2, records, output_concat]
    exact congrArg (· ++ _) h₁.1
  exact ⟨hI log₂ (.inr hshown), hshown⟩

theorem wpc_handleRemoteBlobList (peer : String) (h : records log = []) :
    (handleRemoteBlobList env reqId peer).wpc (Pool.heard fun _ ↦ Receiving S) (Presented env S)
      (fun _ log' ↦ ∃ entries, Answered env S entries ∧ List.Forall₂ (Presents env) entries (records log')) log := by
  have hnone : ∀ log', records log' = records log → Presented env S log' := fun log' hsame ↦ .inl (hsame.trans h)
  have hsend : ∀ e : Event, (∀ a, sentRecords (.send e) a = []) →
      (send e).Uses (fun c ↦ ∀ a, sentRecords c a = []) := fun e he ↦ uses_ask he
  apply wpc_bind
  refine wpc_ofExcept (hnone log rfl) fun peerId _ ↦ ?_
  apply wpc_bind
  refine wpc_mono (wpc_catalogConnect _ hnone) fun entries log₁ _ h₁ ↦ ?_
  obtain ⟨hsame, hanswered⟩ := h₁
  rw [h] at hsame
  have hdone : ∀ {log' : Trace Call.Ans}, List.Forall₂ (Presents env) entries (records log') →
      (send (.done reqId)).wpc (Pool.heard fun _ ↦ Receiving S) (Presented env S) (fun _ log' ↦
        ∃ entries, Answered env S entries ∧ List.Forall₂ (Presents env) entries (records log')) log' := by
    intro log' hall
    have hkept : ∀ log₂, records log₂ = records log' → List.Forall₂ (Presents env) entries (records log₂) :=
      fun log₂ hrecords ↦ hrecords ▸ hall
    refine wpc_mono (wpc_quiet (hsend _ fun a ↦ rfl) fun log₂ hrecords _ ↦ ?_) fun _ log₂ _ h₂ ↦
      ⟨entries, hanswered, hkept log₂ h₂.1⟩
    exact .inr ⟨entries, entries, hanswered, List.prefix_refl _, hkept log₂ hrecords⟩
  dsimp only
  split
  · rename_i hempty
    obtain rfl := List.isEmpty_iff.mp hempty
    apply wpc_bind
    refine wpc_mono (wpc_quiet (hsend _ fun a ↦ rfl) fun log₂ hrecords _ ↦ .inl (hrecords.trans hsame))
      fun _ log₂ _ h₂ ↦ hdone ?_
    have hnone₂ : records log₂ = [] := h₂.1.trans hsame
    exact hnone₂ ▸ .nil
  · apply wpc_bind
    refine wpc_mono (wpc_quiet (hsend _ fun a ↦ rfl) fun log₂ hrecords _ ↦ .inl (hrecords.trans hsame))
      fun _ log₂ _ h₂ ↦ ?_
    apply wpc_bind
    have hnone₂ : records log₂ = [] := h₂.1.trans hsame
    have hloop := wpc_forM_done (R := Pool.heard fun _ ↦ Receiving S) (I := Presented env S) (f := remoteEntry env reqId)
      (s := log₂) (J := fun done log' ↦ done <+: entries ∧ List.Forall₂ (Presents env) done (records log'))
      (fun done log' hdone ↦ .inr ⟨entries, done, hanswered, hdone⟩)
      (fun done entry rest (hxs : entries = _) log' hshown ↦ ?_)
      ⟨List.nil_prefix, hnone₂ ▸ .nil⟩
    · exact wpc_mono hloop fun _ log₃ _ h₃ ↦ hdone h₃.2
    · have hnext : done ++ [entry] <+: entries := ⟨rest, by rw [hxs, List.append_assoc, List.singleton_append]⟩
      have hone : ∀ log₄, (∃ v, Presents env entry v ∧ records log₄ = records log' ++ [v]) →
          done ++ [entry] <+: entries ∧ List.Forall₂ (Presents env) (done ++ [entry]) (records log₄) := by
        intro log₄ hv
        obtain ⟨v, hv, hrecords⟩ := hv
        exact ⟨hnext, hrecords ▸ List.rel_append hshown.2 (.cons hv .nil)⟩
      refine wpc_mono (wpc_remoteEntry entry fun log₄ h₄ ↦ ?_) fun _ log₄ _ h₄ ↦ hone log₄ h₄
      rcases h₄ with h₄ | h₄
      · exact .inr ⟨entries, done, hanswered, hshown.1, h₄ ▸ hshown.2⟩
      · exact .inr ⟨entries, done ++ [entry], hanswered, hone log₄ h₄⟩

theorem wpc_dispatch_remoteBlobList (defaultReceiveDir : Option Path) (peer : String) :
    (dispatch env defaultReceiveDir reqId (.remoteBlobList peer)).wpc (Pool.heard fun _ ↦ Receiving S) (Presented env S)
      (fun r log ↦ r = .ok () → ∃ entries, Answered env S entries ∧ List.Forall₂ (Presents env) entries (records log))
      [] := by
  change ((handleOp env defaultReceiveDir reqId (.remoteBlobList peer)).attempt >>= _).wpc _ _ _ _
  apply wpc_bind
  refine wpc_attempt (wpc_mono (wpc_handleRemoteBlobList peer rfl) fun _ log hi h ↦ ⟨hi, fun _ ↦ h⟩) fun e log hi ↦ ?_
  refine ⟨hi, fun a log' ha ↦ ?_⟩
  have hsame : records log' = records log := by
    rw [ha.2, records, output_concat]
    exact List.append_nil _
  refine ⟨?_, fun h ↦ by cases h⟩
  rw [Presented, hsame]
  exact hi

end Client

section Shown

variable {env env' : Env} {addr : EndpointAddr} {o : Offer} {tags : List TagInfo} {es : List Listed} {bs : Bytes}
  {log : Trace Call.Ans}

def Listed.Shows (env : Env) (e : Listed) (v : Json) : Prop := ∃ entry, e.ReadAs env entry ∧ Presents env entry v

theorem shows_of_readAs {entries shown : List CatalogEntry} {vs : List Json}
    (hread : List.Forall₂ (Listed.ReadAs env) es entries) (hshown : shown <+: entries)
    (hvs : List.Forall₂ (Presents env) shown vs) :
    List.Forall₂ (Listed.Shows env) (es.take shown.length) vs := by
  induction hvs generalizing es entries with
  | nil => exact .nil
  | @cons entry v shown vs hv _ ih =>
    cases hread with
    | nil => cases List.prefix_nil.mp hshown
    | @cons e entry' es entries he hread =>
      obtain ⟨rfl, hrest⟩ := List.cons_prefix_cons.mp hshown
      exact .cons ⟨entry, he, hv⟩ (ih hread hrest)

theorem Shared.take (h : Shared env addr o tags es) {es' : List Listed} (hes : es' <+: es) :
    Shared env addr o tags es' where
  taken := (hes.map Listed.info).sublist.trans h.taken
  permitted e he := h.permitted e (hes.subset he)
  ticketed e he := h.ticketed e (hes.subset he)

theorem shown_of_discloses (hbs : Discloses env addr o bs) {S : RecvStream → Prop}
    (hS : ∀ stream, S stream → stream.bytes <+: bs) (h : Presented env' S log) : records log = [] ∨ o.granted ∧
      ∃ tags es, o.listed tags ∧ Shared env addr o tags es ∧ List.Forall₂ (Listed.Shows env') es (records log) := by
  rcases h with h | ⟨entries, shown, ⟨rest, hstream, hframed⟩, hshown, hvs⟩
  · exact .inl h
  · have hpre := hS _ hstream
    rcases hbs with hdenied | ⟨hgranted, tags, es, hlisted, hshared, hlisting⟩
    · obtain ⟨hstatus, -⟩ := List.cons_prefix_cons.mp (hpre.trans hdenied)
      cases hstatus
    · obtain ⟨-, hrest⟩ := List.cons_prefix_cons.mp (hpre.trans hlisting)
      obtain ⟨es', hes', hread, -⟩ := readAs_of_prefix hframed hrest
      refine .inr ⟨hgranted, tags, es'.take shown.length, hlisted, ?_, shows_of_readAs hread hshown hvs⟩
      exact hshared.take ((List.take_prefix _ _).trans hes')

theorem shown_of_whole (hbs : bs = allowed :: (listing es).1) (hwhole : (listing es).2 = true)
    {entries : List CatalogEntry} (hanswered : Answered env (· = ⟨bs, none⟩) entries)
    (hvs : List.Forall₂ (Presents env) entries (records log)) : List.Forall₂ (Listed.Shows env) es (records log) := by
  obtain ⟨rest, hstream, hframed⟩ := hanswered
  have hrest : rest = (listing es).1 := (List.cons.inj ((RecvStream.mk.inj hstream).1.trans hbs)).2
  have hpre : rest <+: (listing es).1 := by rw [hrest]
  obtain ⟨es', -, hread, hall⟩ := readAs_of_prefix hframed hpre
  obtain rfl := hall hrest hwhole
  have hshows := shows_of_readAs hread (List.prefix_refl _) hvs
  rwa [← hread.length_eq, List.take_length] at hshows

end Shown

end Catalog

section Remote

variable {ι : Type} [DecidableEq ι] {env env' : Env} {defaultReceiveDir : Option Path} {x y : Jobs ι} {i : ι}
  {peer : EndpointId} {accepted : Except Error RecvStream} {reqId : Uuid} {text : String} {log : Trace Call.Ans}

/-- What a node shows of another one's blobs has been shared with it. However the two of them are
interleaved with all else they work on, and wherever the connection breaks: it shows nothing, or it
has held the grant at some moment since the connection began and shows, in their order and each once,
tags the other one has had together at some moment, each with a blob it might have read at some moment
and with what is read of a ticket that names no address but relays. -/
theorem remote_listing (h : Pool.Reaches Answers Elsewhere (fun _ _ _ ↦ True) y x)
    (hbegins : y.Begins env i peer accepted) {q : Action (Except Error Unit)}
    (hcalls : Partial (Pool.heard fun _ ↦ Catalog.Receiving fun stream ↦
      stream.bytes <+: Catalog.sent (x.threads i).log)
      (dispatch env' defaultReceiveDir reqId (.remoteBlobList text)) [] q log) :
    Catalog.records log = [] ∨ (Jobs.offer Elsewhere y x peer).granted ∧
      ∃ tags es, (Jobs.offer Elsewhere y x peer).listed tags ∧
        Catalog.Shared env y.state.endpoint (Jobs.offer Elsewhere y x peer) tags es ∧
        List.Forall₂ (Catalog.Listed.Shows env') es (Catalog.records log) := by
  have hdiscloses := wpc_invariant (wpc_connection (fun _ _ hs ↦ hs) h hbegins)
  have hpresented := wpc_invariant (hcalls.invariant (Catalog.wpc_dispatch_remoteBlobList defaultReceiveDir text))
  exact Catalog.shown_of_discloses hdiscloses (fun _ hstream ↦ hstream) hpresented

/-- When a listing has been sent to the end and received in full, and is reported as a success,
nothing is left out: the records are those of all entries, and every tag of the moment of the listing
has one, unless the peer might not read its blob at some moment or that could not be looked up. -/
theorem remote_listing_whole (h : Pool.Reaches Answers Elsewhere (fun _ _ _ ↦ True) y x)
    (hbegins : y.Begins env i peer accepted) (hserved : (x.threads i).prog = .ret (.ok ()))
    (hcalls : Partial (Pool.heard fun _ ↦ Catalog.Receiving (· = ⟨Catalog.sent (x.threads i).log, none⟩))
      (dispatch env' defaultReceiveDir reqId (.remoteBlobList text)) [] (.ret (.ok ())) log) :
    ∃ tags es, (Jobs.offer Elsewhere y x peer).listed tags ∧
      Catalog.Streamed env peer y.state.endpoint (Jobs.offer Elsewhere y x peer) tags es (x.threads i).log ∧
      List.Forall₂ (Catalog.Listed.Shows env') es (Catalog.records log) := by
  have hconnection := wpc_connection (fun _ _ hs ↦ hs) h hbegins
  rw [hserved] at hconnection
  obtain ⟨-, hpresented⟩ := hcalls.invariant (Catalog.wpc_dispatch_remoteBlobList defaultReceiveDir text)
  obtain ⟨entries, hanswered, hvs⟩ := hpresented rfl
  rcases hconnection.2 rfl with hdenied | ⟨tags, es, hlisted, hstreamed⟩
  · obtain ⟨rest, hstream, -⟩ := hanswered
    have hstatus := (RecvStream.mk.inj hstream).1
    rw [hdenied] at hstatus
    cases (List.cons.inj hstatus).1
  · exact ⟨tags, es, hlisted, hstreamed, Catalog.shown_of_whole hstreamed.sent hstreamed.whole hanswered hvs⟩

end Remote

namespace Catalog

section Served

variable {env env' : Env} {s : NodeState} {peer : EndpointId} {es : List Listed} {rest : Bytes}

/-- The entry of a tag fits, and the other node reads its ticket and can write it out again. -/
structure Passes (env env' : Env) (addr : EndpointAddr) (e : Listed) : Prop where
  ticketed : e.Ticketed env addr
  name_fits : (Utf8.toBytes e.name).length < 2 ^ 16
  uri_fits : (Utf8.toBytes e.uri).length < 2 ^ 16
  read : ∃ ticket ticketStr, ShareTicket.fromUri env' e.uri = .ok ticket ∧ ticket.toUri env' = .ok ticketStr

def listedIn (env : Env) (s : NodeState) (t : TagInfo) : Listed where
  info := t
  uri := ((ShareTicket.fromFormat (relayOnlyAddr s.endpoint) t.hash t.format
    (some (Utf8.fromUtf8Lossy t.name))).toUri env).toOption.getD ""
  fileCount := (countAndSize s.store t.hash t.format).1
  totalSize := (countAndSize s.store t.hash t.format).2

theorem answers_of_serving {c : Call} {a : c.Ans} {s s' : NodeState} (h : Serving peer c s a s') : Answers c s a s' := by
  cases h with
  | exec => exact .exec c s
  | failed t hash e _ => exact .refused _ e rfl

theorem response_whole (hgrant : s.localStore.hasGrant .blobList peer = true)
    (h : ∀ t ∈ permittedTags s peer, Passes env env' s.endpoint (listedIn env s t)) :
    response env s peer = (allowed :: (listing ((permittedTags s peer).map (listedIn env s))).1, true) := by
  have hwhole : ∀ e ∈ (permittedTags s peer).map (listedIn env s), e.frame.2 = true := by
    intro e he
    obtain ⟨t, ht, rfl⟩ := List.mem_map.mp he
    rw [Listed.frame, frame_of_fits (h t ht).name_fits (h t ht).uri_fits]
  have hframe : ∀ t ∈ permittedTags s peer, tagFrame env (relayOnlyAddr s.endpoint) s.store t =
      (listedIn env s t).frame := by
    intro t ht
    have hticketed : (ShareTicket.fromFormat (relayOnlyAddr s.endpoint) t.hash t.format
        (some (Utf8.fromUtf8Lossy t.name))).toUri env = .ok (listedIn env s t).uri := (h t ht).ticketed
    rw [tagFrame, hticketed]
    rfl
  have hall : ∀ t ∈ permittedTags s peer, (tagFrame env (relayOnlyAddr s.endpoint) s.store t).2 = true := by
    intro t ht
    rw [hframe t ht]
    exact hwhole _ (List.mem_map_of_mem ht)
  rw [response, if_pos hgrant, loopOutput_of_forall hall, listing, loopOutput_of_forall hwhole, List.flatMap_map]
  dsimp only
  rw [List.flatMap_congr fun t ht ↦ congrArg Prod.fst (hframe t ht)]

theorem exists_decoded (h : ∀ e ∈ es, Passes env env' s.endpoint e) :
    ∃ entries, decodeEntries env' ⟨(listing es).1, none⟩ = .ok entries ∧
      ∀ entry ∈ entries, ∃ ticketStr, entry.ticket.toUri env' = .ok ticketStr := by
  have hframes : ∃ frames : List (WireFrame env'), (listing es).1 = frames.flatMap WireFrame.bytes ∧
      ∀ f ∈ frames, ∃ ticketStr, f.ticket.toUri env' = .ok ticketStr := by
    induction es with
    | nil => exact ⟨[], rfl, by simp⟩
    | cons e es ih =>
      obtain ⟨frames, hbytes, hwrite⟩ := ih fun e' he' ↦ h e' (by simp [he'])
      have he := h e (by simp)
      obtain ⟨ticket, ticketStr, hread, hticket⟩ := he.read
      have hwhole : e.frame.2 = true := by rw [Listed.frame, frame_of_fits he.name_fits he.uri_fits]
      refine ⟨wireFrame e.fileCount e.totalSize hwhole ticket hread :: frames, ?_, ?_⟩
      · rw [List.flatMap_cons, bytes_wireFrame hwhole hread, ← hbytes, listing, loopOutput, if_pos hwhole]
        rfl
      · rw [List.forall_mem_cons]
        exact ⟨⟨ticketStr, hticket⟩, hwrite⟩
  obtain ⟨frames, hbytes, hwrite⟩ := hframes
  refine ⟨frames.map WireFrame.entry, decodeEntries_ok_iff.mpr ⟨rfl, frames, hbytes, rfl⟩, ?_⟩
  intro entry hentry
  obtain ⟨f, hf, rfl⟩ := List.mem_map.mp hentry
  exact hwrite f hf

def clientAnswers (bs : Bytes) : (c : Call) → c.Ans
  | .recv => ⟨bs, none⟩
  | .net (.connect _ _) => .ok ()
  | c => (exec c emptyNode).1

def Answering (bs : Bytes) (c : Call) (log : Trace Call.Ans) (a : c.Ans) (log' : Trace Call.Ans) : Prop :=
  a = clientAnswers bs c ∧ log' = log ++ [⟨c, a⟩]

theorem wp_catalogConnect {entries : List CatalogEntry} (addr : EndpointAddr) (log : Trace Call.Ans)
    (hdecode : decodeEntries env' ⟨rest, none⟩ = .ok entries) :
    (Node.catalogConnect env' addr).wp (Answering (allowed :: rest)) (fun v _ ↦ v = entries) (fun _ _ ↦ False) log := by
  intro a₁ log₁ h₁
  obtain ⟨rfl, rfl⟩ := h₁
  intro a₂ log₂ h₂
  obtain ⟨rfl, rfl⟩ := h₂
  intro a₃ log₃ h₃
  obtain ⟨rfl, rfl⟩ := h₃
  intro a₄ log₄ h₄
  obtain ⟨rfl, rfl⟩ := h₄
  intro stream log₅ h₅
  obtain ⟨hstream, rfl⟩ := h₅
  have hread : stream.readExact 1 = .ok ([allowed], ⟨rest, none⟩) :=
    RecvStream.readExact_eq_ok.mpr ⟨rfl, hstream⟩
  change (context "reading catalog status" (Program.ofExcept (stream.readExact 1)) >>= _).wp _ _ _ _
  rw [hread]
  change (Program.ofExcept (decodeEntries env' ⟨rest, none⟩) : Action (List CatalogEntry)).wp _ _ _ _
  rw [hdecode]
  rfl

theorem wp_remoteEntries {entries : List CatalogEntry} {bs : Bytes} {reqId : Uuid} (log : Trace Call.Ans)
    (hwrite : ∀ entry ∈ entries, ∃ ticketStr, entry.ticket.toUri env' = .ok ticketStr) :
    (entries.forM (remoteEntry env' reqId)).wp (Answering bs) (fun _ _ ↦ True) (fun _ _ ↦ False) log := by
  refine wp_forM (I := fun rest _ ↦ ∀ entry ∈ rest, ∃ ticketStr, entry.ticket.toUri env' = .ok ticketStr) ?_
    (fun _ _ ↦ trivial) hwrite
  intro entry rest log' hrest
  obtain ⟨ticketStr, hticket⟩ := hrest entry (by simp)
  rw [remoteEntry, hticket]
  intro a₁ _ _ a₂ _ _ a₃ _ _ a₄ _ _ a₅ _ _ entry' hentry'
  exact hrest entry' (by simp [hentry'])

theorem wp_dispatch_remoteBlobList {entries : List CatalogEntry} {text : String} {own : EndpointId} (reqId : Uuid)
    (defaultReceiveDir : Option Path) (log : Trace Call.Ans) (hpeer : parsePeerId env' text = .ok own)
    (hdecode : decodeEntries env' ⟨rest, none⟩ = .ok entries)
    (hwrite : ∀ entry ∈ entries, ∃ ticketStr, entry.ticket.toUri env' = .ok ticketStr) :
    (dispatch env' defaultReceiveDir reqId (.remoteBlobList text)).wp (Answering (allowed :: rest))
      (fun r _ ↦ r = .ok ()) (fun _ _ ↦ False) log := by
  have hhandle : (handleRemoteBlobList env' reqId text).wp (Answering (allowed :: rest)) (fun _ _ ↦ True)
      (fun _ _ ↦ False) log := by
    rw [handleRemoteBlobList, hpeer]
    change (Node.catalogConnect env' (.new own) >>= _).wp _ _ _ _
    refine (wp_bind _ _).mpr (wp_mono (wp_catalogConnect _ log hdecode) (fun v log₁ hv ↦ ?_) fun _ _ h ↦ h)
    subst hv
    dsimp only
    split
    · exact fun _ _ _ _ _ _ ↦ trivial
    · intro _ log₂ _
      change (v.forM (remoteEntry env' reqId) >>= fun _ ↦ send (.done reqId)).wp _ _ _ _
      exact (wp_bind _ _).mpr (wp_mono (wp_remoteEntries log₂ hwrite) (fun _ _ _ _ _ _ ↦ trivial) fun _ _ h ↦ h)
  change ((handleRemoteBlobList env' reqId text).attempt >>= _).wp _ _ _ _
  rw [wp_bind, wp_attempt]
  exact wp_mono hhandle (fun _ _ _ ↦ rfl) fun _ _ h ↦ h.elim

end Served

end Catalog

section Remote

variable {ι : Type} [DecidableEq ι] {env env' : Env} {s : NodeState} {jobs : ι → Job} {i : ι} {peer own : EndpointId}
  {text : String}

theorem exists_served {y : Jobs ι} (hbegins : y.Begins env i peer (.ok ⟨[Catalog.blobList], none⟩)) (hs : y.state = s)
    (hgrant : s.localStore.hasGrant .blobList peer = true)
    (hpass : ∀ t ∈ Catalog.permittedTags s peer, Catalog.Passes env env' s.endpoint (Catalog.listedIn env s t))
    (hpeer : parsePeerId env' text = .ok own) (defaultReceiveDir : Option Path) (reqId : Uuid) :
    ∃ (x : Jobs ι) (log : Trace Call.Ans), Pool.Reaches Answers Elsewhere (fun _ _ _ ↦ True) y x ∧
        (∀ j, j ≠ i → x.threads j = y.threads j) ∧ (x.threads i).prog = .ret (.ok ()) ∧ x.state = s ∧
      Partial (Pool.heard fun _ ↦ Catalog.Receiving (· = ⟨Catalog.sent (x.threads i).log, none⟩))
        (dispatch env' defaultReceiveDir reqId (.remoteBlobList text)) [] (.ret (.ok ())) log ∧
      List.Forall₂ (Catalog.Listed.Shows env') ((Catalog.permittedTags s peer).map (Catalog.listedIn env s))
        (Catalog.records log) := by
  obtain ⟨es, hes⟩ : ∃ es, es = (Catalog.permittedTags s peer).map (Catalog.listedIn env s) := ⟨_, rfl⟩
  have hpassed : ∀ e ∈ es, Catalog.Passes env env' s.endpoint e := by
    intro e he
    obtain ⟨t, ht, rfl⟩ := List.mem_map.mp (hes ▸ he)
    exact hpass t ht
  -- the node that serves
  obtain ⟨r, served, hruns, hsent, hok⟩ := (Catalog.emits_handleBlobList env).exists_runs
    fun c s ↦ ⟨_, _, Catalog.Serving.exec c s⟩
  have hresponse := Catalog.response_whole hgrant hpass
  rw [← hes] at hresponse
  rw [hresponse] at hsent hok
  obtain rfl : r = .ok () := by
    cases r with
    | ok u => rfl
    | error e => cases hok
  have hserve : Partial (logged Answers) (y.threads i).prog (y.state, (y.threads i).log) (.ret (.ok ())) (s, served) := by
    rw [hbegins, hs]
    change Partial (logged Answers) (Catalog.handleBlobList env peer).attempt (s, []) _ _
    exact Partial.start.runs (hruns.mono fun c x a y h ↦ ⟨Catalog.answers_of_serving h.1, h.2⟩).attempt
  obtain ⟨x, hx, hstate, hthread, hothers⟩ : ∃ x, Pool.Reaches Answers Elsewhere (fun _ _ _ ↦ True) y x ∧ x.state = s ∧
      x.threads i = ⟨.ret (.ok ()), served⟩ ∧ ∀ j, j ≠ i → x.threads j = y.threads j :=
    Pool.Reaches.exists_partial hserve
  have hprog : (x.threads i).prog = .ret (.ok ()) := by rw [hthread]
  have hlog : (x.threads i).log = served := by rw [hthread]
  -- the node that asks
  obtain ⟨entries, hdecode, hwrite⟩ := Catalog.exists_decoded hpassed
  have hanswering : ∀ c (log : Trace Call.Ans), ∃ a log',
      Catalog.Answering (Catalog.allowed :: (Catalog.listing es).1) c log a log' := fun c log ↦ ⟨_, _, rfl, rfl⟩
  obtain ⟨r', log, hask⟩ := exists_run hanswering (dispatch env' defaultReceiveDir reqId (.remoteBlobList text)) []
  have hwp := Catalog.wp_dispatch_remoteBlobList reqId defaultReceiveDir [] hpeer hdecode hwrite
  obtain ⟨v, rfl⟩ : ∃ v, r' = .ok v := by
    cases r' with
    | ok v => exact ⟨v, rfl⟩
    | error e => exact (hask.error_of_wp hwp).elim
  obtain rfl : v = .ok () := hask.ok_of_wp hwp
  have hcalls : Partial (Pool.heard fun _ ↦ Catalog.Receiving (· = ⟨Catalog.sent (x.threads i).log, none⟩))
      (dispatch env' defaultReceiveDir reqId (.remoteBlobList text)) [] (.ret (.ok ())) log := by
    refine Partial.start.runs (hask.mono fun c log a log' h ↦ ⟨?_, h.2⟩)
    cases c with
    | recv =>
      change a = _
      rw [hlog, show Catalog.sent served = _ from hsent]
      exact h.1
    | _ => trivial
  -- what it is shown
  obtain ⟨-, hpresented⟩ := hcalls.invariant (Catalog.wpc_dispatch_remoteBlobList defaultReceiveDir text)
  obtain ⟨entries', hanswered, hvs⟩ := hpresented rfl
  refine ⟨x, log, hx, hothers, hprog, hstate, hcalls, ?_⟩
  rw [← hes]
  refine Catalog.shown_of_whole ?_ ?_ hanswered hvs
  · rw [hlog]
    exact hsent
  · have hwhole : ∀ e ∈ es, e.frame.2 = true := by
      intro e he
      rw [Catalog.Listed.frame, Catalog.frame_of_fits (hpassed e he).name_fits (hpassed e he).uri_fits]
    rw [Catalog.listing, loopOutput_of_forall hwhole]

/-- Where nothing goes wrong and all entries pass, a peer that holds the grant is shown the tags
whose blobs it may read: all of them and no others, in the order of the listing. -/
theorem remote_listing_served (hjob : jobs i = .catalog peer (.ok ⟨[Catalog.blobList], none⟩))
    (hgrant : s.localStore.hasGrant .blobList peer = true)
    (hpass : ∀ t ∈ Catalog.permittedTags s peer, Catalog.Passes env env' s.endpoint (Catalog.listedIn env s t))
    (hpeer : parsePeerId env' text = .ok own) (defaultReceiveDir defaultReceiveDir' : Option Path) (reqId : Uuid) :
    ∃ (x : Jobs ι) (log : Trace Call.Ans), Pool.Reaches Answers Elsewhere (fun _ _ _ ↦ True)
        (Jobs.waiting env defaultReceiveDir s jobs) x ∧ (x.threads i).prog = .ret (.ok ()) ∧ x.state = s ∧
      Partial (Pool.heard fun _ ↦ Catalog.Receiving (· = ⟨Catalog.sent (x.threads i).log, none⟩))
        (dispatch env' defaultReceiveDir' reqId (.remoteBlobList text)) [] (.ret (.ok ())) log ∧
      List.Forall₂ (Catalog.Listed.Shows env') ((Catalog.permittedTags s peer).map (Catalog.listedIn env s))
        (Catalog.records log) := by
  obtain ⟨x, log, hx, -, hserved⟩ := exists_served (begins_waiting hjob) rfl hgrant hpass hpeer defaultReceiveDir' reqId
  exact ⟨x, log, hx, hserved⟩

end Remote

section Notes

/-- A node that shares one of its blobs, under the names `notes` and `todo`, but not the other one. -/
def sharingNotes : NodeState :=
  { Node.sharingUnder (Utf8.toBytes "notes") with
    store := ((Node.sharingUnder (Utf8.toBytes "notes")).store.setTag (Utf8.toBytes "plan") ⟨.fromByte 2, .raw⟩).setTag
      (Utf8.toBytes "todo") ⟨.fromByte 1, .raw⟩ }

def notesEnv : Env := .plain [namedWire "notes", namedWire "todo"]

/-- The notes are listed while the other blob comes to be shared. -/
def serveNotes : Bool → Job
  | false => .catalog (.fromByte 7) (.ok ⟨[Catalog.blobList], none⟩)
  | true => .request .nil (.blobAttach (toString (Hash.fromByte 2)) [] true)

/-- The request that shares the other blob has been looking for a file of that name. -/
def attachingNotes : Jobs Bool := Pool.schedule exec [true] (Jobs.waiting notesEnv none sharingNotes serveNotes)

def notesOffer (x : Jobs Bool) : Catalog.Offer := Jobs.offer Elsewhere attachingNotes x (.fromByte 7)

theorem permittedTags_notes : Catalog.permittedTags sharingNotes (.fromByte 7) =
    [⟨Utf8.toBytes "notes", .fromByte 1, .raw⟩, ⟨Utf8.toBytes "todo", .fromByte 1, .raw⟩] := by
  decide +kernel

theorem passes_named {name : String} (hname : name ∈ ["notes", "todo"]) :
    Catalog.Passes notesEnv notesEnv sharingNotes.endpoint
      (Catalog.listedIn notesEnv sharingNotes ⟨Utf8.toBytes name, .fromByte 1, .raw⟩) := by
  have hlossy : Utf8.fromUtf8Lossy (Utf8.toBytes name) = name := Utf8.fromUtf8Lossy_toBytes name
  have huri : (Catalog.listedIn notesEnv sharingNotes ⟨Utf8.toBytes name, .fromByte 1, .raw⟩).uri = namedUri name := by
    rw [Catalog.listedIn, hlossy]
    rfl
  have honly : ∀ w ∈ [namedWire "notes", namedWire "todo"], Utf8.toBytes (Env.ticketJson w) =
      Utf8.toBytes (Env.ticketJson (namedWire name)) → w = namedWire name := by
    simp only [List.mem_cons, List.not_mem_nil, or_false] at hname
    rcases hname with rfl | rfl <;> decide +kernel
  have hlisted : namedWire name ∈ [namedWire "notes", namedWire "todo"] := by
    simp only [List.mem_cons, List.not_mem_nil, or_false] at hname ⊢
    rcases hname with rfl | rfl <;> simp
  refine ⟨rfl, ?_, ?_, namedTicket name, namedUri name, ?_, rfl⟩
  · rw [Catalog.Listed.name, Catalog.listedIn, hlossy]
    simp only [List.mem_cons, List.not_mem_nil, or_false] at hname
    rcases hname with rfl | rfl <;> decide
  · rw [huri]
    simp only [List.mem_cons, List.not_mem_nil, or_false] at hname
    rcases hname with rfl | rfl <;> decide +kernel
  · rw [huri]
    exact fromUri_listed rfl hlisted honly rfl

theorem passes_notes : ∀ t ∈ Catalog.permittedTags sharingNotes (.fromByte 7),
    Catalog.Passes notesEnv notesEnv sharingNotes.endpoint (Catalog.listedIn notesEnv sharingNotes t) := by
  rw [permittedTags_notes]
  intro t ht
  simp only [List.mem_cons, List.not_mem_nil, or_false] at ht
  rcases ht with rfl | rfl
  · exact passes_named (by simp)
  · exact passes_named (by simp)

theorem job_notes : serveNotes false = .catalog (.fromByte 7) (.ok ⟨[Catalog.blobList], none⟩) := rfl

theorem granted_notes : sharingNotes.localStore.hasGrant .blobList (.fromByte 7) = true := by decide

theorem parsePeerId_notes : parsePeerId notesEnv (toString (EndpointId.fromByte 9)) = .ok (.fromByte 9) := rfl

/-- The two names of the blob are shown, and the other blob is not. -/
theorem remote_listing_served_notes : ∃ (x : Jobs Bool) (log : Trace Call.Ans), Pool.Reaches Answers Elsewhere
      (fun _ _ _ ↦ True) (Jobs.waiting notesEnv none sharingNotes serveNotes) x ∧
    (x.threads false).prog = .ret (.ok ()) ∧ x.state = sharingNotes ∧
    Partial (Pool.heard fun _ ↦ Catalog.Receiving (· = ⟨Catalog.sent (x.threads false).log, none⟩))
      (dispatch notesEnv none .nil (.remoteBlobList (toString (EndpointId.fromByte 9)))) [] (.ret (.ok ())) log ∧
    List.Forall₂ (Catalog.Listed.Shows notesEnv)
      ([⟨Utf8.toBytes "notes", .fromByte 1, .raw⟩, ⟨Utf8.toBytes "todo", .fromByte 1, .raw⟩].map
        (Catalog.listedIn notesEnv sharingNotes))
      (Catalog.records log) := by
  rw [← permittedTags_notes]
  exact remote_listing_served job_notes granted_notes passes_notes parsePeerId_notes none none .nil

theorem begins_notes : attachingNotes.Begins notesEnv false (.fromByte 7) (.ok ⟨[Catalog.blobList], none⟩) := rfl

/-- The connection is served between two calls of the request that shares the other blob. -/
theorem exists_notes : ∃ (x : Jobs Bool) (log : Trace Call.Ans),
    Pool.Reaches Answers Elsewhere (fun _ _ _ ↦ True) attachingNotes x ∧ (x.threads true).prog = .ret (.ok ()) ∧
      (x.threads false).prog = .ret (.ok ()) ∧
      Partial (Pool.heard fun _ ↦ Catalog.Receiving (· = ⟨Catalog.sent (x.threads false).log, none⟩))
        (dispatch notesEnv none .nil (.remoteBlobList (toString (EndpointId.fromByte 9)))) [] (.ret (.ok ())) log ∧
      (Catalog.records log).length = 2 := by
  have hstart : attachingNotes.state = sharingNotes := rfl
  obtain ⟨y, log, hy, hothers, hserved, hstate, hcalls, hshown⟩ := exists_served begins_notes hstart granted_notes
    passes_notes parsePeerId_notes none .nil
  have hlength := hshown.length_eq
  rw [List.length_map, permittedTags_notes] at hlength
  have hattach : Runs (logged Answers) (attachingNotes.threads true).prog
      (sharingNotes, (attachingNotes.threads true).log) _ _ := runs_execLogged Answers.exec _ _
  have hok : (run execLogged (attachingNotes.threads true).prog
      (sharingNotes, (attachingNotes.threads true).log)).1 = .ok (.ok ()) := by
    rfl
  rw [hok] at hattach
  obtain ⟨⟨s', attached⟩, hend⟩ : ∃ z, (run execLogged (attachingNotes.threads true).prog
      (sharingNotes, (attachingNotes.threads true).log)).2 = z := ⟨_, rfl⟩
  rw [hend] at hattach
  have hrest : Partial (logged Answers) (y.threads true).prog (y.state, (y.threads true).log) (.ret (.ok ()))
      (s', attached) := by
    rw [hothers true (by simp), hstate]
    exact Partial.start.runs hattach
  obtain ⟨x, hx, -, hthread, hkept⟩ := Pool.Reaches.exists_partial hrest
  have hsame : x.threads false = y.threads false := hkept false (by simp)
  refine ⟨x, log, hy.trans hx, by rw [hthread], by rw [hsame]; exact hserved, ?_, hlength.symm⟩
  rw [hsame]
  exact hcalls

theorem remote_listing_whole_notes : ∃ (x : Jobs Bool) (log : Trace Call.Ans) (tags : List TagInfo)
    (es : List Catalog.Listed), (Catalog.records log).length = 2 ∧ (notesOffer x).listed tags ∧
      Catalog.Streamed notesEnv (.fromByte 7) sharingNotes.endpoint (notesOffer x) tags es (x.threads false).log ∧
      List.Forall₂ (Catalog.Listed.Shows notesEnv) es (Catalog.records log) := by
  obtain ⟨x, log, hx, -, hserved, hcalls, hlength⟩ := exists_notes
  obtain ⟨tags, es, hlisted, hstreamed, hshows⟩ := remote_listing_whole hx begins_notes hserved hcalls
  exact ⟨x, log, tags, es, hlength, hlisted, hstreamed, hshows⟩

theorem remote_listing_notes : ∃ (x : Jobs Bool) (log : Trace Call.Ans), (Catalog.records log).length = 2 ∧
    (notesOffer x).granted ∧
      ∃ tags es, (notesOffer x).listed tags ∧
        Catalog.Shared notesEnv sharingNotes.endpoint (notesOffer x) tags es ∧
        List.Forall₂ (Catalog.Listed.Shows notesEnv) es (Catalog.records log) := by
  obtain ⟨x, log, hx, -, -, hcalls, hlength⟩ := exists_notes
  have hprefix : Partial (Pool.heard fun _ ↦ Catalog.Receiving fun stream ↦
      stream.bytes <+: Catalog.sent (x.threads false).log)
      (dispatch notesEnv none .nil (.remoteBlobList (toString (EndpointId.fromByte 9)))) [] (.ret (.ok ())) log := by
    refine hcalls.mono fun c _ a _ h ↦ ⟨?_, h.2⟩
    cases c with
    | recv =>
      have hstream : a = ⟨Catalog.sent (x.threads false).log, none⟩ := h.1
      rw [hstream]
      exact List.prefix_refl _
    | _ => trivial
  rcases remote_listing hx begins_notes hprefix with hnone | hshown
  · rw [hnone] at hlength
    cases hlength
  · exact ⟨x, log, hlength, hshown⟩

end Notes

end Ringdrop
