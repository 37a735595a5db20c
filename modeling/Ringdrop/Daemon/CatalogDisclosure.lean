import Ringdrop.Core.CatalogResponse
import Ringdrop.Daemon.Authority

namespace Ringdrop

open Library Program Std

namespace Catalog

structure Listed where
  info : TagInfo
  uri : String
  fileCount : Option ℕ
  totalSize : Option UInt64

namespace Listed

def name (e : Listed) : String := Utf8.fromUtf8Lossy e.info.name

def frame (e : Listed) : Bytes × Bool :=
  Catalog.frame e.info.hash e.info.format e.name e.uri e.fileCount e.totalSize

def ticket (addr : EndpointAddr) (e : Listed) : ShareTicket :=
  .fromFormat (relayOnlyAddr addr) e.info.hash e.info.format (some e.name)

def Ticketed (env : Env) (addr : EndpointAddr) (e : Listed) : Prop := (e.ticket addr).toUri env = .ok e.uri

end Listed

def listing (es : List Listed) : Bytes × Bool := loopOutput Listed.frame es

/-- What a node may come to tell a connection that it serves. -/
structure Offer where
  granted : Prop
  listed : List TagInfo → Prop
  permitted : Hash → Prop
  withheld : Hash → Prop

/-- The entries a connection may get for the tags `ts`. -/
structure Shared (env : Env) (addr : EndpointAddr) (o : Offer) (ts : List TagInfo) (es : List Listed) : Prop where
  taken : (es.map Listed.info).Sublist ts
  permitted : ∀ e ∈ es, o.permitted e.info.hash
  ticketed : ∀ e ∈ es, e.Ticketed env addr

/-- What a connection may have sent: a refusal, or where the grant is held the beginning of
what is shared of a listing. -/
def Discloses (env : Env) (addr : EndpointAddr) (o : Offer) (bs : Bytes) : Prop :=
  bs <+: [denied] ∨ o.granted ∧ ∃ tags es, o.listed tags ∧ Shared env addr o tags es ∧ bs <+: allowed :: (listing es).1

/-- The answers to a listing of tags: it may break off. -/
def Lists (tags : List TagInfo) (items : List (Except Error TagInfo)) : Prop :=
  items = tags.map .ok ∨ ∃ n e, items = (tags.take n).map .ok ++ [.error e]

theorem Lists.prefix_of_append {tags ts : List TagInfo} {items rest : List (Except Error TagInfo)}
    (h : Lists tags items) (hts : items = ts.map .ok ++ rest) : ts <+: tags := by
  have hread : ∀ us : List TagInfo, (us.map Except.ok).filterMap (Except.toOption (ε := Error)) = us := by
    intro us
    rw [List.filterMap_map]
    exact List.filterMap_some
  have hprefix : ts <+: items.filterMap Except.toOption := by
    rw [hts, List.filterMap_append, hread]
    exact List.prefix_append ..
  rcases h with rfl | ⟨n, e, rfl⟩
  · rwa [hread] at hprefix
  · rw [List.filterMap_append, hread] at hprefix
    have hnone : [(.error e : Except Error TagInfo)].filterMap Except.toOption = [] := rfl
    rw [hnone, List.append_nil] at hprefix
    exact hprefix.trans (List.take_prefix ..)

theorem Lists.eq_of_map {tags ts : List TagInfo} (h : Lists tags (ts.map .ok)) : tags = ts := by
  have hinj : Function.Injective (Except.ok : TagInfo → Except Error TagInfo) := fun _ _ ↦ Except.ok.inj
  rcases h with h | ⟨n, e, h⟩
  · exact (List.map_injective_iff.mpr hinj h).symm
  · have hmem : .error e ∈ ts.map (Except.ok : TagInfo → Except Error TagInfo) := h ▸ by simp
    obtain ⟨t, -, ht⟩ := List.mem_map.mp hmem
    cases ht

def Hears (o : Offer) (peer : EndpointId) (addr : EndpointAddr) (_ : Trace Call.Ans) : (c : Call) → c.Ans → Prop
  | .grants (.get .blobList other), .ok true => other = peer → o.granted
  | .endpointAddr, a => a = addr
  | .store .listTags, .ok items => ∃ tags, o.listed tags ∧ Lists tags items
  | .registry (.hasPermission other res .read), .ok true => other = peer → o.permitted res
  | .registry (.hasPermission other res .read), .ok false => other = peer → o.withheld res
  | _, _ => True

abbrev sent (log : Trace Call.Ans) : Bytes := output sentBytes log

section Rules

theorem sent_concat (log : Trace Call.Ans) (c : Call) (a : c.Ans) :
    sent (log ++ [⟨c, a⟩]) = sent log ++ sentBytes c a := output_concat log c a

/-- However the program ends, no more than `b.1` has been sent, and all of it unless it fails.
It fails where `b.2` is not set. -/
def Puts (p : Action Unit) (b : Bytes × Bool) : Prop :=
  ∀ (H : Trace Call.Ans → (c : Call) → c.Ans → Prop) (I : Trace Call.Ans → Prop) (log : Trace Call.Ans),
    (∀ log', sent log' <+: sent log ++ b.1 → I log') →
    p.wpc (Pool.heard H) I (fun _ log' ↦ sent log' = sent log ++ b.1 ∧ b.2 = true) log

theorem puts_write (bs : Bytes) : Puts (net (.writeAll bs)) (bs, true) := by
  intro H I log hI
  refine ⟨hI log (List.prefix_append ..), fun a log' ha ↦ ?_⟩
  obtain ⟨-, rfl⟩ := ha
  have hsent := sent_concat log (.net (.writeAll bs)) a
  cases a with
  | ok u => exact ⟨hI _ (hsent ▸ List.prefix_refl _), hsent, rfl⟩
  | error e =>
    refine hI _ ?_
    rw [hsent]
    exact (List.append_nil (sent log)).symm ▸ List.prefix_append ..

theorem Puts.context {m : String} {p : Action Unit} {b : Bytes × Bool} (h : Puts p b) : Puts (context m p) b :=
  fun H I log hI ↦ wpc_mapError (h H I log hI)

theorem Puts.bind {p q : Action Unit} {b d : Bytes × Bool} (hp : Puts p b) (hq : Puts q d) :
    Puts (p >>= fun _ ↦ q) (if b.2 then (b.1 ++ d.1, d.2) else b) := by
  intro H I log hI
  apply wpc_bind
  by_cases hb : b.2
  · rw [if_pos hb] at hI ⊢
    dsimp only at hI
    rw [← List.append_assoc] at hI
    refine wpc_mono (hp H I log fun log' h ↦ hI log' (h.trans (List.prefix_append ..))) fun _ log₁ _ h₁ ↦ ?_
    refine wpc_mono (hq H I log₁ fun log' h ↦ hI log' (h₁.1 ▸ h)) fun _ log₂ _ h₂ ↦ ?_
    rw [h₂.1, h₁.1, List.append_assoc]
    exact ⟨rfl, h₂.2⟩
  · rw [if_neg hb] at hI ⊢
    exact wpc_mono (hp H I log hI) fun _ log₁ _ h₁ ↦ absurd h₁.2 hb

theorem puts_writeLengthPrefixed (data : Bytes) : Puts (writeLengthPrefixed data) (lengthPrefixed data) := by
  unfold writeLengthPrefixed lengthPrefixed
  split_ifs
  · exact (puts_write _).bind (puts_write _)
  · exact fun H I log hI ↦ hI log (List.prefix_append ..)

theorem puts_writeEntry (hash : Hash) (format : BlobFormat) (name ticketUri : String) (fileCount : Option ℕ)
    (totalSize : Option UInt64) : Puts (writeEntry hash format name ticketUri fileCount totalSize)
      (frame hash format name ticketUri fileCount totalSize) := by
  unfold writeEntry frame
  refine (puts_write _).context.bind ?_
  refine (puts_write _).context.bind ?_
  refine (puts_writeLengthPrefixed _).context.bind ?_
  refine (puts_writeLengthPrefixed _).context.bind ?_
  refine (puts_write _).context.bind ?_
  have hlast : Puts (Ringdrop.context "writing file_count"
      (net (.writeAll (toLeBytes 4 ((fileCount.map (· % 2 ^ 32)).getD (2 ^ 32 - 1)))))) _ :=
    (puts_write _).context
  simpa [loopOutput] using hlast

def Quiet (c : Call) : Prop := ∀ a, sentBytes c a = []

end Rules

section Handler

variable {env : Env} {peer : EndpointId} {addr : EndpointAddr} {o : Offer} {tags ts : List TagInfo} {log : Trace Call.Ans}

/-- A tag has an entry, or the peer may not read its blob, or that could not be looked up. -/
def Dealt (peer : EndpointId) (o : Offer) (es : List Listed) (log : Trace Call.Ans) (t : TagInfo) : Prop :=
  t ∈ es.map Listed.info ∨ o.withheld t.hash ∨
    ∃ e, ⟨.registry (.hasPermission peer t.hash .read), .error e⟩ ∈ log

structure Streamed (env : Env) (peer : EndpointId) (addr : EndpointAddr) (o : Offer) (ts : List TagInfo)
    (es : List Listed) (log : Trace Call.Ans) : Prop where
  granted : o.granted
  shared : Shared env addr o ts es
  sent : sent log = allowed :: (listing es).1
  whole : (listing es).2 = true
  dealt : ∀ t ∈ ts, Dealt peer o es log t

def Served (env : Env) (peer : EndpointId) (addr : EndpointAddr) (o : Offer) (log : Trace Call.Ans) : Prop :=
  sent log = [denied] ∨ ∃ tags es, o.listed tags ∧ Streamed env peer addr o tags es log

theorem Shared.mono {es : List Listed} (h : Shared env addr o ts es) (hts : ts <+: tags) : Shared env addr o tags es :=
  ⟨h.taken.trans hts.sublist, h.permitted, h.ticketed⟩

theorem Shared.concat {es : List Listed} (h : Shared env addr o ts es) {e : Listed} (hpermitted : o.permitted e.info.hash)
    (hticketed : e.Ticketed env addr) : Shared env addr o (ts ++ [e.info]) (es ++ [e]) where
  taken := by
    rw [List.map_append]
    exact h.taken.append (List.Sublist.refl _)
  permitted := by
    rw [List.forall_mem_append, List.forall_mem_singleton]
    exact ⟨h.permitted, hpermitted⟩
  ticketed := by
    rw [List.forall_mem_append, List.forall_mem_singleton]
    exact ⟨h.ticketed, hticketed⟩

theorem listing_concat {es : List Listed} (h : (listing es).2 = true) (e : Listed) :
    listing (es ++ [e]) = ((listing es).1 ++ e.frame.1, e.frame.2) := loopOutput_concat h e

theorem Dealt.mono {es es' : List Listed} {log log' : Trace Call.Ans} {t : TagInfo} (h : Dealt peer o es log t)
    (hes : es <+: es') (hlog : log <+: log') : Dealt peer o es' log' t := by
  rcases h with h | h | ⟨e, h⟩
  · exact .inl ((hes.map Listed.info).subset h)
  · exact .inr (.inl h)
  · exact .inr (.inr ⟨e, hlog.subset h⟩)

theorem Streamed.discloses {es : List Listed} (h : Streamed env peer addr o ts es log) (hlisted : o.listed tags)
    (hts : ts <+: tags) : Discloses env addr o (Catalog.sent log) :=
  .inr ⟨h.granted, tags, es, hlisted, h.shared.mono hts, h.sent ▸ List.prefix_refl _⟩

theorem Streamed.quiet {es : List Listed} {log' : Trace Call.Ans} (h : Streamed env peer addr o ts es log)
    (hsame : Catalog.sent log' = Catalog.sent log) (hlog : log <+: log') : Streamed env peer addr o ts es log' :=
  ⟨h.granted, h.shared, hsame.trans h.sent, h.whole, fun t ht ↦ (h.dealt t ht).mono (List.prefix_refl _) hlog⟩

theorem Streamed.skip {es : List Listed} {t : TagInfo} (h : Streamed env peer addr o ts es log)
    (ht : Dealt peer o es log t) : Streamed env peer addr o (ts ++ [t]) es log := by
  refine ⟨h.granted, h.shared.mono (List.prefix_append ..), h.sent, h.whole, ?_⟩
  rw [List.forall_mem_append, List.forall_mem_singleton]
  exact ⟨h.dealt, ht⟩

theorem Streamed.entry {es : List Listed} {log' : Trace Call.Ans} (h : Streamed env peer addr o ts es log) {e : Listed}
    (hpermitted : o.permitted e.info.hash) (hticketed : e.Ticketed env addr) (hlog : log <+: log')
    (hsent : Catalog.sent log' = Catalog.sent log ++ e.frame.1) (hwhole : e.frame.2 = true) :
    Streamed env peer addr o (ts ++ [e.info]) (es ++ [e]) log' where
  granted := h.granted
  shared := h.shared.concat hpermitted hticketed
  sent := by rw [hsent, h.sent, listing_concat h.whole, List.cons_append]
  whole := by rw [listing_concat h.whole, hwhole]
  dealt := by
    rw [List.forall_mem_append, List.forall_mem_singleton]
    refine ⟨fun t ht ↦ (h.dealt t ht).mono (List.prefix_append ..) hlog, .inl ?_⟩
    simp

theorem wpc_streamTag {es : List Listed} {item : Except Error TagInfo} (hlisted : o.listed tags) (hts : ts <+: tags)
    (hitem : ∀ info, item = .ok info → ts ++ [info] <+: tags) (h : Streamed env peer addr o ts es log) :
    (streamTag env peer (relayOnlyAddr addr) item).wpc (Pool.heard (Hears o peer addr))
      (fun log ↦ Discloses env addr o (sent log))
      (fun _ log' ↦ ∃ info es', item = .ok info ∧ Streamed env peer addr o (ts ++ [info]) es' log') log := by
  cases item with
  | error e => exact h.discloses hlisted hts
  | ok info =>
    refine ⟨h.discloses hlisted hts, fun a log₁ ha ↦ ?_⟩
    obtain ⟨hheard, rfl⟩ := ha
    have hquiet : sent (log ++ [⟨.registry (.hasPermission peer info.hash .read), a⟩]) = sent log := by
      rw [sent_concat]
      exact List.append_nil _
    have h₁ := h.quiet hquiet (List.prefix_append ..)
    have hpassed (hdealt : Dealt peer o es (log ++ [⟨.registry (.hasPermission peer info.hash .read), a⟩]) info) :
        (return () : Action Unit).wpc (Pool.heard (Hears o peer addr)) (fun log ↦ Discloses env addr o (sent log))
          (fun _ log' ↦ ∃ info' es', (.ok info : Except Error TagInfo) = .ok info' ∧
            Streamed env peer addr o (ts ++ [info']) es' log')
          (log ++ [⟨.registry (.hasPermission peer info.hash .read), a⟩]) :=
      ⟨h₁.discloses hlisted hts, info, es, rfl, h₁.skip hdealt⟩
    cases a with
    | error e => exact hpassed (.inr (.inr ⟨e, by simp⟩))
    | ok allows =>
      cases allows with
      | false => exact hpassed (.inr (.inl (hheard rfl)))
      | true =>
        cases huri : (ShareTicket.fromFormat (relayOnlyAddr addr) info.hash info.format
            (some (Utf8.fromUtf8Lossy info.name))).toUri env with
        | error e =>
          change wpc _ _ (Program.ofExcept _ >>= _) _ _
          rw [huri]
          exact h₁.discloses hlisted hts
        | ok uri =>
          change wpc _ _ (Program.ofExcept _ >>= _) _ _
          rw [huri]
          change wpc _ _ (fileCountAndSize info.hash info.format >>= _) _ _
          apply wpc_bind
          have hsizes : (fileCountAndSize info.hash info.format).Uses Quiet :=
            Node.uses_fileCountAndSize_status (fun _ _ ↦ rfl) (fun _ _ ↦ rfl) _ _
          refine wpc_mono (wpc_quiet hsizes fun log₂ hsame hlog ↦ (h₁.quiet hsame hlog).discloses hlisted hts)
            fun sizes log₂ _ hkept ↦ ?_
          have h₂ := h₁.quiet hkept.1 hkept.2
          have hputs := puts_writeEntry info.hash info.format (Utf8.fromUtf8Lossy info.name) uri sizes.1 sizes.2
          obtain ⟨e, he⟩ : ∃ e : Listed, e = ⟨info, uri, sizes.1, sizes.2⟩ := ⟨_, rfl⟩
          have hframe : frame info.hash info.format (Utf8.fromUtf8Lossy info.name) uri sizes.1 sizes.2 = e.frame := by
            rw [he]
            rfl
          have hinfo : e.info = info := by rw [he]
          have hpermitted : o.permitted e.info.hash := hinfo ▸ hheard rfl
          have hticketed : e.Ticketed env addr := by
            rw [he]
            exact huri
          have hshared : Shared env addr o (ts ++ [info]) (es ++ [e]) := hinfo ▸ h₂.shared.concat hpermitted hticketed
          rw [hframe] at hputs
          have hentry := wpc_recording (hputs (Hears o peer addr) (fun log ↦ Discloses env addr o (sent log)) log₂
            fun log₃ hprefix ↦ ?_)
          · refine wpc_mono hentry fun _ log₃ _ h₃ ↦ ⟨info, es ++ [e], rfl, ?_⟩
            exact hinfo ▸ h₂.entry hpermitted hticketed h₃.2 h₃.1.1 h₃.1.2
          · refine .inr ⟨h₂.granted, tags, es ++ [e], hlisted, hshared.mono (hitem info rfl), ?_⟩
            rw [listing_concat h₂.whole, ← List.cons_append, ← h₂.sent]
            exact hprefix

theorem wpc_deny (h : sent log = []) :
    (do
      net (.writeAll [denied])
      net .finish : Action Unit).wpc (Pool.heard (Hears o peer addr)) (fun log ↦ Discloses env addr o (sent log))
      (fun _ ↦ Served env peer addr o) log := by
  have hfinish : (net .finish).Uses Quiet := uses_asking (.net .finish) id fun a ↦ by cases a <;> rfl
  apply wpc_bind
  refine wpc_mono (puts_write [denied] _ _ log fun log' hprefix ↦ .inl ?_) fun _ log₁ _ h₁ ↦ ?_
  · rwa [h] at hprefix
  · rw [h] at h₁
    have hkept : ∀ log₂, sent log₂ = sent log₁ → sent log₂ = [denied] := fun log₂ hsame ↦ hsame.trans h₁.1
    refine wpc_mono (wpc_quiet hfinish fun log₂ hsame _ ↦ .inl ?_) fun _ log₂ _ h₂ ↦ .inl (hkept log₂ h₂.1)
    rw [hkept log₂ hsame]

theorem wpc_handleBlobList (hlisted : ∃ tags, o.listed tags) (h : sent log = []) :
    (handleBlobList env peer).wpc (Pool.heard (Hears o peer addr)) (fun log ↦ Discloses env addr o (sent log))
      (fun _ ↦ Served env peer addr o) log := by
  obtain ⟨tags₀, hlisted₀⟩ := hlisted
  have hnone : ∀ {log' : Trace Call.Ans}, sent log' = [] → Discloses env addr o (sent log') := by
    intro log' hsent
    rw [hsent]
    exact .inl List.nil_prefix
  refine ⟨hnone h, fun a log₁ ha ↦ ?_⟩
  obtain ⟨hheard, rfl⟩ := ha
  have hsent : sent (log ++ [⟨.grants (.get .blobList peer), a⟩]) = [] := by
    rw [sent_concat, h]
    rfl
  cases a with
  | error e => exact hnone hsent
  | ok held =>
    cases held with
    | false => exact wpc_deny hsent
    | true =>
      have hgranted : o.granted := hheard rfl
      have hstart : ∀ {log' : Trace Call.Ans}, sent log' = [allowed] → Streamed env peer addr o [] [] log' :=
        fun hsame ↦ ⟨hgranted, ⟨List.Sublist.refl _, by simp, by simp⟩, hsame, rfl, by simp⟩
      have hallowed : ∀ log', sent log' <+: [allowed] → Discloses env addr o (sent log') :=
        fun log' hprefix ↦ .inr ⟨hgranted, tags₀, [], hlisted₀, ⟨List.nil_sublist _, by simp, by simp⟩, hprefix⟩
      change wpc _ _ (net (.writeAll [allowed]) >>= _) _ _
      apply wpc_bind
      refine wpc_mono (puts_write [allowed] _ _ _ fun log' hprefix ↦ hallowed log' ?_) fun _ log₁ _ h₁ ↦ ?_
      · rwa [hsent] at hprefix
      · rw [hsent, List.nil_append] at h₁
        refine ⟨(hstart h₁.1).discloses hlisted₀ List.nil_prefix, fun address log₂ h₂ ↦ ?_⟩
        obtain ⟨rfl, rfl⟩ := h₂
        have h₂ : sent (log₁ ++ [⟨.endpointAddr, address⟩]) = [allowed] := by
          rw [sent_concat, h₁.1]
          rfl
        refine ⟨(hstart h₂).discloses hlisted₀ List.nil_prefix, fun answer log₃ h₃ ↦ ?_⟩
        obtain ⟨hanswer, rfl⟩ := h₃
        have h₃ : sent (log₁ ++ [⟨.endpointAddr, address⟩] ++ [⟨.store .listTags, answer⟩]) = [allowed] := by
          rw [sent_concat, h₂]
          rfl
        cases answer with
        | error e => exact (hstart h₃).discloses hlisted₀ List.nil_prefix
        | ok items =>
          obtain ⟨tags, hlisted, hitems⟩ := hanswer
          change wpc _ _ (items.forM (streamTag env peer (relayOnlyAddr address)) >>= _) _ _
          apply wpc_bind
          have hloop := wpc_forM_done (R := Pool.heard (Hears o peer address))
            (I := fun log ↦ Discloses env address o (sent log))
            (J := fun done log ↦ ∃ ts es, done = ts.map .ok ∧ ts <+: tags ∧ Streamed env peer address o ts es log)
            (f := streamTag env peer (relayOnlyAddr address))
            (fun done log hdone ↦ ?_) (fun done item rest (hxs : items = _) log hdone ↦ ?_)
            ⟨[], [], rfl, List.nil_prefix, hstart h₃⟩
          · refine wpc_mono hloop fun _ log₄ _ h₄ ↦ ?_
            obtain ⟨ts, es, rfl, hts, hstreamed⟩ := h₄
            obtain rfl := hitems.eq_of_map
            have hfinish : (net .finish).Uses Quiet := uses_asking (.net .finish) id fun a ↦ by cases a <;> rfl
            refine wpc_mono (wpc_quiet hfinish fun log₅ hsame hlog ↦ (hstreamed.quiet hsame hlog).discloses hlisted hts)
              fun _ log₅ _ h₅ ↦ ?_
            exact .inr ⟨tags, es, hlisted, hstreamed.quiet h₅.1 h₅.2⟩
          · obtain ⟨ts, es, -, hts, hstreamed⟩ := hdone
            exact hstreamed.discloses hlisted hts
          · obtain ⟨ts, es, rfl, hts, hstreamed⟩ := hdone
            have hnext : ∀ info, item = .ok info → ts ++ [info] <+: tags := by
              intro info hinfo
              have hitems' : items = (ts ++ [info]).map .ok ++ rest := by
                rw [hxs, hinfo, List.map_append, List.append_assoc]
                rfl
              exact hitems.prefix_of_append hitems'
            refine wpc_mono (wpc_streamTag hlisted hts hnext hstreamed) fun _ log' _ h' ↦ ?_
            obtain ⟨info, es', rfl, hstreamed'⟩ := h'
            exact ⟨ts ++ [info], es', by simp, hnext info rfl, hstreamed'⟩

theorem wpc_handle (accepted : Except Error RecvStream) (hlisted : ∃ tags, o.listed tags) (h : sent log = []) :
    (Catalog.handle env peer accepted).wpc (Pool.heard (Hears o peer addr)) (fun log ↦ Discloses env addr o (sent log))
      (fun _ ↦ Served env peer addr o) log := by
  have hnone : Discloses env addr o (sent log) := by
    rw [h]
    exact .inl List.nil_prefix
  cases accepted with
  | error e => exact hnone
  | ok stream =>
    change wpc _ _ (context "reading command byte" (Program.ofExcept (stream.readExact 1)) >>= _) _ _
    cases hread : stream.readExact 1 with
    | error e => exact hnone
    | ok r =>
      change wpc _ _ (if r.1 = [blobList] then _ else _) _ _
      split
      · exact wpc_handleBlobList hlisted h
      · exact wpc_deny h

theorem hears_answers {c : Call} {a : c.Ans} {s s' : NodeState} (h : Answers c s a s')
    (hgranted : s.localStore.hasGrant .blobList peer = true → o.granted) (haddr : s.endpoint = addr)
    (hlisted : o.listed s.store.listTags)
    (hpermitted : ∀ res, s.registry.hasPermission s.clock peer res .read = true → o.permitted res)
    (hwithheld : ∀ res, s.registry.hasPermission s.clock peer res .read = false → o.withheld res) :
    Hears o peer addr log c a := by
  cases c with
  | grants c =>
    cases c with
    | get privilege other =>
      cases privilege with
      | blobList =>
        cases h with
        | exec =>
          cases hheld : s.localStore.hasGrant .blobList other with
          | false =>
            simp only [exec, GrantsCall.exec, hheld]
            trivial
          | true =>
            simp only [exec, GrantsCall.exec, hheld]
            intro hsame
            subst hsame
            exact hgranted hheld
        | refused s e hr =>
          obtain rfl := Option.some.inj hr
          trivial
    | _ => trivial
  | endpointAddr =>
    cases h with
    | exec => exact haddr
    | refused s e hr => cases hr
  | store c =>
    cases c with
    | listTags =>
      cases h with
      | exec => exact ⟨_, hlisted, .inl rfl⟩
      | refused s e hr =>
        obtain rfl := Option.some.inj hr
        trivial
      | brokenListing s n e => exact ⟨_, hlisted, .inr ⟨n, e, rfl⟩⟩
    | _ => trivial
  | registry c =>
    cases c with
    | hasPermission other res perm =>
      cases perm with
      | read =>
        rcases answers_registry h with ⟨rfl, -⟩ | ⟨⟨e, rfl⟩, -⟩
        · cases hallowed : s.registry.hasPermission s.clock other res .read with
          | false =>
            simp only [RegistryCall.exec, hallowed]
            intro hsame
            subst hsame
            exact hwithheld res hallowed
          | true =>
            simp only [RegistryCall.exec, hallowed]
            intro hsame
            subst hsame
            exact hpermitted res hallowed
        · trivial
      | _ => trivial
    | _ => trivial
  | _ => trivial

end Handler

end Catalog

section Runs

variable {ι : Type} [DecidableEq ι] {env : Env} {defaultReceiveDir : Option Path} {s : NodeState} {jobs : ι → Job}
  {around : NodeState → NodeState → Prop} {x y : Jobs ι} {i : ι} {peer : EndpointId} {accepted : Except Error RecvStream}

def Jobs.Moment (around : NodeState → NodeState → Prop) (y x : Jobs ι) (P : NodeState → Prop) : Prop :=
  ∃ z : Jobs ι, Pool.Reaches Answers around (fun _ _ _ ↦ True) y z ∧
    Pool.Reaches Answers around (fun _ _ _ ↦ True) z x ∧ P z.state

/-- What the tables say to a connection of `peer` at the moments of a run. -/
def Jobs.offer (around : NodeState → NodeState → Prop) (y x : Jobs ι) (peer : EndpointId) : Catalog.Offer where
  granted := Jobs.Moment around y x fun s ↦ s.localStore.hasGrant .blobList peer = true
  listed tags := Jobs.Moment around y x fun s ↦ s.store.listTags = tags
  permitted res := Jobs.Moment around y x fun s ↦ s.registry.hasPermission s.clock peer res .read = true
  withheld res := Jobs.Moment around y x fun s ↦ s.registry.hasPermission s.clock peer res .read = false

theorem endpoint_reached (haround : ∀ s s', around s s' → SameTables s s')
    (h : Pool.Reaches Answers around (fun _ _ _ ↦ True) y x) : x.state.endpoint = y.state.endpoint :=
  h.invariant (I := fun x ↦ x.state.endpoint = y.state.endpoint) rfl
    (fun _ _ _ _ _ _ hy _ _ ha ↦ (endpoint_answers ha).trans hy) fun _ _ hy hs ↦ (haround _ _ hs).endpoint.trans hy

def Jobs.Begins (env : Env) (y : Jobs ι) (i : ι) (peer : EndpointId) (accepted : Except Error RecvStream) : Prop :=
  y.threads i = ⟨(Catalog.handle env peer accepted).attempt, []⟩

omit [DecidableEq ι] in
theorem begins_waiting (hjob : jobs i = .catalog peer accepted) :
    (Jobs.waiting env defaultReceiveDir s jobs).Begins env i peer accepted := by
  change Thread.mk ((jobs i).program env defaultReceiveDir) [] = _
  rw [hjob]
  rfl

theorem wpc_connection (haround : ∀ s s', around s s' → SameTables s s')
    (h : Pool.Reaches Answers around (fun _ _ _ ↦ True) y x) (hbegins : y.Begins env i peer accepted) :
    (x.threads i).prog.wpc (Pool.heard (Catalog.Hears (Jobs.offer around y x peer) peer y.state.endpoint))
      (fun log ↦ Catalog.Discloses env y.state.endpoint (Jobs.offer around y x peer) (Catalog.sent log))
      (fun r log ↦ r = .ok () → Catalog.Served env peer y.state.endpoint (Jobs.offer around y x peer) log)
      (x.threads i).log := by
  have hlisted : ∃ tags, (Jobs.offer around y x peer).listed tags := ⟨_, x, h, .refl, rfl⟩
  have hstart : (y.threads i).prog.wpc
      (Pool.heard (Catalog.Hears (Jobs.offer around y x peer) peer y.state.endpoint))
      (fun log ↦ Catalog.Discloses env y.state.endpoint (Jobs.offer around y x peer) (Catalog.sent log))
      (fun r log ↦ r = .ok () → Catalog.Served env peer y.state.endpoint (Jobs.offer around y x peer) log)
      (y.threads i).log := by
    rw [hbegins]
    refine wpc_attempt (wpc_mono (Catalog.wpc_handle accepted hlisted rfl) fun _ log _ hserved _ ↦ hserved)
      fun e log _ he ↦ ?_
    cases he
  refine h.thread_until .refl (fun {z i c k a t} hz hzx _ ha _ ↦ ?_) hstart
  exact Catalog.hears_answers ha (fun hheld ↦ ⟨z, hz, hzx, hheld⟩) (endpoint_reached haround hz) ⟨z, hz, hzx, rfl⟩
    (fun res hallowed ↦ ⟨z, hz, hzx, hallowed⟩) fun res hrefused ↦ ⟨z, hz, hzx, hrefused⟩

/-- Whatever the daemon works on beside it, and whatever goes wrong: what a catalog
connection has sent is a refusal, or the peer has held the grant at some moment since it began and
it is the beginning of what is shared of the tags of some moment, all of which the peer may have
read at some moment, with tickets that name no address of the node but its relays. -/
theorem catalog_disclosure (h : Pool.Reaches Answers Elsewhere (fun _ _ _ ↦ True) y x)
    (hbegins : y.Begins env i peer accepted) :
    Catalog.Discloses env y.state.endpoint (Jobs.offer Elsewhere y x peer) (Catalog.sent (x.threads i).log) := by
  have hconnection := wpc_invariant (wpc_connection (fun _ _ hs ↦ hs) h hbegins)
  exact hconnection

/-- A peer that holds no grant at first and is granted nothing by a request is told nothing
but that it is refused. -/
theorem catalog_refused (h : Pool.Reaches Answers Elsewhere (fun _ _ _ ↦ True)
    (Jobs.waiting env defaultReceiveDir s jobs) x) (hjob : jobs i = .catalog peer accepted)
    (hheld : s.localStore.hasGrant .blobList peer = false)
    (hnone : ∀ j, ¬ (jobs j).Asks fun op ↦ op.Grants env .blobList peer) :
    Catalog.sent (x.threads i).log <+: [Catalog.denied] := by
  have hdiscloses := wpc_invariant (wpc_connection (fun _ _ hs ↦ hs) h (begins_waiting hjob))
  rcases hdiscloses with hrefused | ⟨⟨y, hy, -, hgranted⟩, -⟩
  · exact hrefused
  · have hcell : y.state.cell (.grant .blobList peer) = true := hgranted
    have haccount := accounted hy (.grant .blobList peer)
    rw [hcell] at haccount
    rcases haccount with hfirst | ⟨j, hasks⟩
    · exact absurd (hfirst.trans hheld) Bool.noConfusion
    · exact absurd hasks (hnone j)

end Runs

section Served

def serveAndGrant : Bool → Job
  | false => .catalog (.fromByte 1) (.ok ⟨[Catalog.blobList], none⟩)
  | true => .request .nil (.grant (toString (EndpointId.fromByte 1)) "blob-list")

def withOpenBlob : NodeState :=
  { emptyNode with
    registry := Registry.empty.setAssociations theHash ((∅ : Associations).insert openRingName [.read])
      (Registry.admitted_insert (Registry.admitted_empty _) Registry.empty.open_mem (carries_read _))
    store := BlobStore.empty.setTag (Utf8.toBytes "a") ⟨theHash, .raw⟩ }

/-- The granting request has run, and the listing is up to the name of its entry. -/
def servedAndGranted : Jobs Bool :=
  Pool.schedule exec (List.replicate 4 true ++ List.replicate 10 false)
    (Jobs.waiting (.plain []) none withOpenBlob serveAndGrant)

theorem reaches_servedAndGranted : Pool.Reaches Answers Elsewhere (fun _ _ _ ↦ True)
    (Jobs.waiting (.plain []) none withOpenBlob serveAndGrant) servedAndGranted := Jobs.reaches_schedule _ _

theorem catalog_disclosure_servedAndGranted : 1 < (Catalog.sent (servedAndGranted.threads false).log).length ∧
    Catalog.Discloses (.plain []) withOpenBlob.endpoint
      (Jobs.offer Elsewhere (Jobs.waiting (.plain []) none withOpenBlob serveAndGrant) servedAndGranted (.fromByte 1))
      (Catalog.sent (servedAndGranted.threads false).log) :=
  ⟨by decide +kernel, catalog_disclosure reaches_servedAndGranted (begins_waiting rfl)⟩

def serveStranger : Bool → Job
  | false => .catalog (.fromByte 2) (.ok ⟨[Catalog.blobList], none⟩)
  | true => .request .nil (.grant (toString (EndpointId.fromByte 1)) "blob-list")

def servedStranger : Jobs Bool :=
  Pool.schedule exec (List.replicate 4 true ++ List.replicate 16 false)
    (Jobs.waiting (.plain []) none withOpenBlob serveStranger)

theorem catalog_refused_servedStranger :
    Catalog.sent (servedStranger.threads false).log = [Catalog.denied] ∧
      Catalog.sent (servedStranger.threads false).log <+: [Catalog.denied] := by
  have hreached : Pool.Reaches Answers Elsewhere (fun _ _ _ ↦ True)
      (Jobs.waiting (.plain []) none withOpenBlob serveStranger) servedStranger := Jobs.reaches_schedule _ _
  refine ⟨by decide +kernel, catalog_refused hreached rfl (by decide +kernel) fun j hj ↦ ?_⟩
  cases j with
  | false => exact hj
  | true =>
    obtain ⟨p, q, hop, hparse, -⟩ := hj
    cases hop
    have hother : parsePeerId (.plain []) (toString (EndpointId.fromByte 1)) ≠ .ok (.fromByte 2) := by decide +kernel
    exact hother hparse

end Served

end Ringdrop
