import Ringdrop.Core.CatalogNoninterference
import Ringdrop.Core.CatalogRoundTrip

namespace Ringdrop.Catalog

open Library Program

def trueSum (store : BlobStore) : List Hash → Option ℕ
  | [] => some 0
  | hash :: rest => (completeSize store hash).bind (fun size ↦ (trueSum store rest).map (size.toNat + ·))

def trueCount (store : BlobStore) (hash : Hash) : BlobFormat → Option ℕ
  | .raw => none
  | .hashSeq => (store.loadCollection hash).toOption.map List.length

def trueSize (store : BlobStore) (hash : Hash) : BlobFormat → Option ℕ
  | .raw => (completeSize store hash).map UInt64.toNat
  | .hashSeq => (store.loadCollection hash).toOption.bind (fun collection ↦ trueSum store (collection.map Prod.snd))

/-- A number that is shown is the true one. -/
def Truthful (shown actual : Option ℕ) : Prop := ∀ n, shown = some n → actual = some n

/-- A number that the fields of an entry can carry, or that is taken for unknown. -/
def Carried (bound : ℕ) (actual : Option ℕ) : Prop := ∀ n, actual = some n → n < bound ∨ n % bound = bound - 1

theorem truthful_iff {bound : ℕ} {actual : Option ℕ} (hbound : 0 < bound) :
    Truthful (actual.bind fun n ↦ if n % bound = bound - 1 then none else some (n % bound)) actual ↔
      Carried bound actual := by
  cases actual with
  | none => simp [Truthful, Carried]
  | some n =>
    unfold Truthful Carried
    simp only [Option.bind_some, Option.some.injEq]
    constructor
    · rintro h _ rfl
      by_cases hlast : n % bound = bound - 1
      · exact .inr hlast
      · rw [if_neg hlast] at h
        have hmod : n = n % bound := h _ rfl
        have hlt := Nat.mod_lt n hbound
        exact .inl (by omega)
    · intro h m hm
      split_ifs at hm with hlast
      rcases h n rfl with hlt | hmod
      · rw [Nat.mod_eq_of_lt hlt] at hm
        exact Option.some.inj hm
      · exact absurd hmod hlast

/-- The loop over the members adds up modulo the width of its accumulator. -/
theorem sumOf_eq_trueSum (store : BlobStore) (hashes : List Hash) (sum : UInt64) :
    sumOf store hashes sum = (trueSum store hashes).map (fun n ↦ sum + UInt64.ofNat n) := by
  induction hashes generalizing sum with
  | nil => simp [sumOf, trueSum]
  | cons hash rest ih =>
    rw [sumOf, trueSum]
    cases completeSize store hash with
    | none => rfl
    | some size =>
      rw [Option.bind_some, Option.bind_some, ih, Option.map_map]
      congr 1
      funext n
      rw [Function.comp_apply, UInt64.ofNat_add, UInt64.ofNat_toNat, UInt64.add_assoc]

theorem countAndSize_count (store : BlobStore) (hash : Hash) (format : BlobFormat) :
    (countAndSize store hash format).1 = trueCount store hash format := by
  cases format with
  | raw => rfl
  | hashSeq =>
    unfold countAndSize trueCount
    cases store.loadCollection hash <;> rfl

theorem countAndSize_size (store : BlobStore) (hash : Hash) (format : BlobFormat) :
    (countAndSize store hash format).2 = (trueSize store hash format).map UInt64.ofNat := by
  cases format with
  | raw =>
    rw [countAndSize, trueSize, Option.map_map]
    cases completeSize store hash <;> simp
  | hashSeq =>
    unfold countAndSize trueSize
    cases store.loadCollection hash with
    | error e => rfl
    | ok collection =>
      rw [show (Except.ok collection : Except Error Collection).toOption = some collection from rfl,
        Option.bind_some]
      dsimp only
      rw [sumOf_eq_trueSum]
      simp

/-- What is read of an entry is truthful exactly when its numbers can be carried. -/
theorem numbers_truthful_iff (store : BlobStore) (hash : Hash) (format : BlobFormat) :
    (Truthful (readCount (countField (countAndSize store hash format).1)) (trueCount store hash format) ↔
      Carried (2 ^ 32) (trueCount store hash format)) ∧
    (Truthful ((readSize (sizeField (countAndSize store hash format).2)).map UInt64.toNat)
        (trueSize store hash format) ↔ Carried (2 ^ 64) (trueSize store hash format)) := by
  have hsize : (readSize (sizeField (countAndSize store hash format).2)).map UInt64.toNat =
      (trueSize store hash format).bind fun n ↦ if n % 2 ^ 64 = 2 ^ 64 - 1 then none else some (n % 2 ^ 64) := by
    rw [readSize_sizeField_eq, countAndSize_size, Option.map_bind, Option.bind_map]
    refine congrArg (trueSize store hash format).bind (funext fun n ↦ ?_)
    exact apply_ite (Option.map UInt64.toNat) _ none _
  rw [countAndSize_count, readCount_countField_eq, hsize]
  exact ⟨truthful_iff (by decide), truthful_iff (by decide)⟩

section Rows

variable {env : Env}

theorem tagFrame_eq_frame {addr : EndpointAddr} {store : BlobStore} {info : TagInfo}
    (h : (tagFrame env addr store info).2 = true) : ∃ uri,
      (ShareTicket.fromFormat addr info.hash info.format (some (Utf8.fromUtf8Lossy info.name))).toUri env = .ok uri ∧
        tagFrame env addr store info = frame info.hash info.format (Utf8.fromUtf8Lossy info.name) uri
          (countAndSize store info.hash info.format).1 (countAndSize store info.hash info.format).2 := by
  unfold tagFrame at h ⊢
  cases huri : (ShareTicket.fromFormat addr info.hash info.format
      (some (Utf8.fromUtf8Lossy info.name))).toUri env with
  | error e =>
    rw [huri] at h
    cases h
  | ok uri => exact ⟨uri, rfl, rfl⟩

/-- What a reader finds where a tag was written: a frame with the fields of the tag. -/
structure FrameOfTag (env : Env) (addr : EndpointAddr) (store : BlobStore) {env' : Env} (info : TagInfo)
    (f : WireFrame env') : Prop where
  hash : info.hash = f.hash
  format : info.format = f.format
  ticket : (ShareTicket.fromFormat addr info.hash info.format (some (Utf8.fromUtf8Lossy info.name))).toUri env =
    .ok f.ticketText
  size : sizeField (countAndSize store info.hash info.format).2 = f.size
  count : countField (countAndSize store info.hash info.format).1 = f.count

theorem frameOfTag_of_bytes {env' : Env} {addr : EndpointAddr} {store : BlobStore} {info : TagInfo}
    {f : WireFrame env'} {x y : Bytes} (hflag : (tagFrame env addr store info).2 = true)
    (h : (tagFrame env addr store info).1 ++ x = f.bytes ++ y) : FrameOfTag env addr store info f ∧ x = y := by
  obtain ⟨uri, huri, hframe⟩ := tagFrame_eq_frame hflag
  rw [hframe] at hflag h
  obtain ⟨hname, hticket⟩ := fits_of_frame hflag
  rw [frame_of_fits hname hticket] at h
  have hsize : (sizeField (countAndSize store info.hash info.format).2).length = f.size.length := by
    rw [sizeField, length_toLeBytes, f.size_length]
  have hcount : (countField (countAndSize store info.hash info.format).1).length = f.count.length := by
    rw [countField, length_toLeBytes, f.count_length]
  obtain ⟨⟨hhash, hformat, _, htext, hs, hc⟩, hrest⟩ :=
    eq_of_fields hname f.name_fits hticket f.ticket_fits hsize hcount h
  exact ⟨⟨hhash, hformat, htext ▸ huri, hs, hc⟩, hrest⟩

theorem framesOfTags_of_bytes {env' : Env} {addr : EndpointAddr} {store : BlobStore} {tags : List TagInfo}
    {frames : List (WireFrame env')} (hflags : ∀ t ∈ tags, (tagFrame env addr store t).2 = true)
    (h : tags.flatMap (fun t ↦ (tagFrame env addr store t).1) = frames.flatMap WireFrame.bytes) :
    List.Forall₂ (FrameOfTag env addr store) tags frames := by
  induction tags generalizing frames with
  | nil =>
    cases frames with
    | nil => exact .nil
    | cons f frames => simp [WireFrame.bytes] at h
  | cons t tags ih =>
    have hflag := hflags t (by simp)
    cases frames with
    | nil =>
      obtain ⟨uri, _, hframe⟩ := tagFrame_eq_frame hflag
      rw [hframe] at hflag
      obtain ⟨hname, hticket⟩ := fits_of_frame hflag
      simp [hframe, frame_of_fits hname hticket] at h
    | cons f frames =>
      rw [List.flatMap_cons, List.flatMap_cons] at h
      obtain ⟨hfields, hrest⟩ := frameOfTag_of_bytes hflag h
      exact .cons hfields (ih (fun t' ht ↦ hflags t' (by simp [ht])) hrest)

end Rows

section Listing

variable {env env' : Env} {peer : EndpointId} {s s' : NodeState} {log : Trace Call.Ans}

theorem tail_output (hgrant : s.localStore.hasGrant .blobList peer = true)
    (h : Runs (logged (Serving peer)) (handleBlobList env peer) (s, []) (.ok ()) (s', log)) :
    (∀ t ∈ permittedTags s peer, (tagFrame env (relayOnlyAddr s.endpoint) s.store t).2 = true) ∧
      (output sentBytes log).tail =
        (permittedTags s peer).flatMap (fun t ↦ (tagFrame env (relayOnlyAddr s.endpoint) s.store t).1) := by
  obtain ⟨hout, -, hended⟩ := (emits_handleBlobList env).output_eq h
  rw [response, if_pos hgrant] at hout hended
  have hall : (loopOutput (tagFrame env (relayOnlyAddr s.endpoint) s.store) (permittedTags s peer)).2 = true := by
    by_contra hnot
    simp [unitIf, hnot, Except.toOption] at hended
  have hflags := forall_of_loopOutput hall
  rw [hout, List.tail_cons, loopOutput_of_forall hflags]
  exact ⟨hflags, rfl⟩

theorem exists_decodeEntries (hgrant : s.localStore.hasGrant .blobList peer = true)
    (h : Runs (logged (Serving peer)) (handleBlobList env peer) (s, []) (.ok ()) (s', log))
    (hticket : ∀ t ∈ permittedTags s peer, ∀ uri, (ShareTicket.fromFormat (relayOnlyAddr s.endpoint) t.hash
      t.format (some (Utf8.fromUtf8Lossy t.name))).toUri env = .ok uri →
        ∃ ticket, ShareTicket.fromUri env' uri = .ok ticket) :
    ∃ entries, decodeEntries env' ⟨(output sentBytes log).tail, none⟩ = .ok entries := by
  obtain ⟨hflags, hout⟩ := tail_output hgrant h
  have hframe : ∀ t ∈ permittedTags s peer, ∃ e,
      FrameOf env' e (tagFrame env (relayOnlyAddr s.endpoint) s.store t).1 := by
    intro t ht
    have hflag := hflags t ht
    obtain ⟨uri, huri, htag⟩ := tagFrame_eq_frame hflag
    rw [htag] at hflag ⊢
    obtain ⟨ticket, hfrom⟩ := hticket t ht uri huri
    exact ⟨_, wireFrame _ _ hflag ticket hfrom, rfl, (bytes_wireFrame hflag hfrom).symm⟩
  obtain ⟨entries, -, hframed⟩ := exists_framed_take hframe
  rw [hout]
  exact ⟨entries, decodeEntries_eq_ok.mpr (hframed 0).2⟩

theorem decodeEntries_listing {entries : List CatalogEntry} (hgrant : s.localStore.hasGrant .blobList peer = true)
    (h : Runs (logged (Serving peer)) (handleBlobList env peer) (s, []) (.ok ()) (s', log))
    (hdecode : decodeEntries env' ⟨(output sentBytes log).tail, none⟩ = .ok entries) :
    ∃ frames : List (WireFrame env'), entries = frames.map WireFrame.entry ∧
      List.Forall₂ (FrameOfTag env (relayOnlyAddr s.endpoint) s.store) (permittedTags s peer) frames := by
  obtain ⟨hflags, hout⟩ := tail_output hgrant h
  rw [hout] at hdecode
  obtain ⟨frames, hbytes, hentries⟩ := framed_frameOf_iff.mp (decodeEntries_eq_ok.mp hdecode)
  exact ⟨frames, hentries, framesOfTags_of_bytes hflags hbytes⟩

/-- The numbers a client reads of a listing are true, or unknown, exactly where they
can be carried: of a larger count or size it is shown what is left of it modulo the
width of the field, unless that is the value for unknown. -/
theorem decodeEntries_truthful {entries : List CatalogEntry}
    (hgrant : s.localStore.hasGrant .blobList peer = true)
    (h : Runs (logged (Serving peer)) (handleBlobList env peer) (s, []) (.ok ()) (s', log))
    (hdecode : decodeEntries env' ⟨(output sentBytes log).tail, none⟩ = .ok entries) :
    List.Forall₂ (fun t e ↦ t.hash = e.hash ∧
      (Truthful e.fileCount (trueCount s.store t.hash t.format) ↔
        Carried (2 ^ 32) (trueCount s.store t.hash t.format)) ∧
      (Truthful (e.totalSize.map UInt64.toNat) (trueSize s.store t.hash t.format) ↔
        Carried (2 ^ 64) (trueSize s.store t.hash t.format))) (permittedTags s peer) entries := by
  obtain ⟨frames, rfl, hframes⟩ := decodeEntries_listing hgrant h hdecode
  refine List.forall₂_map_right_iff.mpr (hframes.imp ?_)
  intro t f hf
  have hnumbers := numbers_truthful_iff s.store t.hash t.format
  rw [hf.count, hf.size] at hnumbers
  exact ⟨hf.hash, hnumbers⟩

end Listing

def collectionNode (size : UInt64) : NodeState :=
  { servingNode (.fromByte 7) [] with
    store := ((((BlobStore.empty.addBlob ⟨.fromByte 1, 96, some [.fromByte 2, .fromByte 3, .fromByte 4], none⟩).addBlob
      ⟨.fromByte 2, 10, none, some ["a", "b"]⟩).addBlob ⟨.fromByte 3, size, none, none⟩).addBlob
        ⟨.fromByte 4, size, none, none⟩).setTag [104, 105] ⟨.fromByte 1, .hashSeq⟩ }

def hiWire (format : BlobFormat) : TicketWire := ⟨.new (.fromByte 9), .fromByte 1, format, some "hi"⟩

theorem exists_listing {s : NodeState} {format : BlobFormat}
    (hgrant : s.localStore.hasGrant .blobList (.fromByte 7) = true)
    (haddr : s.endpoint = .new (.fromByte 9))
    (htags : permittedTags s (.fromByte 7) = [⟨[104, 105], .fromByte 1, format⟩])
    (hok : (run execLogged (handleBlobList (.plain [hiWire format]) (.fromByte 7)) (s, [])).1 = .ok ()) :
    ∃ s' log entries, Runs (logged (Serving (.fromByte 7))) (handleBlobList (.plain [hiWire format]) (.fromByte 7))
      (s, []) (.ok ()) (s', log) ∧
        decodeEntries (.plain [hiWire format]) ⟨(output sentBytes log).tail, none⟩ = .ok entries := by
  have hrun : Runs (logged (Serving (.fromByte 7))) (handleBlobList (.plain [hiWire format]) (.fromByte 7))
    (s, []) _ _ := runs_execLogged .exec _ _
  generalize run execLogged _ (s, []) = x at hrun hok
  obtain ⟨r, s', log⟩ := x
  obtain rfl : r = .ok () := hok
  have hentries : ∃ entries, decodeEntries (.plain [hiWire format]) ⟨(output sentBytes log).tail, none⟩ =
      .ok entries := by
    refine exists_decodeEntries hgrant hrun ?_
    intro t ht uri huri
    rw [htags, List.mem_singleton] at ht
    subst ht
    rw [haddr] at huri
    exact ⟨_, fromUri_plain rfl huri⟩
  obtain ⟨entries, hdecode⟩ := hentries
  exact ⟨s', log, entries, hrun, hdecode⟩

theorem decodeEntries_truthful_collection : ∃ (log : Trace Call.Ans) (entries : List CatalogEntry),
    decodeEntries (.plain [hiWire .hashSeq]) ⟨(output sentBytes log).tail, none⟩ = .ok entries ∧
      List.Forall₂ (fun (t : TagInfo) (e : CatalogEntry) ↦ t.hash = e.hash ∧ Truthful e.fileCount (some 2) ∧
        Truthful (e.totalSize.map UInt64.toNat) (some 10)) [⟨[104, 105], .fromByte 1, .hashSeq⟩] entries := by
  have hgrant : (collectionNode 5).localStore.hasGrant .blobList (.fromByte 7) = true := by decide
  have htags : permittedTags (collectionNode 5) (.fromByte 7) = [⟨[104, 105], .fromByte 1, .hashSeq⟩] := by decide
  obtain ⟨s', log, entries, hrun, hdecode⟩ := exists_listing hgrant rfl htags (by decide +kernel)
  have hnumbers := decodeEntries_truthful hgrant hrun hdecode
  rw [htags] at hnumbers
  cases hnumbers with
  | cons hentry hrest =>
    cases hrest
    obtain ⟨hhash, hcount, hsize⟩ := hentry
    have hfiles : trueCount (collectionNode 5).store (.fromByte 1) .hashSeq = some 2 := by decide +kernel
    have hactual : trueSize (collectionNode 5).store (.fromByte 1) .hashSeq = some 10 := by decide +kernel
    rw [hfiles] at hcount
    rw [hactual] at hsize
    refine ⟨log, _, hdecode, .cons ⟨hhash, hcount.mpr ?_, hsize.mpr ?_⟩ .nil⟩
    · intro n hn
      obtain rfl := Option.some.inj hn
      exact .inl (by decide)
    · intro n hn
      obtain rfl := Option.some.inj hn
      exact .inl (by decide)

/-- Two members of 2 ^ 63 bytes each are listed as a collection of 0 bytes. -/
theorem decodeEntries_heavy : ¬ ∀ (env env' : Env) (peer : EndpointId) (s s' : NodeState) (log : Trace Call.Ans)
    (entries : List CatalogEntry), s.localStore.hasGrant .blobList peer = true →
      Runs (logged (Serving peer)) (handleBlobList env peer) (s, []) (.ok ()) (s', log) →
      decodeEntries env' ⟨(output sentBytes log).tail, none⟩ = .ok entries →
      List.Forall₂ (fun t e ↦ Truthful e.fileCount (trueCount s.store t.hash t.format) ∧
        Truthful (e.totalSize.map UInt64.toNat) (trueSize s.store t.hash t.format)) (permittedTags s peer) entries := by
  intro h
  have hgrant : (collectionNode (2 ^ 63)).localStore.hasGrant .blobList (.fromByte 7) = true := by decide
  have htags : permittedTags (collectionNode (2 ^ 63)) (.fromByte 7) = [⟨[104, 105], .fromByte 1, .hashSeq⟩] := by decide
  obtain ⟨s', log, entries, hrun, hdecode⟩ := exists_listing hgrant rfl htags (by decide +kernel)
  have hclaim := h _ _ _ _ _ _ _ hgrant hrun hdecode
  obtain ⟨frames, rfl, hframes⟩ := decodeEntries_listing hgrant hrun hdecode
  rw [htags] at hclaim hframes
  cases hframes with
  | cons hframe _ =>
    cases hclaim with
    | cons htruthful _ =>
      have hshown :
          readSize (sizeField (countAndSize (collectionNode (2 ^ 63)).store (.fromByte 1) .hashSeq).2) = some 0 := by
        decide +kernel
      have hactual : trueSize (collectionNode (2 ^ 63)).store (.fromByte 1) .hashSeq = some (2 ^ 64) := by decide +kernel
      rw [hframe.size] at hshown
      have hsum := htruthful.2 0 (by rw [WireFrame.entry, hshown]; rfl)
      rw [hactual] at hsum
      exact absurd (Option.some.inj hsum) (by decide)

end Ringdrop.Catalog
