import Ringdrop.Core.Catalog
import Ringdrop.Library.Output

namespace Ringdrop.Catalog

open Library Program

def sentBytes : (c : Call) → c.Ans → Bytes
  | .net (.writeAll bs), .ok _ => bs
  | _, _ => []

/-- The answers to a handler that serves `peer` when nothing goes wrong, except that
the registry may fail to tell about permissions the peer does not have. -/
inductive Serving (peer : EndpointId) : (c : Call) → NodeState → c.Ans → NodeState → Prop
  | exec (c : Call) (s : NodeState) : Serving peer c s (exec c s).1 (exec c s).2
  | failed (s : NodeState) (hash : Hash) (e : Error) :
      s.registry.hasPermission s.clock peer hash .read = false →
      Serving peer (.registry (.hasPermission peer hash .read)) s (.error e) s

def completeSize (store : BlobStore) (hash : Hash) : Option UInt64 :=
  match store.status hash with
  | .complete size => some size
  | _ => none

def sumOf (store : BlobStore) : List Hash → UInt64 → Option UInt64
  | [], sum => some sum
  | hash :: rest, sum => (completeSize store hash).bind (fun size ↦ sumOf store rest (sum + size))

def countAndSize (store : BlobStore) (hash : Hash) : BlobFormat → Option ℕ × Option UInt64
  | .raw => (none, completeSize store hash)
  | .hashSeq => match store.loadCollection hash with
    | .ok collection => (some collection.length, sumOf store (collection.map Prod.snd) 0)
    | .error _ => (none, none)

def lengthPrefixed (data : Bytes) : Bytes × Bool :=
  if data.length < 2 ^ 16 then (toLeBytes 2 data.length ++ data, true) else ([], false)

def frame (hash : Hash) (format : BlobFormat) (name ticketUri : String) (fileCount : Option ℕ)
    (totalSize : Option UInt64) : Bytes × Bool :=
  loopOutput id
    [(hash.asBytes, true), ([formatByte format], true), lengthPrefixed (Utf8.toBytes name),
      lengthPrefixed (Utf8.toBytes ticketUri), (toLeBytes 8 (totalSize.getD (2 ^ 64 - 1)).toNat, true),
      (toLeBytes 4 ((fileCount.map (· % 2 ^ 32)).getD (2 ^ 32 - 1)), true)]

def tagFrame (env : Env) (addr : EndpointAddr) (store : BlobStore) (info : TagInfo) : Bytes × Bool :=
  match (ShareTicket.fromFormat addr info.hash info.format
    (some (Utf8.fromUtf8Lossy info.name))).toUri env with
  | .error _ => ([], false)
  | .ok uri =>
    frame info.hash info.format (Utf8.fromUtf8Lossy info.name) uri
      (countAndSize store info.hash info.format).1 (countAndSize store info.hash info.format).2

/-- The tags whose blobs `peer` may read, in the order of the listing. -/
def permittedTags (s : NodeState) (peer : EndpointId) : List TagInfo :=
  s.store.listTags.filter (fun t ↦ s.registry.hasPermission s.clock peer t.hash .read)

def response (env : Env) (s : NodeState) (peer : EndpointId) : Bytes × Bool :=
  if s.localStore.hasGrant .blobList peer then
    let frames := loopOutput (tagFrame env (relayOnlyAddr s.endpoint) s.store) (permittedTags s peer)
    (allowed :: frames.1, frames.2)
  else ([denied], true)

section Store

/-- The store answers as it should, and nothing is put out meanwhile. -/
structure ReadsStore {ω : Type} (R : (c : Call) → NodeState → c.Ans → NodeState → Prop)
    (out : (c : Call) → c.Ans → List ω) : Prop where
  answers : ∀ c s a s', R (.store c) s a s' → a = (c.exec s).1 ∧ s' = (c.exec s).2
  quiet : ∀ c a, out (.store c) a = []

variable {ω : Type} {R : (c : Call) → NodeState → c.Ans → NodeState → Prop} {out : (c : Call) → c.Ans → List ω}
  {s : NodeState}

theorem emits_store (h : ReadsStore R out) {c : StoreCall} (hs : (c.exec s).2 = s) :
    Emits R out s (store c) [] (c.exec s).1.toOption := by
  refine emits_call fun a s' ha ↦ ?_
  obtain ⟨rfl, rfl⟩ := h.answers c s a s' ha
  refine ⟨hs, [], by rw [h.quiet]; rfl, ?_⟩
  change Emits _ _ _ (ofExcept (c.exec s).1) _ _
  cases (c.exec s).1 with
  | ok v => exact emits_ret v
  | error e => exact emits_fail e

theorem emits_statusSize (h : ReadsStore R out) (hash : Hash) :
    Emits R out s (statusSize hash) [] (some (completeSize s.store hash)) := by
  refine (emits_store h (c := .status hash) rfl).attempt (d := []) ?_ ?_
  · intro status hstatus
    obtain rfl : s.store.status hash = status := Option.some.inj hstatus
    unfold completeSize
    cases s.store.status hash <;> exact emits_ret _
  · rintro e ⟨⟩

theorem emits_sumSizes (h : ReadsStore R out) (hashes : List Hash) (sum : UInt64) :
    Emits R out s (sumSizes hashes sum) [] (some (sumOf s.store hashes sum)) := by
  induction hashes generalizing sum with
  | nil => exact emits_ret _
  | cons hash rest ih =>
    unfold sumSizes sumOf
    refine (emits_statusSize h hash).bind (d := []) ?_
    cases completeSize s.store hash with
    | some size => exact ih _
    | none => exact emits_ret _

theorem emits_fileCountAndSize (h : ReadsStore R out) (hash : Hash) (format : BlobFormat) :
    Emits R out s (fileCountAndSize hash format) []
      (some (countAndSize s.store hash format)) := by
  cases format with
  | raw => exact (emits_statusSize h hash).bind (d := []) (emits_ret _)
  | hashSeq =>
    unfold countAndSize fileCountAndSize
    refine (emits_store h (c := .loadCollection hash) rfl).attempt (d := []) ?_ ?_
    · intro collection hload
      have hc : s.store.loadCollection hash = .ok collection := by
        change (s.store.loadCollection hash).toOption = _ at hload
        cases hs : s.store.loadCollection hash with
        | error e => simp [hs, Except.toOption] at hload
        | ok c => simpa [hs, Except.toOption] using hload
      rw [hc]
      exact (emits_sumSizes h _ 0).bind (d := []) (emits_ret _)
    · intro e hload
      have hc : ∃ e, s.store.loadCollection hash = .error e := by
        change (s.store.loadCollection hash).toOption = _ at hload
        cases hs : s.store.loadCollection hash with
        | error e => exact ⟨e, rfl⟩
        | ok c => simp [hs, Except.toOption] at hload
      obtain ⟨e', hc⟩ := hc
      rw [hc]
      exact emits_ret _

end Store

section Handler

variable {peer : EndpointId} {s : NodeState}

theorem readsStore_serving : ReadsStore (Serving peer) sentBytes where
  answers := by
    intro c s a s' h
    cases h with
    | exec => exact ⟨rfl, rfl⟩
  quiet _ _ := rfl

theorem emits_write (bs : Bytes) :
    Emits (Serving peer) sentBytes s (net (.writeAll bs)) bs (some ()) := by
  refine emits_call fun a s' h ↦ ?_
  cases h with
  | exec => exact ⟨rfl, [], (List.append_nil bs).symm, emits_ret ()⟩

theorem emits_finish : Emits (Serving peer) sentBytes s (net .finish) [] (some ()) := by
  refine emits_call fun a s' h ↦ ?_
  cases h with
  | exec => exact ⟨rfl, [], rfl, emits_ret ()⟩

theorem emits_writeLengthPrefixed (data : Bytes) :
    Emits (Serving peer) sentBytes s (writeLengthPrefixed data) (lengthPrefixed data).1
      (unitIf (lengthPrefixed data).2) := by
  unfold writeLengthPrefixed lengthPrefixed
  split
  · exact (emits_write _).bind (emits_write _)
  · exact emits_fail _

theorem emits_then {p q : Action Unit} {b : Bytes × Bool} {rest : List (Bytes × Bool)} {m : String}
    (hp : Emits (Serving peer) sentBytes s p b.1 (unitIf b.2))
    (hq : Emits (Serving peer) sentBytes s q (loopOutput id rest).1 (unitIf (loopOutput id rest).2)) :
    Emits (Serving peer) sentBytes s (do context m p; q) (loopOutput id (b :: rest)).1
      (unitIf (loopOutput id (b :: rest)).2) := by
  unfold loopOutput
  cases hb : b.2 with
  | true =>
    rw [hb] at hp
    simp only [id, hb, if_true]
    exact hp.mapError.bind hq
  | false =>
    rw [hb] at hp
    simp only [id, hb, Bool.false_eq_true, if_false]
    exact hp.mapError.bind_none

theorem emits_writeEntry (hash : Hash) (format : BlobFormat) (name ticketUri : String)
    (fileCount : Option ℕ) (totalSize : Option UInt64) :
    Emits (Serving peer) sentBytes s (writeEntry hash format name ticketUri fileCount totalSize)
      (frame hash format name ticketUri fileCount totalSize).1
      (unitIf (frame hash format name ticketUri fileCount totalSize).2) := by
  unfold writeEntry frame
  refine emits_then (b := (_, true)) (emits_write _) ?_
  refine emits_then (b := (_, true)) (emits_write _) ?_
  refine emits_then (emits_writeLengthPrefixed _) ?_
  refine emits_then (emits_writeLengthPrefixed _) ?_
  refine emits_then (b := (_, true)) (emits_write _) ?_
  have hlast : Emits (Serving peer) sentBytes s (context "writing file_count"
      (net (.writeAll (toLeBytes 4 ((fileCount.map (· % 2 ^ 32)).getD (2 ^ 32 - 1)))))) _ _ :=
    (emits_write _).mapError
  simpa [loopOutput, unitIf, context] using hlast

theorem serving_hasPermission {hash : Hash} {a : Except Error Bool} {s' : NodeState}
    (h : Serving peer (.registry (.hasPermission peer hash .read)) s a s') :
    s' = s ∧ (a = .ok (s.registry.hasPermission s.clock peer hash .read) ∨
      s.registry.hasPermission s.clock peer hash .read = false ∧ ∃ e, a = .error e) := by
  cases h with
  | exec => exact ⟨rfl, .inl rfl⟩
  | failed s hash e hp => exact ⟨rfl, .inr ⟨hp, e, rfl⟩⟩

theorem emits_entry (env : Env) (addr : EndpointAddr) (info : TagInfo) :
    Emits (Serving peer) sentBytes s (do
      let ticketUri ← Program.ofExcept ((ShareTicket.fromFormat addr info.hash info.format
        (some (Utf8.fromUtf8Lossy info.name))).toUri env)
      let (fileCount, totalSize) ← fileCountAndSize info.hash info.format
      writeEntry info.hash info.format (Utf8.fromUtf8Lossy info.name) ticketUri fileCount totalSize)
      (tagFrame env addr s.store info).1 (unitIf (tagFrame env addr s.store info).2) := by
  unfold tagFrame
  cases (ShareTicket.fromFormat addr info.hash info.format
    (some (Utf8.fromUtf8Lossy info.name))).toUri env with
  | error e => exact emits_fail e
  | ok uri =>
    exact (emits_fileCountAndSize readsStore_serving info.hash info.format).bind
      (d := (frame info.hash info.format (Utf8.fromUtf8Lossy info.name) uri _ _).1)
      (emits_writeEntry _ _ _ _ _ _)

theorem emits_streamTag (env : Env) (info : TagInfo) {frames : Bytes × Bool}
    (hf : frames = if s.registry.hasPermission s.clock peer info.hash .read then
      tagFrame env (relayOnlyAddr s.endpoint) s.store info else ([], true)) :
    Emits (Serving peer) sentBytes s (streamTag env peer (relayOnlyAddr s.endpoint) (.ok info))
      frames.1 (unitIf frames.2) := by
  refine emits_call fun a s' h ↦ ?_
  obtain ⟨rfl, h⟩ := serving_hasPermission h
  refine ⟨rfl, frames.1, by cases a <;> rfl, ?_⟩
  -- a refusal and a failed lookup both end the turn of this tag
  rcases h with rfl | ⟨hp, e, rfl⟩
  · cases hp : s'.registry.hasPermission s'.clock peer info.hash .read with
    | false =>
      rw [hp] at hf
      subst hf
      exact emits_ret ()
    | true =>
      rw [hp] at hf
      subst hf
      exact emits_entry env (relayOnlyAddr s'.endpoint) info
  · rw [hp] at hf
    subst hf
    exact emits_ret ()

/-- What a peer is sent is the response, however the lookups on other blobs end. -/
theorem emits_handleBlobList (env : Env) :
    Emits (Serving peer) sentBytes s (handleBlobList env peer) (response env s peer).1
      (unitIf (response env s peer).2) := by
  unfold response
  refine emits_call fun a s' h ↦ ?_
  obtain ⟨rfl, rfl⟩ : s' = s ∧ a = .ok (s.localStore.hasGrant .blobList peer) := by
    cases h with
    | exec => exact ⟨rfl, rfl⟩
  refine ⟨rfl, _, (List.nil_append _).symm, ?_⟩
  cases s'.localStore.hasGrant .blobList peer with
  | false => exact (emits_write [denied]).bind emits_finish
  | true =>
    have hitems : Emits (Serving peer) sentBytes s' (store .listTags) [] (some (s'.store.listTags.map .ok)) :=
      emits_store readsStore_serving rfl
    have haddr : Emits (Serving peer) sentBytes s' endpointAddr [] (some s'.endpoint) := by
      refine emits_call fun a s'' h ↦ ?_
      cases h with
      | exec => exact ⟨rfl, [], rfl, emits_ret _⟩
    have hloop : Emits (Serving peer) sentBytes s'
        ((s'.store.listTags.map .ok).forM (streamTag env peer (relayOnlyAddr s'.endpoint)))
        (loopOutput (tagFrame env (relayOnlyAddr s'.endpoint) s'.store) (permittedTags s' peer)).1
        (unitIf (loopOutput (tagFrame env (relayOnlyAddr s'.endpoint) s'.store)
          (permittedTags s' peer)).2) := by
      unfold permittedTags
      rw [← loopOutput_filter, List.forM_eq_forM, List.forM_map]
      exact Emits.forM fun info _ ↦ emits_streamTag env info rfl
    have hend : Emits (Serving peer) sentBytes s'
        (do (s'.store.listTags.map .ok).forM (streamTag env peer (relayOnlyAddr s'.endpoint)); net .finish)
        (loopOutput (tagFrame env (relayOnlyAddr s'.endpoint) s'.store) (permittedTags s' peer)).1
        (unitIf (loopOutput (tagFrame env (relayOnlyAddr s'.endpoint) s'.store)
          (permittedTags s' peer)).2) := by
      cases hall : (loopOutput (tagFrame env (relayOnlyAddr s'.endpoint) s'.store)
          (permittedTags s' peer)).2 with
      | true =>
        rw [hall] at hloop
        rw [← List.append_nil (loopOutput _ _).1]
        exact hloop.bind emits_finish
      | false =>
        rw [hall] at hloop
        exact hloop.bind_none
    exact (emits_write [allowed]).bind (haddr.bind (hitems.bind hend))

end Handler

end Ringdrop.Catalog
