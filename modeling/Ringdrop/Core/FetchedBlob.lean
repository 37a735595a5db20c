import Ringdrop.Core.DirectoryImport
import Ringdrop.Core.Resumption

namespace Ringdrop

open Library Program

def Call.Fetches : Call → Prop
  | store (.status _) => True
  | store (.importBao _ _) => True
  | net _ => True
  | recv => True
  | decode _ _ _ => True
  | progress _ => True
  | _ => False

namespace RingReceiver

/-- An answer that allows the request and announces an empty blob, so that nothing of
it is verified. -/
def Waived (env : Env) (stream : RecvStream) : Prop :=
  ∃ b rest, stream.bytes = b :: (toLeBytes 8 0 ++ rest) ∧ env.parseStatus b = .ok .allowed

section Rules

variable {σ : Type} {R : (c : Call) → σ → c.Ans → σ → Prop} {env : Env} {hash : Hash} {J A P : σ → Prop}
  {reported : Bool} {x : σ}

/-- How a fetch gets from `J` to `P`, by what its calls are answered; `A` holds while
the answer to the request is awaited. -/
structure FetchRules (R : (c : Call) → σ → c.Ans → σ → Prop) (env : Env) (hash : Hash) (J A P : σ → Prop) :
    Prop where
  invariant : ∀ {c x a y}, J x → R c x a y → c.Fetches → J y
  kept : ∀ {c x a y}, J x → P x → R c x a y → c.Fetches → P y
  complete : ∀ {x size y}, J x → R (.store (.status hash)) x (.ok (.complete size)) y → P y
  asked : ∀ {x y}, J x → R (.net (.sendRequest hash .read)) x (.ok ()) y → A y
  waiting : ∀ {c x a y}, J x → A x → R (.net c) x a y → c = .sendRanges [] ∨ c = .finish → A y
  waived : ∀ {x stream y}, J x → A x → R .recv x stream y → Waived env stream → P y
  imported : ∀ {x size stream r y}, J x → R (.decode hash size stream) x r y → r.decoded = .ok () →
    r.imported = .ok () → P y

namespace FetchRules

variable (h : FetchRules R env hash J A P)
include h

theorem wp_isComplete (hx : J x) :
    (isComplete hash).wp R (fun complete y ↦ J y ∧ (complete = true → P y)) (fun _ ↦ J) x := by
  rw [isComplete, wp_bind, wp_attempt, wp_store]
  intro a y hy
  have hJ := h.invariant hx hy trivial
  cases a with
  | error e => exact ⟨hJ, by rintro ⟨⟩⟩
  | ok status =>
    cases status with
    | complete size => exact ⟨hJ, fun _ ↦ h.complete hx hy⟩
    | notFound => exact ⟨hJ, by rintro ⟨⟩⟩
    | incomplete => exact ⟨hJ, by rintro ⟨⟩⟩

theorem wp_net {c : NetCall} {Q : Unit → σ → Prop} (hx : J x)
    (hQ : ∀ y, J y → R (.net c) x (.ok ()) y → Q () y) : (net c).wp R Q (fun _ ↦ J) x := by
  rw [Ringdrop.wp_net]
  intro a y hy
  have hJ := h.invariant hx hy trivial
  cases a with
  | error e => exact hJ
  | ok u => exact hQ y hJ hy

theorem wp_report (e : ProgressEvent) (hx : J x) :
    (report (if reported then some progress else none) e).wp R (fun _ y ↦ J y ∧ (P x → P y)) (fun _ ↦ J) x := by
  cases reported with
  | false => exact ⟨hx, id⟩
  | true => exact fun _ y hy ↦ ⟨h.invariant hx hy trivial, fun hP ↦ h.kept hx hP hy trivial⟩

theorem wp_importBao {size : UInt64} {stream : RecvStream} (hx : J x) (hempty : size = 0 → P x) :
    (importBao hash size stream (if reported then some progress else none)).wp R (fun _ y ↦ J y ∧ P y)
      (fun _ ↦ J) x := by
  unfold importBao
  by_cases hsize : size = 0
  · rw [if_pos hsize]
    exact ⟨hx, hempty hsize⟩
  · rw [if_neg hsize, wp_bind, wp_context, wp_store]
    intro a y hy
    have hJ := h.invariant hx hy trivial
    cases a with
    | error e => exact hJ
    | ok u =>
      rw [outcome_ok, wp_bind]
      intro r z hz
      have hleaves : (r.leaves.forM (fun leaf ↦ report (if reported then some progress else none)
          (.bytes (leaf.1 + UInt64.ofNat leaf.2) size))).wp R (fun _ w ↦ J w ∧ (P z → P w)) (fun _ ↦ J) z := by
        apply wp_forM (I := fun _ w ↦ J w ∧ (P z → P w))
        · intro leaf _ v hv
          refine wp_mono (h.wp_report _ hv.1) ?_ (fun _ _ hw ↦ hw)
          intro _ w hw
          exact ⟨hw.1, fun hP ↦ hw.2 (hv.2 hP)⟩
        · exact fun _ hw ↦ hw
        · exact ⟨h.invariant hJ hz trivial, id⟩
      rw [wp_ret, wp_bind]
      refine wp_mono hleaves ?_ (fun _ _ hw ↦ hw)
      intro _ w hw
      rw [wp_bind, wp_context, wp_ofExcept]
      cases hdecoded : r.decoded with
      | error e => exact hw.1
      | ok _ =>
        rw [outcome_ok, wp_context, wp_ofExcept]
        cases himported : r.imported with
        | error e => exact hw.1
        | ok _ => exact ⟨hw.1, hw.2 (h.imported hJ hz hdecoded himported)⟩

theorem wp_fetchBlob (hx : J x) :
    (fetchBlob env hash (if reported then some progress else none)).wp R (fun _ y ↦ J y ∧ P y) (fun _ ↦ J) x := by
  rw [fetchBlob, wp_bind]
  refine wp_mono (h.wp_isComplete hx) ?_ (fun _ _ hy ↦ hy)
  intro complete z hz
  cases complete with
  | true => exact ⟨hz.1, hz.2 rfl⟩
  | false =>
    rw [if_neg Bool.false_ne_true, wp_bind]
    refine h.wp_net hz.1 (fun z₁ hz₁ _ ↦ ?_)
    rw [wp_bind]
    refine h.wp_net hz₁ (fun z₂ hz₂ hsent ↦ ?_)
    have hA := h.asked hz₁ hsent
    rw [wp_bind]
    refine h.wp_net hz₂ (fun z₃ hz₃ hranges ↦ ?_)
    have hA₃ := h.waiting hz₂ hA hranges (.inl rfl)
    rw [wp_bind]
    refine h.wp_net hz₃ (fun z₄ hz₄ hfinish ↦ ?_)
    have hA₄ := h.waiting hz₃ hA₃ hfinish (.inr rfl)
    rw [wp_bind]
    intro stream z₅ hrecv
    have hz₅ := h.invariant hz₄ hrecv trivial
    rw [wp_ret, wp_bind, wp_context, wp_ofExcept]
    cases hstatus : stream.readExact 1 with
    | error e => exact hz₅
    | ok r =>
      obtain ⟨statusByte, stream₁⟩ := r
      rw [outcome_ok]
      dsimp only
      split
      · exact hz₅
      · exact hz₅
      · exact hz₅
      · next hparse =>
        rw [wp_bind, wp_context, wp_ofExcept]
        cases hheader : stream₁.readExact 8 with
        | error e => exact hz₅
        | ok r =>
          obtain ⟨sizeBuf, stream₂⟩ := r
          -- a size of nothing is what waives the import
          have hempty : UInt64.ofNat (ofLeBytes sizeBuf) = 0 → P z₅ := by
            intro hzero
            obtain ⟨hlen1, hs⟩ := RecvStream.readExact_eq_ok.mp hstatus
            obtain ⟨hlen8, hs₁⟩ := RecvStream.readExact_eq_ok.mp hheader
            obtain ⟨b, rfl⟩ := List.length_eq_one_iff.mp hlen1
            have hlt := ofLeBytes_lt sizeBuf
            rw [hlen8] at hlt
            have hnat := congrArg UInt64.toNat hzero
            rw [UInt64.toNat_ofNat_of_lt' (show ofLeBytes sizeBuf < 2 ^ 64 by omega)] at hnat
            have hback := toLeBytes_ofLeBytes sizeBuf
            rw [hlen8, hnat] at hback
            refine h.waived hz₄ hA₄ hrecv ⟨b, stream₂.bytes, ?_, hparse⟩
            rw [hs, hs₁, ← hback]
            rfl
          rw [outcome_ok, wp_bind]
          refine wp_mono (h.wp_report _ hz₅) ?_ (fun _ _ hw ↦ hw)
          intro _ w hw
          exact h.wp_importBao hw.1 (fun hzero ↦ hw.2 (hempty hzero))

end FetchRules

end Rules

def Receiving (stream : RecvStream) (c : Call) (s : NodeState) (a : c.Ans) (s' : NodeState) : Prop :=
  Answers c s a s' ∧
    match c, a with
    | .recv, a => a = stream
    | _, _ => True

section Complete

variable {env : Env} {hash : Hash} {stream : RecvStream} {s s' : NodeState}

theorem status_complete_iff {store : BlobStore} : (∃ size, store.status hash = .complete size) ↔ hash ∈ store.blobs := by
  rw [Std.ExtTreeMap.mem_iff_isSome_getElem?, BlobStore.status]
  cases store.blobs[hash]? with
  | some c => exact ⟨fun _ ↦ rfl, fun _ ↦ ⟨c.size, rfl⟩⟩
  | none =>
    constructor
    · intro h
      obtain ⟨size, hsize⟩ := h
      dsimp only at hsize
      split_ifs at hsize
    · rintro ⟨⟩

theorem mem_of_status {size : UInt64} (h : Answers (.store (.status hash)) s (.ok (.complete size)) s') :
    hash ∈ s'.store.blobs := by
  rcases answers_store (by simp) h with ⟨ha, rfl⟩ | ⟨⟨e, he⟩, _⟩
  · exact status_complete_iff.mp ⟨size, (Except.ok.inj ha).symm⟩
  · cases he

theorem mem_of_decode {size : UInt64} {r : DecodeResult} (h : Answers (.decode hash size stream) s r s')
    (hdecoded : r.decoded = .ok ()) (himported : r.imported = .ok ()) : hash ∈ s'.store.blobs := by
  cases h with
  | exec => cases hdecoded
  | refused _ e hrefused => cases hrefused
  | decoded ht =>
    cases ht with
    | complete c hhash _ => exact BlobStore.mem_addBlob.mpr (.inl hhash)
    | incomplete chunks hnot _ => exact absurd himported (hnot _ _ hdecoded)
    | nothing hnot => exact absurd himported (hnot _ _ hdecoded)

theorem fetchRules_receiving (hwaived : ¬ Waived env stream) :
    FetchRules (Receiving stream) env hash (fun _ ↦ True) (fun _ ↦ True) (fun s ↦ hash ∈ s.store.blobs) where
  invariant _ _ _ := trivial
  kept _ hP h _ := Node.answers_blobs h.1 hP
  complete _ h := mem_of_status h.1
  asked _ _ := trivial
  waiting _ _ _ _ := trivial
  waived _ _ h hw := absurd (h.2 ▸ hw) hwaived
  imported _ h hdecoded himported := mem_of_decode h.1 hdecoded himported

def answering (stream : RecvStream) : (c : Call) → NodeState → c.Ans × NodeState
  | .net _, s => (.ok (), s)
  | .recv, s => (stream, s)
  | c, s => exec c s

theorem receiving_answering {c : Call} {s s' : NodeState} {a : c.Ans} (h : graph (answering stream) c s a s') :
    Receiving stream c s a s' := by
  obtain ⟨rfl, rfl⟩ : (answering stream c s).1 = a ∧ (answering stream c s).2 = s' :=
    ⟨congrArg Prod.fst h, congrArg Prod.snd h⟩
  cases c with
  | net c =>
    refine ⟨?_, trivial⟩
    cases c with
    | connect addr alpn => exact .connected s addr alpn
    | _ => exact .exec (.net _) s
  | recv => exact ⟨.received s stream, rfl⟩
  | _ => exact ⟨.exec _ s, trivial⟩

theorem run_fetchBlob_waived (reported : Bool) (hmem : hash ∉ s.store.blobs) (hwaived : Waived env stream) :
    run (answering stream) (fetchBlob env hash (if reported then some progress else none)) s = (.ok (), s) := by
  obtain ⟨b, rest, hbytes, hparse⟩ := hwaived
  have hcomplete : run (answering stream) (isComplete hash) s = (.ok false, s) := by
    have hstatus : run (answering stream) (store (.status hash)).attempt s = (.ok (.ok (s.store.status hash)), s) := rfl
    rw [isComplete, run_bind, hstatus]
    cases hs : s.store.status hash with
    | complete size => exact absurd (status_complete_iff.mp ⟨size, hs⟩) hmem
    | notFound => rfl
    | incomplete => rfl
  have hnet (c : NetCall) : run (answering stream) (net c) s = (.ok (), s) := rfl
  have hrecv : run (answering stream) recv s = (.ok stream, s) := rfl
  have hstatus : stream.readExact 1 = .ok ([b], ⟨toLeBytes 8 0 ++ rest, stream.broken⟩) := by
    refine RecvStream.readExact_eq_ok.mpr ⟨rfl, ?_⟩
    obtain ⟨bytes, broken⟩ := stream
    rw [show bytes = _ from hbytes]
    rfl
  have hheader : RecvStream.readExact ⟨toLeBytes 8 0 ++ rest, stream.broken⟩ 8 =
      .ok (toLeBytes 8 0, ⟨rest, stream.broken⟩) :=
    RecvStream.readExact_eq_ok.mpr ⟨length_toLeBytes 8 0, rfl⟩
  have hread {α : Type} (m : String) (v : α) :
      run (answering stream) (context m (.ofExcept (.ok v))) s = (.ok v, s) := rfl
  have hreport (e : ProgressEvent) :
      run (answering stream) (report (if reported then some progress else none) e) s = (.ok (), s) := by
    cases reported <;> rfl
  have hsize : UInt64.ofNat (ofLeBytes (toLeBytes 8 0)) = 0 := by decide
  simp only [fetchBlob, run_bind, hcomplete, Bool.false_eq_true, if_false, hnet, hrecv, hstatus, hread,
    List.headD_cons, hparse, hheader, hreport, hsize]
  rfl

end Complete

/-- A fetch that succeeds leaves the blob complete, whatever else the sender does, unless
the blob was not there before and the sender announces that it is empty. -/
theorem fetchBlob_complete_iff (env : Env) (hash : Hash) (reported : Bool) (s : NodeState) (stream : RecvStream) :
    (∀ s', Runs (Receiving stream) (fetchBlob env hash (if reported then some progress else none)) s (.ok ()) s' →
      ∃ size, s'.store.status hash = .complete size) ↔
    (∃ size, s.store.status hash = .complete size) ∨ ¬ Waived env stream := by
  simp only [status_complete_iff]
  constructor
  · intro h
    by_contra hnot
    obtain ⟨hmem, hwaived⟩ := not_or.mp hnot
    have hrun := runs_run (h := answering stream) (fetchBlob env hash (if reported then some progress else none)) s
    rw [run_fetchBlob_waived reported hmem (not_not.mp hwaived)] at hrun
    exact hmem (h s (hrun.mono fun _ _ _ _ hc ↦ receiving_answering hc))
  · intro h s' hrun
    rcases h with hmem | hwaived
    · exact hrun.invariant (I := fun s ↦ hash ∈ s.store.blobs) (fun _ _ _ _ hs hc ↦ Node.answers_blobs hc.1 hs) hmem
    · exact (hrun.ok_of_wp ((fetchRules_receiving hwaived).wp_fetchBlob trivial)).2

/-- Nine bytes are enough to have any blob counted as fetched. -/
theorem fetchBlob_waived : ¬ ∀ (env : Env) (hash : Hash) (reported : Bool) (s s' : NodeState) (stream : RecvStream),
    Runs (Receiving stream) (fetchBlob env hash (if reported then some progress else none)) s (.ok ()) s' →
      ∃ size, s'.store.status hash = .complete size := by
  intro h
  have hrun := runs_run (h := answering ⟨1 :: toLeBytes 8 0, none⟩)
    (fetchBlob (.plain []) (.fromByte 1) (if true then some progress else none)) emptyNode
  rw [run_fetchBlob_waived true (by decide) ⟨1, [], rfl, rfl⟩] at hrun
  obtain ⟨size, hsize⟩ := h _ _ _ _ _ _ (hrun.mono fun _ _ _ _ hc ↦ receiving_answering hc)
  exact absurd hsize (by simp [emptyNode, BlobStore.status, BlobStore.empty])

end RingReceiver

end Ringdrop
