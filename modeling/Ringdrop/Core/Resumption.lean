import Ringdrop.Core.NodeCalls
import Ringdrop.Library.Crash

namespace Ringdrop

open Library Program

namespace BlobStore

/-- The store holds this chunk of 1024 bytes, verified. -/
def Verified (s : BlobStore) (hash : Hash) (chunk : ℕ) : Prop :=
  match s.blobs[hash]? with
  | some c => 1024 * chunk < c.size.toNat
  | none => chunk ∈ s.chunks.getD hash []

def Fresh (s : BlobStore) (hash : Hash) : Prop := ∀ chunk, ¬ s.Verified hash chunk

end BlobStore

namespace RingReceiver

/-- A sender has been asked for a blob, except for what the receiver already has. -/
structure RangesRequest where
  store : BlobStore
  hash : Hash
  alreadyHave : List ℕ

/-- No chunk is asked for that the store held when the request was made. -/
def RangesRequest.Excludes (r : RangesRequest) : Prop :=
  ∀ chunk, r.store.Verified r.hash chunk → chunk ∈ r.alreadyHave

/-- A node, the blob it named last to a sender, and all it has asked for. -/
structure Receiver where
  node : NodeState
  named : Option Hash
  asked : List RangesRequest

/-- Nothing verified is transferred again. -/
def Receiver.Resumes (x : Receiver) : Prop := ∀ r ∈ x.asked, r.Excludes

def Receiver.note (x : Receiver) : Call → Receiver
  | .net (.sendRequest hash _) => { x with named := some hash }
  | .net (.sendRanges alreadyHave) =>
    { x with asked := x.asked ++ x.named.toList.map (⟨x.node.store, ·, alreadyHave⟩) }
  | _ => x

def Asking (R : (c : Call) → NodeState → c.Ans → NodeState → Prop) (c : Call) (x : Receiver) (a : c.Ans)
    (y : Receiver) : Prop :=
  R c x.node a y.node ∧ y = { x.note c with node := y.node }

def Readable (c : Call) (s : NodeState) (a : c.Ans) (s' : NodeState) : Prop :=
  Answers c s a s' ∧
    match c, a with
    | .store (.status hash), a => a = .ok (s.store.status hash)
    | _, _ => True

def progress : OnProgress := fun e ↦ Program.ask (Call.progress e)

/-- Any number of downloads, each of which may break off at any point. In between
anything may happen to the node. -/
inductive Downloads (env : Env) (s : NodeState) : Receiver → Prop
  | start : Downloads env s ⟨s, none, []⟩
  | attempt {x y : Receiver} {ticket : ShareTicket} {dest : Path} {q : Action Unit} :
      Downloads env s x → Partial (Asking Answers) (Node.download env ticket dest progress) x q y →
      Downloads env s y
  | between {x : Receiver} (s' : NodeState) : Downloads env s x → Downloads env s { x with node := s' }

section Requests

variable {x y : Receiver} {hash : Hash}

theorem asked_note {c : Call} (hc : c.Transfers) (h : ∀ r ∈ x.asked, r.alreadyHave = []) :
    ∀ r ∈ (x.note c).asked, r.alreadyHave = [] := by
  rcases hc with hc | hc | ⟨e, rfl⟩ | ⟨hash, target, rfl⟩
  · cases c with
    | net c =>
      cases c with
      | sendRanges alreadyHave =>
        obtain rfl : alreadyHave = [] := hc
        intro r hr
        rcases List.mem_append.mp hr with hr | hr
        · exact h r hr
        · obtain ⟨hash, -, rfl⟩ := List.mem_map.mp hr
          rfl
      | _ => exact h
    | _ => exact h
  · cases c with
    | net c => exact hc.elim
    | _ => exact h
  · exact h
  · exact h

theorem asked_all {env : Env} {s : NodeState} (h : Downloads env s x) :
    ∀ r ∈ x.asked, r.alreadyHave = [] := by
  induction h with
  | start => simp
  | attempt _ hcut ih =>
    refine (hcut.uses_invariant (P := Call.Transfers) (I := fun x ↦ ∀ r ∈ x.asked, r.alreadyHave = [])
      ?_ ?_ ih).2
    · exact Node.uses_download_transfers ..
    · intro c x a y hc hx hy
      rw [hy.2]
      exact asked_note hc hx
  | between s' _ ih => exact ih

theorem excludes_iff_fresh {r : RangesRequest} (h : r.alreadyHave = []) :
    r.Excludes ↔ r.store.Fresh r.hash := by
  unfold RangesRequest.Excludes
  rw [h]
  constructor
  · intro hall chunk hchunk
    exact List.not_mem_nil (hall chunk hchunk)
  · intro hfresh chunk hchunk
    exact absurd hchunk (hfresh chunk)

end Requests

section Fetch

variable {Q : Unit → Receiver → Prop} {Z : Error → Receiver → Prop} {x : Receiver} {hash : Hash}

theorem answers_net {c : NetCall} {s s' : NodeState} {a : Except Error Unit} (h : Answers (.net c) s a s') :
    s' = s := by
  cases h with
  | exec => cases c <;> rfl
  | refused => rfl
  | connected => rfl

theorem wp_net {c : NetCall} (hQ : Q () (x.note (.net c))) (hZ : ∀ e, Z e (x.note (.net c))) :
    (net c).wp (Asking Readable) Q Z x := by
  intro a y hy
  have hnode : y.node = (x.note (.net c)).node := by
    rw [answers_net hy.1.1]
    cases c <;> rfl
  obtain rfl : y = x.note (.net c) := by rw [hy.2, hnode]
  cases a with
  | ok v => exact hQ
  | error e => exact hZ e

theorem readable_exec (c : Call) (s : NodeState) : Readable c s (exec c s).1 (exec c s).2 := by
  refine ⟨.exec c s, ?_⟩
  cases c with
  | store c => cases c <;> trivial
  | _ => trivial

theorem asking_status {a : Except Error BlobStatus} {y : Receiver} :
    Asking Readable (.store (.status hash)) x a y ↔ a = .ok (x.node.store.status hash) ∧ y = x := by
  constructor
  · intro h
    have hnode : y.node = x.node := by
      rcases answers_store (by simp) h.1.1 with ⟨-, hs⟩ | ⟨-, hs⟩
      · exact hs
      · exact hs
    exact ⟨h.1.2, by rw [h.2, hnode]; rfl⟩
  · rintro ⟨rfl, rfl⟩
    exact ⟨readable_exec (.store (.status hash)) y.node, rfl⟩

theorem wp_isComplete {Q : Bool → Receiver → Prop} :
    (isComplete hash).wp (Asking Readable) Q Z x ↔ Q (decide (hash ∈ x.node.store.blobs)) x := by
  have hstatus : ∀ P : Except Error BlobStatus → Receiver → Prop,
      (∀ a y, Asking Readable (.store (.status hash)) x a y → P a y) ↔ P (.ok (x.node.store.status hash)) x := by
    intro P
    simp only [asking_status, and_imp, forall_eq_apply_imp_iff, forall_eq]
  rw [isComplete, wp_bind, wp_attempt, wp_store]
  rw [hstatus fun a y ↦ Outcome _ _ a y, outcome_ok, BlobStore.status]
  by_cases hmem : hash ∈ x.node.store.blobs
  · obtain ⟨c, hc⟩ := Option.isSome_iff_exists.mp (Std.ExtTreeMap.mem_iff_isSome_getElem?.mp hmem)
    rw [hc, decide_eq_true hmem]
    rfl
  · rw [Std.ExtTreeMap.getElem?_eq_none hmem, decide_eq_false hmem]
    by_cases hchunks : hash ∈ x.node.store.chunks
    · rw [if_pos hchunks]
      rfl
    · rw [if_neg hchunks]
      rfl

def Unasking (c : Call) : Prop := ∀ x : Receiver, x.note c = x

theorem Unasking.asked {R : (c : Call) → NodeState → c.Ans → NodeState → Prop} {c : Call} {a : c.Ans}
    {y : Receiver} (hc : Unasking c) (h : Asking R c x a y) : y.asked = x.asked := by
  rw [h.2, hc x]

theorem uses_importBao_unasking (size : UInt64) (stream : RecvStream) (reported : Bool) :
    (importBao hash size stream (if reported then some progress else none)).Uses Unasking := by
  have hreport : ∀ e, (report (if reported then some progress else none) e).Uses Unasking := by
    intro e
    cases reported with
    | true => exact uses_ask fun _ ↦ rfl
    | false => trivial
  unfold importBao
  split
  · trivial
  · apply (uses_context (uses_asking (.store (.importBao hash size)) id fun _ ↦ rfl)).bind
    intro _
    apply Uses.bind (uses_ask fun _ ↦ rfl)
    intro result
    apply (Uses.forM (fun leaf ↦ hreport _) result.leaves).bind
    intro _
    apply (uses_context (uses_ofExcept _)).bind
    intro _
    exact uses_context (uses_ofExcept _)

theorem wp_fetchBlob {env : Env} {s : NodeState} {reported : Bool} {P : Receiver → Prop}
    (hnone : ∀ y : Receiver, y.asked = [] → P y)
    (hasked : hash ∉ s.store.blobs → ∀ y : Receiver, y.asked = [⟨s.store, hash, []⟩] → P y) :
    (fetchBlob env hash (if reported then some progress else none)).wp (Asking Readable)
      (fun _ ↦ P) (fun _ ↦ P) ⟨s, none, []⟩ := by
  rw [fetchBlob, wp_bind, wp_isComplete]
  by_cases hmem : hash ∈ s.store.blobs
  · rw [decide_eq_true hmem]
    exact hnone _ rfl
  · rw [decide_eq_false hmem]
    have hdone := hasked hmem
    have htail : ∀ {p : Action Unit} {y : Receiver}, p.Uses Unasking → y.asked = [⟨s.store, hash, []⟩] →
        p.wp (Asking Readable) (fun _ ↦ P) (fun _ ↦ P) y := by
      intro p y hp hy
      have hinv := hp.wp_invariant (R := Asking Readable) (I := fun y : Receiver ↦ y.asked = [⟨s.store, hash, []⟩])
        (fun c x a y hc hx h ↦ (hc.asked h).trans hx) hy
      exact wp_mono hinv (fun _ y h ↦ hdone y h) (fun _ y h ↦ hdone y h)
    apply (wp_bind _ _).mpr
    apply wp_net
    · apply (wp_bind _ _).mpr
      apply wp_net
      · apply (wp_bind _ _).mpr
        apply wp_net
        · apply htail
          · apply Uses.bind (uses_asking (.net .finish) id fun _ ↦ rfl)
            intro _
            apply Uses.bind (uses_ask fun _ ↦ rfl)
            intro stream
            apply (uses_context (uses_ofExcept _)).bind
            intro r
            dsimp only
            split
            · trivial
            · trivial
            · trivial
            · apply (uses_context (uses_ofExcept _)).bind
              intro r
              apply Uses.bind
              · cases reported with
                | true => exact uses_ask fun _ ↦ rfl
                | false => trivial
              · intro _
                exact uses_importBao_unasking _ _ reported
          · rfl
        · intro e
          exact hdone _ rfl
      · intro e
        exact hnone _ rfl
    · intro e
      exact hnone _ rfl

/-- Where the sender hangs up at once, all that can be said is what it was asked for. -/
theorem asked_of_wp_fetchBlob {env : Env} {s : NodeState} {onProgress : Option OnProgress}
    {P : Receiver → Prop} (hmem : hash ∉ s.store.blobs)
    (h : (fetchBlob env hash onProgress).wp (Asking Readable) (fun _ ↦ P) (fun _ ↦ P) ⟨s, none, []⟩) :
    P ⟨s, some hash, [⟨s.store, hash, []⟩]⟩ := by
  have hnet : ∀ {c : NetCall} {x : Receiver} {Q : Unit → Receiver → Prop} {Z : Error → Receiver → Prop},
      exec (.net c) x.node = (.ok (), x.node) → (x.note (.net c)).node = x.node →
      (net c).wp (Asking Readable) Q Z x → Q () (x.note (.net c)) := by
    intro c x Q Z hexec hnode h
    have hr := readable_exec (.net c) x.node
    rw [hexec] at hr
    rw [← hnode] at hr
    exact h (.ok ()) (x.note (.net c)) ⟨hnode ▸ hr, rfl⟩
  rw [fetchBlob, wp_bind, wp_isComplete, decide_eq_false hmem] at h
  have h₁ := hnet rfl rfl ((wp_bind (net .openBi) _).mp h)
  have h₂ := hnet rfl rfl ((wp_bind (net (.sendRequest hash .read)) _).mp h₁)
  have h₃ := hnet rfl rfl ((wp_bind (net (.sendRanges [])) _).mp h₂)
  have h₄ := hnet rfl rfl ((wp_bind (net .finish) _).mp h₃)
  exact h₄ ⟨[], some offline⟩ _ ⟨readable_exec .recv s, rfl⟩

end Fetch

/-- Downloads ask for all of a blob whenever they ask. So in a sequence of attempts nothing
verified is transferred again if and only if nothing of a blob was in the store whenever it
was asked for; and a further fetch keeps that, whatever the sender does, if and only if the
blob is complete or nothing of it is in the store. -/
theorem downloads_exclude_iff {env : Env} {s : NodeState} {x : Receiver} (h : Downloads env s x)
    (hash : Hash) (reported : Bool) :
    (x.Resumes ↔ ∀ r ∈ x.asked, r.store.Fresh r.hash) ∧
      ((∀ res y, Runs (Asking Readable) (fetchBlob env hash (if reported then some progress else none))
          ⟨x.node, none, []⟩ res y → y.Resumes) ↔
        hash ∈ x.node.store.blobs ∨ x.node.store.Fresh hash) := by
  constructor
  · exact forall₂_congr fun r hr ↦ excludes_iff_fresh (asked_all h r hr)
  · constructor
    · intro hruns
      by_cases hmem : hash ∈ x.node.store.blobs
      · exact .inl hmem
      · have hwp : (fetchBlob env hash (if reported then some progress else none)).wp (Asking Readable)
            (fun _ ↦ Receiver.Resumes) (fun _ ↦ Receiver.Resumes) ⟨x.node, none, []⟩ :=
          (wp_iff_runs _).mpr ⟨fun v y hy ↦ hruns _ y hy, fun e y hy ↦ hruns _ y hy⟩
        have hwhole := asked_of_wp_fetchBlob hmem hwp
        exact .inr ((excludes_iff_fresh rfl).mp (hwhole _ (List.mem_singleton_self _)))
    · intro hfresh res y hy
      have hwp : (fetchBlob env hash (if reported then some progress else none)).wp (Asking Readable)
          (fun _ ↦ Receiver.Resumes) (fun _ ↦ Receiver.Resumes) ⟨x.node, none, []⟩ := by
        apply wp_fetchBlob
        · intro y hy r hr
          rw [hy] at hr
          exact absurd hr List.not_mem_nil
        · intro hmem y hy r hr
          rw [hy, List.mem_singleton] at hr
          subst hr
          exact (excludes_iff_fresh rfl).mpr (hfresh.resolve_left hmem)
      cases res with
      | ok v => exact hy.ok_of_wp hwp
      | error e => exact hy.error_of_wp hwp

def noting (h : (c : Call) → NodeState → c.Ans × NodeState) (c : Call) (x : Receiver) : c.Ans × Receiver :=
  ((h c x.node).1, { x.note c with node := (h c x.node).2 })

/-- A sender of a blob of 40000 bytes: two blocks of 16 chunks and a shorter one. It
finishes, or hangs up after the first block. -/
def sender (finishes : Bool) : (c : Call) → NodeState → c.Ans × NodeState
  | .net _, s => (.ok (), s)
  | .recv, s =>
    if finishes then (⟨1 :: toLeBytes 8 40000 ++ List.replicate (2 * 64 + 40000) 0, none⟩, s)
    else (⟨1 :: toLeBytes 8 40000 ++ List.replicate (2 * 64 + 16384) 0, some offline⟩, s)
  | .decode hash size stream, s =>
    if hash ∈ s.store.blobs then exec (.decode hash size stream) s
    else if finishes then
      (⟨[(0, 16384), (16384, 16384), (32768, 7232)], .ok (), .ok ()⟩,
        { s with store := s.store.addBlob ⟨hash, size, none, none⟩ })
    else
      (⟨[(0, 16384)], .error offline, .error offline⟩,
        { s with store := { s.store with chunks := s.store.chunks.insert hash (List.range 16) } })
  | c, s => exec c s

theorem answers_sender (finishes : Bool) (c : Call) (s : NodeState) :
    Answers c s (sender finishes c s).1 (sender finishes c s).2 := by
  cases c with
  | net c =>
    cases c with
    | connect addr alpn => exact .connected s addr alpn
    | _ => exact .exec (.net _) s
  | recv => cases finishes <;> exact .received s _
  | decode hash size stream =>
    by_cases hmem : hash ∈ s.store.blobs
    · simp only [sender, if_pos hmem]
      exact .exec _ s
    · simp only [sender, if_neg hmem]
      cases finishes with
      | true => exact .decoded (.complete ⟨hash, size, none, none⟩ rfl rfl)
      | false => exact .decoded (.incomplete (List.range 16) (by rintro _ _ ⟨⟩) hmem)
  | _ => exact .exec _ s

def retry (finishes : Bool) (x : Receiver) : Receiver :=
  (cut (noting (sender finishes)) 40 (Node.download (.plain []) (namedTicket "a") (Path.ofString "a") progress) x).2

theorem downloads_retry (finishes : Bool) {x : Receiver} (hx : Downloads (.plain []) emptyNode x) :
    Downloads (.plain []) emptyNode (retry finishes x) :=
  .attempt hx (partial_cut (fun c x ↦ ⟨answers_sender finishes c x.node, rfl⟩) 40 _ x)

/-- After a download that has broken off and one that has not, another one asks for nothing. -/
theorem downloads_exclude_finished :
    (run (noting exec) (fetchBlob (.plain []) (.fromByte 1) (some progress))
      ⟨(retry true (retry false ⟨emptyNode, none, []⟩)).node, none, []⟩).2.Resumes := by
  have hreached := downloads_retry true (downloads_retry false .start)
  have hmem : Hash.fromByte 1 ∈ (retry true (retry false ⟨emptyNode, none, []⟩)).node.store.blobs := by
    decide +kernel
  have hrun : Runs (Asking Readable) (fetchBlob (.plain []) (.fromByte 1) (some progress))
      ⟨(retry true (retry false ⟨emptyNode, none, []⟩)).node, none, []⟩ _ _ :=
    (runs_run (h := noting exec) _ _).mono (by
      intro c x a y h
      obtain ⟨rfl, rfl⟩ : (noting exec c x).1 = a ∧ (noting exec c x).2 = y :=
        ⟨congrArg Prod.fst h, congrArg Prod.snd h⟩
      exact ⟨readable_exec c x.node, rfl⟩)
  exact (downloads_exclude_iff hreached (.fromByte 1) true).2.mpr (.inl hmem) _ _ hrun

/-- The second attempt asks for the chunks of the block that the first one has brought. -/
theorem downloads_ask_again : ∃ x, Downloads (.plain []) emptyNode x ∧
    ∃ r ∈ x.asked, ∀ chunk < 16, r.store.Verified r.hash chunk ∧ chunk ∉ r.alreadyHave := by
  have hagain : ((retry true (retry false ⟨emptyNode, none, []⟩)).asked.any fun r ↦
      r.store.blobs[r.hash]?.isNone && decide (r.store.chunks.getD r.hash [] = List.range 16) &&
        r.alreadyHave.isEmpty) = true := by
    decide +kernel
  obtain ⟨r, hr, hr'⟩ := List.any_eq_true.mp hagain
  simp only [Bool.and_eq_true, Option.isNone_iff_eq_none, decide_eq_true_eq, List.isEmpty_iff] at hr'
  obtain ⟨⟨hnone, hchunks⟩, hnothing⟩ := hr'
  refine ⟨_, downloads_retry true (downloads_retry false .start), r, hr, fun chunk hchunk ↦ ⟨?_, ?_⟩⟩
  · rw [BlobStore.Verified, hnone, hchunks]
    exact List.mem_range.mpr hchunk
  · rw [hnothing]
    exact List.not_mem_nil

end RingReceiver

end Ringdrop
