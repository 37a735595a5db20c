import Ringdrop.Core.CatalogResponse

namespace Ringdrop.Catalog

open Library Program

/-- Two stores hold the same of a tagged blob: its status and, for a collection, the
members with what is held of each. -/
structure SameBlob (store₁ store₂ : BlobStore) (info : TagInfo) : Prop where
  status : store₁.status info.hash = store₂.status info.hash
  collection : info.format = .hashSeq →
    (store₁.loadCollection info.hash).toOption = (store₂.loadCollection info.hash).toOption
  members : info.format = .hashSeq → ∀ collection, store₁.loadCollection info.hash = .ok collection →
    ∀ m ∈ collection, store₁.status m.2 = store₂.status m.2

/-- Two node states look the same to a peer. -/
structure AgreeFor (peer : EndpointId) (s₁ s₂ : NodeState) : Prop where
  endpoint : s₁.endpoint = s₂.endpoint
  grant : s₁.localStore.hasGrant .blobList peer = s₂.localStore.hasGrant .blobList peer
  permitted : permittedTags s₁ peer = permittedTags s₂ peer
  blobs : ∀ info ∈ permittedTags s₁ peer, SameBlob s₁.store s₂.store info

section Agreement

variable {store₁ store₂ : BlobStore}

theorem completeSize_eq {hash : Hash} (h : store₁.status hash = store₂.status hash) :
    completeSize store₁ hash = completeSize store₂ hash := by
  unfold completeSize
  rw [h]

theorem sumOf_eq {hashes : List Hash} (h : ∀ m ∈ hashes, store₁.status m = store₂.status m)
    (sum : UInt64) : sumOf store₁ hashes sum = sumOf store₂ hashes sum := by
  induction hashes generalizing sum with
  | nil => rfl
  | cons hash rest ih =>
    have hrest := ih (fun m hm ↦ h m (by simp [hm]))
    simp only [sumOf, completeSize_eq (h hash (by simp)), hrest]

theorem countAndSize_eq {info : TagInfo} (h : SameBlob store₁ store₂ info) :
    countAndSize store₁ info.hash info.format = countAndSize store₂ info.hash info.format := by
  cases hf : info.format with
  | raw => simp only [countAndSize, completeSize_eq h.status]
  | hashSeq =>
    have hcollection := h.collection hf
    unfold countAndSize
    cases h₁ : store₁.loadCollection info.hash with
    | ok collection =>
      have hmembers : ∀ m ∈ collection.map Prod.snd, store₁.status m = store₂.status m := by
        intro m hm
        obtain ⟨x, hx, rfl⟩ := List.mem_map.mp hm
        exact h.members hf collection h₁ x hx
      cases h₂ : store₂.loadCollection info.hash with
      | ok collection₂ =>
        obtain rfl : collection = collection₂ := by simpa [h₁, h₂, Except.toOption] using hcollection
        simp only [sumOf_eq hmembers]
      | error e => simp [h₁, h₂, Except.toOption] at hcollection
    | error e =>
      cases h₂ : store₂.loadCollection info.hash with
      | ok collection₂ => simp [h₁, h₂, Except.toOption] at hcollection
      | error e' => rfl

theorem tagFrame_eq {info : TagInfo} (env : Env) (addr : EndpointAddr)
    (h : SameBlob store₁ store₂ info) :
    tagFrame env addr store₁ info = tagFrame env addr store₂ info := by
  unfold tagFrame
  rw [countAndSize_eq h]

/-- The response depends only on what the peer may see. -/
theorem response_eq {peer : EndpointId} {s₁ s₂ : NodeState} (env : Env) (h : AgreeFor peer s₁ s₂) :
    response env s₁ peer = response env s₂ peer := by
  have hframes : loopOutput (tagFrame env (relayOnlyAddr s₁.endpoint) s₁.store) (permittedTags s₁ peer) =
      loopOutput (tagFrame env (relayOnlyAddr s₁.endpoint) s₂.store) (permittedTags s₁ peer) :=
    loopOutput_congr (fun info hinfo ↦ tagFrame_eq env _ (h.blobs info hinfo))
  unfold response
  rw [hframes, h.endpoint, h.permitted, h.grant]

end Agreement

/-- What a peer is sent says nothing about the blobs it may not read: the same bytes
come from any two nodes that look the same to it, whichever lookups fail on other
blobs. A peer without the grant is sent a single byte. -/
theorem handleBlobList_noninterference {peer : EndpointId} {s₁ s₂ : NodeState} (env : Env)
    (h : AgreeFor peer s₁ s₂) :
    (∀ r₁ s₁' log₁ r₂ s₂' log₂,
      Runs (logged (Serving peer)) (handleBlobList env peer) (s₁, []) r₁ (s₁', log₁) →
      Runs (logged (Serving peer)) (handleBlobList env peer) (s₂, []) r₂ (s₂', log₂) →
      output sentBytes log₁ = output sentBytes log₂) ∧
    (s₁.localStore.hasGrant .blobList peer = false → ∀ r s' log,
      Runs (logged (Serving peer)) (handleBlobList env peer) (s₁, []) r (s', log) →
      output sentBytes log = [denied]) := by
  constructor
  · intro r₁ s₁' log₁ r₂ s₂' log₂ hr₁ hr₂
    obtain ⟨h₁, -, -⟩ := (emits_handleBlobList env).output_eq hr₁
    obtain ⟨h₂, -, -⟩ := (emits_handleBlobList env).output_eq hr₂
    rw [h₁, h₂, response_eq env h]
  · intro hg r s' log hr
    obtain ⟨h₁, -, -⟩ := (emits_handleBlobList env).output_eq hr
    rw [h₁, response, hg]
    rfl

def sharedRegistry : Registry :=
  (Registry.empty.addRingToResource (.fromByte 1) openRingName [.read]).toOption.getD .empty

def servingNode (peer : EndpointId) (hidden : List (Bytes × Hash)) : NodeState where
  endpoint := .new (.fromByte 9)
  clock := 0
  registry := sharedRegistry
  localStore := LocalStore.empty.insertGrant .blobList peer
  store := hidden.foldl (fun store t ↦ store.setTag t.1 ⟨t.2, .raw⟩)
    ((BlobStore.empty.addBlob ⟨.fromByte 1, 5, none, none⟩).setTag [104, 105] ⟨.fromByte 1, .raw⟩)
  fs := .home

theorem agreeFor_hidden : AgreeFor (.fromByte 7)
    (servingNode (.fromByte 7) [([97], .fromByte 2)]) (servingNode (.fromByte 7) []) where
  endpoint := rfl
  grant := by decide
  permitted := by decide
  blobs := by
    intro info hinfo
    have hp : permittedTags (servingNode (.fromByte 7) [([97], .fromByte 2)]) (.fromByte 7) =
      [⟨[104, 105], .fromByte 1, .raw⟩] := by decide
    rw [hp] at hinfo
    obtain rfl := List.mem_singleton.mp hinfo
    exact ⟨by decide, by rintro ⟨⟩, by rintro ⟨⟩⟩

/-- A private blob next to a public one leaves no mark in the response. -/
theorem handleBlobList_noninterference_hidden :
    output sentBytes (run execLogged (handleBlobList (.plain []) (.fromByte 7))
        (servingNode (.fromByte 7) [([97], .fromByte 2)], [])).2.2 =
      output sentBytes (run execLogged (handleBlobList (.plain []) (.fromByte 7))
        (servingNode (.fromByte 7) [], [])).2.2 := by
  have hrun : ∀ hidden, Runs (logged (Serving (.fromByte 7))) (handleBlobList (.plain []) (.fromByte 7))
      (servingNode (.fromByte 7) hidden, []) _ _ := fun _ ↦ runs_execLogged .exec _ _
  have h₁ := hrun [([97], .fromByte 2)]
  have h₂ := hrun []
  generalize run execLogged _ (servingNode (.fromByte 7) [([97], .fromByte 2)], []) = x₁ at h₁ ⊢
  generalize run execLogged _ (servingNode (.fromByte 7) [], []) = x₂ at h₂ ⊢
  obtain ⟨r₁, s₁, log₁⟩ := x₁
  obtain ⟨r₂, s₂, log₂⟩ := x₂
  exact (handleBlobList_noninterference (.plain []) agreeFor_hidden).1 _ _ _ _ _ _ h₁ h₂

end Ringdrop.Catalog
