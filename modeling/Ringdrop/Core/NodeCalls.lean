import Ringdrop.Core.Node
import Ringdrop.Library.Crash

namespace Ringdrop

open Library Program

/-- Calls that look at the file system, or take a file from it. -/
def Call.Looks : Call → Prop
  | pathExists _ => True
  | isDir _ => True
  | walkDir _ => True
  | store (.addPath _) => True
  | _ => False

/-- Calls that delete no tag, take no blob from the disk and put none there, ask for
whole blobs, and have nothing to do with a client. -/
def Call.Silent : Call → Prop
  | pathExists _ => False
  | isDir _ => False
  | walkDir _ => False
  | store (.addPath _) => False
  | store (.deleteTag _) => False
  | store (.exportBlob _ _) => False
  | net (.sendRanges alreadyHave) => alreadyHave = []
  | send _ => False
  | startProgress _ => False
  | progress _ => False
  | joinProgress => False
  | notifyShutdown => False
  | _ => True

def Call.Pins : Call → Prop
  | fs (.absolute _) => True
  | store (.addBytes _ _) => True
  | store (.setTag _ _) => True
  | dropTempTag _ => True
  | _ => False

theorem Call.Pins.silent {c : Call} (h : c.Pins) : c.Silent := by
  cases c with
  | fs c => trivial
  | store c => cases c <;> trivial
  | dropTempTag tag => trivial
  | _ => exact h.elim

def Call.Gathers : Call → Prop
  | store .batch => True
  | store (.tempTag _) => True
  | store (.status _) => True
  | store (.getBytes _) => True
  | store (.loadCollection _) => True
  | store (.importBao _ _) => True
  | net (.sendRanges alreadyHave) => alreadyHave = []
  | net _ => True
  | recv => True
  | decode _ _ _ => True
  | dropTempTag _ => True
  | endpointAddr => True
  | _ => False

theorem Call.Gathers.silent {c : Call} (h : c.Gathers) : c.Silent := by
  cases c with
  | store c => cases c <;> trivial
  | net c => cases c <;> trivial
  | recv => trivial
  | decode hash size stream => trivial
  | dropTempTag tag => trivial
  | endpointAddr => trivial
  | _ => exact h.elim

def Call.Transfers (c : Call) : Prop :=
  c.Silent ∨ c.Looks ∨ (∃ e, c = progress e) ∨ ∃ hash target, c = store (.exportBlob hash target)

section Imports

variable {P : Call → Prop} (hP : ∀ c : Call, c.Pins → P c)
include hP

namespace Node

theorem uses_pin (key : Option String) (tag : TempTag) (format : BlobFormat) (what : String) :
    (pin key tag format what).Uses P := by
  refine (uses_context (uses_asking (.store (.setTag _ _)) id (hP _ trivial))).attempt.bind fun r ↦ ?_
  refine (uses_ask (hP (.dropTempTag tag) trivial)).bind fun _ ↦ ?_
  exact (uses_ofExcept r).bind fun _ ↦ trivial

theorem uses_storeCollection (env : Env) (collection : Collection) :
    (storeCollection env collection).Uses P := by
  refine Uses.bind (uses_asking (.store (.addBytes _ _)) id (hP _ trivial)) fun metaTag ↦ ?_
  refine (uses_asking (.store (.addBytes _ _)) id (hP _ trivial)).attempt.bind fun rootTag ↦ ?_
  exact (uses_ask (hP (.dropTempTag metaTag) trivial)).bind fun _ ↦ uses_ofExcept rootTag

variable (hlook : ∀ c : Call, c.Looks → P c)
include hlook

theorem uses_importFile (path : Path) : (importFile path).Uses P := by
  refine Uses.bind (uses_asking (.fs (.absolute path)) id (hP _ trivial)) fun _ ↦ ?_
  refine (uses_context (uses_asking (.store (.addPath _)) id (hlook _ trivial))).bind fun tag ↦ ?_
  exact uses_pin hP ..

theorem uses_addToCollection (collection : Collection) (file : String × Path) :
    (addToCollection collection file).Uses P := by
  refine Uses.bind (uses_asking (.fs (.absolute file.2)) id (hP _ trivial)) fun _ ↦ ?_
  refine Uses.bind (uses_asking (.store (.addPath _)) id (hlook _ trivial)) fun tag ↦ ?_
  exact (uses_ask (hP (.dropTempTag tag) trivial)).bind fun _ ↦ trivial

theorem uses_importDirectory (env : Env) (dir : Path) : (importDirectory env dir).Uses P := by
  refine (uses_ask (hlook (.walkDir dir) trivial)).bind fun entries ↦ ?_
  refine (Uses.foldlM (uses_addToCollection hP hlook) _ _).bind fun collection ↦ ?_
  exact (uses_storeCollection hP env collection).bind fun tag ↦ uses_pin hP ..

theorem uses_importPath (env : Env) (path : Path) : (importPath env path).Uses P := by
  refine (uses_ask (hlook (.isDir path) trivial)).bind fun isDirectory ↦ ?_
  cases isDirectory with
  | true => exact uses_importDirectory hP hlook env path
  | false => exact uses_importFile hP hlook path

end Node

end Imports

section Gathering

variable {P : Call → Prop}

theorem uses_store {c : StoreCall} (hc : P (.store c)) : (store c).Uses P := uses_asking (.store c) id hc

theorem uses_net {c : NetCall} (hc : P (.net c)) : (net c).Uses P := uses_asking (.net c) id hc

variable (hP : ∀ c : Call, c.Gathers → P c)
include hP

namespace RingReceiver

theorem uses_isComplete (hash : Hash) : (isComplete hash).Uses P := by
  refine (uses_store (hP _ (by trivial))).attempt.bind fun r ↦ ?_
  split <;> trivial

variable {onProgress : OnProgress} (hon : ∀ e, (onProgress e).Uses P)
include hon

omit hP in
theorem uses_report (reported : Bool) (e : ProgressEvent) :
    (report (if reported then some onProgress else none) e).Uses P := by
  cases reported with
  | true => exact hon e
  | false => trivial

theorem uses_importBao (hash : Hash) (size : UInt64) (stream : RecvStream) (reported : Bool) :
    (importBao hash size stream (if reported then some onProgress else none)).Uses P := by
  unfold importBao
  split
  · trivial
  · refine (uses_context (uses_store (hP _ (by trivial)))).bind fun _ ↦ ?_
    refine (uses_ask (hP (.decode hash size stream) trivial)).bind fun result ↦ ?_
    refine (Uses.forM (fun leaf ↦ uses_report hon reported _) result.leaves).bind fun _ ↦ ?_
    exact (uses_context (uses_ofExcept _)).bind fun _ ↦ uses_context (uses_ofExcept _)

theorem uses_fetchBlob (env : Env) (hash : Hash) (reported : Bool) :
    (fetchBlob env hash (if reported then some onProgress else none)).Uses P := by
  refine (uses_isComplete hP hash).bind fun complete ↦ ?_
  cases complete with
  | true => trivial
  | false =>
    refine (uses_net (hP _ (by trivial))).bind fun _ ↦ ?_
    refine (uses_net (hP _ (by trivial))).bind fun _ ↦ ?_
    refine (uses_net (hP _ (by exact rfl))).bind fun _ ↦ ?_
    refine (uses_net (hP _ (by trivial))).bind fun _ ↦ ?_
    refine (uses_ask (hP .recv trivial)).bind fun stream ↦ ?_
    refine (uses_context (uses_ofExcept _)).bind fun r ↦ ?_
    dsimp only
    split
    · trivial
    · trivial
    · trivial
    · refine (uses_context (uses_ofExcept _)).bind fun r ↦ ?_
      exact (uses_report hon reported _).bind fun _ ↦ uses_importBao hP hon _ _ _ reported

theorem uses_fetchCollection (env : Env) (hash : Hash) : (fetchCollection env onProgress hash).Uses P := by
  refine (uses_context (uses_store (hP _ (by trivial)))).bind fun root ↦ ?_
  refine (uses_ofExcept _).bind fun links ↦ ?_
  have hmeta : (links.head?.forM (fun metaHash ↦ fetchBlob env metaHash none)).Uses P := by
    cases links.head? with
    | none => trivial
    | some metaHash => exact uses_fetchBlob hP hon env metaHash false
  refine hmeta.bind fun _ ↦ ?_
  refine (uses_context (uses_store (hP _ (by trivial)))).bind fun collection ↦ ?_
  refine Uses.forM (fun member ↦ ?_) _
  exact (hon _).bind fun _ ↦ uses_fetchBlob hP hon env member.1.2 true

end RingReceiver

end Gathering

section Silent

variable {P : Call → Prop} (hP : ∀ c : Call, c.Silent → P c)
include hP

theorem uses_registry {c : RegistryCall} : (registry c).Uses P :=
  uses_asking (.registry c) id (hP _ trivial)

theorem uses_peers {c : PeersCall} : (peers c).Uses P := uses_asking (.peers c) id (hP _ trivial)

theorem uses_grants {c : GrantsCall} : (grants c).Uses P := uses_asking (.grants c) id (hP _ trivial)

theorem uses_fs {c : FsCall} : (fs c).Uses P := uses_asking (.fs c) id (hP _ trivial)

theorem uses_now : now.Uses P := uses_ask (hP _ trivial)

theorem uses_endpointAddr : endpointAddr.Uses P := uses_ask (hP _ trivial)

theorem uses_dropTempTag (tag : TempTag) : (dropTempTag tag).Uses P := uses_ask (hP _ trivial)

namespace Node

theorem uses_listTags : Node.listTags.Uses P :=
  (uses_store (hP _ (by trivial))).bind fun _ ↦ uses_ofExcept _

theorem uses_deleteBlob (hdelete : ∀ key, P (.store (.deleteTag key))) (hash : Hash) :
    (deleteBlob hash).Uses P := by
  refine (uses_listTags hP).bind fun infos ↦ ?_
  dsimp only
  split
  · trivial
  · exact Uses.forM (fun name ↦ uses_context (uses_asking (.store (.deleteTag name)) id (hdelete name))) _

theorem uses_makeTicket (hash : Hash) (format : BlobFormat) (name : Option String) :
    (makeTicket hash format name).Uses P :=
  (uses_endpointAddr hP).bind fun _ ↦ trivial

omit hP in
theorem uses_filterAction {α : Type} {keep : α → Action Bool} (hkeep : ∀ x, (keep x).Uses P)
    (xs : List α) : (filterAction keep xs).Uses P := by
  refine Uses.foldlM (fun kept x ↦ (hkeep x).bind fun kept ↦ ?_) xs []
  split <;> trivial

theorem uses_inRing (peer : EndpointId) (ring : Ring) : (inRing peer ring).Uses P := by
  refine (uses_registry hP).attempt.bind fun r ↦ ?_
  cases r <;> trivial

theorem uses_peerRingSet (env : Env) (peer : String) : (peerRingSet env peer).Uses P := by
  refine (uses_ofExcept _).bind fun peerId ↦ ?_
  refine (uses_registry hP).bind fun rings ↦ ?_
  exact (uses_filterAction (uses_inRing hP peerId) _).bind fun _ ↦ trivial

theorem uses_passes (peerRings ringNames : Option (List String)) (info : TagInfo) :
    (passes peerRings ringNames info).Uses P := by
  refine (uses_registry hP).attempt.bind fun r ↦ ?_
  cases r <;> trivial

theorem uses_retained (peerRings ringNames : Option (List String)) (raw : List TagInfo) :
    (retained peerRings ringNames raw).Uses P := by
  unfold retained
  split
  · exact uses_filterAction (uses_passes hP peerRings ringNames) raw
  · trivial

theorem uses_statusSize (hash : Hash) : (Catalog.statusSize hash).Uses P := by
  refine (uses_store (hP _ (by trivial))).attempt.bind fun r ↦ ?_
  split <;> trivial

theorem uses_sumSizes (hashes : List Hash) (sum : UInt64) : (Catalog.sumSizes hashes sum).Uses P := by
  induction hashes generalizing sum with
  | nil => trivial
  | cons hash rest ih =>
    refine (uses_statusSize hP hash).bind fun size ↦ ?_
    cases size with
    | some size => exact ih _
    | none => trivial

theorem uses_fileCountAndSize (hash : Hash) (format : BlobFormat) :
    (Catalog.fileCountAndSize hash format).Uses P := by
  cases format with
  | raw => exact (uses_statusSize hP hash).bind fun _ ↦ trivial
  | hashSeq =>
    refine (uses_store (hP _ (by trivial))).attempt.bind fun r ↦ ?_
    cases r with
    | ok collection => exact (uses_sumSizes hP _ 0).bind fun _ ↦ trivial
    | error e => trivial

theorem uses_describeAll (infos : List TagInfo) : (describeAll infos).Uses P := by
  refine Uses.foldlM (fun blobs info ↦ ?_) infos []
  have hdescribe : (describe info).Uses P :=
    (uses_fileCountAndSize hP info.hash info.format).bind fun _ ↦ trivial
  exact hdescribe.bind fun _ ↦ trivial

theorem uses_listBlobs (env : Env) (peer : Option String) (rings : Option (List String)) :
    (listBlobs env peer rings).Uses P := by
  refine (uses_listTags hP).bind fun raw ↦ ?_
  cases peer with
  | none => exact (uses_retained hP none rings raw).bind fun infos ↦ uses_describeAll hP infos
  | some s =>
    have hset : (some <$> peerRingSet env s).Uses P := by
      rw [map_eq_pure_bind]
      exact (uses_peerRingSet hP env s).bind fun _ ↦ trivial
    exact hset.bind fun pset ↦ (uses_retained hP pset rings raw).bind fun infos ↦ uses_describeAll hP infos

theorem uses_catalogConnect (env : Env) (addr : EndpointAddr) : (catalogConnect env addr).Uses P := by
  refine (uses_net (hP _ (by trivial))).mapError.bind fun _ ↦ ?_
  refine (uses_context (uses_net (hP _ (by trivial)))).bind fun _ ↦ ?_
  refine (uses_context (uses_net (hP _ (by trivial)))).bind fun _ ↦ ?_
  refine (uses_net (hP _ (by trivial))).bind fun _ ↦ ?_
  refine (uses_ask (hP .recv trivial)).bind fun stream ↦ ?_
  refine (uses_context (uses_ofExcept _)).bind fun r ↦ ?_
  dsimp only
  split
  · trivial
  · exact uses_ofExcept _

end Node

namespace RingReceiver

theorem uses_createParent (target : Path) : (createParent target).Uses P := by
  unfold createParent
  split
  · exact uses_fs hP
  · trivial

theorem uses_exportPath (hlook : ∀ c : Call, c.Looks → P c) (hash : Hash) (name : Option String)
    (dest : Path) : (exportPath hash name dest).Uses P := by
  refine (uses_ask (hlook (.isDir dest) trivial)).bind fun isDirectory ↦ ?_
  cases isDirectory <;> exact uses_fs hP

theorem uses_export (hlook : ∀ c : Call, c.Looks → P c)
    (hexport : ∀ hash target, P (.store (.exportBlob hash target)))
    (hash : Hash) (format : BlobFormat) (name : Option String) (dest : Path) :
    («export» hash format name dest).Uses P := by
  refine (uses_exportPath hP hlook hash name dest).bind fun path ↦ ?_
  cases format with
  | raw => exact uses_context (uses_store (hexport hash path))
  | hashSeq =>
    refine (uses_fs hP).bind fun _ ↦ ?_
    refine (uses_context (uses_store (hP _ (by trivial)))).bind fun collection ↦ ?_
    refine Uses.forM (fun member ↦ ?_) collection
    exact (uses_createParent hP _).bind fun _ ↦ uses_context (uses_store (hexport _ _))

section Progress

variable {onProgress : OnProgress} (hon : ∀ e, (onProgress e).Uses P)
include hon

theorem uses_download (hlook : ∀ c : Call, c.Looks → P c)
    (hexport : ∀ hash target, P (.store (.exportBlob hash target))) (env : Env) (hash : Hash)
    (format : BlobFormat) (name : Option String) (dest : Path) :
    (download env hash format name dest onProgress).Uses P := by
  have hG : ∀ c : Call, c.Gathers → P c := fun c h ↦ hP c h.silent
  have hrest : (do
      if format = .hashSeq then fetchCollection env onProgress hash
      «export» hash format name dest : Action Unit).Uses P := by
    dsimp only
    split
    · exact (uses_fetchCollection hG hon env hash).bind fun _ ↦ uses_export hP hlook hexport hash format name dest
    · exact uses_export hP hlook hexport hash format name dest
  refine (uses_isComplete hG hash).bind fun complete ↦ ?_
  cases complete with
  | true => exact hrest
  | false =>
    have hroot := uses_fetchBlob hG hon env hash (decide (format = .raw))
    simp only [decide_eq_true_eq] at hroot
    exact hroot.bind fun _ ↦ hrest

end Progress

end RingReceiver

theorem Node.uses_download {onProgress : RingReceiver.OnProgress} (hon : ∀ e, (onProgress e).Uses P)
    (hlook : ∀ c : Call, c.Looks → P c) (hexport : ∀ hash target, P (.store (.exportBlob hash target)))
    (env : Env) (ticket : ShareTicket) (dest : Path) :
    (Node.download env ticket dest onProgress).Uses P := by
  have hfetch : (do
      context "creating download scope" (store .batch)
      let guard ← context "creating temp tag" (store (.tempTag ⟨ticket.hash, ticket.format⟩))
      let result ← (do
        context "connecting to sender" (net (.connect ticket.addr .rings))
        RingReceiver.download env ticket.hash ticket.format ticket.name dest onProgress).attempt
      dropTempTag guard
      .ofExcept result : Action Unit).Uses P := by
    refine (uses_context (uses_store (hP _ (by trivial)))).bind fun _ ↦ ?_
    refine (uses_context (uses_store (hP _ (by trivial)))).bind fun guard ↦ ?_
    refine Uses.bind (Uses.attempt ?_) fun result ↦ ?_
    · exact (uses_context (uses_net (hP _ (by trivial)))).bind fun _ ↦ RingReceiver.uses_download hP hon hlook hexport ..
    · exact (uses_dropTempTag hP guard).bind fun _ ↦ uses_ofExcept result
  unfold Node.download
  dsimp only
  split
  · refine (RingReceiver.uses_isComplete (fun c h ↦ hP c h.silent) ticket.hash).bind fun skip ↦ ?_
    cases skip with
    | true => exact RingReceiver.uses_export hP hlook hexport ..
    | false => exact hfetch
  · exact hfetch

end Silent

section Kept

variable {σ : Type} {R : (c : Call) → σ → c.Ans → σ → Prop} {I : σ → Prop} {P : Call → Prop} {s : σ}
  (hP : ∀ c : Call, c.Gathers → P c) (hI : ∀ c s a s', P c → I s → R c s a s' → I s')
  {onProgress : RingReceiver.OnProgress} (hon : ∀ e, (onProgress e).Uses P)
  {env : Env} {name : Option String} {dest : Path}
include hP hI hon

theorem RingReceiver.wpc_download {hash : Hash} {format : BlobFormat}
    (hexport : ∀ s, I s → («export» hash format name dest).wpc R I (fun _ _ ↦ True) s) (h : I s) :
    (download env hash format name dest onProgress).wpc R I (fun _ _ ↦ True) s := by
  have hrest : ∀ s, I s → (do
      if format = .hashSeq then fetchCollection env onProgress hash
      «export» hash format name dest : Action Unit).wpc R I (fun _ _ ↦ True) s := by
    intro s h
    dsimp only
    split
    · apply wpc_bind
      have hcollection := uses_fetchCollection hP hon env hash
      exact wpc_mono (hcollection.wpc_invariant hI h) fun _ s' h' _ ↦ hexport s' h'
    · exact hexport s h
  apply wpc_bind
  refine wpc_mono ((uses_isComplete hP hash).wpc_invariant hI h) fun complete s₁ h₁ _ ↦ ?_
  cases complete with
  | true => exact hrest s₁ h₁
  | false =>
    have hroot := uses_fetchBlob hP hon env hash (decide (format = .raw))
    simp only [decide_eq_true_eq] at hroot
    apply wpc_bind
    exact wpc_mono (hroot.wpc_invariant hI h₁) fun _ s₂ h₂ _ ↦ hrest s₂ h₂

theorem Node.wpc_download {ticket : ShareTicket}
    (hexport : ∀ s, I s →
      (RingReceiver.«export» ticket.hash ticket.format ticket.name dest).wpc R I (fun _ _ ↦ True) s)
    (h : I s) : (Node.download env ticket dest onProgress).wpc R I (fun _ _ ↦ True) s := by
  have hfetch : ∀ s, I s → (do
      context "creating download scope" (store .batch)
      let guard ← context "creating temp tag" (store (.tempTag ⟨ticket.hash, ticket.format⟩))
      let result ← (do
        context "connecting to sender" (net (.connect ticket.addr .rings))
        RingReceiver.download env ticket.hash ticket.format ticket.name dest onProgress).attempt
      dropTempTag guard
      .ofExcept result : Action Unit).wpc R I (fun _ _ ↦ True) s := by
    intro s h
    have hscope : (context "creating download scope" (store .batch)).Uses P :=
      uses_context (uses_store (hP _ trivial))
    apply wpc_bind
    refine wpc_mono (hscope.wpc_invariant hI h) fun _ s₁ h₁ _ ↦ ?_
    have htag : (context "creating temp tag" (store (.tempTag ⟨ticket.hash, ticket.format⟩))).Uses P :=
      uses_context (uses_store (hP _ trivial))
    apply wpc_bind
    refine wpc_mono (htag.wpc_invariant hI h₁) fun guard s₂ h₂ _ ↦ ?_
    have hdrop : ∀ s, I s → (dropTempTag guard).wpc R I (fun _ _ ↦ True) s :=
      fun s h ↦ (uses_ask (hP (.dropTempTag guard) trivial)).wpc_invariant hI h
    refine wpc_finally ?_ hdrop
    have hconnect : (context "connecting to sender" (net (.connect ticket.addr .rings))).Uses P :=
      uses_context (uses_net (hP _ trivial))
    apply wpc_bind
    refine wpc_mono (hconnect.wpc_invariant hI h₂) fun _ s₃ h₃ _ ↦ ?_
    refine wpc_mono (RingReceiver.wpc_download hP hI hon hexport h₃) fun _ s₄ h₄ _ ↦ ?_
    exact hdrop s₄ h₄
  unfold Node.download
  dsimp only
  split
  · apply wpc_bind
    refine wpc_mono ((RingReceiver.uses_isComplete hP ticket.hash).wpc_invariant hI h) fun skip s₁ h₁ _ ↦ ?_
    cases skip with
    | true => exact hexport s₁ h₁
    | false => exact hfetch s₁ h₁
  · exact hfetch s h

end Kept

theorem Node.uses_download_transfers (env : Env) (ticket : ShareTicket) (dest : Path) :
    (Node.download env ticket dest (fun e ↦ Program.ask (Call.progress e))).Uses Call.Transfers :=
  Node.uses_download (fun _ hc ↦ .inl hc) (fun e ↦ uses_ask (.inr (.inr (.inl ⟨e, rfl⟩))))
    (fun _ hc ↦ .inr (.inl hc)) (fun hash target ↦ .inr (.inr (.inr ⟨hash, target, rfl⟩))) env ticket dest

end Ringdrop
