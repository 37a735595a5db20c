import Ringdrop.Core.Cells
import Ringdrop.Daemon.Footprint

namespace Ringdrop

open Library Program Handlers Server

/-- What a daemon works on: a request of a client, or a catalog connection of a peer with the
stream it opens. -/
inductive Job
  | request (reqId : Uuid) (op : Op)
  | catalog (peer : EndpointId) (accepted : Except Error RecvStream)

namespace Job

def program (env : Env) (defaultReceiveDir : Option Path) : Job → Action (Except Error Unit)
  | request reqId op => dispatch env defaultReceiveDir reqId op
  | catalog peer accepted => (Catalog.handle env peer accepted).attempt

def Asks (p : Op → Prop) : Job → Prop
  | request _ op => p op
  | catalog _ _ => False

end Job

abbrev Jobs (ι : Type) := Pool ι NodeState Error Call Call.Ans (Except Error Unit)

def Jobs.waiting {ι : Type} (env : Env) (defaultReceiveDir : Option Path) (s : NodeState) (jobs : ι → Job) : Jobs ι :=
  Pool.start s fun i ↦ (jobs i).program env defaultReceiveDir

def Jobs.isDone {ι : Type} (x : Jobs ι) (i : ι) : Bool :=
  match (x.threads i).prog with
  | .ret (.ok _) => true
  | _ => false

theorem Jobs.prog_of_isDone {ι : Type} {x : Jobs ι} {i : ι} (h : x.isDone i = true) :
    (x.threads i).prog = .ret (.ok ()) := by
  rw [Jobs.isDone] at h
  split at h
  next heq => exact heq
  next => cases h

theorem Jobs.reaches_schedule {ι : Type} [DecidableEq ι] {around : NodeState → NodeState → Prop} (is : List ι)
    (x : Jobs ι) : Pool.Reaches Answers around (fun _ _ _ ↦ True) x (Pool.schedule exec is x) :=
  (Pool.reaches_schedule is x (Pool.scheduleChecked_true is x)).mono (fun _ _ _ _ ↦ answers_of_graph)
    fun _ _ _ _ ↦ trivial

def Op.Sets (env : Env) (own : EndpointId) (op : Op) : (k : Cell) → k.Val → Prop
  | .ring name, v => op = .ringNew name ∧ v = true
  | .member ring peer, some expiresAt => op.Joins env own ring peer expiresAt
  | .member ring peer, none => op.Leaves env ring peer
  | .association _ ring, some perms => op.Attaches ring ∧ perms = [.read]
  | .association _ _, none => op.Detaches ∨ op.RemovesBlob
  | .grant privilege peer, true => op.Grants env privilege peer
  | .grant privilege peer, false => op.Revokes env privilege peer ∨ op.Forgets env peer
  | .peer peer, some nickname => op.Registers env peer nickname
  | .peer peer, none => op.Forgets env peer
  | .tag _, some _ => op.Pins
  | .tag _, none => op.RemovesBlob

section Catalog

variable {P : Call → Prop} (hP : ∀ c : Call, c.Views → P c)
include hP

theorem uses_writeEntry_views (hash : Hash) (format : BlobFormat) (name ticketUri : String) (fileCount : Option ℕ)
    (totalSize : Option UInt64) : (Catalog.writeEntry hash format name ticketUri fileCount totalSize).Uses P := by
  have hnet : ∀ c, (net c).Uses P := fun c ↦ uses_asked hP (.net c) id trivial
  have hprefixed : ∀ data, (Catalog.writeLengthPrefixed data).Uses P := by
    intro data
    unfold Catalog.writeLengthPrefixed
    split
    · exact (hnet _).bind fun _ ↦ hnet _
    · trivial
  refine (uses_context (hnet _)).bind fun _ ↦ (uses_context (hnet _)).bind fun _ ↦ ?_
  refine (uses_context (hprefixed _)).bind fun _ ↦ (uses_context (hprefixed _)).bind fun _ ↦ ?_
  exact (uses_context (hnet _)).bind fun _ ↦ uses_context (hnet _)

theorem uses_streamTag_views (env : Env) (peer : EndpointId) (addr : EndpointAddr) (item : Except Error TagInfo) :
    (Catalog.streamTag env peer addr item).Uses P := by
  refine (uses_ofExcept _).bind fun info ↦ ?_
  refine (uses_asked hP (.registry (.hasPermission peer info.hash .read)) id trivial).attempt.bind fun r ↦ ?_
  split
  · refine (uses_ofExcept _).bind fun ticketUri ↦ ?_
    refine (Node.uses_fileCountAndSize_views hP _ _).bind fun sizes ↦ ?_
    exact uses_writeEntry_views hP _ _ _ _ _ _
  · trivial

theorem uses_catalogHandle_views (env : Env) (peer : EndpointId) (accepted : Except Error RecvStream) :
    (Catalog.handle env peer accepted).Uses P := by
  have hnet : ∀ c, (net c).Uses P := fun c ↦ uses_asked hP (.net c) id trivial
  refine (uses_context (uses_ofExcept _)).bind fun stream ↦ (uses_context (uses_ofExcept _)).bind fun r ↦ ?_
  dsimp only
  split
  · refine Uses.bind (uses_asked hP (.grants (.get .blobList peer)) id trivial) fun granted ↦ ?_
    split
    · refine (hnet _).bind fun _ ↦ Uses.bind (uses_ask (hP .endpointAddr trivial)) fun addr ↦ ?_
      refine Uses.bind (uses_asked hP (.store .listTags) id trivial) fun items ↦ ?_
      exact (Uses.forM (uses_streamTag_views hP env peer _) items).bind fun _ ↦ hnet _
    · exact (hnet _).bind fun _ ↦ hnet _
  · exact (hnet _).bind fun _ ↦ hnet _

end Catalog

section Accounts

variable {ι : Type} [DecidableEq ι] {env : Env} {defaultReceiveDir : Option Path} {s : NodeState} {jobs : ι → Job}

def Job.Permits (env : Env) (own : EndpointId) (known : Hash → String → List Permission → Prop) : Job → Call → Prop
  | .request _ op => op.Permits env own known
  | .catalog _ _ => Call.Views

theorem within_attempt {α : Type} {H : (c : Call) → c.Ans → Prop} {P : Call → Prop} {p : Action α}
    (h : p.Within H P fun _ ↦ True) : p.attempt.Within H P fun _ ↦ True := by
  induction p with
  | ret v => trivial
  | fail e => trivial
  | call c k ih => exact ⟨h.1, fun a ha ↦ ih a (h.2 a ha)⟩

theorem within_program {own : EndpointId} {known : Hash → String → List Permission → Prop} (job : Job) :
    (job.program env defaultReceiveDir).Within (Told own known) (job.Permits env own known) fun _ ↦ True := by
  cases job with
  | catalog peer accepted => exact (uses_catalogHandle_views (fun _ h ↦ h) env peer accepted).attempt.within
  | request reqId op =>
    have hsend : ∀ (op : Op) e, (send e).Within (Told own known) (op.Permits env own known) fun _ ↦ True :=
      fun op e ↦ within_ask (Op.permits_of_views trivial) fun _ _ ↦ trivial
    have hhandled := within_attempt (@within_handleOp env own known defaultReceiveDir reqId op)
    cases op with
    | shutdown =>
      refine (hsend .shutdown _).bind fun _ _ ↦ Within.bind (Q := fun _ ↦ True) ?_ fun _ _ ↦ trivial
      exact within_ask (Op.permits_of_views trivial) fun _ _ ↦ trivial
    | _ =>
      refine hhandled.bind fun r _ ↦ ?_
      cases r with
      | ok u => trivial
      | error e => exact (hsend _ _).bind fun _ _ ↦ trivial

/-- An entry has the value it had at first or one that a request has set it to. -/
def Accounted (env : Env) (s : NodeState) (jobs : ι → Job) (k : Cell) (v : k.Val) : Prop :=
  v = s.cell k ∨ ∃ i, (jobs i).Asks (fun op ↦ op.Sets env s.endpoint.id k v)

def Known (env : Env) (s : NodeState) (jobs : ι → Job) (res : Hash) (ring : String) (perms : List Permission) : Prop :=
  Accounted env s jobs (.association res ring) (some perms)

/-- The job may put back the association, which it has come across. -/
def Job.Restores (known : Hash → String → List Permission → Prop) (job : Job) : (k : Cell) → k.Val → Prop
  | .association res ring, some perms => known res ring perms ∧ job.Asks fun op ↦ op.Restores ring
  | _, _ => False

omit [DecidableEq ι] in
theorem Job.sets_or_restores {own : EndpointId} {known : Hash → String → List Permission → Prop} {job : Job} {c : Call}
    {k : Cell} {v : k.Val} (hc : job.Permits env own known c) (hw : c.Writes k v) :
    (job.Asks fun op ↦ op.Sets env own k v) ∨ job.Restores known k v := by
  cases job with
  | catalog peer accepted =>
    have hviews : ∀ (c : Call) (v : k.Val), c.Views → ¬ c.Writes k v := by
      intro c v hviews hw
      cases c with
      | registry c => cases c <;> first | exact hviews | exact hw
      | peers c => cases c <;> first | exact hviews | exact hw
      | grants c => cases c <;> first | exact hviews | exact hw
      | store c => cases c <;> first | exact hviews | exact hw
      | _ => exact hw
    exact absurd hw (hviews c v hc)
  | request reqId op =>
    cases c with
    | registry c =>
      cases c with
      | createRing name =>
        cases k with
        | ring name' =>
          obtain ⟨rfl, rfl⟩ := hw
          exact .inl ⟨hc, rfl⟩
        | _ => exact hw.elim
      | addPeerToRing ring peer expiresAt =>
        cases k with
        | member ring' peer' =>
          obtain ⟨rfl, rfl, rfl⟩ := hw
          exact .inl hc
        | _ => exact hw.elim
      | removePeerFromRing ring peer =>
        cases k with
        | member ring' peer' =>
          obtain ⟨rfl, rfl, rfl⟩ := hw
          exact .inl hc
        | _ => exact hw.elim
      | addRingToResource res ring perms =>
        cases k with
        | association res' ring' =>
          obtain ⟨rfl, rfl, rfl⟩ := hw
          rcases hc with ⟨rfl, hattaches⟩ | ⟨hrestores, hknown⟩
          · exact .inl ⟨hattaches, rfl⟩
          · exact .inr ⟨hknown, hrestores⟩
        | _ => exact hw.elim
      | removeRingFromResource res =>
        cases k with
        | association res' ring' =>
          obtain ⟨rfl, rfl⟩ := hw
          exact .inl hc
        | _ => exact hw.elim
      | _ => exact hw.elim
    | peers c =>
      cases c with
      | insert peer nickname =>
        cases k with
        | peer peer' =>
          obtain ⟨rfl, rfl⟩ := hw
          exact .inl hc
        | _ => exact hw.elim
      | remove peer =>
        cases k with
        | peer peer' =>
          obtain ⟨rfl, rfl⟩ := hw
          exact .inl hc
        | _ => exact hw.elim
      | _ => exact hw.elim
    | grants c =>
      cases c with
      | insert privilege peer =>
        cases k with
        | grant privilege' peer' =>
          obtain ⟨rfl, rfl, rfl⟩ := hw
          exact .inl hc
        | _ => exact hw.elim
      | remove privilege peer =>
        cases k with
        | grant privilege' peer' =>
          obtain ⟨rfl, rfl, rfl⟩ := hw
          exact .inl hc
        | _ => exact hw.elim
      | _ => exact hw.elim
    | store c =>
      cases c with
      | setTag key value =>
        cases k with
        | tag key' =>
          obtain ⟨rfl, rfl⟩ := hw
          exact .inl hc
        | _ => exact hw.elim
      | deleteTag key =>
        cases k with
        | tag key' =>
          obtain ⟨rfl, rfl⟩ := hw
          exact .inl hc
        | _ => exact hw.elim
      | _ => exact hw.elim
    | _ => exact hw.elim

omit [DecidableEq ι] in
theorem accounted_of_writes {i : ι} {c : Call} {k : Cell} {v : k.Val}
    (hc : (jobs i).Permits env s.endpoint.id (Known env s jobs) c) (hw : c.Writes k v) : Accounted env s jobs k v := by
  rcases Job.sets_or_restores hc hw with hsets | hrestores
  · exact .inr ⟨i, hsets⟩
  · cases k with
    | association res ring =>
      cases v with
      | some perms => exact hrestores.1
      | none => exact hrestores.elim
    | _ => exact hrestores.elim

/-- What goes on at a node besides the jobs of its daemon leaves the tables alone: time
passes, files change, blobs are collected. -/
abbrev Elsewhere : NodeState → NodeState → Prop := SameTables

theorem endpoint_clock_answers {c : Call} {a : c.Ans} {s s' : NodeState} (h : Answers c s a s') :
    s'.endpoint = s.endpoint ∧ s'.clock = s.clock := by
  cases h with
  | exec =>
    cases c with
    | store c =>
      cases c <;> simp only [exec, StoreCall.exec] <;> repeat' split
      all_goals simp
    | net c => cases c <;> exact ⟨rfl, rfl⟩
    | _ => exact ⟨rfl, rfl⟩
  | decoded ht => cases ht <;> exact ⟨rfl, rfl⟩
  | _ => exact ⟨rfl, rfl⟩

theorem endpoint_answers {c : Call} {a : c.Ans} {s s' : NodeState} (h : Answers c s a s') : s'.endpoint = s.endpoint :=
  (endpoint_clock_answers h).1

theorem told_answers {own : EndpointId} {known : Hash → String → List Permission → Prop} {c : Call} {a : c.Ans}
    {s s' : NodeState} (hown : s.endpoint.id = own)
    (hknown : ∀ res ring perms, s.cell (.association res ring) = some perms → known res ring perms)
    (h : Answers c s a s') : Told own known c a := by
  cases c with
  | endpointAddr =>
    cases h with
    | exec => exact hown
    | refused s e hr => cases hr
  | registry c =>
    cases c with
    | listResourceRings res =>
      rcases answers_registry h with ⟨rfl, -⟩ | ⟨⟨e, rfl⟩, -⟩
      · intro r hr
        exact hknown res r.1.name r.2 (Registry.mem_listResourceRings.mp hr)
      · trivial
    | _ => trivial
  | _ => trivial

/-- Whatever requests and catalog connections a daemon works on, in whatever order their calls
come, whichever of them fail and whatever other nodes send: every entry of the tables has the
value it had at first or one that a request has set it to. -/
theorem accounted {x : Jobs ι} (h : Pool.Reaches Answers Elsewhere (fun _ _ _ ↦ True)
    (Jobs.waiting env defaultReceiveDir s jobs) x) (k : Cell) : Accounted env s jobs k (x.state.cell k) := by
  have hinvariant := h.within (H := Told s.endpoint.id (Known env s jobs))
    (P := fun i ↦ (jobs i).Permits env s.endpoint.id (Known env s jobs))
    (I := fun s' ↦ s'.endpoint = s.endpoint ∧ ∀ k, Accounted env s jobs k (s'.cell k))
    ⟨rfl, fun k ↦ .inl rfl⟩ (fun i ↦ within_program (jobs i)) ?_ ?_
  · exact hinvariant.1.2 k
  · intro i c s₁ a s₂ hc hs₁ ha
    have hassociations : ∀ res ring perms, s₁.cell (.association res ring) = some perms →
        Known env s jobs res ring perms := by
      intro res ring perms hrow
      have hrow' := hs₁.2 (.association res ring)
      rwa [hrow] at hrow'
    refine ⟨told_answers (congrArg EndpointAddr.id hs₁.1) hassociations ha, (endpoint_answers ha).trans hs₁.1, fun k ↦ ?_⟩
    rcases rewritten_answers ha k with hsame | hwritten
    · rw [hsame]
      exact hs₁.2 k
    · exact accounted_of_writes hc hwritten
  · intro s₁ s₂ hs₁ hsame
    refine ⟨hsame.endpoint.trans hs₁.1, fun k ↦ ?_⟩
    rw [cell_of_sameTables hsame k]
    exact hs₁.2 k

omit [DecidableEq ι] in
theorem hasPermission_iff_cells {s : NodeState} {now : SystemTime} {peer : EndpointId} {res : Hash} {perm : Permission} :
    s.registry.hasPermission now peer res perm = true ↔
      ∃ ring perms, s.cell (.association res ring) = some perms ∧ perm ∈ perms ∧
        (ring = openRingName ∨ ∃ expiresAt, s.cell (.member ring peer) = some expiresAt ∧ live now expiresAt = true) := by
  rw [Registry.hasPermission, List.any_eq_true]
  constructor
  · intro h
    obtain ⟨⟨⟨ring⟩, perms⟩, hrow, hallowed⟩ := h
    obtain ⟨hperm, hring⟩ := Bool.and_eq_true_iff.mp hallowed
    refine ⟨ring, perms, Registry.mem_listResourceRings.mp hrow, by simpa using hperm, ?_⟩
    rcases Bool.or_eq_true_iff.mp hring with hopen | hlive
    · exact .inl (beq_iff_eq.mp hopen)
    · exact .inr (Registry.isLiveMember_iff.mp hlive)
  · intro h
    obtain ⟨ring, perms, hrow, hperm, hring⟩ := h
    refine ⟨(⟨ring⟩, perms), Registry.mem_listResourceRings.mpr hrow, Bool.and_eq_true_iff.mpr ⟨by simpa using hperm, ?_⟩⟩
    refine Bool.or_eq_true_iff.mpr ?_
    rcases hring with hopen | ⟨expiresAt, hmember, hlive⟩
    · exact .inl (beq_iff_eq.mpr hopen)
    · exact .inr (Registry.isLiveMember_iff.mpr ⟨expiresAt, hmember, hlive⟩)

/-- The request changes what the peer is a member of, or what blobs are in which rings. -/
def Op.Concerns (env : Env) (own : EndpointId) (op : Op) (peer : EndpointId) : Prop :=
  (∃ ring expiresAt, op.Joins env own ring peer expiresAt) ∨ (∃ ring, op.Leaves env ring peer) ∨
    (∃ ring, op.Attaches ring) ∨ op.Detaches ∨ op.RemovesBlob

/-- What a peer is let in to changes with the time only, unless a request concerns the peer. -/
theorem access_unchanged {x : Jobs ι} (h : Pool.Reaches Answers Elsewhere (fun _ _ _ ↦ True)
    (Jobs.waiting env defaultReceiveDir s jobs) x) {peer : EndpointId}
    (hnone : ∀ i, ¬ (jobs i).Asks fun op ↦ op.Concerns env s.endpoint.id peer) (res : Hash) (perm : Permission) :
    x.state.registry.hasPermission x.state.clock peer res perm = s.registry.hasPermission x.state.clock peer res perm := by
  have hkept : ∀ k : Cell, (∀ v, ¬ ∃ i, (jobs i).Asks fun op ↦ op.Sets env s.endpoint.id k v) →
      x.state.cell k = s.cell k := fun k hk ↦ (accounted h k).resolve_right (hk _)
  have hasks : ∀ {p : Op → Prop}, (∀ op, p op → op.Concerns env s.endpoint.id peer) → ¬ ∃ i, (jobs i).Asks p := by
    intro p hp ⟨i, hi⟩
    refine hnone i ?_
    cases hjob : jobs i with
    | catalog peer accepted => exact absurd hi (by rw [hjob]; exact id)
    | request reqId op =>
      rw [hjob] at hi
      exact hp op hi
  have hassociation : ∀ ring, x.state.cell (.association res ring) = s.cell (.association res ring) := by
    intro ring
    refine hkept _ fun v ↦ hasks fun op hop ↦ ?_
    cases v with
    | none => exact .inr (.inr (.inr hop))
    | some perms => exact .inr (.inr (.inl ⟨ring, hop.1⟩))
  have hmember : ∀ ring, x.state.cell (.member ring peer) = s.cell (.member ring peer) := by
    intro ring
    refine hkept _ fun v ↦ hasks fun op hop ↦ ?_
    cases v with
    | none => exact .inr (.inl ⟨ring, hop⟩)
    | some expiresAt => exact .inl ⟨ring, expiresAt, hop⟩
  rw [Bool.eq_iff_iff, hasPermission_iff_cells, hasPermission_iff_cells]
  simp only [hassociation, hmember]

end Accounts

section TwoJobs

def withFriends : NodeState := { emptyNode with registry := Registry.empty.setMembers "friends" ∅ }

def theHash : Hash := .fromByte 7

def attachAndAdd : Bool → Job
  | false => .request .nil (.blobAttach (toString theHash) ["friends"] false)
  | true => .request .nil (.ringAdd "friends" (toString (EndpointId.fromByte 1)) none)

def attachedAndAdded : Jobs Bool :=
  Pool.schedule exec ((List.replicate 8 [true, false]).flatten) (Jobs.waiting (.plain []) none withFriends attachAndAdd)

theorem reaches_attachedAndAdded {around : NodeState → NodeState → Prop} : Pool.Reaches Answers around
    (fun _ _ _ ↦ True) (Jobs.waiting (.plain []) none withFriends attachAndAdd) attachedAndAdded :=
  Jobs.reaches_schedule _ _

theorem accounted_attachedAndAdded :
    attachedAndAdded.state.cell (.member "friends" (.fromByte 1)) = some none ∧
      Accounted (.plain []) withFriends attachAndAdd (.member "friends" (.fromByte 1))
        (attachedAndAdded.state.cell (.member "friends" (.fromByte 1))) :=
  ⟨by decide +kernel, accounted reaches_attachedAndAdded _⟩

def newAndGrant : Bool → Job
  | false => .request .nil (.ringNew "others")
  | true => .request .nil (.grant (toString (EndpointId.fromByte 1)) "blob-list")

def madeAndGranted : Jobs Bool :=
  Pool.schedule exec ((List.replicate 8 [true, false]).flatten)
    (Jobs.waiting (.plain []) none attachedAndAdded.state newAndGrant)

theorem access_unchanged_madeAndGranted :
    madeAndGranted.state.registry.hasPermission madeAndGranted.state.clock (.fromByte 1) theHash .read =
      attachedAndAdded.state.registry.hasPermission madeAndGranted.state.clock (.fromByte 1) theHash .read := by
  have hreached : Pool.Reaches Answers Elsewhere (fun _ _ _ ↦ True)
      (Jobs.waiting (.plain []) none attachedAndAdded.state newAndGrant) madeAndGranted := Jobs.reaches_schedule _ _
  refine access_unchanged hreached (fun i hi ↦ ?_) theHash .read
  cases i <;> simp [newAndGrant, Job.Asks, Op.Concerns, Op.Joins, Op.Leaves, Op.Forgets, Op.Attaches, Op.Detaches,
    Op.RemovesBlob] at hi

end TwoJobs

end Ringdrop
