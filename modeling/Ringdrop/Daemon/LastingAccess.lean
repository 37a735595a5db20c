import Ringdrop.Daemon.CatalogDisclosure
import Ringdrop.Daemon.RequestEffect

namespace Ringdrop

open Library Program Handlers Server

section Access

variable {ι : Type} [DecidableEq ι] {env : Env} {defaultReceiveDir : Option Path} {s : NodeState} {jobs : ι → Job}
  {x y z : Jobs ι} {i j : ι} {reqId reqId' : Uuid} {op op' : Op} {text ring : String} {peer : EndpointId}

/-- The request lets the peer in: puts it in a ring, or grants it something. -/
def Op.LetsIn (env : Env) (own : EndpointId) (op : Op) (peer : EndpointId) : Prop :=
  (∃ ring expiresAt, op.Joins env own ring peer expiresAt) ∨ ∃ privilege, op.Grants env privilege peer

/-- The peer is a live member of no ring but the open one, and holds no grant. -/
structure Outside (s : NodeState) (peer : EndpointId) : Prop where
  members : ∀ ring, ring ≠ openRingName → ∀ e, s.cell (.member ring peer) = some e → live s.clock e = false
  grants : ∀ privilege, s.cell (.grant privilege peer) = false

theorem outside_of_removed (h : Succeeds env defaultReceiveDir s jobs y x i reqId (.peerRemove text))
    (hpeer : parsePeerId env text = .ok peer)
    (hnone : ∀ j, y.Running j → ¬ (jobs j).Asks fun op ↦ op.LetsIn env s.endpoint.id peer) : Outside x.state peer := by
  obtain ⟨hmembers, hgrants, -⟩ := settled_of_done h (by simp) (lasts_peerRemoveLines hpeer).bind_const
  constructor
  · intro ring hring
    rcases hmembers ring hring with hgone | ⟨j, hrunning, hwrites⟩
    · exact hgone
    · intro e he
      rw [he] at hwrites
      refine absurd (hwrites.mono fun op hop ↦ ?_) (hnone j hrunning)
      exact .inl ⟨ring, e, hop.1.resolve_right id⟩
  · intro privilege
    rcases hgrants privilege with hgone | ⟨j, hrunning, hwrites⟩
    · exact hgone
    · cases hheld : x.state.cell (.grant privilege peer) with
      | false => rfl
      | true =>
        rw [hheld] at hwrites
        refine absurd (hwrites.mono fun op hop ↦ ?_) (hnone j hrunning)
        exact .inr ⟨privilege, hop.1.resolve_right id⟩

/-- A peer that has been removed stays out, at every later moment and whatever else the daemon works on, as
long as no request lets it in that has not been done before: it gets at blobs of the open ring only, and a
catalog connection that it begins after its removal is sent nothing but the refusal. -/
theorem removed_stays_out (h : Succeeds env defaultReceiveDir s jobs z y i reqId (.peerRemove text))
    (hpeer : parsePeerId env text = .ok peer)
    (hnone : ∀ j, z.Running j → ¬ (jobs j).Asks fun op ↦ op.LetsIn env s.endpoint.id peer)
    (hyx : Pool.Reaches Answers Onwards (fun _ _ _ ↦ True) y x) :
    (∀ res perm, x.state.registry.hasPermission x.state.clock peer res perm = true →
      ∃ perms, (x.state.registry.associations res)[openRingName]? = some perms ∧ perm ∈ perms) ∧
    ∀ j accepted, y.Begins env j peer accepted → Catalog.sent (x.threads j).log <+: [Catalog.denied] := by
  have houtside : ∀ w : Jobs ι, Pool.Reaches Answers Onwards (fun _ _ _ ↦ True) y w → Outside w.state peer :=
    fun w hyw ↦ outside_of_removed (h.later hyw) hpeer hnone
  constructor
  · intro res perm hallowed
    obtain ⟨ring, perms, hrow, hperm, hring⟩ := hasPermission_iff_cells.mp hallowed
    by_cases hopen : ring = openRingName
    · exact ⟨perms, hopen ▸ hrow, hperm⟩
    · obtain ⟨e, hmember, hlive⟩ := hring.resolve_left hopen
      rw [(houtside x hyx).members ring hopen e hmember] at hlive
      cases hlive
  · intro j accepted hbegins
    have hdiscloses := wpc_invariant (wpc_connection (fun _ _ hs ↦ hs.1) hyx hbegins)
    rcases hdiscloses with hrefused | ⟨⟨w, hyw, -, hheld⟩, -⟩
    · exact hrefused
    · have hgone : w.state.localStore.hasGrant .blobList peer = false := (houtside w hyw).grants .blobList
      rw [hgone] at hheld
      cases hheld

def addAndRemove : Option Bool → Job
  | none => .request .nil (.ringAdd "friends" (toString (EndpointId.fromByte 1)) none)
  | some true => .request .nil (.peerRemove (toString (EndpointId.fromByte 1)))
  | some false => .catalog (.fromByte 1) (.ok ⟨[Catalog.blobList], none⟩)

def addedFriend : Jobs (Option Bool) :=
  Pool.schedule exec (List.replicate 8 none) (Jobs.waiting (.plain []) none withFriends addAndRemove)

def removedFriend : Jobs (Option Bool) := Pool.schedule exec (List.replicate 16 (some true)) addedFriend

def refusedFriend : Jobs (Option Bool) := Pool.schedule exec (List.replicate 16 (some false)) removedFriend

theorem removed_stays_out_refusedFriend :
    Catalog.sent (refusedFriend.threads (some false)).log = [Catalog.denied] ∧
    (∀ res perm, refusedFriend.state.registry.hasPermission refusedFriend.state.clock (.fromByte 1) res perm = true →
      ∃ perms, (refusedFriend.state.registry.associations res)[openRingName]? = some perms ∧ perm ∈ perms) ∧
    ∀ j accepted, removedFriend.Begins (.plain []) j (.fromByte 1) accepted →
      Catalog.sent (refusedFriend.threads j).log <+: [Catalog.denied] := by
  have hremoved : Succeeds (.plain []) none withFriends addAndRemove addedFriend removedFriend (some true) .nil
      (.peerRemove (toString (EndpointId.fromByte 1))) :=
    ⟨Jobs.reaches_schedule _ _, Jobs.reaches_schedule _ _, rfl, rfl, Jobs.prog_of_isDone (by decide +kernel)⟩
  refine ⟨by decide +kernel, removed_stays_out hremoved (by decide +kernel) (fun j hrunning hletsIn ↦ ?_)
    (Jobs.reaches_schedule _ _)⟩
  cases j with
  | none =>
    obtain ⟨c, k, hp⟩ := hrunning
    have hdone : (addedFriend.threads none).prog = .ret (.ok ()) := Jobs.prog_of_isDone (by decide +kernel)
    rw [hdone] at hp
    cases hp
  | some b =>
    cases b with
    | false => exact hletsIn
    | true =>
      rcases hletsIn with ⟨ring, expiresAt, -, -, p, secs, hop, -⟩ | ⟨privilege, p, q, hop, -⟩ <;> cases hop

theorem member_of_done (h : Succeeds env defaultReceiveDir s jobs y x i reqId op) {expiresAt : Option SystemTime}
    (hjoins : op.Joins env s.endpoint.id ring peer expiresAt)
    (hnone : ∀ j, y.Running j → ¬ (jobs j).Asks fun op ↦ op.Leaves env ring peer) :
    ∃ e, (x.state.registry.members ring)[peer]? = some e := by
  obtain ⟨hring, -, p, secs, rfl, hpeer, hexpiry⟩ := hjoins
  have hsettled := settled_of_done h (by simp) (Within.bind (Q := fun _ ↦ True) (within_const trivial)
    fun addr _ ↦ Lasts.bind_const (lasts_ringAddLines addr.id secs hring hpeer))
  rcases hsettled.1 expiresAt hexpiry with ⟨e, he, -⟩ | ⟨j, hrunning, hwrites⟩
  · exact ⟨e, he⟩
  · cases hmember : x.state.cell (.member ring peer) with
    | some e => exact ⟨e, hmember⟩
    | none =>
      rw [hmember] at hwrites
      exact absurd (hwrites.mono fun op hop ↦ hop.1.resolve_right id) (hnone j hrunning)

/-- Sharing works. Once a blob has been attached to a ring by one request and a peer put in the ring by
another, both of them done, in whatever order their calls have come and whatever else the daemon works on: the
peer may read the blob, as long as its membership has not run out and no request takes the peer or the
blob out of rings that has not been done before. -/
theorem shared_lets_in (hattached : Succeeds env defaultReceiveDir s jobs y x i reqId op) (hattaches : op.Attaches ring)
    (hadded : Succeeds env defaultReceiveDir s jobs z x j reqId' op') {expiresAt : Option SystemTime}
    (hjoins : op'.Joins env s.endpoint.id ring peer expiresAt)
    (hstays : ∀ k, z.Running k → ¬ (jobs k).Asks fun op ↦ op.Leaves env ring peer)
    (hlive : ∀ e, (x.state.registry.members ring)[peer]? = some e → live x.state.clock e = true) :
    ∃ res, op.Resolves env (x.threads i).log res ∧
      ((∀ k, y.Running k → ¬ (jobs k).Asks fun op ↦
          (op.Detaches ∨ op.RemovesBlob) ∧ op.Resolves env (x.threads k).log res) →
        x.state.registry.hasPermission x.state.clock peer res .read = true) := by
  obtain ⟨e, hmember⟩ := member_of_done hadded hjoins hstays
  obtain ⟨res, hresolves, hassociations⟩ := associations_of_done hattached
  refine ⟨res, hresolves, fun hkept ↦ hasPermission_iff_cells.mpr ?_⟩
  have hrow : x.state.cell (.association res ring) = some [.read] := by
    rcases (hassociations ring).1 hattaches with hrow | ⟨k, hrunning, hwrites⟩
    · exact hrow
    · cases hvalue : x.state.cell (.association res ring) with
      | none =>
        rw [hvalue] at hwrites
        exact absurd (hwrites.mono fun op hop ↦ ⟨hop.1.resolve_right id, hop.2⟩) (hkept k hrunning)
      | some perms =>
        rw [hvalue] at hwrites
        by_contra hperms
        refine hkept k hrunning (hwrites.mono fun op hop ↦ ⟨?_, hop.2⟩)
        rcases hop.1 with ⟨-, rfl⟩ | hrestores
        · exact absurd rfl hperms
        · cases op <;> first | exact .inl trivial | exact hrestores.elim
  exact ⟨ring, [.read], hrow, List.mem_singleton_self _, .inr ⟨e, hmember, hlive e hmember⟩⟩

theorem shared_lets_in_attachedAndAdded : ∃ res,
    (Op.blobAttach (toString theHash) ["friends"] false).Resolves (.plain []) (attachedAndAdded.threads false).log res ∧
      attachedAndAdded.state.registry.hasPermission attachedAndAdded.state.clock (.fromByte 1) res .read = true := by
  have hattached : Succeeds (.plain []) none withFriends attachAndAdd (.waiting (.plain []) none withFriends attachAndAdd)
      attachedAndAdded false .nil (.blobAttach (toString theHash) ["friends"] false) :=
    ⟨.refl, reaches_attachedAndAdded, rfl, rfl, Jobs.prog_of_isDone (by decide +kernel)⟩
  have hadded : Succeeds (.plain []) none withFriends attachAndAdd (.waiting (.plain []) none withFriends attachAndAdd)
      attachedAndAdded true .nil (.ringAdd "friends" (toString (EndpointId.fromByte 1)) none) :=
    ⟨.refl, reaches_attachedAndAdded, rfl, rfl, Jobs.prog_of_isDone (by decide +kernel)⟩
  have hjoins : (Op.ringAdd "friends" (toString (EndpointId.fromByte 1)) none).Joins (.plain []) withFriends.endpoint.id
      "friends" (.fromByte 1) none := ⟨by decide, by decide +kernel, _, none, rfl, by decide +kernel, rfl⟩
  have hattaches : (Op.blobAttach (toString theHash) ["friends"] false).Attaches "friends" :=
    Or.inl (List.mem_singleton_self _)
  have hstays : ∀ k, ¬ (attachAndAdd k).Asks fun op ↦ op.Leaves (.plain []) "friends" (.fromByte 1) := by
    intro k hleaves
    cases k <;> rcases hleaves with ⟨p, hop, -⟩ | ⟨p, hop, -⟩ <;> cases hop
  have hlive : ∀ e, (attachedAndAdded.state.registry.members "friends")[EndpointId.fromByte 1]? = some e →
      live attachedAndAdded.state.clock e = true := by
    have hmember : (attachedAndAdded.state.registry.members "friends")[EndpointId.fromByte 1]? = some none := by
      decide +kernel
    intro e he
    rw [hmember] at he
    cases he
    rfl
  obtain ⟨res, hresolves, hshared⟩ := shared_lets_in hattached hattaches hadded hjoins (fun k _ ↦ hstays k) hlive
  refine ⟨res, hresolves, hshared fun k _ hasks ↦ ?_⟩
  cases k with
  | false => exact hasks.1.elim id id
  | true => exact hasks.1.elim id id

/-- A blob that has been taken out of all rings is withheld from everybody, at every later moment and whatever
else the daemon works on, as long as no request puts it in a ring that has not been done before: no
permission covers it, and a catalog connection that begins afterwards lists other blobs only. -/
theorem withdrawn_stays_withheld (h : Succeeds env defaultReceiveDir s jobs z y i reqId op)
    (hdrops : ∀ ring, op.Drops ring) (hyx : Pool.Reaches Answers Onwards (fun _ _ _ ↦ True) y x) :
    ∃ res, op.Resolves env (y.threads i).log res ∧
      ((∀ j, z.Running j → ¬ (jobs j).Asks fun op ↦ (∃ ring, op.Attaches ring ∨ op.Restores ring) ∧
          op.Resolves env (x.threads j).log res) →
        (∀ peer perm, x.state.registry.hasPermission x.state.clock peer res perm = false) ∧
        ∀ j peer accepted, y.Begins env j peer accepted → ∃ es : List Catalog.Listed, (∀ e ∈ es, e.info.hash ≠ res) ∧
          (Catalog.sent (x.threads j).log <+: [Catalog.denied] ∨
            Catalog.sent (x.threads j).log <+: Catalog.allowed :: (Catalog.listing es).1)) := by
  obtain ⟨res, hresolves, hassociations⟩ := associations_of_done h
  refine ⟨res, hresolves, fun hnone ↦ ?_⟩
  have hunwritten : ∀ (ring : String) (v : Option (List Permission)),
      Written env s jobs z x (.association res ring) v → v = none := by
    intro ring v hwrites
    obtain ⟨j, hrunning, hwrites⟩ := hwrites
    cases v with
    | none => rfl
    | some perms =>
      refine absurd (hwrites.mono fun op hop ↦ ?_) (hnone j hrunning)
      exact ⟨⟨ring, hop.1.imp And.left id⟩, hop.2⟩
  have hgone : ∀ w : Jobs ι, Pool.Reaches Answers Onwards (fun _ _ _ ↦ True) y w →
      Pool.Reaches Answers Onwards (fun _ _ _ ↦ True) w x →
      ∀ peer perm, w.state.registry.hasPermission w.state.clock peer res perm = false := by
    intro w hyw hwx peer perm
    rw [← Bool.not_eq_true, hasPermission_iff_cells]
    intro ⟨ring, perms, hrow, _⟩
    have hrow' : w.state.cell (.association res ring) = none := by
      rcases (since_reached h.reached h.run hyw).kept (.association res ring) with hsame | hwrites
      · rw [hsame]
        exact ((hassociations ring).2 (hdrops ring)).elim id fun hw ↦ hunwritten ring _ (hw.mono hyx.log_prefix)
      · exact hunwritten ring _ (hwrites.mono hwx.log_prefix)
    rw [hrow'] at hrow
    cases hrow
  refine ⟨hgone x hyx .refl, fun j peer accepted hbegins ↦ ?_⟩
  have hdiscloses := wpc_invariant (wpc_connection (fun _ _ hs ↦ hs.1) hyx hbegins)
  rcases hdiscloses with hrefused | ⟨-, tags, es, -, hshared, hsent⟩
  · exact ⟨[], by simp, .inl hrefused⟩
  · refine ⟨es, fun e he hhash ↦ ?_, .inr hsent⟩
    obtain ⟨w, hyw, hwx, hallowed⟩ := hshared.permitted e he
    rw [hhash, hgone w hyw hwx] at hallowed
    cases hallowed

def withdrawAndServe : Bool → Job
  | false => .catalog (.fromByte 1) (.ok ⟨[Catalog.blobList], none⟩)
  | true => .request .nil (.blobDetach (toString theHash) [] false true)

def withdrawnBlob : Jobs Bool :=
  Pool.schedule exec (List.replicate 16 true) (Jobs.waiting (.plain []) none servedAndGranted.state withdrawAndServe)

def servedWithout : Jobs Bool := Pool.schedule exec (List.replicate 16 false) withdrawnBlob

theorem withdrawn_stays_withheld_servedWithout : ∃ res,
    (Op.blobDetach (toString theHash) [] false true).Resolves (.plain []) (withdrawnBlob.threads true).log res ∧
      (∀ peer perm, servedWithout.state.registry.hasPermission servedWithout.state.clock peer res perm = false) ∧
      Catalog.sent (servedWithout.threads false).log = [Catalog.allowed] ∧
      ∀ j peer accepted, withdrawnBlob.Begins (.plain []) j peer accepted → ∃ es : List Catalog.Listed,
        (∀ e ∈ es, e.info.hash ≠ res) ∧ (Catalog.sent (servedWithout.threads j).log <+: [Catalog.denied] ∨
          Catalog.sent (servedWithout.threads j).log <+: Catalog.allowed :: (Catalog.listing es).1) := by
  have hwithdrawn : Succeeds (.plain []) none servedAndGranted.state withdrawAndServe
      (Jobs.waiting (.plain []) none servedAndGranted.state withdrawAndServe) withdrawnBlob true .nil
      (.blobDetach (toString theHash) [] false true) :=
    ⟨.refl, Jobs.reaches_schedule _ _, rfl, rfl, Jobs.prog_of_isDone (by decide +kernel)⟩
  have hdrops : ∀ ring, (Op.blobDetach (toString theHash) [] false true).Drops ring := fun _ ↦ Or.inl rfl
  obtain ⟨res, hresolves, hwithheld⟩ := withdrawn_stays_withheld hwithdrawn hdrops
    (Jobs.reaches_schedule (List.replicate 16 false) _)
  obtain ⟨hdenied, hlists⟩ := hwithheld fun j _ hasks ↦ by
    cases j with
    | false => exact hasks
    | true =>
      obtain ⟨⟨ring, hattaches | hrestores⟩, -⟩ := hasks
      · exact hattaches
      · exact hrestores
  exact ⟨res, hresolves, hdenied, by decide +kernel, hlists⟩

end Access

end Ringdrop
