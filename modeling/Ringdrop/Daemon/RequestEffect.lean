import Ringdrop.Core.Lasting
import Ringdrop.Daemon.Authority
import Ringdrop.Daemon.PeerRemoval

namespace Ringdrop

open Library Program Node Handlers Server

namespace Op

variable (env : Env) (own : EndpointId)

def Drops (op : Op) (ring : String) : Prop :=
  match op with
  | .blobDetach _ rings «open» all => all = true ∨ ring ∈ (if «open» then [openRingName] else rings)
  | .blobRemove _ => True
  | _ => False

/-- The blob a request is about, as its first calls have made it out. -/
def Resolves (op : Op) (log : Trace Call.Ans) (res : Hash) : Prop :=
  match op with
  | .import path _ _ => ∃ v run, Runs Pool.hearing (importPath env path) [] (.ok v) run ∧ run <+: log ∧ v.1 = res
  | .blobAttach target _ _ | .blobDetach target _ _ _ | .blobRemove target =>
    ∃ v run, Runs Pool.hearing (resolveTarget env target) [] (.ok v) run ∧ run <+: log ∧ v = res
  | _ => True

/-- The request may write the value in the entry, or write it back, to go by the calls it has made. -/
def Writes (op : Op) (log : Trace Call.Ans) (k : Cell) (v : k.Val) : Prop :=
  (op.Sets env own k v ∨
    match k, v with
    | .association _ ring, some _ => op.Restores ring
    | _, _ => False) ∧
  match k with
  | .association res _ => op.Resolves env log res
  | _ => True

def Results (now : SystemTime) (res : Hash) (op : Op) : (k : Cell) → k.Val → Prop
  | .ring name, v => op = .ringNew name → v = true
  | .member ring peer, v =>
    (∀ expiresAt, op.Joins env own ring peer expiresAt → ∃ e, v = some e ∧ ∀ t, expiresAt = some t → e = some t) ∧
      (ring ≠ openRingName → op.Leaves env ring peer → ∀ e, v = some e → live now e = false)
  | .association res' ring, v => res' = res → (op.Attaches ring → v = some [.read]) ∧ (op.Drops ring → v = none)
  | .grant privilege peer, v =>
    (op.Grants env privilege peer → v = true) ∧ (op.Revokes env privilege peer ∨ op.Forgets env peer → v = false)
  | .peer peer, v =>
    (∀ nickname, op.Registers env peer nickname → ∃ n, v = some n ∧ (nickname = "" ∨ n = nickname)) ∧
      (op.Forgets env peer → v = none)
  | .tag _, _ => True

variable {env own} {op : Op}

theorem results_of_writes (now : SystemTime) (res : Hash) {log : Trace Call.Ans} {k : Cell} {v : k.Val}
    (hwrites : op.Writes env own log k v) : op.Results env own now res k v := by
  obtain ⟨h, -⟩ := hwrites
  cases k with
  | ring name =>
    rcases h with h | h
    · exact fun _ ↦ h.2
    · exact h.elim
  | member ring peer =>
    rcases h with h | h
    · cases v with
      | none =>
        refine ⟨fun expiresAt hjoins ↦ ?_, fun _ _ e he ↦ by cases he⟩
        obtain ⟨-, -, p, secs, rfl, -, -⟩ := hjoins
        rcases h with ⟨p, hop, -⟩ | ⟨p, hop, -⟩ <;> cases hop
      | some e =>
        obtain ⟨-, -, p, secs, rfl, -, hexpiry⟩ : op.Joins env own ring peer e := h
        refine ⟨fun expiresAt hjoins ↦ ⟨e, rfl, fun t ht ↦ ?_⟩, fun _ hleaves ↦ ?_⟩
        · obtain ⟨-, -, p', secs', hop, -, hexpiry'⟩ := hjoins
          cases hop
          rw [← hexpiry', ht] at hexpiry
          exact Option.map_injective (Option.some_injective _) hexpiry
        · rcases hleaves with ⟨p, hop, -⟩ | ⟨p, hop, -⟩ <;> cases hop
    · exact h.elim
  | association res' ring =>
    intro _
    cases v with
    | none =>
      refine ⟨fun hattaches ↦ ?_, fun _ ↦ rfl⟩
      cases op <;> first | exact hattaches.elim | exact (h.elim (fun h ↦ h.elim id id) id).elim
    | some perms =>
      rcases h with ⟨hattaches, rfl⟩ | hrestores
      · refine ⟨fun _ ↦ rfl, fun hdrops ↦ ?_⟩
        cases op <;> first | exact hattaches.elim | exact hdrops.elim
      · cases op with
        | blobDetach target rings «open» all =>
          cases all with
          | true => exact hrestores.elim
          | false =>
            refine ⟨fun hattaches ↦ hattaches.elim, fun hdrops ↦ ?_⟩
            rcases hdrops with hall | hmem
            · cases hall
            · exact absurd hmem hrestores
        | _ => exact hrestores.elim
  | grant privilege peer =>
    rcases h with h | h
    · cases v with
      | true =>
        refine ⟨fun _ ↦ rfl, fun hrevokes ↦ ?_⟩
        obtain ⟨p, q, rfl, -, -⟩ : op.Grants env privilege peer := h
        rcases hrevokes with ⟨p, q, hop, -⟩ | ⟨p, hop, -⟩ <;> cases hop
      | false =>
        refine ⟨fun hgrants ↦ ?_, fun _ ↦ rfl⟩
        obtain ⟨p, q, rfl, -, -⟩ := hgrants
        rcases h with ⟨p, q, hop, -⟩ | ⟨p, hop, -⟩ <;> cases hop
    · exact h.elim
  | peer peer =>
    rcases h with h | h
    · cases v with
      | none =>
        obtain ⟨p, rfl, -⟩ : op.Forgets env peer := h
        refine ⟨fun nickname hregisters ↦ ?_, fun _ ↦ rfl⟩
        rcases hregisters with ⟨p, nick, hop, -⟩ | ⟨ring, p, secs, -, hop, -⟩ <;> cases hop
      | some n =>
        have hregisters : op.Registers env peer n := h
        refine ⟨fun nickname hregisters' ↦ ⟨n, rfl, ?_⟩, fun hforgets ↦ ?_⟩
        · rcases hregisters with ⟨p, nick, rfl, -, rfl⟩ | ⟨ring, p, secs, -, rfl, -, rfl⟩
          · rcases hregisters' with ⟨p', nick', hop, -, rfl⟩ | ⟨ring, p, secs, -, hop, -⟩
            · cases hop
              exact .inr rfl
            · cases hop
          · rcases hregisters' with ⟨p', nick', hop, -⟩ | ⟨ring', p', secs', -, hop, -, rfl⟩
            · cases hop
            · exact .inl rfl
        · obtain ⟨p, rfl, -⟩ := hforgets
          rcases hregisters with ⟨p, nick, hop, -⟩ | ⟨ring, p, secs, -, hop, -⟩ <;> cases hop
    · exact h.elim
  | tag key => trivial

end Op

section Handlers

variable {env : Env} {x : NodeState} {other : (k : Cell) → k.Val → Prop} {ring p q : String} {peer : EndpointId}

/-- All the answers a handler gets are so from then on, unless something `other` is written. -/
abbrev Lasts (x : NodeState) (other : (k : Cell) → k.Val → Prop) {α : Type} (p : Action α) (Q : α → Prop) : Prop :=
  p.Within (Lasting x other) (fun _ ↦ True) Q

theorem Lasts.bind_const {α β : Type} {p : Action β} {f : β → Action α} {G : Prop} (h : Lasts x other p fun _ ↦ G) :
    Lasts x other (p >>= f) fun _ ↦ G := Within.bind h fun _ hG ↦ within_const hG

theorem lasts_ringNewLines (name : String) :
    Lasts x other (ringNewLines name) fun _ ↦ Settled x other (.ring name) fun v ↦ v = true :=
  Within.bind (Q := fun _ ↦ Settled x other (.ring name) fun v ↦ v = true)
    (within_registry fun _ _ _ _ hs' _ hleaves ↦ hs'.settled hleaves) fun _ h ↦ within_const h

theorem lasts_ensure (peer : EndpointId) :
    Lasts x other (PeerStore.ensure peer) fun _ ↦ Settled x other (.peer peer) fun v ↦ ∃ n, v = some n := by
  have hget : Lasts x other (peers (.get peer)) fun stored ↦
      ∀ n, stored = some n → Settled x other (.peer peer) fun v ↦ ∃ n, v = some n :=
    within_peers fun s _ v hs _ hv _ n hn ↦ hs.settled ⟨n, (Except.ok.inj hv).symm.trans hn⟩
  refine hget.bind fun stored hstored ↦ ?_
  cases stored with
  | some n => exact within_ret (hstored n rfl)
  | none => exact within_peers fun _ _ _ _ hs' _ hleaves ↦ hs'.settled ⟨"", hleaves⟩

theorem lasts_ringAddLines (publicId : EndpointId) (secs : Option UInt64) (hring : ring ≠ openRingName)
    (hpeer : parsePeerId env p = .ok peer) :
    Lasts x other (ringAddLines env publicId ring p secs) fun _ ↦
      (∀ expiresAt : Option SystemTime, expiresAt.map some = secs.map epochPlus →
        Settled x other (.member ring peer) fun v ↦ ∃ e, v = some e ∧ ∀ t, expiresAt = some t → e = some t) ∧
      Settled x other (.peer peer) fun v ↦ ∃ n, v = some n := by
  rw [ringAddLines, if_neg hring]
  refine (within_ofExcept fun peerId hparse ↦ hparse).bind fun peerId hparse ↦ ?_
  obtain rfl : peer = peerId := Except.ok.inj (hpeer.symm.trans hparse)
  split
  · exact within_fail
  · have hrest : ∀ (expiry : Option Expiry) (f : Unit → Action (List String)),
        (∀ expiresAt : Option SystemTime, expiresAt.map some = secs.map epochPlus →
          expiresAt = expiry.map Expiry.instant) →
        Lasts x other (registry (.addPeerToRing ring peer (expiry.map Expiry.instant)) >>= fun _ ↦
            PeerStore.ensure peer >>= f) fun _ ↦
          (∀ expiresAt : Option SystemTime, expiresAt.map some = secs.map epochPlus →
            Settled x other (.member ring peer) fun v ↦ ∃ e, v = some e ∧ ∀ t, expiresAt = some t → e = some t) ∧
          Settled x other (.peer peer) fun v ↦ ∃ n, v = some n := by
      intro expiry f hexpiry
      have hadd : Lasts x other (registry (.addPeerToRing ring peer (expiry.map Expiry.instant))) fun _ ↦
          Settled x other (.member ring peer) fun v ↦
            ∃ e, v = some e ∧ ∀ t, expiry.map Expiry.instant = some t → e = some t :=
        within_registry fun _ _ _ _ hs' _ hleaves ↦ hs'.settled hleaves
      refine hadd.bind fun _ hmember ↦ (lasts_ensure peer).bind fun _ hknown ↦ within_const ⟨fun expiresAt h ↦ ?_, hknown⟩
      rw [hexpiry expiresAt h]
      exact hmember
    cases secs with
    | none => exact hrest none _ fun expiresAt h ↦ Option.map_eq_none_iff.mp h
    | some secs =>
      refine Within.bind (Q := fun expiry ↦ ∃ e, expiry = some e ∧ epochPlus secs = some e.instant) ?_ ?_
      · rw [map_eq_pure_bind]
        exact (within_futureExpiry (fun _ _ ↦ trivial) secs).bind fun e he ↦ within_ret ⟨e, rfl, he⟩
      · intro expiry hexpiry
        obtain ⟨e, rfl, he⟩ := hexpiry
        refine hrest (some e) _ fun expiresAt h ↦ ?_
        rw [Option.map_some, he] at h
        exact Option.map_injective (Option.some_injective _) h

theorem lasts_ringRemoveLines (hring : ring ≠ openRingName) (hpeer : parsePeerId env p = .ok peer) :
    Lasts x other (ringRemoveLines env ring p) fun _ ↦ Settled x other (.member ring peer) fun v ↦ v = none := by
  rw [ringRemoveLines, if_neg hring]
  refine (within_ofExcept fun peerId hparse ↦ hparse).bind fun peerId hparse ↦ ?_
  obtain rfl : peer = peerId := Except.ok.inj (hpeer.symm.trans hparse)
  exact Within.bind (Q := fun _ ↦ Settled x other (.member ring peer) fun v ↦ v = none)
    (within_registry fun _ _ _ _ hs' _ hleaves ↦ hs'.settled hleaves) fun _ h ↦ within_const h

theorem lasts_peerAddLines (nickname : Option String) (hpeer : parsePeerId env p = .ok peer) :
    Lasts x other (peerAddLines env p nickname) fun _ ↦ Settled x other (.peer peer) fun v ↦
      ∃ n, v = some n ∧ (nickname.getD "" = "" ∨ n = nickname.getD "") := by
  refine (within_ofExcept fun peerId hparse ↦ hparse).bind fun peerId hparse ↦ ?_
  obtain rfl : peer = peerId := Except.ok.inj (hpeer.symm.trans hparse)
  cases nickname with
  | some nick =>
    exact Within.bind (Q := fun _ ↦ Settled x other (.peer peer) fun v ↦ ∃ n, v = some n ∧ (nick = "" ∨ n = nick))
      (within_peers fun _ _ _ _ hs' _ hleaves ↦ hs'.settled ⟨nick, hleaves, .inr rfl⟩) fun _ h ↦ within_const h
  | none =>
    exact (lasts_ensure peer).bind fun _ h ↦ within_const (h.mono fun v ⟨n, hn⟩ ↦ ⟨n, hn, .inl rfl⟩)

theorem Since.settled_member {s : NodeState} (h : Since x other s)
    (hnone : s.registry.isLiveMember s.clock ring peer = false) :
    Settled x other (.member ring peer) fun v ↦ ∀ e, v = some e → live x.clock e = false := by
  refine h.settled fun e he ↦ ?_
  by_contra hlive
  rw [Bool.not_eq_false] at hlive
  have hmember : s.registry.isLiveMember s.clock ring peer = true :=
    Registry.isLiveMember_iff.mpr ⟨e, he, live_of_le h.clock hlive⟩
  rw [hnone] at hmember
  cases hmember

theorem isLiveMember_unknown {r : Registry} {now : SystemTime} (h : ring ∉ r.rings) :
    r.isLiveMember now ring peer = false := by
  rw [Registry.isLiveMember, Registry.members, Std.ExtTreeMap.getD_eq_fallback h]
  rfl

theorem lasts_leaveRing (removedFrom : List String) (r : Ring) (hring : r.name ≠ openRingName) :
    Lasts x other (leaveRing peer removedFrom r) fun _ ↦
      Settled x other (.member r.name peer) fun v ↦ ∀ e, v = some e → live x.clock e = false := by
  have hopen : r.isOpen = false := by simpa [Ring.isOpen] using hring
  rw [leaveRing, hopen]
  have hread : Lasts x other (registry (.listRingPeers r.name)) fun members ↦
      members.any (fun m ↦ m.peer = peer) = false →
        Settled x other (.member r.name peer) fun v ↦ ∀ e, v = some e → live x.clock e = false := by
    refine within_registry fun s _ members hs _ hmembers _ hnone ↦ hs.settled_member ?_
    have hiff := Registry.mem_listRingPeers hmembers.symm peer
    rw [← Bool.not_eq_true, ← hiff]
    rintro ⟨m, hm, hpeer⟩
    have hany : members.any (fun m ↦ m.peer = peer) = true := List.any_eq_true.mpr ⟨m, hm, by simpa using hpeer⟩
    rw [hnone] at hany
    cases hany
  refine hread.bind fun members hmembers ↦ ?_
  cases hany : members.any (fun m ↦ m.peer = peer) with
  | false => exact within_ret (hmembers hany)
  | true =>
    exact Within.bind (Q := fun _ ↦ Settled x other (.member r.name peer) fun v ↦ v = none)
      (within_registry fun _ _ _ _ hs' _ hleaves ↦ hs'.settled hleaves) fun _ h ↦
      within_ret (h.mono fun v hv e he ↦ by rw [hv] at he; cases he)

theorem lasts_revokeHeld (revoked : List String) (privilege : Privilege) :
    Lasts x other (revokeHeld peer revoked privilege) fun _ ↦
      Settled x other (.grant privilege peer) fun v ↦ v = false := by
  have hread : Lasts x other (grants (.get privilege peer)) fun held ↦
      held = false → Settled x other (.grant privilege peer) fun v ↦ v = false :=
    within_grants fun s _ held hs _ hheld _ hnone ↦ hs.settled ((Except.ok.inj hheld).symm.trans hnone)
  refine hread.bind fun held hheld ↦ ?_
  cases held with
  | false => exact within_ret (hheld rfl)
  | true =>
    exact Within.bind (Q := fun _ ↦ Settled x other (.grant privilege peer) fun v ↦ v = false)
      (within_grants fun _ _ _ _ hs' _ hleaves ↦ hs'.settled hleaves) fun _ h ↦ within_ret h

theorem lasts_peerRemoveLines (hpeer : parsePeerId env p = .ok peer) :
    Lasts x other (peerRemoveLines env p) fun _ ↦
      (∀ ring, ring ≠ openRingName →
        Settled x other (.member ring peer) fun v ↦ ∀ e, v = some e → live x.clock e = false) ∧
      (∀ privilege, Settled x other (.grant privilege peer) fun v ↦ v = false) ∧
      Settled x other (.peer peer) fun v ↦ v = none := by
  refine (within_ofExcept fun peerId hparse ↦ hparse).bind fun peerId hparse ↦ ?_
  obtain rfl : peer = peerId := Except.ok.inj (hpeer.symm.trans hparse)
  refine Within.bind (Q := fun _ ↦ True) (within_const trivial) fun stored _ ↦ ?_
  split
  · exact within_fail
  · have hlist : Lasts x other (registry .listRings) fun rings ↦ ∀ ring, (∃ r ∈ rings, r.name = ring) ∨
        Settled x other (.member ring peer) fun v ↦ ∀ e, v = some e → live x.clock e = false := by
      refine within_registry fun s _ rings hs _ hrings _ ring ↦ ?_
      obtain rfl : rings = s.registry.listRings := Except.ok.inj hrings
      by_cases hring : ring ∈ s.registry.rings
      · exact .inl ⟨⟨ring⟩, Registry.mem_listRings.mpr hring, rfl⟩
      · exact .inr (hs.settled_member (isLiveMember_unknown hring))
    refine hlist.bind fun rings hrings ↦ ?_
    have hleft : Lasts x other (rings.foldlM (leaveRing peer) []) fun _ ↦ ∀ r ∈ rings, r.name ≠ openRingName →
        Settled x other (.member r.name peer) fun v ↦ ∀ e, v = some e → live x.clock e = false := by
      refine Within.foldlM_all (fun removedFrom r _ ↦ ?_) []
      by_cases hring : r.name = openRingName
      · exact within_const fun h ↦ absurd hring h
      · exact (lasts_leaveRing removedFrom r hring).mono (fun _ h ↦ h) fun _ h _ ↦ h
    refine hleft.bind fun removedFrom hleft ↦ ?_
    refine (Within.foldlM_all (fun revoked privilege _ ↦ lasts_revokeHeld revoked privilege) []).bind
      fun revoked hrevoked ↦ ?_
    refine Within.bind (Q := fun _ ↦ Settled x other (.peer peer) fun v ↦ v = none)
      (within_peers fun _ _ _ _ hs' _ hleaves ↦ hs'.settled hleaves) fun _ hforgotten ↦ within_const ⟨?_, ?_, hforgotten⟩
    · intro ring hring
      rcases hrings ring with ⟨r, hr, rfl⟩ | hnone
      · exact hleft r hr hring
      · exact hnone
    · intro privilege
      exact hrevoked privilege (by cases privilege; exact List.mem_singleton_self _)

theorem lasts_grantLines {privilege : Privilege} (hpeer : parsePeerId env p = .ok peer)
    (hprivilege : Privilege.tryFrom env q = .ok privilege) :
    Lasts x other (grantLines env p q) fun _ ↦ Settled x other (.grant privilege peer) fun v ↦ v = true := by
  refine (within_ofExcept fun peerId hparse ↦ hparse).bind fun peerId hparse ↦ ?_
  obtain rfl : peer = peerId := Except.ok.inj (hpeer.symm.trans hparse)
  refine (within_ofExcept fun priv hpriv ↦ hpriv).bind fun priv hpriv ↦ ?_
  obtain rfl : privilege = priv := Except.ok.inj (hprivilege.symm.trans hpriv)
  exact Within.bind (Q := fun _ ↦ Settled x other (.grant privilege peer) fun v ↦ v = true)
    (within_grants fun _ _ _ _ hs' _ hleaves ↦ hs'.settled hleaves) fun _ h ↦ within_const h

theorem lasts_revokeLines {privilege : Privilege} (hpeer : parsePeerId env p = .ok peer)
    (hprivilege : Privilege.tryFrom env q = .ok privilege) :
    Lasts x other (revokeLines env p q) fun _ ↦ Settled x other (.grant privilege peer) fun v ↦ v = false := by
  refine (within_ofExcept fun peerId hparse ↦ hparse).bind fun peerId hparse ↦ ?_
  obtain rfl : peer = peerId := Except.ok.inj (hpeer.symm.trans hparse)
  refine (within_ofExcept fun priv hpriv ↦ hpriv).bind fun priv hpriv ↦ ?_
  obtain rfl : privilege = priv := Except.ok.inj (hprivilege.symm.trans hpriv)
  exact Within.bind (Q := fun _ ↦ Settled x other (.grant privilege peer) fun v ↦ v = false)
    (within_grants fun _ _ _ _ hs' _ hleaves ↦ hs'.settled hleaves) fun _ h ↦ within_const h

end Handlers

section Blobs

variable {env : Env} {x : NodeState} {other : (k : Cell) → k.Val → Prop} {reqId : Uuid} {hash : Hash} {ring : String}

theorem lasts_attachTo (said : String) : Lasts x other (attachTo reqId hash said ring) fun _ ↦
    Settled x other (.association hash ring) fun v ↦ v = some [.read] :=
  Within.bind (Q := fun _ ↦ Settled x other (.association hash ring) fun v ↦ v = some [.read])
    (within_registry fun _ _ _ _ hs' _ hleaves ↦ hs'.settled hleaves) fun _ h ↦ within_const h

theorem lasts_removeRings {f : Unit → Action Unit} :
    Lasts x other (registry (.removeRingFromResource hash) >>= f) fun _ ↦
      ∀ ring, Settled x other (.association hash ring) fun v ↦ v = none :=
  Within.bind (Q := fun _ ↦ ∀ ring, Settled x other (.association hash ring) fun v ↦ v = none)
    (within_registry fun _ _ _ _ hs' _ hleaves ring ↦ hs'.settled (hleaves ring)) fun _ h ↦ within_const h

theorem lasts_detachSelected (toRemove : List String) : Lasts x other (detachSelected reqId hash toRemove) fun _ ↦
    ∀ ring, Settled x other (.association hash ring) fun v ↦ v = none := by
  refine Within.bind (Q := fun _ ↦ True) (within_const trivial) fun current _ ↦ ?_
  dsimp only
  split
  · exact within_fail
  · exact lasts_removeRings

end Blobs

theorem Job.Asks.mono {p q : Op → Prop} {job : Job} (h : job.Asks p) (hpq : ∀ op, p op → q op) : job.Asks q := by
  cases job with
  | request reqId op => exact hpq op h
  | catalog peer accepted => exact h

section Addressing

variable {env : Env} {reqId : Uuid} {hash : Hash}

def Call.Affects (c : Call) (res : Hash) : Prop :=
  match c with
  | .registry (.addRingToResource res' _ _) => res' = res
  | .registry (.removeRingFromResource res') => res' = res
  | _ => False

abbrev Affecting (hash : Hash) (c : Call) : Prop := ∀ res, c.Affects res → res = hash

theorem Call.Views.not_affects {c : Call} (h : c.Views) (res : Hash) : ¬ c.Affects res := by
  intro haffects
  cases c with
  | registry c => cases c <;> first | exact h.elim | exact haffects.elim
  | _ => exact haffects.elim

theorem affects_of_writes {c : Call} {res : Hash} {ring : String} {v : Option (List Permission)}
    (h : c.Writes (.association res ring) v) : c.Affects res := by
  cases c with
  | registry c =>
    cases c with
    | addRingToResource res' ring' perms => exact h.1
    | removeRingFromResource res' => exact h.1
    | _ => exact h.elim
  | peers c => cases c <;> exact h.elim
  | grants c => cases c <;> exact h.elim
  | store c => cases c <;> exact h.elim
  | _ => exact h.elim

theorem affecting_of_views (c : Call) (h : c.Views) : Affecting hash c := fun res hres ↦ absurd hres (h.not_affects res)

theorem uses_attachTo_affecting (said ring : String) : (attachTo reqId hash said ring).Uses (Affecting hash) :=
  Uses.bind (uses_asking (.registry (.addRingToResource hash ring [.read])) id fun _ h ↦ h.symm) fun _ ↦
    uses_ask (affecting_of_views _ trivial)

theorem uses_clearing_affecting {f : Unit → Action Unit} (hf : ∀ u, (f u).Uses (Affecting hash)) :
    (registry (.removeRingFromResource hash) >>= f).Uses (Affecting hash) :=
  Uses.bind (uses_asking (.registry (.removeRingFromResource hash)) id fun _ h ↦ h.symm) hf

theorem uses_detachSelected_affecting (toRemove : List String) :
    (detachSelected reqId hash toRemove).Uses (Affecting hash) := by
  refine Uses.bind (uses_asked affecting_of_views (.registry (.listResourceRings hash)) id trivial) fun current ↦ ?_
  dsimp only
  split
  · trivial
  · refine uses_clearing_affecting fun _ ↦ Uses.bind (Uses.forM (fun r ↦ ?_) _) fun _ ↦ ?_
    · exact uses_asking (.registry (.addRingToResource hash r.1.name r.2)) id fun _ h ↦ h.symm
    · exact (uses_sendLines_views affecting_of_views reqId _).bind fun _ ↦ uses_ask (affecting_of_views _ trivial)

theorem uses_resolving {P : Call → Prop} (hviews : ∀ c : Call, c.Views → P c) (hpins : ∀ c : Call, c.Pins → P c)
    (target : String) : (resolveTarget env target).Uses P :=
  uses_resolveTarget hpins (fun c hc ↦ hviews c hc.views) env target

theorem not_affects_of_pins (c : Call) (h : c.Pins) (res : Hash) : ¬ c.Affects res := by
  intro haffects
  cases c with
  | registry c => exact h.elim
  | _ => exact haffects.elim

theorem Op.Resolves.mono {op : Op} {log log' : Trace Call.Ans} {res : Hash} (h : op.Resolves env log res)
    (hlog : log <+: log') : op.Resolves env log' res := by
  cases op with
  | «import» path rings «open» =>
    obtain ⟨v, run, hrun, hprefix, hv⟩ := h
    exact ⟨v, run, hrun, hprefix.trans hlog, hv⟩
  | blobAttach target rings «open» =>
    obtain ⟨v, run, hrun, hprefix, hv⟩ := h
    exact ⟨v, run, hrun, hprefix.trans hlog, hv⟩
  | blobDetach target rings «open» all =>
    obtain ⟨v, run, hrun, hprefix, hv⟩ := h
    exact ⟨v, run, hrun, hprefix.trans hlog, hv⟩
  | blobRemove target =>
    obtain ⟨v, run, hrun, hprefix, hv⟩ := h
    exact ⟨v, run, hrun, hprefix.trans hlog, hv⟩
  | _ => trivial

/-- A request changes no associations but those of the blob that it has made out. -/
def Addressed (env : Env) (op : Op) (log : Trace Call.Ans) : Prop :=
  ∀ c ∈ log, ∀ res, c.1.Affects res → op.Resolves env log res

theorem wpc_handleOp_addressed (defaultReceiveDir : Option Path) (op : Op) :
    (handleOp env defaultReceiveDir reqId op).wpc Pool.hearing (Addressed env op) (fun _ _ ↦ True) [] := by
  have hresolving : ∀ target, (resolveTarget env target).Uses fun c ↦ ∀ res, ¬ c.Affects res := fun target ↦
    uses_resolving (fun c hc ↦ hc.not_affects) not_affects_of_pins target
  have hdone : ∀ hash e, (send e).Uses (Affecting hash) := fun hash e ↦ uses_ask (affecting_of_views _ trivial)
  cases op with
  | «import» path rings «open» =>
    refine wpc_recorded_about Prod.fst (uses_importPath not_affects_of_pins (fun c hc ↦ hc.views.not_affects) env path)
      fun v ↦ ?_
    dsimp only
    generalize (if «open» = true then [openRingName] else rings) = effectiveRings
    split
    · exact (uses_reportRings_views affecting_of_views reqId _).bind fun _ ↦
        uses_ticketReport_views affecting_of_views env reqId v path
    · exact (Uses.forM (fun ring ↦ uses_attachTo_affecting _ ring) _).bind fun _ ↦
        uses_ticketReport_views affecting_of_views env reqId v path
  | blobAttach target rings «open» =>
    change (handleAttach env reqId target rings «open»).wpc _ _ _ _
    unfold handleAttach
    split
    · exact List.forall_mem_nil _
    · refine wpc_recorded_about id (hresolving target) fun v ↦ ?_
      refine (Uses.forM (fun ring ↦ uses_attachTo_affecting _ ring) rings).bind fun _ ↦ ?_
      cases «open» with
      | true => exact (uses_attachTo_affecting _ _).bind fun _ ↦ hdone v _
      | false => exact hdone v _
  | blobDetach target rings «open» all =>
    refine wpc_recorded_about id (hresolving target) fun v ↦ ?_
    cases all with
    | true => exact uses_clearing_affecting fun _ ↦ (hdone v _).bind fun _ ↦ hdone v _
    | false => exact uses_detachSelected_affecting _
  | blobRemove target =>
    refine wpc_recorded_about id (hresolving target) fun v ↦ uses_clearing_affecting fun _ ↦ ?_
    refine Uses.bind ?_ fun _ ↦ (uses_sendLines_views affecting_of_views reqId _).bind fun _ ↦ (hdone v _).bind fun _ ↦
      hdone v _
    refine (uses_listTags_views affecting_of_views).bind fun infos ↦ ?_
    dsimp only
    split
    · trivial
    · exact Uses.forM (fun name ↦ uses_context (uses_asking (.store (.deleteTag name)) id fun _ h ↦ h.elim)) _
  | _ => exact wpc_always (fun _ _ _ _ _ ↦ trivial) []

end Addressing

/-- What a permitted call writes the request may write, when the blob is its own. -/
theorem asks_writes {env : Env} {own : EndpointId} {known : Hash → String → List Permission → Prop} {job : Job}
    {c : Call} {log : Trace Call.Ans} {k : Cell} {v : k.Val} (hc : job.Permits env own known c) (hw : c.Writes k v)
    (hown : ∀ reqId op res ring, job = .request reqId op → k = .association res ring → op.Resolves env log res) :
    job.Asks fun op ↦ op.Writes env own log k v := by
  have hsets := Job.sets_or_restores hc hw
  cases job with
  | catalog peer accepted =>
    rcases hsets with hsets | hrestores
    · exact hsets
    · cases k with
      | association res ring =>
        cases v with
        | some perms => exact hrestores.2
        | none => exact hrestores
      | _ => exact hrestores
  | request reqId op =>
    constructor
    · refine hsets.imp id fun hrestores ↦ ?_
      cases k with
      | association res ring =>
        cases v with
        | some perms => exact hrestores.2
        | none => exact hrestores
      | _ => exact hrestores
    · cases k with
      | association res ring => exact hown reqId op res ring rfl rfl
      | _ => trivial

section Done

variable {ι : Type} [DecidableEq ι] {env : Env} {defaultReceiveDir : Option Path} {s : NodeState} {jobs : ι → Job}
  {x y z : Jobs ι} {i : ι} {reqId : Uuid} {op : Op}

/-- What goes on at a node besides the jobs of its daemon, with a clock that does not run back. -/
def Onwards (s s' : NodeState) : Prop := SameTables s s' ∧ s.clock ≤ s'.clock

def Jobs.Running (y : Jobs ι) (i : ι) : Prop := ∃ c k, (y.threads i).prog = .call c k

theorem Jobs.Running.of_later {c : Call} {k : c.Ans → Action (Except Error Unit)}
    (h : Pool.Reaches Answers Onwards (fun _ _ _ ↦ True) y x) (hx : (x.threads i).prog = .call c k) : y.Running i := by
  by_contra hnone
  have hsame : x.threads i = y.threads i := h.threads_of_no_call fun c k hp ↦ hnone ⟨c, k, hp⟩
  exact hnone ⟨c, k, hsame ▸ hx⟩

/-- Some request that has still been running at `y` may have written the value in the entry. -/
def Written (env : Env) (s : NodeState) (jobs : ι → Job) (y x : Jobs ι) (k : Cell) (v : k.Val) : Prop :=
  ∃ i, y.Running i ∧ (jobs i).Asks fun op ↦ op.Writes env s.endpoint.id (x.threads i).log k v

omit [DecidableEq ι] in
theorem Written.mono {k : Cell} {v : k.Val} (h : Written env s jobs z y k v)
    (hlog : ∀ i, (y.threads i).log <+: (x.threads i).log) : Written env s jobs z x k v := by
  obtain ⟨i, hrunning, hi⟩ := h
  refine ⟨i, hrunning, hi.mono fun op hop ↦ ⟨hop.1, ?_⟩⟩
  cases k with
  | association res ring => exact Op.Resolves.mono hop.2 (hlog i)
  | _ => trivial

theorem within_reached
    (h : Pool.Reaches Answers Onwards (fun _ _ _ ↦ True) (Jobs.waiting env defaultReceiveDir s jobs) x) :
    x.state.endpoint = s.endpoint ∧ ∀ i, (x.threads i).prog.Within (Told s.endpoint.id fun _ _ _ ↦ True)
      ((jobs i).Permits env s.endpoint.id fun _ _ _ ↦ True) fun _ ↦ True := by
  refine h.within (I := fun s' ↦ s'.endpoint = s.endpoint) rfl (fun i ↦ within_program (jobs i)) ?_
    fun s₁ s₂ hs₁ hs ↦ hs.1.endpoint.trans hs₁
  intro i c s₁ a s₂ _ hs₁ ha
  exact ⟨told_answers (congrArg EndpointAddr.id hs₁) (fun _ _ _ _ ↦ trivial) ha, (endpoint_answers ha).trans hs₁⟩

theorem addressed_reached
    (h : Pool.Reaches Answers Onwards (fun _ _ _ ↦ True) (Jobs.waiting env defaultReceiveDir s jobs) x)
    (hjob : jobs i = .request reqId op) : Addressed env op (x.threads i).log := by
  have hsend : ∀ e (r : Except Error Unit) log, Addressed env op log →
      (send e >>= fun _ ↦ return r : Action (Except Error Unit)).wpc Pool.hearing (Addressed env op) (fun _ _ ↦ True)
        log := by
    intro e r log hlog
    refine ⟨hlog, fun a log' ha ↦ ⟨?_, trivial⟩⟩
    intro c hc res hres
    rw [ha.2, List.mem_append, List.mem_singleton] at hc
    rcases hc with hc | rfl
    · exact (hlog c hc res hres).mono (ha.2 ▸ List.prefix_append ..)
    · exact hres.elim
  have hstart : ((jobs i).program env defaultReceiveDir).wpc Pool.hearing (Addressed env op) (fun _ _ ↦ True) [] := by
    rw [hjob]
    have hattempt : (handleOp env defaultReceiveDir reqId op).attempt.wpc Pool.hearing (Addressed env op)
        (fun _ _ ↦ True) [] := wpc_attempt (wpc_handleOp_addressed defaultReceiveDir op) fun _ _ _ ↦ trivial
    cases op with
    | shutdown => exact wpc_always (fun _ _ _ _ _ ↦ trivial) []
    | _ =>
      refine wpc_bind (wpc_mono hattempt fun r log hlog _ ↦ ?_)
      cases r with
      | ok u => exact ⟨hlog, trivial⟩
      | error e => exact hsend _ _ log hlog
  exact wpc_invariant (h.thread_until .refl (fun _ _ _ _ _ ↦ trivial) hstart)

theorem since_reached (hz : Pool.Reaches Answers Onwards (fun _ _ _ ↦ True)
    (Jobs.waiting env defaultReceiveDir s jobs) z) (hzy : Pool.Reaches Answers Onwards (fun _ _ _ ↦ True) z y)
    (h : Pool.Reaches Answers Onwards (fun _ _ _ ↦ True) y x) :
    Since x.state (Written env s jobs z x) y.state := by
  induction h with
  | refl => exact ⟨le_refl _, fun _ ↦ .inl rfl⟩
  | @step w v i c hw hg hs ih =>
    cases hs with
    | @call k a s' hp ha =>
      have hreached := hz.trans (hzy.trans hw)
      have hthere := hreached.step hg (.call hp ha)
      have hpermits := (within_reached hreached).2 i
      rw [hp] at hpermits
      refine ⟨?_, fun k' ↦ ?_⟩
      · change y.state.clock ≤ s'.clock
        rw [(endpoint_clock_answers ha).2]
        exact ih.clock
      · change s'.cell k' = _ ∨ Written env s jobs z _ k' (s'.cell k')
        rcases rewritten_answers ha k' with hsame | hwritten
        · rw [hsame]
          exact (ih.kept k').imp id fun hwas ↦ hwas.mono (Pool.log_prefix_resume w i c a k s')
        · refine .inr ⟨i, .of_later (hzy.trans hw) hp, ?_⟩
          refine asks_writes hpermits.1 hwritten fun reqId op res ring hjob hk ↦ ?_
          subst hk
          refine addressed_reached hthere hjob ⟨c, a⟩ ?_ res (affects_of_writes hwritten)
          rw [Pool.resume_self]
          simp
  | @env w s' hw hs ih =>
    refine ⟨ih.clock.trans hs.2, fun k ↦ ?_⟩
    rw [cell_of_sameTables hs.1 k]
    exact ih.kept k

/-- The request is still to begin at the moment `y` of a run, and has been answered with success at `x`. -/
structure Succeeds (env : Env) (defaultReceiveDir : Option Path) (s : NodeState) (jobs : ι → Job) (y x : Jobs ι)
    (i : ι) (reqId : Uuid) (op : Op) : Prop where
  reached : Pool.Reaches Answers Onwards (fun _ _ _ ↦ True) (Jobs.waiting env defaultReceiveDir s jobs) y
  run : Pool.Reaches Answers Onwards (fun _ _ _ ↦ True) y x
  job : jobs i = .request reqId op
  begins : y.threads i = ⟨dispatch env defaultReceiveDir reqId op, []⟩
  done : (x.threads i).prog = .ret (.ok ())

theorem Succeeds.later (h : Succeeds env defaultReceiveDir s jobs y x i reqId op)
    (hxz : Pool.Reaches Answers Onwards (fun _ _ _ ↦ True) x z) :
    Succeeds env defaultReceiveDir s jobs y z i reqId op where
  reached := h.reached
  run := h.run.trans hxz
  job := h.job
  begins := h.begins
  done := by rw [hxz.threads_of_ret h.done, h.done]

/-- What a request has come to in the end follows from what it is told on the way. -/
theorem wpc_of_done (h : Succeeds env defaultReceiveDir s jobs y x i reqId op) (hop : op ≠ .shutdown)
    {Q : Trace Call.Ans → Prop} (hQ : (handleOp env defaultReceiveDir reqId op).wpc
      (Pool.heard fun _ ↦ Lasting x.state (Written env s jobs y x)) (fun _ ↦ True) (fun _ log ↦ Q log) []) :
    Q (x.threads i).log := by
  have hstart : (y.threads i).prog.wpc (Pool.heard fun _ ↦ Lasting x.state (Written env s jobs y x)) (fun _ ↦ True)
      (fun r log ↦ r = .ok () → Q log) (y.threads i).log := by
    rw [h.begins]
    have hattempt := wpc_attempt (Q := fun r log ↦ r = .ok () → Q log) (wpc_mono hQ fun _ _ _ h _ ↦ h)
      fun e log _ he ↦ by cases he
    cases op with
    | shutdown => exact absurd rfl hop
    | _ =>
      refine wpc_bind (wpc_mono hattempt fun r log _ hr ↦ ?_)
      cases r with
      | ok u => exact ⟨trivial, fun _ ↦ hr rfl⟩
      | error e => exact ⟨trivial, fun a log' _ ↦ ⟨trivial, fun he ↦ by cases he⟩⟩
  have hend := h.run.thread_until .refl (fun {w i c k a t} hw hwx _ ha hwx' ↦ ?_) hstart
  · rw [h.done] at hend
    exact hend.2 rfl
  · have hthere : Pool.Reaches Answers Onwards (fun _ _ _ ↦ True) y (w.resume i c a k t) :=
      .step hw trivial (.call ‹_› ha)
    exact ⟨w.state, t, ha, since_reached h.reached hw hwx, since_reached h.reached hthere hwx'⟩

theorem settled_of_done (h : Succeeds env defaultReceiveDir s jobs y x i reqId op) (hop : op ≠ .shutdown) {G : Prop}
    (hG : Lasts x.state (Written env s jobs y x) (handleOp env defaultReceiveDir reqId op) fun _ ↦ G) : G :=
  wpc_of_done h hop (Q := fun _ ↦ G) (hG.wpc [])

theorem associations_of_done (h : Succeeds env defaultReceiveDir s jobs y x i reqId op) :
    ∃ res, op.Resolves env (x.threads i).log res ∧ ∀ ring,
      (op.Attaches ring → Settled x.state (Written env s jobs y x) (.association res ring) fun v ↦ v = some [.read]) ∧
      (op.Drops ring → Settled x.state (Written env s jobs y x) (.association res ring) fun v ↦ v = none) := by
  cases op with
  | «import» path rings «open» =>
    have hend := wpc_of_done h (by simp) (wpc_recorded_bind (p := importPath env path)
      (G := fun v ↦ ∀ ring ∈ (if «open» then [openRingName] else rings),
        Settled x.state (Written env s jobs y x) (.association v.1 ring) fun v ↦ v = some [.read]) fun v ↦ ?_)
    · obtain ⟨v, run, hrun, hlog, hattached⟩ := hend
      exact ⟨v.1, ⟨v, run, hrun, hlog, rfl⟩, fun ring ↦ ⟨hattached ring, fun hdrops ↦ hdrops.elim⟩⟩
    · dsimp only
      generalize (if «open» = true then [openRingName] else rings) = effectiveRings
      split
      · rename_i hnone
        rw [hnone]
        exact within_const (by simp)
      · exact (Within.forM_all fun ring _ ↦ lasts_attachTo _).bind fun _ hG ↦ within_const hG
  | blobAttach target rings «open» =>
    have hend := wpc_of_done h (by simp) (Q := fun log ↦ ∃ v run, Runs Pool.hearing (resolveTarget env target) []
        (.ok v) run ∧ run <+: log ∧ ∀ ring, (ring ∈ rings ∨ «open» = true ∧ ring = openRingName) →
          Settled x.state (Written env s jobs y x) (.association v ring) fun v ↦ v = some [.read]) ?_
    · obtain ⟨v, run, hrun, hlog, hattached⟩ := hend
      exact ⟨v, ⟨v, run, hrun, hlog, rfl⟩, fun ring ↦ ⟨hattached ring, fun hdrops ↦ hdrops.elim⟩⟩
    · change (handleAttach env reqId target rings «open»).wpc _ _ _ _
      unfold handleAttach
      split
      · trivial
      · refine wpc_recorded_bind fun v ↦ (Within.forM_all fun ring _ ↦ lasts_attachTo _).bind fun _ hrings ↦ ?_
        cases «open» with
        | false => exact within_const fun ring hring ↦ hrings ring (hring.resolve_right fun h ↦ Bool.noConfusion h.1)
        | true =>
          refine (lasts_attachTo _).bind fun _ hopen ↦ within_const fun ring hring ↦ ?_
          rcases hring with hring | ⟨-, rfl⟩
          · exact hrings ring hring
          · exact hopen
  | blobDetach target rings «open» all =>
    have hend := wpc_of_done h (by simp) (wpc_recorded_bind (p := resolveTarget env target)
      (G := fun v ↦ ∀ ring, Settled x.state (Written env s jobs y x) (.association v ring) fun v ↦ v = none) fun v ↦ ?_)
    · obtain ⟨v, run, hrun, hlog, hdropped⟩ := hend
      exact ⟨v, ⟨v, run, hrun, hlog, rfl⟩, fun ring ↦ ⟨fun hattaches ↦ hattaches.elim, fun _ ↦ hdropped ring⟩⟩
    · cases all with
      | true => exact lasts_removeRings
      | false => exact lasts_detachSelected _
  | blobRemove target =>
    have hend := wpc_of_done h (by simp) (wpc_recorded_bind (p := resolveTarget env target)
      (G := fun v ↦ ∀ ring, Settled x.state (Written env s jobs y x) (.association v ring) fun v ↦ v = none)
      fun v ↦ lasts_removeRings)
    obtain ⟨v, run, hrun, hlog, hdropped⟩ := hend
    exact ⟨v, ⟨v, run, hrun, hlog, rfl⟩, fun ring ↦ ⟨fun hattaches ↦ hattaches.elim, fun _ ↦ hdropped ring⟩⟩
  | _ => exact ⟨.fromByte 0, trivial, fun ring ↦ ⟨fun h ↦ h.elim, fun h ↦ h.elim⟩⟩

theorem results_of_done (h : Succeeds env defaultReceiveDir s jobs y x i reqId op) {k : Cell} (res : Hash)
    (hk : ∀ res ring, k ≠ .association res ring) (hw : ¬ Written env s jobs y x k (x.state.cell k)) :
    op.Results env s.endpoint.id x.state.clock res k (x.state.cell k) := by
  cases k with
  | ring name =>
    rintro rfl
    have hsettled := settled_of_done h (by simp) (lasts_ringNewLines name).bind_const
    exact hsettled.resolve_right hw
  | member ring peer =>
    refine ⟨fun expiresAt hjoins ↦ ?_, fun hring hleaves ↦ ?_⟩
    · obtain ⟨hring, -, p, secs, rfl, hpeer, hexpiry⟩ := hjoins
      have hsettled := settled_of_done h (by simp) (Within.bind (Q := fun _ ↦ True) (within_const trivial)
        fun addr _ ↦ Lasts.bind_const (lasts_ringAddLines addr.id secs hring hpeer))
      exact (hsettled.1 expiresAt hexpiry).resolve_right hw
    · rcases hleaves with ⟨p, rfl, hpeer⟩ | ⟨p, rfl, hpeer⟩
      · have hsettled := settled_of_done h (by simp) (lasts_ringRemoveLines hring hpeer).bind_const
        intro e he
        rw [hsettled.resolve_right hw] at he
        cases he
      · have hsettled := settled_of_done h (by simp) (lasts_peerRemoveLines hpeer).bind_const
        exact (hsettled.1 ring hring).resolve_right hw
  | association res' ring => exact absurd rfl (hk res' ring)
  | grant privilege peer =>
    refine ⟨fun hgrants ↦ ?_, fun hrevokes ↦ ?_⟩
    · obtain ⟨p, q, rfl, hpeer, hprivilege⟩ := hgrants
      have hsettled := settled_of_done h (by simp) (lasts_grantLines hpeer hprivilege).bind_const
      exact hsettled.resolve_right hw
    · rcases hrevokes with ⟨p, q, rfl, hpeer, hprivilege⟩ | ⟨p, rfl, hpeer⟩
      · have hsettled := settled_of_done h (by simp) (lasts_revokeLines hpeer hprivilege).bind_const
        exact hsettled.resolve_right hw
      · have hsettled := settled_of_done h (by simp) (lasts_peerRemoveLines hpeer).bind_const
        exact (hsettled.2.1 privilege).resolve_right hw
  | peer peer =>
    refine ⟨fun nickname hregisters ↦ ?_, fun hforgets ↦ ?_⟩
    · rcases hregisters with ⟨p, nick, rfl, hpeer, rfl⟩ | ⟨ring, p, secs, hring, rfl, hpeer, rfl⟩
      · have hsettled := settled_of_done h (by simp) (lasts_peerAddLines nick hpeer).bind_const
        exact hsettled.resolve_right hw
      · have hsettled := settled_of_done h (by simp) (Within.bind (Q := fun _ ↦ True) (within_const trivial)
          fun addr _ ↦ Lasts.bind_const (lasts_ringAddLines addr.id secs hring hpeer))
        obtain ⟨n, hn⟩ := hsettled.2.resolve_right hw
        exact ⟨n, hn, .inl rfl⟩
    · obtain ⟨p, rfl, hpeer⟩ := hforgets
      have hsettled := settled_of_done h (by simp) (lasts_peerRemoveLines hpeer).bind_const
      exact hsettled.2.2.resolve_right hw
  | tag key => trivial

/-- What a request has done lasts. Once it has been answered with success, in whatever order the calls
of the requests come: every entry it is about is as it has left it, or as another request that was not
done when it began may have written it. -/
theorem done_lasts (h : Succeeds env defaultReceiveDir s jobs y x i reqId op) :
    ∃ res, op.Resolves env (x.threads i).log res ∧ ∀ k,
      op.Results env s.endpoint.id x.state.clock res k (x.state.cell k) ∨ ∃ j, j ≠ i ∧ y.Running j ∧
        (jobs j).Asks fun op' ↦ op'.Writes env s.endpoint.id (x.threads j).log k (x.state.cell k) := by
  obtain ⟨res, hresolves, hassociations⟩ := associations_of_done h
  refine ⟨res, hresolves, fun k ↦ ?_⟩
  by_cases hw : Written env s jobs y x k (x.state.cell k)
  · obtain ⟨j, hrunning, hj⟩ := hw
    by_cases hij : j = i
    · rw [hij, h.job] at hj
      exact .inl (Op.results_of_writes _ _ hj)
    · exact .inr ⟨j, hij, hrunning, hj⟩
  · left
    by_cases hk : ∃ res' ring, k = .association res' ring
    · obtain ⟨res', ring, rfl⟩ := hk
      rintro rfl
      obtain ⟨hattached, hdropped⟩ := hassociations ring
      exact ⟨fun h ↦ (hattached h).resolve_right hw, fun h ↦ (hdropped h).resolve_right hw⟩
    · exact results_of_done h res (fun res' ring hsame ↦ hk ⟨res', ring, hsame⟩) hw

end Done

theorem done_lasts_attachedAndAdded : ∃ res,
    (Op.blobAttach (toString theHash) ["friends"] false).Resolves (.plain []) (attachedAndAdded.threads false).log res ∧
    ∀ k, (Op.blobAttach (toString theHash) ["friends"] false).Results (.plain []) withFriends.endpoint.id
        attachedAndAdded.state.clock res k (attachedAndAdded.state.cell k) ∨
      ∃ j, j ≠ false ∧ (Jobs.waiting (.plain []) none withFriends attachAndAdd).Running j ∧
        (attachAndAdd j).Asks fun op' ↦ op'.Writes (.plain []) withFriends.endpoint.id
          (attachedAndAdded.threads j).log k (attachedAndAdded.state.cell k) :=
  done_lasts ⟨.refl, reaches_attachedAndAdded, rfl, rfl, Jobs.prog_of_isDone (by decide +kernel)⟩

end Ringdrop
