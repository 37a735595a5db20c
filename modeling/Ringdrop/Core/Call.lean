import Ringdrop.Core.BlobStore
import Ringdrop.Core.FileSystem
import Ringdrop.Core.Registry
import Ringdrop.Core.Ticket
import Ringdrop.Daemon.Protocol
import Ringdrop.Library.Program

namespace Ringdrop

open Library Program

inductive ProgressEvent
  | fileStart (index total : ℕ) (name : String)
  | bytes (received total : UInt64)

/-- All that a stream will deliver, and the error it ends in unless it is finished. -/
structure RecvStream where
  bytes : Bytes
  broken : Option Error

inductive Alpn
  | rings
  | catalog
deriving DecidableEq

/-- What decoding and importing a blob came to: the leaves in the order they were
accepted, as offset and length, and the outcomes of the decoder and of the store. -/
structure DecodeResult where
  leaves : List (UInt64 × ℕ)
  decoded : Except Error Unit
  imported : Except Error Unit

inductive RegistryCall
  | createRing (name : String)
  | listRings
  | addPeerToRing (ring : String) (peer : EndpointId) (expiresAt : Option SystemTime)
  | removePeerFromRing (ring : String) (peer : EndpointId)
  | listRingPeers (ring : String)
  | addRingToResource (res : Hash) (ring : String) (perms : List Permission)
  | removeRingFromResource (res : Hash)
  | listResourceRings (res : Hash)
  | hasPermission (peer : EndpointId) (res : Hash) (perm : Permission)

inductive PeersCall
  | get (peer : EndpointId)
  | insert (peer : EndpointId) (nickname : String)
  | remove (peer : EndpointId)
  | list

inductive GrantsCall
  | insert (privilege : Privilege) (peer : EndpointId)
  | remove (privilege : Privilege) (peer : EndpointId)
  | get (privilege : Privilege) (peer : EndpointId)
  | list

inductive StoreCall
  | addPath (path : Path)
  | addBytes (content : Content) (format : BlobFormat)
  | batch
  | tempTag (value : HashAndFormat)
  | setTag (key : Bytes) (value : HashAndFormat)
  | deleteTag (key : Bytes)
  | listTags
  | status (hash : Hash)
  | getBytes (hash : Hash)
  | loadCollection (root : Hash)
  | exportBlob (hash : Hash) (target : Path)
  | importBao (hash : Hash) (size : UInt64)

inductive FsCall
  | absolute (path : Path)
  | createDirAll (path : Path)

inductive NetCall
  | connect (addr : EndpointAddr) (alpn : Alpn)
  | openBi
  | sendRequest (hash : Hash) (perm : Permission)
  | sendRanges (alreadyHave : List ℕ)
  | writeAll (bs : Bytes)
  | finish

/-- What the node's code asks of the libraries and of the system around it. -/
inductive Call
  | registry (c : RegistryCall)
  | peers (c : PeersCall)
  | grants (c : GrantsCall)
  | store (c : StoreCall)
  | fs (c : FsCall)
  | net (c : NetCall)
  | pathExists (path : Path)
  | isDir (path : Path)
  | walkDir (path : Path)
  | recv
  | decode (hash : Hash) (size : UInt64) (stream : RecvStream)
  | dropTempTag (tag : TempTag)
  | endpointAddr
  | now
  | send (event : Event)
  | startProgress (reqId : Uuid)
  | progress (event : ProgressEvent)
  | joinProgress
  | notifyShutdown

@[reducible] def RegistryCall.Reply : RegistryCall → Type
  | listRings => List Ring
  | listRingPeers _ => List Member
  | listResourceRings _ => List (Ring × List Permission)
  | hasPermission _ _ _ => Bool
  | _ => Unit

@[reducible] def PeersCall.Reply : PeersCall → Type
  | get _ => Option String
  | list => List (EndpointId × String)
  | _ => Unit

@[reducible] def GrantsCall.Reply : GrantsCall → Type
  | get _ _ => Bool
  | list => List (Privilege × EndpointId)
  | _ => Unit

/-- A listing of tags is a stream that can break off. -/
@[reducible] def StoreCall.Reply : StoreCall → Type
  | addPath _ => TempTag
  | addBytes _ _ => TempTag
  | tempTag _ => TempTag
  | listTags => List (Except Error TagInfo)
  | status _ => BlobStatus
  | getBytes _ => Content
  | loadCollection _ => Collection
  | _ => Unit

@[reducible] def FsCall.Reply : FsCall → Type
  | absolute _ => Path
  | createDirAll _ => Unit

@[reducible] def Call.Ans : Call → Type
  | registry c => Except Error c.Reply
  | peers c => Except Error c.Reply
  | grants c => Except Error c.Reply
  | store c => Except Error c.Reply
  | fs c => Except Error c.Reply
  | net _ => Except Error Unit
  | pathExists _ => Bool
  | isDir _ => Bool
  | walkDir _ => List (Except Error DirEntry)
  | recv => RecvStream
  | decode _ _ _ => DecodeResult
  | endpointAddr => EndpointAddr
  | now => SystemTime
  | _ => Unit

abbrev Action := Program Error Call Call.Ans

structure NodeState where
  endpoint : EndpointAddr
  clock : SystemTime
  registry : Registry
  localStore : LocalStore
  store : BlobStore
  fs : FileSystem

def emptyNode : NodeState := ⟨.new (.fromByte 9), 0, .empty, .empty, .empty, .home⟩

def RegistryCall.exec (now : SystemTime) : (c : RegistryCall) → Registry → Except Error c.Reply × Registry
  | createRing name, r => match r.createRing name with
    | .ok r' => (.ok (), r')
    | .error e => (.error e, r)
  | listRings, r => (.ok r.listRings, r)
  | addPeerToRing ring peer expiresAt, r => match r.addPeerToRing now ring peer expiresAt with
    | .ok r' => (.ok (), r')
    | .error e => (.error e, r)
  | removePeerFromRing ring peer, r => match r.removePeerFromRing ring peer with
    | .ok r' => (.ok (), r')
    | .error e => (.error e, r)
  | listRingPeers ring, r => (r.listRingPeers now ring, r)
  | addRingToResource res ring perms, r => match r.addRingToResource res ring perms with
    | .ok r' => (.ok (), r')
    | .error e => (.error e, r)
  | removeRingFromResource res, r => (.ok (), r.removeRingFromResource res)
  | listResourceRings res, r => (.ok (r.listResourceRings res), r)
  | hasPermission peer res perm, r => (.ok (r.hasPermission now peer res perm), r)

def PeersCall.exec : (c : PeersCall) → LocalStore → Except Error c.Reply × LocalStore
  | get peer, s => (.ok s.peers[peer]?, s)
  | insert peer nickname, s => (.ok (), s.insertPeer peer nickname)
  | remove peer, s => match s.removePeer peer with
    | .ok s' => (.ok (), s')
    | .error e => (.error e, s)
  | list, s => (.ok s.peers.toList, s)

def GrantsCall.exec : (c : GrantsCall) → LocalStore → Except Error c.Reply × LocalStore
  | insert privilege peer, s => (.ok (), s.insertGrant privilege peer)
  | remove privilege peer, s => (.ok (), s.removeGrant privilege peer)
  | get privilege peer, s => (.ok (s.hasGrant privilege peer), s)
  | list, s => (s.listGrants, s)

def StoreCall.exec : (c : StoreCall) → NodeState → Except Error c.Reply × NodeState
  | addPath path, s => match s.fs.read path with
    | .ok content =>
      (.ok (s.store.addContent content .raw).1, { s with store := (s.store.addContent content .raw).2 })
    | .error e => (.error e, s)
  | addBytes content format, s =>
    (.ok (s.store.addContent content format).1, { s with store := (s.store.addContent content format).2 })
  | batch, s => (.ok (), s)
  | tempTag value, s => (.ok (s.store.addTempTag value).1, { s with store := (s.store.addTempTag value).2 })
  | setTag key value, s => (.ok (), { s with store := s.store.setTag key value })
  | deleteTag key, s => (.ok (), { s with store := s.store.deleteTag key })
  | listTags, s => (.ok (s.store.listTags.map .ok), s)
  | status hash, s => (.ok (s.store.status hash), s)
  | getBytes hash, s => match s.store.blobs[hash]? with
    | some content => (.ok content, s)
    | none => (.error (.msg "blob not complete"), s)
  | loadCollection root, s => (s.store.loadCollection root, s)
  | exportBlob hash target, s => match s.store.blobs[hash]? with
    | none => (.error (.msg "blob not complete"), s)
    | some content => ((s.fs.write target content).1, { s with fs := (s.fs.write target content).2 })
  | importBao _ _, s => (.ok (), s)

def FsCall.exec : (c : FsCall) → FileSystem → Except Error c.Reply × FileSystem
  | absolute path, fs => (path.absolute fs.cwd, fs)
  | createDirAll path, fs => fs.createDirAll path

def offline : Error := .msg "network unreachable"

/-- What each call does when nothing goes wrong on this machine. There is no
network here: connections fail, and a stream that is written to stays silent. -/
def exec : (c : Call) → NodeState → c.Ans × NodeState
  | .registry c, s => ((c.exec s.clock s.registry).1, { s with registry := (c.exec s.clock s.registry).2 })
  | .peers c, s => ((c.exec s.localStore).1, { s with localStore := (c.exec s.localStore).2 })
  | .grants c, s => ((c.exec s.localStore).1, { s with localStore := (c.exec s.localStore).2 })
  | .store c, s => c.exec s
  | .fs c, s => ((c.exec s.fs).1, { s with fs := (c.exec s.fs).2 })
  | .net (.connect _ _), s => (.error offline, s)
  | .net _, s => (.ok (), s)
  | .pathExists path, s => (s.fs.pathExists path, s)
  | .isDir path, s => (s.fs.isDir path, s)
  | .walkDir path, s => (s.fs.walkDir path, s)
  | .recv, s => (⟨[], some offline⟩, s)
  | .decode _ _ _, s => (⟨[], .error offline, .error offline⟩, s)
  | .dropTempTag tag, s => ((), { s with store := s.store.dropTempTag tag.id })
  | .endpointAddr, s => (s.endpoint, s)
  | .now, s => (s.clock, s)
  | .send _, s => ((), s)
  | .startProgress _, s => ((), s)
  | .progress _, s => ((), s)
  | .joinProgress, s => ((), s)
  | .notifyShutdown, s => ((), s)

def Call.refused : (c : Call) → Error → Option c.Ans
  | registry _, e => some (.error e)
  | peers _, e => some (.error e)
  | grants _, e => some (.error e)
  | store _, e => some (.error e)
  | fs _, e => some (.error e)
  | net _, e => some (.error e)
  | _, _ => none

/-- What a transfer may do to the store: a blob becomes complete, with bytes of the
hash and size asked for, or some of its chunks are verified. -/
inductive Transferred (h : Hash) (size : UInt64) (s : BlobStore) : DecodeResult → BlobStore → Prop
  | complete {leaves : List (UInt64 × ℕ)} (c : Content) :
      c.hash = h → c.size = size → Transferred h size s ⟨leaves, .ok (), .ok ()⟩ (s.addBlob c)
  | incomplete {r : DecodeResult} (chunks : List ℕ) :
      (∀ x y, r.decoded = .ok x → r.imported ≠ .ok y) → h ∉ s.blobs →
      Transferred h size s r { s with chunks := s.chunks.insert h chunks }
  | nothing {r : DecodeResult} :
      (∀ x y, r.decoded = .ok x → r.imported ≠ .ok y) → Transferred h size s r s

/-- Everything a call may be answered: what it does when nothing goes wrong, a
refusal that changes nothing, a listing of tags that breaks off, and whatever the
other end of a connection sends. -/
inductive Answers : (c : Call) → NodeState → c.Ans → NodeState → Prop
  | exec (c : Call) (s : NodeState) : Answers c s (exec c s).1 (exec c s).2
  | refused {c : Call} {a : c.Ans} (s : NodeState) (e : Error) :
      c.refused e = some a → Answers c s a s
  | brokenListing (s : NodeState) (n : ℕ) (e : Error) :
      Answers (.store .listTags) s (.ok ((s.store.listTags.take n).map .ok ++ [.error e])) s
  | connected (s : NodeState) (addr : EndpointAddr) (alpn : Alpn) :
      Answers (.net (.connect addr alpn)) s (.ok ()) s
  | received (s : NodeState) (stream : RecvStream) : Answers .recv s stream s
  | decoded {s : NodeState} {h : Hash} {size : UInt64} {stream : RecvStream} {r : DecodeResult}
      {store : BlobStore} :
      Transferred h size s.store r store →
      Answers (.decode h size stream) s r { s with store := store }

/-- `Answers`, with the disk free to accept anything it is asked to write. -/
inductive AnyDisk : (c : Call) → NodeState → c.Ans → NodeState → Prop
  | answer {c : Call} {s s' : NodeState} {a : c.Ans} : Answers c s a s' → AnyDisk c s a s'
  | created (path : Path) (s : NodeState) (fs : FileSystem) :
      fs.cwd = s.fs.cwd → AnyDisk (.fs (.createDirAll path)) s (.ok ()) { s with fs := fs }
  | exported (hash : Hash) (target : Path) (s : NodeState) (fs : FileSystem) :
      fs.cwd = s.fs.cwd → AnyDisk (.store (.exportBlob hash target)) s (.ok ()) { s with fs := fs }

section Asking

def registry (c : RegistryCall) : Action c.Reply := do .ofExcept (← .ask (.registry c))

def peers (c : PeersCall) : Action c.Reply := do .ofExcept (← .ask (.peers c))

def grants (c : GrantsCall) : Action c.Reply := do .ofExcept (← .ask (.grants c))

def store (c : StoreCall) : Action c.Reply := do .ofExcept (← .ask (.store c))

def fs (c : FsCall) : Action c.Reply := do .ofExcept (← .ask (.fs c))

def net (c : NetCall) : Action Unit := do .ofExcept (← .ask (.net c))

def pathExists (path : Path) : Action Bool := Program.ask (Call.pathExists path)

def isDir (path : Path) : Action Bool := Program.ask (Call.isDir path)

def walkDir (path : Path) : Action (List (Except Error DirEntry)) := Program.ask (Call.walkDir path)

def recv : Action RecvStream := Program.ask Call.recv

def decode (hash : Hash) (size : UInt64) (stream : RecvStream) : Action DecodeResult :=
  Program.ask (Call.decode hash size stream)

def endpointAddr : Action EndpointAddr := Program.ask Call.endpointAddr

def now : Action SystemTime := Program.ask Call.now

def send (e : Event) : Action Unit := Program.ask (Call.send e)

def dropTempTag (tag : TempTag) : Action Unit := Program.ask (Call.dropTempTag tag)

/-- `.context(..)` on a fallible step. -/
def context {α : Type} (s : String) (p : Action α) : Action α := p.mapError (.context s)

end Asking

section Rules

variable {σ α β : Type} {R : (c : Call) → σ → c.Ans → σ → Prop} {Z : Error → σ → Prop} {s : σ}

theorem wp_asking (c : Call) (f : c.Ans → Except Error α) (Q : α → σ → Prop) :
    (Program.ask c >>= fun a ↦ Program.ofExcept (f a) : Action α).wp R Q Z s ↔
      ∀ a s', R c s a s' → Outcome Q Z (f a) s' := by
  rw [Program.wp_bind, Program.wp_ask]
  exact forall₃_congr fun a s' _ ↦ Program.wp_ofExcept (f a)

theorem wp_registry (c : RegistryCall) (Q : c.Reply → σ → Prop) :
    (registry c).wp R Q Z s ↔ ∀ a s', R (.registry c) s a s' → Outcome Q Z a s' :=
  wp_asking (.registry c) id Q

theorem wp_peers (c : PeersCall) (Q : c.Reply → σ → Prop) :
    (peers c).wp R Q Z s ↔ ∀ a s', R (.peers c) s a s' → Outcome Q Z a s' :=
  wp_asking (.peers c) id Q

theorem wp_grants (c : GrantsCall) (Q : c.Reply → σ → Prop) :
    (grants c).wp R Q Z s ↔ ∀ a s', R (.grants c) s a s' → Outcome Q Z a s' :=
  wp_asking (.grants c) id Q

theorem wp_store (c : StoreCall) (Q : c.Reply → σ → Prop) :
    (store c).wp R Q Z s ↔ ∀ a s', R (.store c) s a s' → Outcome Q Z a s' :=
  wp_asking (.store c) id Q

theorem wp_fs (c : FsCall) (Q : c.Reply → σ → Prop) :
    (fs c).wp R Q Z s ↔ ∀ a s', R (.fs c) s a s' → Outcome Q Z a s' :=
  wp_asking (.fs c) id Q

theorem wp_net (c : NetCall) (Q : Unit → σ → Prop) :
    (net c).wp R Q Z s ↔ ∀ a s', R (.net c) s a s' → Outcome Q Z a s' :=
  wp_asking (.net c) id Q

theorem wp_isDir (path : Path) (Q : Bool → σ → Prop) :
    (isDir path).wp R Q Z s ↔ ∀ a s', R (.isDir path) s a s' → Q a s' := Iff.rfl

theorem wp_pathExists (path : Path) (Q : Bool → σ → Prop) :
    (pathExists path).wp R Q Z s ↔ ∀ a s', R (.pathExists path) s a s' → Q a s' := Iff.rfl

theorem wp_walkDir (path : Path) (Q : List (Except Error DirEntry) → σ → Prop) :
    (walkDir path).wp R Q Z s ↔ ∀ a s', R (.walkDir path) s a s' → Q a s' := Iff.rfl

theorem wp_endpointAddr (Q : EndpointAddr → σ → Prop) :
    endpointAddr.wp R Q Z s ↔ ∀ a s', R .endpointAddr s a s' → Q a s' := Iff.rfl

theorem wp_send (e : Event) (Q : Unit → σ → Prop) :
    (send e).wp R Q Z s ↔ ∀ a s', R (.send e) s a s' → Q a s' := Iff.rfl

theorem wp_dropTempTag (tag : TempTag) (Q : Unit → σ → Prop) :
    (dropTempTag tag).wp R Q Z s ↔ ∀ a s', R (.dropTempTag tag) s a s' → Q a s' := Iff.rfl

theorem wp_context (m : String) (p : Action α) (Q : α → σ → Prop) :
    (context m p).wp R Q Z s ↔ p.wp R Q (fun e ↦ Z (e.context m)) s := Program.wp_mapError _ p

end Rules

section Uses

variable {P : Call → Prop}

theorem uses_asking {α : Type} (c : Call) (f : c.Ans → Except Error α) (h : P c) :
    (Program.ask c >>= fun a ↦ Program.ofExcept (f a) : Action α).Uses P :=
  (uses_ask h).bind (fun _ ↦ uses_ofExcept _)

theorem uses_context {α : Type} {m : String} {p : Action α} (h : p.Uses P) : (context m p).Uses P :=
  Uses.mapError h

end Uses

section Execution

def execLogged (c : Call) (x : NodeState × Trace Call.Ans) : c.Ans × (NodeState × Trace Call.Ans) :=
  ((exec c x.1).1, ((exec c x.1).2, x.2 ++ [⟨c, (exec c x.1).1⟩]))

theorem answers_of_graph {c : Call} {s s' : NodeState} {a : c.Ans} (h : graph exec c s a s') :
    Answers c s a s' := by
  have ha : (exec c s).1 = a := congrArg Prod.fst h
  have hs : (exec c s).2 = s' := congrArg Prod.snd h
  subst ha hs
  exact .exec c s

theorem runs_exec {α : Type} (p : Action α) (s : NodeState) :
    Runs Answers p s (run exec p s).1 (run exec p s).2 :=
  (runs_run p s).mono fun _ _ _ _ ↦ answers_of_graph

theorem runs_execLogged {α : Type} {R : (c : Call) → NodeState → c.Ans → NodeState → Prop}
    (hR : ∀ c s, R c s (exec c s).1 (exec c s).2) (p : Action α) (x : NodeState × Trace Call.Ans) :
    Runs (logged R) p x (run execLogged p x).1 (run execLogged p x).2 :=
  (runs_run p x).mono (by
    intro c x a y h
    have ha : (execLogged c x).1 = a := congrArg Prod.fst h
    have hy : (execLogged c x).2 = y := congrArg Prod.snd h
    subst ha hy
    exact ⟨hR c x.1, rfl⟩)

variable {Z : Error → NodeState → Prop} {s : NodeState}

theorem wp_registry_exec {c : RegistryCall} {Q : c.Reply → NodeState → Prop} :
    (Ringdrop.registry c).wp (graph exec) Q Z s ↔
      Outcome Q Z (c.exec s.clock s.registry).1 { s with registry := (c.exec s.clock s.registry).2 } := by
  rw [wp_registry, forall_graph]
  rfl

theorem wp_peers_exec {c : PeersCall} {Q : c.Reply → NodeState → Prop} :
    (Ringdrop.peers c).wp (graph exec) Q Z s ↔
      Outcome Q Z (c.exec s.localStore).1 { s with localStore := (c.exec s.localStore).2 } := by
  rw [wp_peers, forall_graph]
  rfl

theorem wp_grants_exec {c : GrantsCall} {Q : c.Reply → NodeState → Prop} :
    (Ringdrop.grants c).wp (graph exec) Q Z s ↔
      Outcome Q Z (c.exec s.localStore).1 { s with localStore := (c.exec s.localStore).2 } := by
  rw [wp_grants, forall_graph]
  rfl

theorem wp_send_exec {e : Event} {Q : Unit → NodeState → Prop} :
    (send e).wp (graph exec) Q Z s ↔ Q () s := by
  rw [wp_send, forall_graph]
  rfl

theorem wp_pathExists_exec {path : Path} {Q : Bool → NodeState → Prop} :
    (pathExists path).wp (graph exec) Q Z s ↔ Q (s.fs.pathExists path) s := by
  rw [wp_pathExists, forall_graph]
  rfl

def Faultless (R : (c : Call) → NodeState → c.Ans → NodeState → Prop) : Prop :=
  ∀ c s a s', R c s a s' → graph exec c s a s'

theorem faultless_exec : Faultless (graph exec) := fun _ _ _ _ h ↦ h

/-- What is known of every failure, together with what is known of those that no call
is to blame for. -/
theorem wp_faultless {α : Type} {R : (c : Call) → NodeState → c.Ans → NodeState → Prop}
    {p : Action α} {Q : α → NodeState → Prop} {Z' : Error → NodeState → Prop}
    (hR : ∀ c s a s', R c s a s' → Answers c s a s') (h : p.wp Answers Q Z s)
    (hexec : p.wp (graph exec) (fun _ _ ↦ True) Z' s) :
    p.wp R Q (fun e s' ↦ Z e s' ∧ (Faultless R → Z' e s')) s := by
  have hany := wp_anti hR h
  by_cases hfaultless : Faultless R
  · refine wp_mono (wp_and hany (wp_anti hfaultless hexec)) (fun _ _ hq ↦ hq.1) ?_
    intro e s' hz
    exact ⟨hz.1, fun _ ↦ hz.2⟩
  · refine wp_mono hany (fun _ _ hq ↦ hq) ?_
    intro e s' hz
    exact ⟨hz, fun hf ↦ absurd hf hfaultless⟩

end Execution

section Inversion

variable {s s' : NodeState}

theorem answers_registry {c : RegistryCall} {a : Except Error c.Reply}
    (h : Answers (.registry c) s a s') :
    (a = (c.exec s.clock s.registry).1 ∧ s' = { s with registry := (c.exec s.clock s.registry).2 }) ∨
      ((∃ e, a = .error e) ∧ s' = s) := by
  cases h with
  | exec => exact .inl ⟨rfl, rfl⟩
  | refused s e h => exact .inr ⟨⟨e, (Option.some.inj h).symm⟩, rfl⟩

theorem answers_store {c : StoreCall} {a : Except Error c.Reply} (hc : c ≠ .listTags)
    (h : Answers (.store c) s a s') :
    (a = (c.exec s).1 ∧ s' = (c.exec s).2) ∨ ((∃ e, a = .error e) ∧ s' = s) := by
  cases h with
  | exec => exact .inl ⟨rfl, rfl⟩
  | refused s e h => exact .inr ⟨⟨e, (Option.some.inj h).symm⟩, rfl⟩
  | brokenListing => exact absurd rfl hc

theorem answers_fs {c : FsCall} {a : Except Error c.Reply} (h : Answers (.fs c) s a s') :
    (a = (c.exec s.fs).1 ∧ s' = { s with fs := (c.exec s.fs).2 }) ∨
      ((∃ e, a = .error e) ∧ s' = s) := by
  cases h with
  | exec => exact .inl ⟨rfl, rfl⟩
  | refused s e h => exact .inr ⟨⟨e, (Option.some.inj h).symm⟩, rfl⟩

theorem answers_isDir {path : Path} {a : Bool} (h : Answers (.isDir path) s a s') :
    a = s.fs.isDir path ∧ s' = s := by
  cases h with
  | exec => exact ⟨rfl, rfl⟩
  | refused s e h => cases h

theorem answers_pathExists {path : Path} {a : Bool} (h : Answers (.pathExists path) s a s') :
    a = s.fs.pathExists path ∧ s' = s := by
  cases h with
  | exec => exact ⟨rfl, rfl⟩
  | refused s e h => cases h

theorem answers_walkDir {path : Path} {a : List (Except Error DirEntry)}
    (h : Answers (.walkDir path) s a s') : a = s.fs.walkDir path ∧ s' = s := by
  cases h with
  | exec => exact ⟨rfl, rfl⟩
  | refused s e h => cases h

theorem answers_dropTempTag {tag : TempTag} {a : Unit} (h : Answers (.dropTempTag tag) s a s') :
    s' = { s with store := s.store.dropTempTag tag.id } := by
  cases h with
  | exec => rfl
  | refused s e h => cases h

theorem anyDisk_isDir {path : Path} {a : Bool} :
    AnyDisk (.isDir path) s a s' ↔ a = s.fs.isDir path ∧ s' = s := by
  constructor
  · intro h
    cases h with
    | answer h => exact answers_isDir h
  · rintro ⟨rfl, rfl⟩
    exact .answer (.exec (.isDir path) s')

theorem anyDisk_pathExists {path : Path} {a : Bool} :
    AnyDisk (.pathExists path) s a s' ↔ a = s.fs.pathExists path ∧ s' = s := by
  constructor
  · intro h
    cases h with
    | answer h => exact answers_pathExists h
  · rintro ⟨rfl, rfl⟩
    exact .answer (.exec (.pathExists path) s')

theorem wp_anyDisk_isDir {path : Path} {Q : Bool → NodeState → Prop} {Z : Error → NodeState → Prop} :
    (isDir path).wp AnyDisk Q Z s ↔ Q (s.fs.isDir path) s := by
  simp only [wp_isDir, anyDisk_isDir]
  exact ⟨fun h ↦ h _ _ ⟨rfl, rfl⟩, by rintro h _ _ ⟨rfl, rfl⟩; exact h⟩

theorem wp_anyDisk_pathExists {path : Path} {Q : Bool → NodeState → Prop}
    {Z : Error → NodeState → Prop} :
    (pathExists path).wp AnyDisk Q Z s ↔ Q (s.fs.pathExists path) s := by
  simp only [wp_pathExists, anyDisk_pathExists]
  exact ⟨fun h ↦ h _ _ ⟨rfl, rfl⟩, by rintro h _ _ ⟨rfl, rfl⟩; exact h⟩

end Inversion

end Ringdrop
