import Ringdrop.Core.Basic
import Ringdrop.Library.Program
import Mathlib.Logic.Function.Basic

namespace Ringdrop.Migration

open Std Library Program

inductive DataFile
  | localDb
  | localTmp
  | grantsDb
  | peersDb
  | registryDb
deriving DecidableEq

abbrev Grants := ExtTreeMap Bytes Unit

abbrev Peers := ExtTreeMap Bytes String

/-- The members of each ring, 32 bytes each, one after the other. -/
abbrev Rings := ExtTreeMap String Bytes

structure Db where
  grants : Option Grants
  peers : Option Peers
  rings : Option Rings

def Db.empty : Db := ⟨none, none, none⟩

inductive Table
  | grants
  | peers
  | rings
deriving DecidableEq

def Table.name : Table → String
  | grants => "grants"
  | peers => "peers"
  | rings => "rings"

def Db.has (d : Db) : Table → Bool
  | .grants => d.grants.isSome
  | .peers => d.peers.isSome
  | .rings => d.rings.isSome

inductive FileContent
  | db (d : Db)
  | other

abbrev DataDir := DataFile → Option FileContent

/-- The files, and the databases that this process has open. -/
structure DataState where
  files : DataDir
  opened : List DataFile

def boot (files : DataDir) : DataState := ⟨files, []⟩

/-- What the start of the daemon does besides. None of it touches the databases here. -/
inductive StartCall
  | loadConfig
  | createDataDir
  | probeRelay
  | bindEndpoint
  | loadBlobs
  | spawnRouter
  | bindListener

/-- What may fail. `openTable` is that of a read transaction; `access` stands for the reading
and writing of single rows, and of the tables' roots, inside a transaction. -/
inductive IoCall
  | removeFile (f : DataFile)
  | rename (src dst : DataFile)
  | createDb (f : DataFile)
  | openDb (f : DataFile)
  | beginRead (f : DataFile)
  | beginWrite (f : DataFile)
  | openTable (f : DataFile) (t : Table)
  | access (f : DataFile)
  | commit (f : DataFile) (d : Db)
  | start (c : StartCall)

@[reducible] def IoCall.Reply : IoCall → Type
  | beginRead _ => Db
  | beginWrite _ => Db
  | _ => Unit

inductive FileCall
  | io (c : IoCall)
  | fileExists (f : DataFile)
  | dropDb (f : DataFile)

@[reducible] def FileCall.Answer : FileCall → Type
  | io c => Except Error c.Reply
  | fileExists _ => Bool
  | dropDb _ => Unit

def notFound : Error := .msg "No such file or directory"

def alreadyOpen : Error := .msg "Database already open. Cannot acquire lock."

def notADatabase : Error := .msg "not a redb database"

def tableDoesNotExist (t : Table) : Error := .msg s!"Table '{t.name}' does not exist"

/-- A database file is open at most once. -/
def acquire (f : DataFile) (s : DataState) : Except Error Unit × DataState :=
  if f ∈ s.opened then (.error alreadyOpen, s)
  else
    match s.files f with
    | some (.db _) => (.ok (), { s with opened := f :: s.opened })
    | some .other => (.error notADatabase, s)
    | none => (.error notFound, s)

def transaction (f : DataFile) (s : DataState) : Except Error Db × DataState :=
  match s.files f with
  | some (.db d) => (.ok d, s)
  | _ => (.error notADatabase, s)

/-- Unlike one that is written to, a table that is read is not created. -/
def openTable (f : DataFile) (t : Table) (s : DataState) : Except Error Unit × DataState :=
  match s.files f with
  | some (.db d) => if d.has t then (.ok (), s) else (.error (tableDoesNotExist t), s)
  | _ => (.error notADatabase, s)

def execIo : (c : IoCall) → DataState → Except Error c.Reply × DataState
  | .removeFile f, s =>
    if (s.files f).isSome then (.ok (), { s with files := Function.update s.files f none })
    else (.error notFound, s)
  | .rename src dst, s =>
    if (s.files src).isSome then
      (.ok (), { s with files := Function.update (Function.update s.files src none) dst (s.files src) })
    else (.error notFound, s)
  | .createDb f, s =>
    if (s.files f).isNone ∧ f ∉ s.opened then
      (.ok (), ⟨Function.update s.files f (some (.db .empty)), f :: s.opened⟩)
    else acquire f s
  | .openDb f, s => acquire f s
  | .beginRead f, s => transaction f s
  | .beginWrite f, s => transaction f s
  | .openTable f t, s => openTable f t s
  | .access _, s => (.ok (), s)
  | .commit f d, s => (.ok (), { s with files := Function.update s.files f (some (.db d)) })
  | .start _, s => (.ok (), s)

def exec : (c : FileCall) → DataState → c.Answer × DataState
  | .io c, s => execIo c s
  | .fileExists f, s => ((s.files f).isSome, s)
  | .dropDb f, s => ((), { s with opened := s.opened.erase f })

/-- A call does what it is for, or it fails and nothing happens. -/
def Answers (c : FileCall) (s : DataState) (a : c.Answer) (s' : DataState) : Prop :=
  exec c s = (a, s') ∨
    match c, a with
    | .io _, .error _ => s' = s
    | _, _ => False

abbrev FileProgram := Program Error FileCall FileCall.Answer

def io (c : IoCall) : FileProgram c.Reply := do
  let r ← ask (FileCall.io c)
  Program.ofExcept r

def context {α : Type} (s : String) (p : FileProgram α) : FileProgram α := p.mapError (.context s)

/-- Work with a database, which is dropped at the end of the scope. -/
def withDb (f : DataFile) (acquire : FileProgram Unit) (body : FileProgram Unit) : FileProgram Unit := do
  acquire
  let r ← body.attempt
  ask (FileCall.dropDb f)
  Program.ofExcept r

def ifPresent (present : Bool) (p : FileProgram Unit) : FileProgram Unit :=
  if present then p else pure ()

/-- `as_chunks::<32>().0`: what is left over at the end is not a chunk. -/
def asChunks (members : Bytes) : List Bytes :=
  (List.range (members.length / 32)).map (fun i ↦ (members.drop (32 * i)).take 32)

/-- Copy all rows of a table from the old file it had for itself, if it opens. -/
def copyTable {β : Type} (rows row : String) (t : Table) (table : Db → Option (ExtTreeMap Bytes β))
    (withTable : Db → ExtTreeMap Bytes β → Db) (dst src : DataFile) : FileProgram Unit :=
  withDb src (context s!"opening {rows}.redb" (io (.openDb src))) do
    let read ← context s!"reading {rows}.redb" (io (.beginRead src))
    match ← (io (.openTable src t)).attempt with
    | .error _ => return
    | .ok _ =>
      let old := (table read).getD ∅
      let write ← context s!"writing {rows} to local.redb.tmp" (io (.beginWrite dst))
      context s!"opening {rows} table" (io (.access dst))
      context s!"iterating {rows}" (io (.access src))
      let new ← old.toList.foldlM
        (fun new item ↦ do
          context s!"reading {row} row" (io (.access src))
          context s!"inserting {row} row" (io (.access dst))
          return new.insert item.1 item.2)
        ((table write).getD ∅)
      context s!"committing {rows} migration" (io (.commit dst (withTable write new)))

def copyGrants : DataFile → DataFile → FileProgram Unit :=
  copyTable "grants" "grant" .grants Db.grants (fun db grants ↦ { db with grants := some grants })

def copyPeers : DataFile → DataFile → FileProgram Unit :=
  copyTable "peers" "peer" .peers Db.peers (fun db peers ↦ { db with peers := some peers })

/-- Members of named rings that have no entry of their own get one without a nickname. -/
def copyRingPeers (dst registry : DataFile) : FileProgram Unit :=
  withDb registry (context "opening registry.redb" (io (.openDb registry))) do
    let read ← context "reading registry.redb" (io (.beginRead registry))
    match ← (io (.openTable registry .rings)).attempt with
    | .error _ => return
    | .ok _ =>
      let rings := read.rings.getD ∅
      let write ← context "writing ring peers to local.redb.tmp" (io (.beginWrite dst))
      context "opening peers table" (io (.access dst))
      context "iterating rings" (io (.access registry))
      let new ← rings.toList.foldlM
        (fun peers row ↦ do
          context "reading ring row" (io (.access registry))
          if row.1 = "open" then return peers
          else
            (asChunks row.2).foldlM
              (fun peers chunk ↦ do
                context "querying peer in peers table" (io (.access dst))
                if chunk ∈ peers then return peers
                else
                  context "inserting ring peer" (io (.access dst))
                  return peers.insert chunk "")
              peers)
        (write.peers.getD ∅)
      context "committing ring peers migration" (io (.commit dst { write with peers := some new }))

def fillTmp (hasGrants hasPeers : Bool) : FileProgram Unit :=
  withDb .localTmp (context "creating local.redb.tmp" (io (.createDb .localTmp))) do
    let write ← context "initialising local.redb.tmp" (io (.beginWrite .localTmp))
    context "creating grants table" (io (.access .localTmp))
    context "creating peers table" (io (.access .localTmp))
    context "committing local.redb.tmp init" (io (.commit .localTmp
      { write with grants := some (write.grants.getD ∅), peers := some (write.peers.getD ∅) }))
    ifPresent hasGrants (copyGrants .localTmp .grantsDb)
    ifPresent hasPeers (copyPeers .localTmp .peersDb)
    let hasRegistry ← ask (.fileExists .registryDb)
    ifPresent hasRegistry (copyRingPeers .localTmp .registryDb)

/-- Phases 2 and 3: the rename, then the old files. -/
def replaceOldFiles (hasGrants hasPeers : Bool) : FileProgram Unit := do
  context "renaming local.redb.tmp → local.redb" (io (.rename .localTmp .localDb))
  ifPresent hasGrants (context "deleting grants.redb" (io (.removeFile .grantsDb)))
  ifPresent hasPeers (context "deleting peers.redb" (io (.removeFile .peersDb)))

def migrateIfNeeded : FileProgram Unit := do
  if ← ask (.fileExists .localDb) then return
  else
    let hasGrants ← ask (.fileExists .grantsDb)
    let hasPeers ← ask (.fileExists .peersDb)
    if !hasGrants && !hasPeers then return
    else
      let stale ← ask (.fileExists .localTmp)
      ifPresent stale (context "removing stale local.redb.tmp" (io (.removeFile .localTmp)))
      fillTmp hasGrants hasPeers
      replaceOldFiles hasGrants hasPeers

def initGrants : FileProgram Unit := do
  let write ← context "starting grants init transaction" (io (.beginWrite .localDb))
  context "creating grants table" (io (.access .localDb))
  context "committing grants init"
    (io (.commit .localDb { write with grants := some (write.grants.getD ∅) }))

def initPeers : FileProgram Unit := do
  let write ← context "starting peers init transaction" (io (.beginWrite .localDb))
  context "creating peers table" (io (.access .localDb))
  context "committing peers init"
    (io (.commit .localDb { write with peers := some (write.peers.getD ∅) }))

def openLocalStore : FileProgram Unit := do
  context "migrating to local.redb" migrateIfNeeded
  context "opening local.redb" (io (.createDb .localDb))
  context "initialising grant store" initGrants
  context "initialising peer store" initPeers

def probeRelay : Option String → FileProgram Unit
  | none => pure ()
  | some url =>
    context s!"relay probe failed for {url} — check relay_url in config.json" (io (.start .probeRelay))

/-- `Node::start`, which is given the open registry. -/
def nodeStart (relayUrl : Option String) : FileProgram Unit := do
  io (.start .createDataDir)
  probeRelay relayUrl
  context "binding iroh endpoint" (io (.start .bindEndpoint))
  context "loading FsStore" (io (.start .loadBlobs))
  openLocalStore
  io (.start .spawnRouter)

/-- `run_serve`, as far as the listener. The registry is a library's, and so is
`RedbRegistry::open`. -/
def runServe (openRegistry : FileProgram Unit) (relayUrl : Option String) : FileProgram Unit := do
  context "loading config" (io (.start .loadConfig))
  context "opening registry" openRegistry
  nodeStart relayUrl
  io (.start .bindListener)

end Ringdrop.Migration
