import Ringdrop.Core.LocalStore
import Ringdrop.Library.Base32

namespace Ringdrop

open Library

structure TicketWire where
  addr : EndpointAddr
  hash : Hash
  format : BlobFormat
  name : Option String
deriving DecidableEq

inductive Status
  | denied
  | allowed
  | other
deriving DecidableEq

/-- What the node takes from libraries and from the machine it runs on: parsers and
printers, the serialised form of collections, and the home directory. -/
structure Env where
  parseEndpointId : String → Except String EndpointId
  parseHash : String → Except String Hash
  toUppercase : Char → List Char
  ticketToJson : TicketWire → Except String String
  ticketFromJson : Bytes → Except String TicketWire
  collectionMeta : List String → Content
  collectionRoot : List Hash → Content
  collectionMeta_names : ∀ names, (collectionMeta names).names = some names
  collectionRoot_links : ∀ links, (collectionRoot links).links = some links
  parseStatus : UInt8 → Except String Status
  qrCode : String → Except String (List String)
  oneDecimal : UInt64 → UInt64 → String
  isPrintable : Char → Bool
  homeDir : Option Path

def parsePeerId (env : Env) (s : String) : Except Error EndpointId :=
  match env.parseEndpointId s with
  | .ok peer => .ok peer
  | .error e => .error (.msg s!"invalid peer id: {e}")

def parseHash (env : Env) (s : String) : Except Error Hash :=
  match env.parseHash s with
  | .ok hash => .ok hash
  | .error e => .error (.msg s!"invalid hash: {e}")

def formatPeerEntry (peer : EndpointId) : Option String → String
  | some nick => s!"{peer}  ({nick})"
  | none => toString peer

def kib : UInt64 := 1024

def mib : UInt64 := 1024 * kib

def gib : UInt64 := 1024 * mib

/-- A byte count for people. `oneDecimal` divides and keeps one decimal. -/
def formatSize (env : Env) (bytes : UInt64) : String :=
  if gib ≤ bytes then s!"{env.oneDecimal bytes gib} GiB"
  else if mib ≤ bytes then s!"{env.oneDecimal bytes mib} MiB"
  else if kib ≤ bytes then s!"{env.oneDecimal bytes kib} KiB"
  else s!"{bytes} B"

def units : List (ℕ × String) := [(86400, "d"), (3600, "h"), (60, "m"), (1, "s")]

def formatRemaining (secs : ℕ) : String :=
  match units.dropWhile (fun u ↦ secs < u.1) with
  | [] => "0s"
  | (majorSecs, majorSuffix) :: rest =>
    let majorPart := s!"{secs / majorSecs}{majorSuffix}"
    match rest with
    | (minorSecs, minorSuffix) :: _ =>
      if secs % majorSecs / minorSecs > 0 then
        s!"{majorPart} {secs % majorSecs / minorSecs}{minorSuffix}"
      else majorPart
    | [] => majorPart

/-- The `{:?}` form of a string. -/
def debugString (env : Env) (s : String) : String :=
  let escape (c : Char) : List Char :=
    if c.toNat = 0 then ['\\', '0']
    else if c.toNat = 9 then ['\\', 't']
    else if c.toNat = 10 then ['\\', 'n']
    else if c.toNat = 13 then ['\\', 'r']
    else if c.toNat = 34 ∨ c.toNat = 92 then ['\\', c]
    else if env.isPrintable c then [c]
    else ['\\', 'u', '{'] ++ Nat.toDigits 16 c.toNat ++ ['}']
  String.ofList (Char.ofNat 34 :: s.toList.flatMap escape ++ [Char.ofNat 34])

def Privilege.tryFrom (env : Env) (s : String) : Except Error Privilege :=
  match Privilege.all.find? (fun p ↦ p.asStr == s) with
  | some p => .ok p
  | none => .error (.msg s!"unknown privilege: {debugString env s}")

end Ringdrop
