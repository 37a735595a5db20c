import Ringdrop.Core.Util
import Ringdrop.Library.Json

namespace Ringdrop

open Library

structure ShareTicket where
  addr : EndpointAddr
  hash : Hash
  format : BlobFormat
  name : Option String
deriving DecidableEq

namespace ShareTicket

def fromFormat (addr : EndpointAddr) (hash : Hash) (format : BlobFormat) (name : Option String) :
    ShareTicket := ⟨addr, hash, format, name⟩

def peerId (t : ShareTicket) : EndpointId := t.addr.id

def uriPrefix : List Char := "rdrop://".toList

def toUri (env : Env) (t : ShareTicket) : Except Error String :=
  match env.ticketToJson ⟨t.addr, t.hash, t.format, t.name⟩ with
  | .error e => .error ((Error.msg e).context "serializing ticket")
  | .ok json =>
    .ok (String.ofList (uriPrefix ++ (Base32.encode (Utf8.toBytes json)).map Char.toLower))

def fromUri (env : Env) (s : String) : Except Error ShareTicket :=
  if uriPrefix.isPrefixOf s.toList then
    match Base32.decode ((s.toList.drop uriPrefix.length).flatMap env.toUppercase) with
    | none => .error ((Error.msg "invalid symbol").context "invalid ticket: base32 decode failed")
    | some bytes =>
      match env.ticketFromJson bytes with
      | .error e => .error ((Error.msg e).context "invalid ticket: json parse failed")
      | .ok wire => .ok ⟨wire.addr, wire.hash, wire.format, wire.name⟩
  else .error (.msg "invalid ticket: expected 'rdrop://' prefix")

theorem fromUri_toUri {env : Env} {t : ShareTicket} {uri : String}
    (hup : ∀ c ∈ Base32.alphabet, env.toUppercase c.toLower = [c])
    (hjson : ∀ json, env.ticketToJson ⟨t.addr, t.hash, t.format, t.name⟩ = .ok json →
      env.ticketFromJson (Utf8.toBytes json) = .ok ⟨t.addr, t.hash, t.format, t.name⟩)
    (h : t.toUri env = .ok uri) : fromUri env uri = .ok t := by
  unfold toUri at h
  cases hj : env.ticketToJson ⟨t.addr, t.hash, t.format, t.name⟩ with
  | error e => simp [hj] at h
  | ok json =>
    rw [hj] at h
    obtain rfl := Except.ok.inj h
    have hupper : ((Base32.encode (Utf8.toBytes json)).map Char.toLower).flatMap env.toUppercase =
        Base32.encode (Utf8.toBytes json) := by
      rw [List.flatMap_map]
      have hc : ∀ c ∈ Base32.encode (Utf8.toBytes json), env.toUppercase c.toLower = [c] :=
        fun c hc ↦ hup c (Base32.mem_alphabet_of_mem_encode hc)
      generalize Base32.encode (Utf8.toBytes json) = cs at hc ⊢
      induction cs with
      | nil => rfl
      | cons c cs ih =>
        rw [List.flatMap_cons, hc c (by simp), ih (fun c' h' ↦ hc c' (by simp [h']))]
        rfl
    unfold fromUri
    rw [String.toList_ofList, if_pos (by simp), List.drop_left, hupper, Base32.decode_encode]
    simp only [hjson json hj]

end ShareTicket

namespace Env

def hexValue (c : Char) : Option ℕ := "0123456789abcdef".toList.idxOf? c.toLower

def hexBytes : List Char → Option Bytes
  | [] => some []
  | [_] => none
  | a :: b :: rest => do
    let high ← hexValue a
    let low ← hexValue b
    some (UInt8.ofNat (16 * high + low) :: (← hexBytes rest))

def parseHex32 {α : Type} (mk : (bs : Bytes) → bs.length = 32 → α) (s : String) : Except String α :=
  match hexBytes s.toList with
  | none => .error "invalid hex"
  | some bs => if h : bs.length = 32 then .ok (mk bs h) else .error "invalid length"

def formatName : BlobFormat → String
  | .raw => "Raw"
  | .hashSeq => "HashSeq"

def ticketJson (w : TicketWire) : String :=
  String.ofList (Json.print (.obj
    [("addr", .obj [("id", .str (toString w.addr.id)),
        ("addrs", .arr (w.addr.relayUrls.map (fun url ↦ .obj [("Relay", .str url)])))]),
      ("hash", .str (toString w.hash)), ("format", .str (formatName w.format)),
      ("name", match w.name with | some name => .str name | none => .null)]))

/-- Surroundings to try the programs in: identities in hexadecimal, ASCII letters
only, made-up hashes for collections, and a JSON reader for the tickets listed. -/
def plain (tickets : List TicketWire) : Env where
  parseEndpointId := parseHex32 EndpointId.mk
  parseHash := parseHex32 Hash.mk
  toUppercase := fun c ↦ [c.toUpper]
  ticketToJson := fun w ↦ .ok (ticketJson w)
  ticketFromJson := fun bs ↦ match tickets.find? (fun w ↦ Utf8.toBytes (ticketJson w) == bs) with
    | some w => .ok w
    | none => .error "expected value"
  collectionMeta := fun names ↦ ⟨.fromByte 0xEE, UInt64.ofNat names.length, none, some names⟩
  collectionRoot := fun links ↦ ⟨.fromByte 0xDD, UInt64.ofNat (32 * links.length), some links, none⟩
  collectionMeta_names := fun _ ↦ rfl
  collectionRoot_links := fun _ ↦ rfl
  parseStatus := fun b ↦ if b = 0 then .ok .denied else if b = 1 then .ok .allowed else .error "unknown status"
  qrCode := fun s ↦ .ok [s]
  oneDecimal := fun n unit ↦ s!"{n / unit}.{n % unit * 10 / unit}"
  isPrintable := fun c ↦ decide (32 ≤ c.toNat)
  homeDir := none

end Env

def namedTicket (name : String) : ShareTicket := ⟨.new (.fromByte 9), .fromByte 1, .raw, some name⟩

def namedWire (name : String) : TicketWire := ⟨.new (.fromByte 9), .fromByte 1, .raw, some name⟩

def namedUri (name : String) : String :=
  String.ofList (ShareTicket.uriPrefix ++
    (Base32.encode (Utf8.toBytes (Env.ticketJson (namedWire name)))).map Char.toLower)

theorem find?_of_only {α : Type} {p : α → Bool} {l : List α} {x : α} (hx : x ∈ l) (hp : p x = true)
    (honly : ∀ w ∈ l, p w = true → w = x) : l.find? p = some x := by
  cases hw : l.find? p with
  | none => exact absurd hp (List.find?_eq_none.mp hw x hx)
  | some w => rw [honly w (List.mem_of_find?_eq_some hw) (List.find?_some hw)]

theorem fromUri_listed {t : ShareTicket} {w : TicketWire} {tickets : List TicketWire} {uri : String}
    (hw : w = ⟨t.addr, t.hash, t.format, t.name⟩) (ht : w ∈ tickets)
    (honly : ∀ w' ∈ tickets, Utf8.toBytes (Env.ticketJson w') = Utf8.toBytes (Env.ticketJson w) → w' = w)
    (h : t.toUri (.plain tickets) = .ok uri) : ShareTicket.fromUri (.plain tickets) uri = .ok t := by
  have hall : (Base32.alphabet.all fun c ↦ c.toLower.toUpper == c) = true := rfl
  have hup : ∀ c ∈ Base32.alphabet, [c.toLower.toUpper] = [c] := by
    intro c hc
    rw [beq_iff_eq.mp (List.all_eq_true.mp hall c hc)]
  have hfind : tickets.find? (fun w' ↦ Utf8.toBytes (Env.ticketJson w') == Utf8.toBytes (Env.ticketJson w)) = some w :=
    find?_of_only ht (by simp) fun w' hw' heq ↦ honly w' hw' (beq_iff_eq.mp heq)
  refine ShareTicket.fromUri_toUri hup ?_ h
  intro json hj
  obtain rfl := Except.ok.inj hj
  rw [← hw]
  simp only [Env.plain, hfind]

theorem fromUri_plain {t : ShareTicket} {tickets : List TicketWire} {uri : String}
    (ht : tickets = [⟨t.addr, t.hash, t.format, t.name⟩]) (h : t.toUri (.plain tickets) = .ok uri) :
    ShareTicket.fromUri (.plain tickets) uri = .ok t :=
  fromUri_listed rfl (by simp [ht]) (by simp [ht]) h

theorem fromUri_namedUri (name : String) :
    ShareTicket.fromUri (.plain [namedWire name]) (namedUri name) = .ok (namedTicket name) :=
  fromUri_plain rfl rfl

end Ringdrop
