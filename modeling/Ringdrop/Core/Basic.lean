import Ringdrop.Library.LexicalPath
import Ringdrop.Library.Utf8
import Mathlib.Algebra.Group.Nat.Defs
import Std.Data.ExtTreeMap

namespace Ringdrop

open Library Std

abbrev Bytes := List UInt8

/-- A BLAKE3 hash. A hash stands for the bytes it was computed from: contents are
told apart by their hashes only. -/
structure Hash where
  asBytes : Bytes
  length_eq : asBytes.length = 32
deriving DecidableEq

structure EndpointId where
  asBytes : Bytes
  length_eq : asBytes.length = 32
deriving DecidableEq

namespace Hash

instance : Ord Hash := ⟨compareOn asBytes⟩

instance : TransOrd Hash := inferInstanceAs (TransCmp (compareOn asBytes))

instance : LawfulEqOrd Hash where
  eq_of_compare {a b} h := by
    obtain ⟨x, hx⟩ := a
    obtain ⟨y, hy⟩ := b
    have hxy : x = y := LawfulEqOrd.eq_of_compare h
    subst hxy
    rfl

/-- `[b; 32]` as a hash. -/
def fromByte (b : UInt8) : Hash := ⟨List.replicate 32 b, List.length_replicate⟩

end Hash

namespace EndpointId

instance : Ord EndpointId := ⟨compareOn asBytes⟩

instance : TransOrd EndpointId := inferInstanceAs (TransCmp (compareOn asBytes))

instance : LawfulEqOrd EndpointId where
  eq_of_compare {a b} h := by
    obtain ⟨x, hx⟩ := a
    obtain ⟨y, hy⟩ := b
    have hxy : x = y := LawfulEqOrd.eq_of_compare h
    subst hxy
    rfl

def fromByte (b : UInt8) : EndpointId := ⟨List.replicate 32 b, List.length_replicate⟩

end EndpointId

/-- The `width` low bytes of a number, least significant first. -/
def toLeBytes : ℕ → ℕ → Bytes
  | 0, _ => []
  | width + 1, n => UInt8.ofNat (n % 256) :: toLeBytes width (n / 256)

def ofLeBytes (bs : Bytes) : ℕ := bs.foldr (fun b acc ↦ b.toNat + 256 * acc) 0

theorem length_toLeBytes (width n : ℕ) : (toLeBytes width n).length = width := by
  induction width generalizing n with
  | zero => rfl
  | succ width ih => rw [toLeBytes, List.length_cons, ih]

theorem ofLeBytes_toLeBytes (width n : ℕ) : ofLeBytes (toLeBytes width n) = n % 256 ^ width := by
  induction width generalizing n with
  | zero => rw [Nat.pow_zero, Nat.mod_one]; rfl
  | succ width ih =>
    have hbyte : (UInt8.ofNat (n % 256)).toNat = n % 256 := UInt8.toNat_ofNat_of_lt' (Nat.mod_lt n (by decide))
    have hrest : ofLeBytes (toLeBytes (width + 1) n) = n % 256 + 256 * ofLeBytes (toLeBytes width (n / 256)) := by
      rw [← hbyte]
      rfl
    rw [hrest, ih, Nat.pow_succ', Nat.mod_mul]

theorem toLeBytes_ofLeBytes (bs : Bytes) : toLeBytes bs.length (ofLeBytes bs) = bs := by
  induction bs with
  | nil => rfl
  | cons b bs ih =>
    have hb := b.toNat_lt
    have hmod : (b.toNat + 256 * ofLeBytes bs) % 256 = b.toNat := by omega
    have hdiv : (b.toNat + 256 * ofLeBytes bs) / 256 = ofLeBytes bs := by omega
    have hcons : ofLeBytes (b :: bs) = b.toNat + 256 * ofLeBytes bs := rfl
    rw [hcons, List.length_cons, toLeBytes, hmod, hdiv, ih, UInt8.ofNat_toNat]

theorem ofLeBytes_lt (bs : Bytes) : ofLeBytes bs < 256 ^ bs.length := by
  rw [← toLeBytes_ofLeBytes bs, ofLeBytes_toLeBytes, length_toLeBytes]
  exact Nat.mod_lt _ (Nat.pow_pos (by decide))

def hexDigit (n : ℕ) : Char :=
  if n < 10 then Char.ofNat ('0'.toNat + n) else Char.ofNat ('a'.toNat + (n - 10))

def hexChars (bs : Bytes) : List Char :=
  bs.flatMap (fun b ↦ [hexDigit (b.toNat / 16), hexDigit (b.toNat % 16)])

theorem hexDigit_bytes : ∀ n < 16, ∀ b ∈ String.utf8EncodeChar (hexDigit n), b ≠ 0x2F ∧ b ≠ 0x2E := by
  decide +kernel

theorem hexChars_bytes {bs : Bytes} :
    ∀ b ∈ Utf8.toBytes (String.ofList (hexChars bs)), b ≠ 0x2F ∧ b ≠ 0x2E := by
  intro b hb
  rw [Utf8.toBytes_ofList, List.mem_flatMap] at hb
  obtain ⟨c, hc, hb⟩ := hb
  obtain ⟨x, -, hc⟩ := List.mem_flatMap.mp hc
  have hx := x.toNat_lt
  simp only [List.mem_cons, List.not_mem_nil, or_false] at hc
  rcases hc with rfl | rfl
  · exact hexDigit_bytes _ (by omega) b hb
  · exact hexDigit_bytes _ (by omega) b hb

theorem hexChars_ne_nil {bs : Bytes} (h : bs ≠ []) : Utf8.toBytes (String.ofList (hexChars bs)) ≠ [] := by
  cases bs with
  | nil => exact absurd rfl h
  | cons b bs =>
    rw [Utf8.toBytes_ofList, hexChars, List.flatMap_cons, List.cons_append, List.flatMap_cons]
    simp [String.utf8EncodeChar_ne_nil]

instance : ToString Hash := ⟨fun h ↦ String.ofList (hexChars h.asBytes)⟩

instance : ToString EndpointId := ⟨fun p ↦ String.ofList (hexChars p.asBytes)⟩

theorem length_hexChars (bs : Bytes) : (hexChars bs).length = 2 * bs.length := by
  induction bs with
  | nil => rfl
  | cons b bs ih =>
    change (hexChars bs).length + 1 + 1 = _
    rw [ih, List.length_cons]
    omega

theorem hexDigit_inj : ∀ m < 16, ∀ n < 16, hexDigit m = hexDigit n → m = n := by decide +kernel

theorem hexChars_inj {bs bs' : Bytes} (h : hexChars bs = hexChars bs') : bs = bs' := by
  induction bs generalizing bs' with
  | nil =>
    cases bs' with
    | nil => rfl
    | cons b' bs' => cases h
  | cons b bs ih =>
    cases bs' with
    | nil => cases h
    | cons b' bs' =>
      have hb := b.toNat_lt
      have hb' := b'.toNat_lt
      obtain ⟨hhigh, hlow, hrest⟩ : hexDigit (b.toNat / 16) = hexDigit (b'.toNat / 16) ∧
          hexDigit (b.toNat % 16) = hexDigit (b'.toNat % 16) ∧ hexChars bs = hexChars bs' := by
        simpa [hexChars] using h
      have hdiv := hexDigit_inj _ (by omega) _ (by omega) hhigh
      have hmod := hexDigit_inj _ (by omega) _ (by omega) hlow
      rw [ih hrest, UInt8.toNat_inj.mp (by omega : b.toNat = b'.toNat)]

theorem append_hash_inj {hash hash' : Hash} {rest rest' : String}
    (h : toString hash ++ rest = toString hash' ++ rest') : hash = hash' ∧ rest = rest' := by
  have hlist : hexChars hash.asBytes ++ rest.toList = hexChars hash'.asBytes ++ rest'.toList := by
    have htext : String.ofList (hexChars hash.asBytes) ++ rest = String.ofList (hexChars hash'.asBytes) ++ rest' := h
    simpa [String.toList_append] using congrArg String.toList htext
  have hlength : (hexChars hash.asBytes).length = (hexChars hash'.asBytes).length := by
    rw [length_hexChars, length_hexChars, hash.length_eq, hash'.length_eq]
  obtain ⟨hhash, hrest⟩ := List.append_inj hlist hlength
  obtain ⟨bytes, _⟩ := hash
  obtain ⟨bytes', _⟩ := hash'
  obtain rfl : bytes = bytes' := hexChars_inj hhash
  exact ⟨rfl, String.toList_injective hrest⟩

inductive BlobFormat
  | raw
  | hashSeq
deriving DecidableEq

structure HashAndFormat where
  hash : Hash
  format : BlobFormat
deriving DecidableEq

structure EndpointAddr where
  id : EndpointId
  relayUrls : List String
  ipAddrs : List String
deriving DecidableEq

def EndpointAddr.new (id : EndpointId) : EndpointAddr := ⟨id, [], []⟩

/-- Tickets keep the relays and drop the IP addresses. -/
def relayOnlyAddr (full : EndpointAddr) : EndpointAddr := ⟨full.id, full.relayUrls, []⟩

/-- Nanoseconds since the Unix epoch. -/
abbrev SystemTime := ℤ

/-- An `anyhow` error: the outermost message and the causes below it. -/
structure Error where
  message : String
  causes : List String
deriving DecidableEq

namespace Error

def msg (s : String) : Error := ⟨s, []⟩

def context (s : String) (e : Error) : Error := ⟨s, e.message :: e.causes⟩

/-- `to_string` shows the outermost message only. -/
instance : ToString Error := ⟨message⟩

/-- `{e:#}` shows the whole chain. -/
def alternate (e : Error) : String := String.intercalate ": " (e.message :: e.causes)

end Error

theorem bind_eq_ok {α β : Type} {x : Except Error α} {f : α → Except Error β} {v : β} :
    (x >>= f) = .ok v ↔ ∃ a, x = .ok a ∧ f a = .ok v := by
  cases x with
  | error e => simp [bind, Except.bind]
  | ok a => simp [bind, Except.bind]

abbrev Collection := List (String × Hash)

/-- The bytes of a blob, as far as the program looks at them: their hash and length,
what they read as when taken for a hash sequence, and for collection metadata. -/
structure Content where
  hash : Hash
  size : UInt64
  links : Option (List Hash)
  names : Option (List String)
deriving DecidableEq

abbrev Path := Bytes

namespace Path

def slash : UInt8 := 0x2F

def period : UInt8 := 0x2E

def ofString (s : String) : Path := Utf8.toBytes s

/-- `display` and `to_string_lossy`. -/
def toStringLossy (p : Path) : String := Utf8.fromUtf8Lossy p

def isAbsolute (p : Path) : Bool := LexicalPath.isAbsolute slash p

def join (p q : Path) : Path := LexicalPath.join slash p q

/-- The pieces `Path::components` yields: the root, a leading `.`, and everything
that is neither empty nor a later `.`. -/
def parts (p : Path) : List Bytes :=
  (if p.isAbsolute then [[slash]]
    else if (p.splitOn slash).head? = some [period] then [[period]] else []) ++
    LexicalPath.components slash period p

def resolve (p cwd : Path) : List Bytes :=
  LexicalPath.resolve slash period (LexicalPath.resolve slash period [] cwd) p

def fileName (p : Path) : Option Bytes :=
  p.parts.getLast?.filter (fun c ↦ c ≠ [slash] ∧ c ≠ [period] ∧ c ≠ [period, period])

def parent (p : Path) : Option Path :=
  if p.parts = [] ∨ p.parts = [[slash]] then none else some (p.parts.dropLast.foldl join [])

def stripPrefix (p base : Path) : Option Path :=
  if base.parts <+: p.parts then some ((p.parts.drop base.parts.length).foldl join []) else none

/-- `std::path::absolute`: put the working directory in front and drop `.` pieces;
`..` stays. Exactly two leading slashes are kept. -/
def absolute (p cwd : Path) : Except Error Path :=
  if p = [] then .error (.msg "cannot make an empty path absolute")
  else
    let base :=
      if p.isAbsolute then
        if p.take 2 = [slash, slash] ∧ p[2]? ≠ some slash then [slash, slash] else [slash]
      else cwd
    let q := (LexicalPath.components slash period p).foldl join base
    .ok (if p.getLast? = some slash then join q [] else q)

example : (absolute (ofString "./a/../b/") (ofString "/work")).toOption =
    some (ofString "/work/a/../b/") := by
  decide

end Path

end Ringdrop
