import Mathlib.Data.List.DropRight
import Ringdrop.Core.Basic

namespace Ringdrop

open Library

structure Duration where
  secs : UInt64
  nanos : ℕ
  nanos_lt : nanos < 1000000000
deriving DecidableEq

namespace Duration

def fromSecs (secs : UInt64) : Duration := ⟨secs, 0, by decide⟩

def asNanos (d : Duration) : ℕ := d.secs.toNat * 1000000000 + d.nanos

end Duration

/-- The Unicode property `White_Space`. -/
def isWhitespace (c : Char) : Bool :=
  9 ≤ c.toNat ∧ c.toNat ≤ 13 ∨ c.toNat ∈ [0x20, 0x85, 0xA0, 0x1680] ∨ 0x2000 ≤ c.toNat ∧ c.toNat ≤ 0x200A ∨
    c.toNat ∈ [0x2028, 0x2029, 0x202F, 0x205F, 0x3000]

def trim (cs : List Char) : List Char := (cs.dropWhile isWhitespace).rdropWhile isWhitespace

def parseU64 (digits : List Char) : Option UInt64 :=
  if digits = [] then none
  else if Nat.ofDigitChars 10 digits 0 < 2 ^ 64 then some (UInt64.ofNat (Nat.ofDigitChars 10 digits 0))
  else none

def checkedMul (a b : UInt64) : Option UInt64 := if a.toNat * b.toNat < 2 ^ 64 then some (a * b) else none

def unitSecs : List Char → Option UInt64
  | ['s'] => some 1
  | ['m'] => some 60
  | ['h'] => some 3600
  | ['d'] => some 86400
  | ['w'] => some 604800
  | _ => none

/-- A positive integer followed by one of the units, with white space around them. -/
def parseDuration (s : String) : Except Error Duration :=
  let trimmed := trim s.toList
  let text := String.ofList trimmed
  let unit := trimmed.dropWhile Char.isDigit
  if unit = [] then .error (.msg s!"missing unit in '{text}' (use s, m, h, d or w)")
  else match parseU64 (trimmed.takeWhile Char.isDigit) with
    | none => .error (.msg s!"invalid duration '{text}': expected e.g. 30m, 12h, 7d")
    | some value =>
      if value = 0 then .error (.msg "duration must be greater than zero")
      else match unitSecs unit with
        | none => .error (.msg s!"unknown duration unit '{String.ofList unit}' (use s, m, h, d or w)")
        | some unitSecs => match checkedMul value unitSecs with
          | none => .error (.msg s!"duration '{text}' is too large")
          | some secs => .ok (.fromSecs secs)

section Trimming

variable {pre core post : List Char}

theorem trim_append (hpre : ∀ c ∈ pre, isWhitespace c = true) (hpost : ∀ c ∈ post, isWhitespace c = true)
    (hhead : ∀ c ∈ core.head?, isWhitespace c = false) (hlast : ∀ c ∈ core.getLast?, isWhitespace c = false)
    (hne : core ≠ []) : trim (pre ++ core ++ post) = core := by
  have hstop : ∀ cs ds : List Char, cs ≠ [] → (∀ c ∈ cs.head?, isWhitespace c = false) →
      (cs ++ ds).dropWhile isWhitespace = cs ++ ds := by
    intro cs ds hcs hc
    cases cs with
    | nil => exact absurd rfl hcs
    | cons c cs => exact List.dropWhile_cons_of_neg (by simp [hc c rfl])
  have hleft : (pre ++ core ++ post).dropWhile isWhitespace = core ++ post := by
    rw [List.append_assoc, List.dropWhile_append_of_pos hpre, hstop core post hne hhead]
  have hright := hstop core.reverse [] (by simpa using hne) (by simpa using hlast)
  rw [List.append_nil] at hright
  rw [trim, hleft, List.rdropWhile, List.reverse_append, List.dropWhile_append_of_pos (by simpa using hpost), hright,
    List.reverse_reverse]

theorem exists_trim (cs : List Char) : ∃ pre post, cs = pre ++ trim cs ++ post ∧
    (∀ c ∈ pre, isWhitespace c = true) ∧ ∀ c ∈ post, isWhitespace c = true := by
  refine ⟨cs.takeWhile isWhitespace, (cs.dropWhile isWhitespace).rtakeWhile isWhitespace, ?_, ?_, ?_⟩
  · rw [trim, List.append_assoc, List.rdropWhile_append_rtakeWhile, List.takeWhile_append_dropWhile]
  · intro c hc
    exact List.mem_takeWhile_imp hc
  · intro c hc
    exact List.mem_rtakeWhile_imp hc

end Trimming

section Parsing

def durationUnits : List (Char × ℕ) := [('s', 1), ('m', 60), ('h', 3600), ('d', 86400), ('w', 604800)]

theorem parseU64_eq_some_iff {digits : List Char} {v : UInt64} : parseU64 digits = some v ↔
    digits ≠ [] ∧ Nat.ofDigitChars 10 digits 0 < 2 ^ 64 ∧ v.toNat = Nat.ofDigitChars 10 digits 0 := by
  unfold parseU64
  split
  · simp [*]
  · rename_i hne
    split
    · rename_i hlt
      rw [Option.some_inj]
      refine ⟨fun h ↦ ⟨hne, hlt, ?_⟩, fun h ↦ ?_⟩
      · rw [← h, UInt64.toNat_ofNat_of_lt' hlt]
      · rw [← h.2.2, UInt64.ofNat_toNat]
    · rename_i hnot
      refine ⟨fun h ↦ ?_, fun h ↦ absurd h.2.1 hnot⟩
      cases h

theorem checkedMul_eq_some_iff {a b v : UInt64} : checkedMul a b = some v ↔
    a.toNat * b.toNat < 2 ^ 64 ∧ v.toNat = a.toNat * b.toNat := by
  unfold checkedMul
  split
  · rename_i hlt
    have hmul : (a * b).toNat = a.toNat * b.toNat := by
      rw [UInt64.toNat_mul, Nat.mod_eq_of_lt hlt]
    rw [Option.some_inj]
    refine ⟨fun h ↦ ⟨hlt, ?_⟩, fun h ↦ ?_⟩
    · rw [← h, hmul]
    · exact UInt64.toNat_inj.mp (hmul.trans h.2.symm)
  · rename_i hnot
    refine ⟨fun h ↦ ?_, fun h ↦ absurd h.1 hnot⟩
    cases h

theorem unitSecs_eq_some_iff {unit : List Char} {k : UInt64} : unitSecs unit = some k ↔
    ∃ c, unit = [c] ∧ (c, k.toNat) ∈ durationUnits := by
  constructor
  · intro h
    unfold unitSecs at h
    split at h
    · obtain rfl := Option.some.inj h
      exact ⟨'s', rfl, by decide⟩
    · obtain rfl := Option.some.inj h
      exact ⟨'m', rfl, by decide⟩
    · obtain rfl := Option.some.inj h
      exact ⟨'h', rfl, by decide⟩
    · obtain rfl := Option.some.inj h
      exact ⟨'d', rfl, by decide⟩
    · obtain rfl := Option.some.inj h
      exact ⟨'w', rfl, by decide⟩
    · cases h
  · rintro ⟨c, rfl, hc⟩
    simp only [durationUnits, List.mem_cons, Prod.mk.injEq, List.not_mem_nil, or_false] at hc
    rcases hc with ⟨rfl, hk⟩ | ⟨rfl, hk⟩ | ⟨rfl, hk⟩ | ⟨rfl, hk⟩ | ⟨rfl, hk⟩
    · exact congrArg some (UInt64.toNat_inj.mp hk.symm)
    · exact congrArg some (UInt64.toNat_inj.mp hk.symm)
    · exact congrArg some (UInt64.toNat_inj.mp hk.symm)
    · exact congrArg some (UInt64.toNat_inj.mp hk.symm)
    · exact congrArg some (UInt64.toNat_inj.mp hk.symm)

theorem unit_properties {c : Char} {k : ℕ} (h : (c, k) ∈ durationUnits) :
    c.isDigit = false ∧ isWhitespace c = false ∧ 0 < k ∧ k < 2 ^ 64 := by
  have hall : ∀ u ∈ durationUnits, u.1.isDigit = false ∧ isWhitespace u.1 = false ∧ 0 < u.2 ∧ u.2 < 2 ^ 64 := by
    decide
  exact hall (c, k) h

theorem isWhitespace_of_isDigit {c : Char} (h : c.isDigit = true) : isWhitespace c = false := by
  have hc : 48 ≤ c.toNat ∧ c.toNat ≤ 57 := by
    have hrange : 48 ≤ c.val ∧ c.val ≤ 57 := by simpa [Char.isDigit] using h
    exact ⟨hrange.1, hrange.2⟩
  have hnot : ¬ isWhitespace c = true := by
    simp only [isWhitespace, decide_eq_true_eq, List.mem_cons, List.not_mem_nil, or_false]
    omega
  exact Bool.eq_false_iff.mpr hnot

theorem span_append {digits : List Char} {c : Char} (hdigits : ∀ d ∈ digits, d.isDigit = true)
    (hc : c.isDigit = false) : (digits ++ [c]).takeWhile Char.isDigit = digits ∧
      (digits ++ [c]).dropWhile Char.isDigit = [c] := by
  have hstop : ¬ c.isDigit = true := by simp [hc]
  constructor
  · rw [List.takeWhile_append_of_pos hdigits, List.takeWhile_cons_of_neg hstop, List.append_nil]
  · rw [List.dropWhile_append_of_pos hdigits, List.dropWhile_cons_of_neg hstop]

/-- `text` is a number followed by a unit, and together they come to `secs` seconds. -/
def Denotes (text : List Char) (secs : ℕ) : Prop :=
  ∃ digits unit k, text = digits ++ [unit] ∧ digits ≠ [] ∧ (∀ c ∈ digits, c.isDigit = true) ∧
    (unit, k) ∈ durationUnits ∧ 0 < Nat.ofDigitChars 10 digits 0 ∧ Nat.ofDigitChars 10 digits 0 < 2 ^ 64 ∧
    Nat.ofDigitChars 10 digits 0 * k < 2 ^ 64 ∧ secs = Nat.ofDigitChars 10 digits 0 * k

theorem parseDuration_ok_iff_trim {s : String} {d : Duration} :
    parseDuration s = .ok d ↔ Denotes (trim s.toList) d.secs.toNat ∧ d.nanos = 0 := by
  constructor
  · intro h
    unfold parseDuration at h
    dsimp only at h
    split at h
    · cases h
    · split at h
      · cases h
      · rename_i value hvalue
        split at h
        · cases h
        · rename_i hpos
          split at h
          · cases h
          · rename_i k hk
            split at h
            · cases h
            · rename_i secs hsecs
              obtain rfl := Except.ok.inj h
              obtain ⟨hne, hlt, hv⟩ := parseU64_eq_some_iff.mp hvalue
              obtain ⟨c, hc, hunit⟩ := unitSecs_eq_some_iff.mp hk
              obtain ⟨hmul, hsecs⟩ := checkedMul_eq_some_iff.mp hsecs
              have hsplit : trim s.toList = (trim s.toList).takeWhile Char.isDigit ++ [c] := by
                rw [← hc, List.takeWhile_append_dropWhile]
              have hv0 : value.toNat ≠ 0 := fun h0 ↦ hpos (UInt64.toNat_inj.mp h0)
              rw [hv] at hmul hsecs hv0
              refine ⟨⟨_, c, k.toNat, hsplit, hne, ?_, hunit, Nat.pos_of_ne_zero hv0, hlt, hmul, hsecs⟩, rfl⟩
              intro x hx
              exact List.mem_takeWhile_imp hx
  · intro ⟨⟨digits, c, k, htext, hne, hdigits, hunit, hpos, hlt, hmul, hsecs⟩, hnanos⟩
    obtain ⟨hc, -, -, hk⟩ := unit_properties hunit
    obtain ⟨htake, hdrop⟩ := span_append hdigits hc
    have hk' : (UInt64.ofNat k).toNat = k := UInt64.toNat_ofNat_of_lt' hk
    have hv : (UInt64.ofNat (Nat.ofDigitChars 10 digits 0)).toNat = Nat.ofDigitChars 10 digits 0 :=
      UInt64.toNat_ofNat_of_lt' hlt
    have hvalue : parseU64 digits = some (UInt64.ofNat (Nat.ofDigitChars 10 digits 0)) :=
      parseU64_eq_some_iff.mpr ⟨hne, hlt, hv⟩
    have hvalue0 : ¬ UInt64.ofNat (Nat.ofDigitChars 10 digits 0) = 0 := by
      intro h0
      rw [h0] at hv
      exact absurd hv hpos.ne
    have hunitSecs : unitSecs [c] = some (UInt64.ofNat k) := unitSecs_eq_some_iff.mpr ⟨c, rfl, by rwa [hk']⟩
    have hmul' : checkedMul (UInt64.ofNat (Nat.ofDigitChars 10 digits 0)) (UInt64.ofNat k) = some d.secs := by
      rw [checkedMul_eq_some_iff, hv, hk']
      exact ⟨hmul, hsecs⟩
    unfold parseDuration
    simp only [htext, htake, hdrop, hvalue, hvalue0, hunitSecs, hmul', List.cons_ne_nil, if_false]
    obtain ⟨secs, nanos, hlt⟩ := d
    obtain rfl : nanos = 0 := hnanos
    rfl

theorem trim_eq_iff {cs text : List Char} {secs : ℕ} (h : Denotes text secs) :
    trim cs = text ↔ ∃ pre post, cs = pre ++ text ++ post ∧ (∀ c ∈ pre, isWhitespace c = true) ∧
      ∀ c ∈ post, isWhitespace c = true := by
  constructor
  · intro ht
    have hex := exists_trim cs
    rwa [ht] at hex
  · intro ⟨pre, post, hcs, hpre, hpost⟩
    obtain ⟨digits, c, k, rfl, hne, hdigits, hunit, -⟩ := h
    rw [hcs]
    apply trim_append hpre hpost
    · intro x hx
      rw [List.head?_append_of_ne_nil _ hne] at hx
      exact isWhitespace_of_isDigit (hdigits x (List.mem_of_mem_head? hx))
    · intro x hx
      rw [List.getLast?_concat, Option.mem_some_iff] at hx
      exact hx ▸ (unit_properties hunit).2.1
    · simp

/-- The texts that are read as a duration, and what they are read as. -/
theorem parseDuration_ok_iff (s : String) (d : Duration) :
    parseDuration s = .ok d ↔ ∃ pre digits unit k post, s.toList = pre ++ (digits ++ [unit]) ++ post ∧
      (∀ c ∈ pre, isWhitespace c = true) ∧ (∀ c ∈ post, isWhitespace c = true) ∧
      digits ≠ [] ∧ (∀ c ∈ digits, c.isDigit = true) ∧ (unit, k) ∈ durationUnits ∧
      0 < Nat.ofDigitChars 10 digits 0 ∧ Nat.ofDigitChars 10 digits 0 < 2 ^ 64 ∧
      Nat.ofDigitChars 10 digits 0 * k < 2 ^ 64 ∧
      d.secs.toNat = Nat.ofDigitChars 10 digits 0 * k ∧ d.nanos = 0 := by
  rw [parseDuration_ok_iff_trim]
  constructor
  · intro ⟨hden, hnanos⟩
    obtain ⟨pre, post, hs, hpre, hpost⟩ := (trim_eq_iff hden).mp rfl
    obtain ⟨digits, unit, k, htext, hne, hdigits, hunit, hpos, hlt, hmul, hsecs⟩ := hden
    rw [htext] at hs
    exact ⟨pre, digits, unit, k, post, hs, hpre, hpost, hne, hdigits, hunit, hpos, hlt, hmul, hsecs, hnanos⟩
  · intro ⟨pre, digits, unit, k, post, hs, hpre, hpost, hne, hdigits, hunit, hpos, hlt, hmul, hsecs, hnanos⟩
    have hden : Denotes (digits ++ [unit]) d.secs.toNat :=
      ⟨digits, unit, k, rfl, hne, hdigits, hunit, hpos, hlt, hmul, hsecs⟩
    rw [(trim_eq_iff hden).mpr ⟨pre, post, hs, hpre, hpost⟩]
    exact ⟨hden, hnanos⟩

end Parsing

end Ringdrop
