import Ringdrop.Library.Json
import Mathlib.Algebra.Group.Nat.Defs

namespace Ringdrop.Library.Json

def isSpace (c : Char) : Bool := c.toNat = 32 ∨ c.toNat = 9 ∨ c.toNat = 10 ∨ c.toNat = 13

def skipSpace (cs : List Char) : List Char := cs.dropWhile isSpace

def hexValue (c : Char) : Option ℕ :=
  if '0' ≤ c ∧ c ≤ '9' then some (c.toNat - 48)
  else if 'a' ≤ c ∧ c ≤ 'f' then some (c.toNat - 87)
  else if 'A' ≤ c ∧ c ≤ 'F' then some (c.toNat - 55)
  else none

def codeUnit : List Char → Option (ℕ × List Char)
  | a :: b :: c :: d :: rest => do
    let a ← hexValue a
    let b ← hexValue b
    let c ← hexValue c
    let d ← hexValue d
    some (((a * 16 + b) * 16 + c) * 16 + d, rest)
  | _ => none

/-- What comes after a backslash and a u: a character, or the first half of a surrogate pair
with the second one after it. -/
def unicodeEscape (cs : List Char) : Option (Char × List Char) := do
  let (n, rest) ← codeUnit cs
  if 0xD800 ≤ n ∧ n < 0xDC00 then
    match rest with
    | b :: 'u' :: rest =>
      if b = backslash then
        let (m, rest) ← codeUnit rest
        if 0xDC00 ≤ m ∧ m < 0xE000 then
          some (Char.ofNat (0x10000 + (n - 0xD800) * 0x400 + (m - 0xDC00)), rest)
        else none
      else none
    | _ => none
  else if 0xDC00 ≤ n ∧ n < 0xE000 then none
  else some (Char.ofNat n, rest)

def escapeSequence : List Char → Option (Char × List Char)
  | [] => none
  | c :: rest =>
    if c = quoteMark ∨ c = backslash ∨ c = '/' then some (c, rest)
    else if c = 'b' then some (Char.ofNat 8, rest)
    else if c = 't' then some (Char.ofNat 9, rest)
    else if c = 'n' then some (Char.ofNat 10, rest)
    else if c = 'f' then some (Char.ofNat 12, rest)
    else if c = 'r' then some (Char.ofNat 13, rest)
    else if c = 'u' then unicodeEscape rest
    else none

/-- A string as far as its closing quote. Every step takes a character, so their number is
fuel enough; so it is in the loops below. -/
def characters : ℕ → List Char → Option (List Char × List Char)
  | 0, _ => none
  | _, [] => none
  | fuel + 1, c :: rest =>
    if c = quoteMark then some ([], rest)
    else if c = backslash then do
      let (d, rest) ← escapeSequence rest
      let (ds, rest) ← characters fuel rest
      some (d :: ds, rest)
    else if c.toNat < 32 then none
    else do
      let (ds, rest) ← characters fuel rest
      some (c :: ds, rest)

def string (cs : List Char) : Option (String × List Char) :=
  (characters cs.length cs).map (fun x ↦ (String.ofList x.1, x.2))

/-- A natural number of 64 bits, without leading zeros. Others are not read. -/
def number (cs : List Char) : Option (ℕ × List Char) :=
  let digits := cs.takeWhile Char.isDigit
  let rest := cs.dropWhile Char.isDigit
  if digits = [] ∨ digits.head? = some '0' ∧ digits ≠ ['0'] then none
  else if rest.head? = some '.' ∨ rest.head? = some 'e' ∨ rest.head? = some 'E' then none
  else if Nat.ofDigitChars 10 digits 0 < 2 ^ 64 then some (Nat.ofDigitChars 10 digits 0, rest)
  else none

section Sequences

variable {α : Type}

/-- Items with commas between them, at least one, as far as a closing bracket. -/
def items (item : List Char → Option (α × List Char)) (close : Char) : ℕ → List Char → Option (List α × List Char)
  | 0, _ => none
  | fuel + 1, cs => do
    let (x, rest) ← item cs
    match skipSpace rest with
    | [] => none
    | c :: rest =>
      if c = close then some ([x], rest)
      else if c = ',' then
        let (xs, rest) ← items item close fuel rest
        some (x :: xs, rest)
      else none

def bracketed (item : List Char → Option (α × List Char)) (close : Char) (cs : List Char) :
    Option (List α × List Char) :=
  match skipSpace cs with
  | [] => none
  | c :: rest => if c = close then some ([], rest) else items item close cs.length cs

end Sequences

def member (value : List Char → Option (Json × List Char)) (cs : List Char) :
    Option ((String × Json) × List Char) :=
  match skipSpace cs with
  | [] => none
  | c :: rest =>
    if c = quoteMark then do
      let (name, rest) ← string rest
      match skipSpace rest with
      | ':' :: rest =>
        let (v, rest) ← value rest
        some ((name, v), rest)
      | _ => none
    else none

def literal (text : String) (v : Json) (cs : List Char) : Option (Json × List Char) :=
  if text.toList.isPrefixOf cs then some (v, cs.drop text.length) else none

def valueOf (part : Option (List Char → Option (Json × List Char))) (cs : List Char) :
    Option (Json × List Char) :=
  match skipSpace cs with
  | [] => none
  | c :: rest =>
    if c = quoteMark then (string rest).map (fun x ↦ (str x.1, x.2))
    else if c = '[' then do
      let (vs, rest) ← bracketed (← part) ']' rest
      some (arr vs, rest)
    else if c = '{' then do
      let (fields, rest) ← bracketed (member (← part)) '}' rest
      some (obj fields, rest)
    else if c.isDigit then (number (c :: rest)).map (fun x ↦ (num x.1, x.2))
    else literal "null" null (c :: rest) <|> literal "true" (bool true) (c :: rest) <|>
      literal "false" (bool false) (c :: rest)

def value : ℕ → List Char → Option (Json × List Char)
  | 0 => valueOf none
  | depth + 1 => valueOf (some (value depth))

def maxDepth : ℕ := 127

def parse (text : String) : Option Json := do
  let (v, rest) ← value maxDepth text.toList
  if skipSpace rest = [] then some v else none

/-- Numbers of 64 bits, nested to at most the given depth. -/
def Fits : ℕ → Json → Prop
  | _, null => True
  | _, bool _ => True
  | _, num n => n < 2 ^ 64
  | _, str _ => True
  | 0, arr _ => False
  | 0, obj _ => False
  | depth + 1, arr vs => ∀ v ∈ vs, Fits depth v
  | depth + 1, obj fields => ∀ f ∈ fields, Fits depth f.2

/-- What may come after a value: nothing, a comma or a closing bracket. -/
def Ends (rest : List Char) : Prop := ∀ c ∈ rest.head?, c = ',' ∨ c = ']' ∨ c = '}'

section Strings

theorem hexValue_hex : ∀ n < 16, hexValue (hex n) = some n := by decide

theorem skipSpace_cons {c : Char} (hc : isSpace c = false) (rest : List Char) : skipSpace (c :: rest) = c :: rest :=
  List.dropWhile_cons_of_neg (by simp [hc])

theorem escapeSequence_control {n : ℕ} (hn : n < 32) (rest : List Char) :
    escapeSequence ('u' :: '0' :: '0' :: hex (n / 16) :: hex (n % 16) :: rest) = some (Char.ofNat n, rest) := by
  have hunit : codeUnit ('0' :: '0' :: hex (n / 16) :: hex (n % 16) :: rest) = some (n, rest) := by
    have hzero : hexValue '0' = some 0 := by decide
    rw [codeUnit, hzero, hexValue_hex (n / 16) (by omega), hexValue_hex (n % 16) (by omega)]
    exact congrArg (fun m ↦ some (m, rest)) (by omega)
  have hescape : escapeSequence ('u' :: '0' :: '0' :: hex (n / 16) :: hex (n % 16) :: rest) =
      unicodeEscape ('0' :: '0' :: hex (n / 16) :: hex (n % 16) :: rest) := rfl
  rw [hescape, unicodeEscape, hunit]
  simp only [Option.bind_eq_bind, Option.bind_some]
  rw [if_neg (by omega), if_neg (by omega)]

variable {fuel : ℕ} {c : Char} {cs rest : List Char}

theorem characters_backslash (h : escapeSequence cs = some (c, rest)) :
    characters (fuel + 1) (backslash :: cs) = (characters fuel rest).map (fun x ↦ (c :: x.1, x.2)) := by
  rw [characters, if_neg (by decide), if_pos rfl, h]
  simp only [Option.bind_eq_bind, Option.bind_some]
  cases characters fuel rest <;> rfl

theorem characters_plain (hquote : c ≠ quoteMark) (hbackslash : c ≠ backslash) (hcontrol : ¬ c.toNat < 32) :
    characters (fuel + 1) (c :: rest) = (characters fuel rest).map (fun x ↦ (c :: x.1, x.2)) := by
  rw [characters, if_neg hquote, if_neg hbackslash, if_neg hcontrol]
  cases characters fuel rest <;> rfl

theorem characters_escapeChar :
    characters (fuel + 1) (escapeChar c ++ rest) = (characters fuel rest).map (fun x ↦ (c :: x.1, x.2)) := by
  have hchar : ∀ {n : ℕ}, c.toNat = n → Char.ofNat n = c := by
    rintro n rfl
    exact Char.ofNat_toNat c
  unfold escapeChar
  split
  · rename_i hspecial
    apply characters_backslash
    exact if_pos (hspecial.imp_right Or.inl)
  · rename_i hspecial
    split
    · rename_i h
      rw [← hchar h]
      exact characters_backslash rfl
    · split
      · rename_i h
        rw [← hchar h]
        exact characters_backslash rfl
      · split
        · rename_i h
          rw [← hchar h]
          exact characters_backslash rfl
        · split
          · rename_i h
            rw [← hchar h]
            exact characters_backslash rfl
          · split
            · rename_i h
              rw [← hchar h]
              exact characters_backslash rfl
            · split
              · rename_i hcontrol
                have hescape := escapeSequence_control hcontrol rest
                rw [hchar rfl] at hescape
                exact characters_backslash hescape
              · rename_i hcontrol
                exact characters_plain (fun h ↦ hspecial (.inl h)) (fun h ↦ hspecial (.inr h)) hcontrol

theorem characters_quoted (hfuel : cs.length < fuel) :
    characters fuel (cs.flatMap escapeChar ++ quoteMark :: rest) = some (cs, rest) := by
  induction cs generalizing fuel with
  | nil =>
    obtain ⟨fuel, rfl⟩ : ∃ n, fuel = n + 1 := ⟨fuel - 1, by simp at hfuel; omega⟩
    exact if_pos rfl
  | cons c cs ih =>
    obtain ⟨fuel, rfl⟩ : ∃ n, fuel = n + 1 := ⟨fuel - 1, by simp at hfuel; omega⟩
    rw [List.flatMap_cons, List.append_assoc, characters_escapeChar, ih (by simpa using hfuel)]
    rfl

theorem length_escaped (cs : List Char) : cs.length ≤ (cs.flatMap escapeChar).length := by
  induction cs with
  | nil => exact Nat.le_refl _
  | cons c cs ih =>
    have hc : 1 ≤ (escapeChar c).length := by
      unfold escapeChar
      split_ifs <;> simp
    rw [List.flatMap_cons, List.length_append, List.length_cons]
    omega

theorem string_quote (s : String) (rest : List Char) :
    string (s.toList.flatMap escapeChar ++ quoteMark :: rest) = some (s, rest) := by
  have hlength : s.toList.length < (s.toList.flatMap escapeChar ++ quoteMark :: rest).length := by
    have hle := length_escaped s.toList
    rw [List.length_append, List.length_cons]
    omega
  rw [string, characters_quoted hlength, Option.map_some, String.ofList_toList]

end Strings

section Numbers

theorem head_toDigits {n : ℕ} (hn : 0 < n) : (Nat.toDigits 10 n).head? ≠ some '0' := by
  induction n using Nat.strong_induction_on with
  | _ n ih =>
    by_cases hlt : n < 10
    · rw [Nat.toDigits_of_lt_base hlt]
      have hall : ∀ n < 10, 0 < n → ([n.digitChar] : List Char).head? ≠ some '0' := by decide
      exact hall n hlt hn
    · rw [Nat.toDigits_of_base_le (by omega) (by omega), List.head?_append]
      have hhead := ih (n / 10) (by omega) (by omega)
      cases hdigits : Nat.toDigits 10 (n / 10) with
      | nil => exact absurd hdigits Nat.toDigits_ne_nil
      | cons c cs =>
        rw [hdigits] at hhead
        exact hhead

theorem number_toDigits {n : ℕ} {rest : List Char} (hn : n < 2 ^ 64) (hrest : Ends rest) :
    number (Nat.toDigits 10 n ++ rest) = some (n, rest) := by
  have hdigits : ∀ c ∈ Nat.toDigits 10 n, c.isDigit = true :=
    fun c hc ↦ Nat.isDigit_of_mem_toDigits (by omega) (by omega) hc
  have hstop : rest.takeWhile Char.isDigit = [] ∧ rest.dropWhile Char.isDigit = rest := by
    cases rest with
    | nil => exact ⟨rfl, rfl⟩
    | cons c cs =>
      have hc : c.isDigit = false := by
        rcases hrest c rfl with rfl | rfl | rfl <;> decide
      exact ⟨List.takeWhile_cons_of_neg (by simp [hc]), List.dropWhile_cons_of_neg (by simp [hc])⟩
  have hend : ¬ (rest.head? = some '.' ∨ rest.head? = some 'e' ∨ rest.head? = some 'E') := by
    rintro (h | h | h) <;> rcases hrest _ h with h | h | h <;> cases h
  have hzero : ¬ (Nat.toDigits 10 n = [] ∨ (Nat.toDigits 10 n).head? = some '0' ∧ Nat.toDigits 10 n ≠ ['0']) := by
    rintro (h | ⟨h, hne⟩)
    · exact Nat.toDigits_ne_nil h
    · rcases Nat.eq_zero_or_pos n with rfl | hpos
      · exact hne (Nat.toDigits_zero 10)
      · exact head_toDigits hpos h
  unfold number
  rw [List.takeWhile_append_of_pos hdigits, List.dropWhile_append_of_pos hdigits, hstop.1, hstop.2, List.append_nil]
  dsimp only
  rw [if_neg hzero, if_neg hend, Nat.ofDigitChars_ten_toDigits, if_pos hn]

end Numbers

section Sequences

variable {α : Type} {item : List Char → Option (α × List Char)} {text : α → List Char} {close : Char}

theorem ends_cons {c : Char} (hc : c = ',' ∨ c = ']' ∨ c = '}') (rest : List Char) : Ends (c :: rest) := by
  intro d hd
  obtain rfl : c = d := Option.some.inj hd
  exact hc

theorem not_isSpace_of_ends {c : Char} (hc : c = ',' ∨ c = ']' ∨ c = '}') : isSpace c = false := by
  rcases hc with rfl | rfl | rfl <;> decide

theorem length_le_separated (x : List Char) (xs : List (List Char)) : xs.length ≤ (separated (x :: xs)).length := by
  induction xs generalizing x with
  | nil => exact Nat.zero_le _
  | cons y ys ih =>
    have hle := ih y
    rw [separated, List.length_append, List.length_cons, List.length_cons]
    omega

theorem items_separated (hclose : close = ']' ∨ close = '}') {x : α} {xs : List α} {fuel : ℕ}
    (hitem : ∀ y ∈ x :: xs, ∀ rest, Ends rest → item (text y ++ rest) = some (y, rest))
    (hfuel : xs.length < fuel) (rest : List Char) :
    items item close fuel (separated ((x :: xs).map text) ++ close :: rest) = some (x :: xs, rest) := by
  have hcomma : close ≠ ',' := by rcases hclose with rfl | rfl <;> decide
  induction xs generalizing x fuel with
  | nil =>
    obtain ⟨fuel, rfl⟩ : ∃ n, fuel = n + 1 := ⟨fuel - 1, by omega⟩
    have hfirst := hitem x List.mem_cons_self (close :: rest) (ends_cons (.inr hclose) rest)
    rw [items, List.map_singleton, separated, hfirst]
    simp only [Option.bind_eq_bind, Option.bind_some]
    rw [skipSpace_cons (not_isSpace_of_ends (.inr hclose))]
    exact if_pos rfl
  | cons y ys ih =>
    obtain ⟨fuel, rfl⟩ : ∃ n, fuel = n + 1 := ⟨fuel - 1, by omega⟩
    have hrest := ih (fun z hz ↦ hitem z (List.mem_cons_of_mem x hz)) (Nat.lt_of_succ_lt_succ hfuel)
    have hfirst := hitem x List.mem_cons_self (',' :: (separated ((y :: ys).map text) ++ close :: rest))
      (ends_cons (.inl rfl) _)
    rw [items, List.map_cons, List.map_cons, separated, List.append_assoc, List.cons_append, ← List.map_cons, hfirst]
    simp only [Option.bind_eq_bind, Option.bind_some]
    rw [skipSpace_cons (by decide)]
    dsimp only
    rw [if_neg hcomma.symm, if_pos rfl, hrest]
    rfl

/-- What comes between brackets is read back, unless an item could be taken for the end. -/
theorem bracketed_separated (hclose : close = ']' ∨ close = '}') {xs : List α}
    (hhead : ∀ x ∈ xs, ∃ c cs, text x = c :: cs ∧ isSpace c = false ∧ c ≠ close)
    (hitem : ∀ x ∈ xs, ∀ rest, Ends rest → item (text x ++ rest) = some (x, rest)) (rest : List Char) :
    bracketed item close (separated (xs.map text) ++ close :: rest) = some (xs, rest) := by
  cases xs with
  | nil =>
    rw [bracketed, List.map_nil, separated, List.nil_append, skipSpace_cons (not_isSpace_of_ends (.inr hclose))]
    exact if_pos rfl
  | cons x xs =>
    obtain ⟨c, cs, htext, hspace, hne⟩ := hhead x List.mem_cons_self
    obtain ⟨ds, hds⟩ : ∃ ds, separated ((x :: xs).map text) = c :: ds := by
      cases xs with
      | nil => exact ⟨cs, htext⟩
      | cons y ys =>
        rw [List.map_cons, List.map_cons, separated, htext]
        exact ⟨_, rfl⟩
    have hfuel : xs.length < (separated ((x :: xs).map text) ++ close :: rest).length := by
      have hle := length_le_separated (text x) (xs.map text)
      rw [List.length_map] at hle
      rw [List.length_append, List.length_cons, List.map_cons]
      omega
    have hitems := items_separated hclose hitem hfuel rest
    rw [hds, List.cons_append] at hitems ⊢
    rw [bracketed, skipSpace_cons hspace]
    dsimp only
    rw [if_neg hne, hitems]

end Sequences

section Values

def ReadBy (value : List Char → Option (Json × List Char)) (v : Json) : Prop :=
  ∀ rest, Ends rest → value (print v ++ rest) = some (v, rest)

variable {part : List Char → Option (Json × List Char)} {outer : Option (List Char → Option (Json × List Char))}

theorem printItems_eq (vs : List Json) : printItems vs = vs.map print := by
  induction vs with
  | nil => rfl
  | cons v vs ih => rw [printItems, ih, List.map_cons]

theorem printFields_eq (fields : List (String × Json)) : printFields fields = fields.map printField := by
  induction fields with
  | nil => rfl
  | cons f fs ih => rw [printFields, ih, List.map_cons]

theorem exists_toDigits (n : ℕ) : ∃ c cs, Nat.toDigits 10 n = c :: cs ∧ c.isDigit = true := by
  cases hdigits : Nat.toDigits 10 n with
  | nil => exact absurd hdigits Nat.toDigits_ne_nil
  | cons c cs =>
    refine ⟨c, cs, rfl, Nat.isDigit_of_mem_toDigits (b := 10) (n := n) (by omega) (by omega) ?_⟩
    rw [hdigits]
    exact List.mem_cons_self

theorem ne_of_isDigit {c d : Char} (hc : c.isDigit = true) (hd : d.isDigit = false) : c ≠ d := by
  rintro rfl
  exact absurd hc (by simp [hd])

theorem not_isSpace_of_isDigit {c : Char} (hc : c.isDigit = true) : isSpace c = false := by
  have hge := le_toNat_of_isDigit hc
  refine decide_eq_false ?_
  omega

theorem exists_print (v : Json) :
    ∃ c cs, print v = c :: cs ∧ isSpace c = false ∧ c ≠ ']' ∧ c ≠ '}' := by
  cases v with
  | null => exact ⟨'n', "ull".toList, rfl, by decide⟩
  | bool b =>
    cases b with
    | false => exact ⟨'f', "alse".toList, rfl, by decide⟩
    | true => exact ⟨'t', "rue".toList, rfl, by decide⟩
  | num n =>
    obtain ⟨c, cs, hdigits, hc⟩ := exists_toDigits n
    exact ⟨c, cs, hdigits, not_isSpace_of_isDigit hc, ne_of_isDigit hc (by decide), ne_of_isDigit hc (by decide)⟩
  | str s => exact ⟨quoteMark, _, rfl, by decide⟩
  | arr vs => exact ⟨'[', _, rfl, by decide⟩
  | obj fields => exact ⟨'{', _, rfl, by decide⟩

theorem valueOf_quoted (s : String) (rest : List Char) :
    valueOf outer (quote s ++ rest) = some (str s, rest) := by
  have hquote : quote s ++ rest = quoteMark :: (s.toList.flatMap escapeChar ++ quoteMark :: rest) := by
    rw [quote, List.append_assoc, List.cons_append, List.singleton_append]
  rw [hquote, valueOf, skipSpace_cons (by decide)]
  dsimp only
  rw [if_pos rfl, string_quote]
  rfl

theorem readBy_null : ReadBy (valueOf outer) null := fun _ _ ↦ rfl

theorem readBy_bool (b : Bool) : ReadBy (valueOf outer) (bool b) := by
  cases b <;> exact fun _ _ ↦ rfl

theorem readBy_num {n : ℕ} (hn : n < 2 ^ 64) : ReadBy (valueOf outer) (num n) := by
  intro rest hrest
  obtain ⟨c, cs, hdigits, hc⟩ := exists_toDigits n
  have hnumber := number_toDigits hn hrest
  rw [print]
  rw [hdigits, List.cons_append] at hnumber ⊢
  rw [valueOf, skipSpace_cons (not_isSpace_of_isDigit hc)]
  dsimp only
  rw [if_neg (ne_of_isDigit hc (by decide)), if_neg (ne_of_isDigit hc (by decide)),
    if_neg (ne_of_isDigit hc (by decide)), if_pos hc, hnumber]
  rfl

theorem readBy_str (s : String) : ReadBy (valueOf outer) (str s) := fun rest _ ↦ valueOf_quoted s rest

theorem readBy_arr {vs : List Json} (h : ∀ v ∈ vs, ReadBy part v) : ReadBy (valueOf (some part)) (arr vs) := by
  intro rest _
  have hhead : ∀ v ∈ vs, ∃ c cs, print v = c :: cs ∧ isSpace c = false ∧ c ≠ ']' := by
    intro v _
    obtain ⟨c, cs, hprint, hspace, hne, -⟩ := exists_print v
    exact ⟨c, cs, hprint, hspace, hne⟩
  have hitems := bracketed_separated (.inl rfl) hhead h rest
  rw [print, printItems_eq, List.cons_append, List.cons_append, List.append_assoc, List.singleton_append, valueOf,
    skipSpace_cons (by decide)]
  dsimp only
  rw [if_neg (by decide), if_pos rfl]
  simp only [Option.bind_eq_bind, Option.bind_some]
  rw [hitems]
  rfl

theorem member_printField {f : String × Json} (h : ReadBy part f.2) {rest : List Char} (hrest : Ends rest) :
    member part (printField f ++ rest) = some (f, rest) := by
  obtain ⟨name, v⟩ := f
  have hvalue : part (print v ++ rest) = some (v, rest) := h rest hrest
  have hfield : printField (name, v) ++ rest =
      quoteMark :: (name.toList.flatMap escapeChar ++ quoteMark :: ':' :: (print v ++ rest)) := by
    rw [printField, quote, List.append_assoc, List.append_assoc, List.cons_append, List.singleton_append, List.cons_append]
  rw [hfield, member, skipSpace_cons (by decide)]
  dsimp only
  rw [if_pos rfl, string_quote]
  simp only [Option.bind_eq_bind, Option.bind_some]
  rw [skipSpace_cons (by decide)]
  change (part (print v ++ rest)).bind (fun x ↦ some ((name, x.1), x.2)) = _
  rw [hvalue]
  rfl

theorem readBy_obj {fields : List (String × Json)} (h : ∀ f ∈ fields, ReadBy part f.2) :
    ReadBy (valueOf (some part)) (obj fields) := by
  intro rest _
  have hhead : ∀ f ∈ fields, ∃ c cs, printField f = c :: cs ∧ isSpace c = false ∧ c ≠ '}' := by
    intro f _
    obtain ⟨name, v⟩ := f
    exact ⟨quoteMark, _, rfl, by decide⟩
  have hitems := bracketed_separated (.inr rfl) hhead (fun f hf rest hrest ↦ member_printField (h f hf) hrest) rest
  rw [print, printFields_eq, List.cons_append, List.cons_append, List.append_assoc, List.singleton_append, valueOf,
    skipSpace_cons (by decide)]
  dsimp only
  rw [if_neg (by decide), if_neg (by decide), if_pos rfl]
  simp only [Option.bind_eq_bind, Option.bind_some]
  rw [hitems]
  rfl

theorem readBy_value {depth : ℕ} {v : Json} (h : Fits depth v) : ReadBy (value depth) v := by
  induction depth generalizing v with
  | zero =>
    cases v with
    | null => exact readBy_null
    | bool b => exact readBy_bool b
    | num n => exact readBy_num h
    | str s => exact readBy_str s
    | arr vs => exact h.elim
    | obj fields => exact h.elim
  | succ depth ih =>
    cases v with
    | null => exact readBy_null
    | bool b => exact readBy_bool b
    | num n => exact readBy_num h
    | str s => exact readBy_str s
    | arr vs => exact readBy_arr fun v hv ↦ ih (h v hv)
    | obj fields => exact readBy_obj fun f hf ↦ ih (h f hf)

theorem parse_print {v : Json} (h : Fits maxDepth v) : parse (String.ofList (print v)) = some v := by
  have hend : Ends [] := by
    intro c hc
    cases hc
  have hvalue := readBy_value h [] hend
  rw [List.append_nil] at hvalue
  rw [parse, String.toList_ofList, hvalue]
  rfl

end Values

end Ringdrop.Library.Json
