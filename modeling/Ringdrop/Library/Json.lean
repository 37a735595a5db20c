import Mathlib.Data.List.Sort
import Mathlib.Tactic.SplitIfs

namespace Ringdrop.Library

inductive Json
  | null
  | bool (b : Bool)
  | num (n : ℕ)
  | str (s : String)
  | arr (items : List Json)
  | obj (fields : List (String × Json))

namespace Json

def object (fields : List (String × Json)) : Json :=
  .obj (fields.insertionSort (fun a b ↦ a.1 ≤ b.1))

def quoteMark : Char := Char.ofNat 34

def backslash : Char := Char.ofNat 92

def hex (n : ℕ) : Char := "0123456789abcdef".toList.getD n '0'

/-- Only quotes, backslashes and control characters are escaped. -/
def escapeChar (c : Char) : List Char :=
  if c = quoteMark ∨ c = backslash then [backslash, c]
  else if c.toNat = 8 then [backslash, 'b']
  else if c.toNat = 9 then [backslash, 't']
  else if c.toNat = 10 then [backslash, 'n']
  else if c.toNat = 12 then [backslash, 'f']
  else if c.toNat = 13 then [backslash, 'r']
  else if c.toNat < 32 then [backslash, 'u', '0', '0', hex (c.toNat / 16), hex (c.toNat % 16)]
  else [c]

def quote (s : String) : List Char := quoteMark :: s.toList.flatMap escapeChar ++ [quoteMark]

def separated : List (List Char) → List Char
  | [] => []
  | [x] => x
  | x :: y :: rest => x ++ ',' :: separated (y :: rest)

mutual

def print : Json → List Char
  | null => "null".toList
  | bool b => (if b then "true" else "false").toList
  | num n => Nat.toDigits 10 n
  | str s => quote s
  | arr items => '[' :: separated (printItems items) ++ [']']
  | obj fields => '{' :: separated (printFields fields) ++ ['}']

def printItems : List Json → List (List Char)
  | [] => []
  | v :: vs => print v :: printItems vs

def printFields : List (String × Json) → List (List Char)
  | [] => []
  | f :: fs => printField f :: printFields fs

def printField : String × Json → List Char
  | (k, v) => quote k ++ ':' :: print v

end

def Printable (cs : List Char) : Prop := ∀ c ∈ cs, 32 ≤ c.toNat

instance (cs : List Char) : Decidable (Printable cs) := List.decidableBAll _ cs

section Printable

variable {cs ds : List Char} {c : Char}

theorem Printable.cons (hc : 32 ≤ c.toNat) (h : Printable cs) : Printable (c :: cs) :=
  List.forall_mem_cons.mpr ⟨hc, h⟩

theorem Printable.append (h : Printable cs) (h' : Printable ds) : Printable (cs ++ ds) :=
  List.forall_mem_append.mpr ⟨h, h'⟩

theorem printable_hex : ∀ n < 16, 32 ≤ (hex n).toNat := by decide

theorem printable_escapeChar (c : Char) : Printable (escapeChar c) := by
  have hbackslash : 32 ≤ backslash.toNat := by decide
  have hnil : Printable [] := by
    intro d hd
    cases hd
  have hshort : ∀ d : Char, 32 ≤ d.toNat → Printable [backslash, d] :=
    fun d hd ↦ .cons hbackslash (.cons hd hnil)
  unfold escapeChar
  split_ifs with hspecial
  · rcases hspecial with rfl | rfl
    · exact hshort quoteMark (by decide)
    · exact hshort backslash hbackslash
  · exact hshort 'b' (by decide)
  · exact hshort 't' (by decide)
  · exact hshort 'n' (by decide)
  · exact hshort 'f' (by decide)
  · exact hshort 'r' (by decide)
  · have hhigh := printable_hex (c.toNat / 16) (by omega)
    have hlow := printable_hex (c.toNat % 16) (by omega)
    exact .cons hbackslash (.cons (by decide) (.cons (by decide) (.cons (by decide) (.cons hhigh (.cons hlow hnil)))))
  · exact .cons (by omega) hnil

theorem printable_quote (s : String) : Printable (quote s) := by
  have hquote : 32 ≤ quoteMark.toNat := by decide
  have hescaped : Printable (s.toList.flatMap escapeChar) := by
    intro d hd
    obtain ⟨c, -, hc⟩ := List.mem_flatMap.mp hd
    exact printable_escapeChar c d hc
  refine .append (.cons hquote hescaped) (.cons hquote ?_)
  intro d hd
  cases hd

theorem printable_separated {xs : List (List Char)} (h : ∀ x ∈ xs, Printable x) : Printable (separated xs) := by
  induction xs with
  | nil =>
    intro d hd
    cases hd
  | cons x xs ih =>
    have hx := h x List.mem_cons_self
    have hxs := ih fun y hy ↦ h y (List.mem_cons_of_mem x hy)
    cases xs with
    | nil => exact hx
    | cons y ys => exact .append hx (.cons (by decide) hxs)

theorem le_toNat_of_isDigit (h : c.isDigit = true) : 48 ≤ c.toNat := by
  have hle := (Bool.and_eq_true_iff.mp h).1
  exact UInt32.le_iff_toNat_le.mp (decide_eq_true_iff.mp hle)

theorem printable_toDigits (n : ℕ) : Printable (Nat.toDigits 10 n) := by
  intro d hd
  have hdigit : d.isDigit = true := Nat.isDigit_of_mem_toDigits (by omega) (by omega) hd
  have hge := le_toNat_of_isDigit hdigit
  omega

mutual

theorem printable_print : ∀ v : Json, Printable (print v)
  | null => by decide
  | bool false => by decide
  | bool true => by decide
  | num n => printable_toDigits n
  | str s => printable_quote s
  | arr items => by
    refine .append (.cons (by decide) ?_) (by decide)
    exact printable_separated (printable_printItems items)
  | obj fields => by
    refine .append (.cons (by decide) ?_) (by decide)
    exact printable_separated (printable_printFields fields)

theorem printable_printItems : ∀ vs : List Json, ∀ x ∈ printItems vs, Printable x
  | [] => by simp [printItems]
  | v :: vs => by
    rw [printItems]
    exact List.forall_mem_cons.mpr ⟨printable_print v, printable_printItems vs⟩

theorem printable_printFields : ∀ fs : List (String × Json), ∀ x ∈ printFields fs, Printable x
  | [] => by simp [printFields]
  | f :: fs => by
    rw [printFields]
    exact List.forall_mem_cons.mpr ⟨printable_printField f, printable_printFields fs⟩

theorem printable_printField : ∀ f : String × Json, Printable (printField f)
  | (k, v) => by
    rw [printField]
    exact .append (printable_quote k) (.cons (by decide) (printable_print v))

end

end Printable
end Json

end Ringdrop.Library
