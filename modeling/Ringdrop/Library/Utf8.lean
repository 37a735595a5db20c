import Mathlib.Algebra.Group.Nat.Defs
import Mathlib.Data.Nat.Notation
import Mathlib.Tactic.SplitIfs

namespace Ringdrop.Library.Utf8

/-- For a leading byte: how many continuation bytes follow, and the range of the
first of them that keeps the sequence well formed. -/
def leadRange (b : UInt8) : Option (ℕ × UInt8 × UInt8) :=
  if 0xC2 ≤ b ∧ b ≤ 0xDF then some (1, 0x80, 0xBF)
  else if b = 0xE0 then some (2, 0xA0, 0xBF)
  else if b = 0xED then some (2, 0x80, 0x9F)
  else if 0xE1 ≤ b ∧ b ≤ 0xEF then some (2, 0x80, 0xBF)
  else if b = 0xF0 then some (3, 0x90, 0xBF)
  else if 0xF1 ≤ b ∧ b ≤ 0xF3 then some (3, 0x80, 0xBF)
  else if b = 0xF4 then some (3, 0x80, 0x8F)
  else none

/-- Read `n` continuation bytes; on a bad one, stop in front of it. -/
def follow (value : ℕ) (lo hi : UInt8) : ℕ → List UInt8 → Option ℕ × List UInt8
  | 0, bs => (some value, bs)
  | n + 1, b :: bs =>
    if lo ≤ b ∧ b ≤ hi then follow (value * 64 + (b.toNat - 0x80)) 0x80 0xBF n bs
    else (none, b :: bs)
  | _ + 1, [] => (none, [])

def lossyChars : ℕ → List UInt8 → List Char
  | 0, _ => []
  | _ + 1, [] => []
  | fuel + 1, b :: bs =>
    if b < 0x80 then Char.ofNat b.toNat :: lossyChars fuel bs
    else
      match leadRange b with
      | none => '\uFFFD' :: lossyChars fuel bs
      | some (n, lo, hi) =>
        match follow (b.toNat % 2 ^ (6 - n)) lo hi n bs with
        | (some v, rest) => Char.ofNat v :: lossyChars fuel rest
        | (none, rest) => '\uFFFD' :: lossyChars fuel rest

/-- Decode, putting U+FFFD for each maximal ill-formed piece. Every step takes at
least one byte, so the length is fuel enough. -/
def fromUtf8Lossy (bs : List UInt8) : String := String.ofList (lossyChars bs.length bs)

def toBytes (s : String) : List UInt8 := s.toByteArray.data.toList

theorem toBytes_ofList (cs : List Char) :
    toBytes (String.ofList cs) = cs.flatMap String.utf8EncodeChar := by
  simp [toBytes, List.utf8Encode]

theorem utf8ByteSize_ofList (cs : List Char) :
    (String.ofList cs).utf8ByteSize = (cs.flatMap String.utf8EncodeChar).length := by
  rw [← toBytes_ofList, ← String.size_toByteArray]
  exact Array.length_toList.symm

theorem utf8EncodeChar_ofNat : ∀ n < 128, String.utf8EncodeChar (Char.ofNat n) = [UInt8.ofNat n] := by
  decide

theorem toBytes_fromUtf8Lossy {bs : List UInt8} (h : ∀ b ∈ bs, b < 0x80) :
    toBytes (fromUtf8Lossy bs) = bs := by
  have hchars : ∀ fuel, bs.length ≤ fuel → (lossyChars fuel bs).flatMap String.utf8EncodeChar = bs := by
    induction bs with
    | nil => intro fuel _; cases fuel <;> rfl
    | cons b bs ih =>
      intro fuel hfuel
      obtain ⟨fuel, rfl⟩ : ∃ k, fuel = k + 1 := ⟨fuel - 1, by simp at hfuel; omega⟩
      have hb : b < 0x80 := h b (by simp)
      have hrest := ih (fun x hx ↦ h x (by simp [hx])) fuel (by simpa using hfuel)
      have hchar := utf8EncodeChar_ofNat b.toNat hb
      rw [lossyChars, if_pos hb, List.flatMap_cons, hrest, hchar, UInt8.ofNat_toNat]
      rfl
  rw [fromUtf8Lossy, toBytes_ofList, hchars _ (Nat.le_refl _)]

theorem leadRange_ofNat {n : ℕ} (hn : n < 256) : leadRange (UInt8.ofNat n) =
    if 0xC2 ≤ n ∧ n ≤ 0xDF then some (1, 0x80, 0xBF)
    else if n = 0xE0 then some (2, 0xA0, 0xBF)
    else if n = 0xED then some (2, 0x80, 0x9F)
    else if 0xE1 ≤ n ∧ n ≤ 0xEF then some (2, 0x80, 0xBF)
    else if n = 0xF0 then some (3, 0x90, 0xBF)
    else if 0xF1 ≤ n ∧ n ≤ 0xF3 then some (3, 0x80, 0xBF)
    else if n = 0xF4 then some (3, 0x80, 0x8F)
    else none := by
  revert n
  decide +kernel

theorem follow_cons {lo hi : UInt8} {value m : ℕ} (n : ℕ) (bs : List UInt8) (hlo : lo.toNat ≤ m)
    (hhi : m ≤ hi.toNat) :
    follow value lo hi (n + 1) (UInt8.ofNat m :: bs) = follow (value * 64 + (m - 0x80)) 0x80 0xBF n bs := by
  have hm : (UInt8.ofNat m).toNat = m := UInt8.toNat_ofNat_of_lt' (Nat.lt_of_le_of_lt hhi hi.toNat_lt)
  have hle : lo ≤ UInt8.ofNat m ∧ UInt8.ofNat m ≤ hi := by
    rw [UInt8.le_iff_toNat_le, UInt8.le_iff_toNat_le, hm]
    exact ⟨hlo, hhi⟩
  rw [follow, if_pos hle, hm]

theorem lossyChars_lead (b n : ℕ) (lo hi : UInt8) {v : ℕ} (fuel : ℕ) {bs rest : List UInt8}
    (hb : 0x80 ≤ b) (hb' : b < 256) (hlead : leadRange (UInt8.ofNat b) = some (n, lo, hi))
    (hfollow : follow (b % 2 ^ (6 - n)) lo hi n (bs ++ rest) = (some v, rest)) :
    lossyChars (fuel + 1) (UInt8.ofNat b :: bs ++ rest) = Char.ofNat v :: lossyChars fuel rest := by
  have hnat : (UInt8.ofNat b).toNat = b := UInt8.toNat_ofNat_of_lt' hb'
  have hascii : ¬ UInt8.ofNat b < 0x80 := by
    rw [UInt8.lt_iff_toNat_lt, hnat]
    exact Nat.not_lt.mpr hb
  rw [List.cons_append, lossyChars, if_neg hascii, hlead]
  dsimp only
  rw [hnat, hfollow]

theorem lossyChars_utf8EncodeChar (c : Char) (fuel : ℕ) (rest : List UInt8) :
    lossyChars (fuel + 1) (String.utf8EncodeChar c ++ rest) = c :: lossyChars fuel rest := by
  have hvalid : c.val.toNat < 0xD800 ∨ 0xDFFF < c.val.toNat ∧ c.val.toNat < 0x110000 := c.valid
  have hc : Char.ofNat c.val.toNat = c := Char.ofNat_toNat c
  unfold String.utf8EncodeChar
  dsimp only
  generalize c.val.toNat = v at hvalid hc
  subst hc
  split_ifs with h1 h2 h3
  · have hb : (UInt8.ofNat v).toNat = v := UInt8.toNat_ofNat_of_lt' (by show v < 256; omega)
    have hlt : UInt8.ofNat v < 0x80 := by
      rw [UInt8.lt_iff_toNat_lt, hb]
      exact Nat.lt_succ_of_le h1
    rw [List.singleton_append, lossyChars, if_pos hlt, hb]
  · apply lossyChars_lead (v / 64 % 32 + 192) 1 0x80 0xBF fuel (by omega) (by omega)
    · rw [leadRange_ofNat (by omega), if_pos (by omega)]
    · rw [List.singleton_append, follow_cons 0 _ (by simp) (by simp; omega), follow]
      exact congrArg (fun n ↦ (some n, rest)) (by omega)
  · have hfollow : ∀ lo hi : UInt8, lo.toNat ≤ v / 64 % 64 + 128 → v / 64 % 64 + 128 ≤ hi.toNat →
        follow ((v / 4096 % 16 + 224) % 2 ^ (6 - 2)) lo hi 2
          ([UInt8.ofNat (v / 64 % 64 + 128), UInt8.ofNat (v % 64 + 128)] ++ rest) = (some v, rest) := by
      intro lo hi hlo hhi
      rw [List.cons_append, List.singleton_append, follow_cons 1 _ hlo hhi,
        follow_cons 0 _ (by simp) (by simp; omega), follow]
      exact congrArg (fun n ↦ (some n, rest)) (by omega)
    by_cases hE0 : v / 4096 % 16 = 0
    · apply lossyChars_lead (v / 4096 % 16 + 224) 2 0xA0 0xBF fuel (by omega) (by omega)
      · rw [leadRange_ofNat (by omega), if_neg (by omega), if_pos (by omega)]
      · exact hfollow _ _ (by simp; omega) (by simp; omega)
    · by_cases hED : v / 4096 % 16 = 13
      · apply lossyChars_lead (v / 4096 % 16 + 224) 2 0x80 0x9F fuel (by omega) (by omega)
        · rw [leadRange_ofNat (by omega), if_neg (by omega), if_neg (by omega), if_pos (by omega)]
        · exact hfollow _ _ (by simp) (by simp; omega)
      · apply lossyChars_lead (v / 4096 % 16 + 224) 2 0x80 0xBF fuel (by omega) (by omega)
        · rw [leadRange_ofNat (by omega), if_neg (by omega), if_neg (by omega), if_neg (by omega),
            if_pos (by omega)]
        · exact hfollow _ _ (by simp) (by simp; omega)
  · have hfollow : ∀ lo hi : UInt8, lo.toNat ≤ v / 4096 % 64 + 128 → v / 4096 % 64 + 128 ≤ hi.toNat →
        follow ((v / 262144 % 8 + 240) % 2 ^ (6 - 3)) lo hi 3
          ([UInt8.ofNat (v / 4096 % 64 + 128), UInt8.ofNat (v / 64 % 64 + 128),
            UInt8.ofNat (v % 64 + 128)] ++ rest) = (some v, rest) := by
      intro lo hi hlo hhi
      rw [List.cons_append, List.cons_append, List.singleton_append, follow_cons 2 _ hlo hhi,
        follow_cons 1 _ (by simp) (by simp; omega), follow_cons 0 _ (by simp) (by simp; omega), follow]
      exact congrArg (fun n ↦ (some n, rest)) (by omega)
    by_cases hF0 : v / 262144 % 8 = 0
    · apply lossyChars_lead (v / 262144 % 8 + 240) 3 0x90 0xBF fuel (by omega) (by omega)
      · rw [leadRange_ofNat (by omega), if_neg (by omega), if_neg (by omega), if_neg (by omega),
          if_neg (by omega), if_pos (by omega)]
      · exact hfollow _ _ (by simp; omega) (by simp; omega)
    · by_cases hF4 : v / 262144 % 8 = 4
      · apply lossyChars_lead (v / 262144 % 8 + 240) 3 0x80 0x8F fuel (by omega) (by omega)
        · rw [leadRange_ofNat (by omega), if_neg (by omega), if_neg (by omega), if_neg (by omega),
            if_neg (by omega), if_neg (by omega), if_neg (by omega), if_pos (by omega)]
        · exact hfollow _ _ (by simp) (by simp; omega)
      · apply lossyChars_lead (v / 262144 % 8 + 240) 3 0x80 0xBF fuel (by omega) (by omega)
        · rw [leadRange_ofNat (by omega), if_neg (by omega), if_neg (by omega), if_neg (by omega),
            if_neg (by omega), if_neg (by omega), if_pos (by omega)]
        · exact hfollow _ _ (by simp) (by simp; omega)

theorem fromUtf8Lossy_toBytes (s : String) : fromUtf8Lossy (toBytes s) = s := by
  have hchars : ∀ (cs : List Char) (fuel : ℕ), cs.length ≤ fuel →
      lossyChars fuel (cs.flatMap String.utf8EncodeChar) = cs := by
    intro cs
    induction cs with
    | nil => intro fuel _; cases fuel <;> rfl
    | cons c cs ih =>
      intro fuel hfuel
      obtain ⟨fuel, rfl⟩ : ∃ k, fuel = k + 1 := ⟨fuel - 1, by simp at hfuel; omega⟩
      rw [List.flatMap_cons, lossyChars_utf8EncodeChar, ih fuel (by simpa using hfuel)]
  have hlength : ∀ cs : List Char, cs.length ≤ (cs.flatMap String.utf8EncodeChar).length := by
    intro cs
    induction cs with
    | nil => exact Nat.le_refl _
    | cons c cs ih =>
      have hc : 0 < (String.utf8EncodeChar c).length := List.length_pos_iff.mpr String.utf8EncodeChar_ne_nil
      rw [List.flatMap_cons, List.length_append, List.length_cons]
      omega
  obtain ⟨cs, rfl⟩ : ∃ cs, s = String.ofList cs := ⟨s.toList, String.ofList_toList.symm⟩
  rw [fromUtf8Lossy, toBytes_ofList, hchars cs _ (hlength cs)]

def fromUtf8 (bs : List UInt8) : Option String :=
  if toBytes (fromUtf8Lossy bs) = bs then some (fromUtf8Lossy bs) else none

theorem fromUtf8_eq_some_iff {bs : List UInt8} {s : String} : fromUtf8 bs = some s ↔ toBytes s = bs := by
  unfold fromUtf8
  constructor
  · intro h
    split_ifs at h with hbs
    rw [← Option.some.inj h]
    exact hbs
  · intro h
    subst h
    rw [fromUtf8Lossy_toBytes, if_pos rfl]

theorem toBytes_injective {s t : String} (h : toBytes s = toBytes t) : s = t := by
  rw [← fromUtf8Lossy_toBytes s, h, fromUtf8Lossy_toBytes]

theorem utf8EncodeChar_of_ascii {c : Char} {b : UInt8} (hb : b.toNat < 0x80)
    (h : b ∈ String.utf8EncodeChar c) : String.utf8EncodeChar c = [b] := by
  have hhigh : ∀ n, 0x80 ≤ n → n < 256 → b ≠ UInt8.ofNat n := by
    intro n hn hn' hbn
    have hnat := congrArg UInt8.toNat hbn
    rw [UInt8.toNat_ofNat_of_lt' hn'] at hnat
    omega
  unfold String.utf8EncodeChar at h ⊢
  dsimp only at h ⊢
  have hval : c.val.toNat < 0x110000 := by
    rcases c.valid with hv | hv
    · exact Nat.lt_trans hv (by decide)
    · exact hv.2
  generalize c.val.toNat = v at h hval ⊢
  split_ifs at h ⊢
  · rw [List.mem_singleton.mp h]
  · simp only [List.mem_cons, List.not_mem_nil, or_false] at h
    rcases h with h | h
    · exact absurd h (hhigh _ (by omega) (by omega))
    · exact absurd h (hhigh _ (by omega) (by omega))
  · simp only [List.mem_cons, List.not_mem_nil, or_false] at h
    rcases h with h | h | h
    · exact absurd h (hhigh _ (by omega) (by omega))
    · exact absurd h (hhigh _ (by omega) (by omega))
    · exact absurd h (hhigh _ (by omega) (by omega))
  · simp only [List.mem_cons, List.not_mem_nil, or_false] at h
    rcases h with h | h | h | h
    · exact absurd h (hhigh _ (by omega) (by omega))
    · exact absurd h (hhigh _ (by omega) (by omega))
    · exact absurd h (hhigh _ (by omega) (by omega))
    · exact absurd h (hhigh _ (by omega) (by omega))

/-- An ASCII byte stands for its character only. -/
theorem toNat_of_mem_utf8EncodeChar {c : Char} {b : UInt8} (hb : b.toNat < 0x80)
    (h : b ∈ String.utf8EncodeChar c) : c.toNat = b.toNat := by
  have hascii : ∀ n < 128, (Char.ofNat n).toNat = n := by decide
  have hbytes : toBytes (String.ofList [c]) = toBytes (String.ofList [Char.ofNat b.toNat]) := by
    rw [toBytes_ofList, toBytes_ofList, List.flatMap_singleton, List.flatMap_singleton, utf8EncodeChar_of_ascii hb h,
      utf8EncodeChar_ofNat _ hb, UInt8.ofNat_toNat]
  have hlists := congrArg String.toList (toBytes_injective hbytes)
  rw [String.toList_ofList, String.toList_ofList] at hlists
  rw [List.head_eq_of_cons_eq hlists, hascii _ hb]

theorem splitOn_append_of_not_mem {b : UInt8} {pre rest : List UInt8} (h : b ∉ pre) :
    (pre ++ rest).splitOn b = (rest.splitOn b).modifyHead (pre ++ ·) := by
  induction pre with
  | nil => cases hrest : rest.splitOn b <;> simp [hrest]
  | cons x pre ih =>
    simp only [List.mem_cons, not_or] at h
    rw [List.cons_append, List.splitOn_cons_eq_if_modifyHead, if_neg (by simpa using Ne.symm h.1), ih h.2]
    cases rest.splitOn b <;> rfl

theorem exists_toBytes_of_mem_splitOn {b : UInt8} (hb : b.toNat < 0x80) {s : String} {piece : List UInt8}
    (h : piece ∈ (toBytes s).splitOn b) : ∃ t, toBytes t = piece := by
  suffices hchars : ∀ (cs : List Char) (piece : List UInt8),
      piece ∈ (cs.flatMap String.utf8EncodeChar).splitOn b → ∃ t, toBytes t = piece by
    obtain ⟨cs, rfl⟩ : ∃ cs, s = String.ofList cs := ⟨s.toList, String.ofList_toList.symm⟩
    rw [toBytes_ofList] at h
    exact hchars cs piece h
  intro cs
  induction cs with
  | nil =>
    intro piece h
    rw [List.flatMap_nil, List.splitOn_nil, List.mem_singleton] at h
    exact ⟨"", h.symm⟩
  | cons c cs ih =>
    intro piece h
    rw [List.flatMap_cons] at h
    by_cases hmem : b ∈ String.utf8EncodeChar c
    · rw [utf8EncodeChar_of_ascii hb hmem, List.singleton_append, List.splitOn_cons_eq_if_modifyHead,
        if_pos (by simp)] at h
      rcases List.mem_cons.mp h with rfl | h
      · exact ⟨"", rfl⟩
      · exact ih piece h
    · rw [splitOn_append_of_not_mem hmem] at h
      cases hrest : (cs.flatMap String.utf8EncodeChar).splitOn b with
      | nil => exact absurd hrest (List.splitOn_ne_nil _ _)
      | cons d ds =>
        rw [hrest, List.modifyHead_cons] at h
        rcases List.mem_cons.mp h with rfl | h
        · obtain ⟨t, ht⟩ := ih d (by rw [hrest]; exact List.mem_cons_self)
          obtain ⟨ts, rfl⟩ : ∃ ts, t = String.ofList ts := ⟨t.toList, String.ofList_toList.symm⟩
          rw [toBytes_ofList] at ht
          exact ⟨String.ofList (c :: ts), by rw [toBytes_ofList, List.flatMap_cons, ht]⟩
        · exact ih piece (by rw [hrest]; exact List.mem_cons_of_mem _ h)

theorem exists_toBytes_append (s t : String) : ∃ u, toBytes u = toBytes s ++ toBytes t := by
  obtain ⟨cs, rfl⟩ : ∃ cs, s = String.ofList cs := ⟨s.toList, String.ofList_toList.symm⟩
  obtain ⟨ds, rfl⟩ : ∃ ds, t = String.ofList ds := ⟨t.toList, String.ofList_toList.symm⟩
  exact ⟨String.ofList (cs ++ ds), by simp only [toBytes_ofList, List.flatMap_append]⟩

example : fromUtf8Lossy [0x66, 0xC3, 0xA9, 0xFF, 0xE2, 0x82] = "fé\uFFFD\uFFFD" := by decide

end Ringdrop.Library.Utf8
