import Ringdrop.Library.Utf8
import Mathlib.Data.List.Forall2

namespace Ringdrop.Library.Utf8

/-- Decoding keeps ASCII bytes and makes something else of the others. -/
inductive Decodes : List UInt8 → List Char → Prop
  | nil : Decodes [] []
  | ascii {b : UInt8} {bs : List UInt8} {cs : List Char} :
      b < 0x80 → Decodes bs cs → Decodes (b :: bs) (Char.ofNat b.toNat :: cs)
  | other {piece bs : List UInt8} {c : Char} {cs : List Char} :
      piece ≠ [] → (∀ b ∈ piece, ¬ b < 0x80) → 0x80 ≤ c.toNat → Decodes bs cs → Decodes (piece ++ bs) (c :: cs)

theorem follow_eq {value n : ℕ} {lo hi : UInt8} {bs rest : List UInt8} {o : Option ℕ} (hlo : ¬ lo < 0x80)
    (h : follow value lo hi n bs = (o, rest)) : ∃ piece, bs = piece ++ rest ∧ ∀ b ∈ piece, ¬ b < 0x80 := by
  induction n generalizing value lo hi bs with
  | zero =>
    obtain ⟨-, rfl⟩ := Prod.mk.inj h
    exact ⟨[], rfl, by simp⟩
  | succ n ih =>
    cases bs with
    | nil =>
      obtain ⟨-, rfl⟩ := Prod.mk.inj h
      exact ⟨[], rfl, by simp⟩
    | cons b bs =>
      rw [follow] at h
      split at h
      · rename_i hb
        obtain ⟨piece, rfl, hpiece⟩ := ih (by decide) h
        refine ⟨b :: piece, rfl, fun x hx ↦ ?_⟩
        rcases List.mem_cons.mp hx with rfl | hx
        · rw [UInt8.lt_iff_toNat_lt] at hlo ⊢
          have := UInt8.le_iff_toNat_le.mp hb.1
          omega
        · exact hpiece x hx
      · obtain ⟨-, rfl⟩ := Prod.mk.inj h
        exact ⟨[], rfl, by simp⟩

theorem follow_bounds {value n v : ℕ} {lo hi : UInt8} {bs rest : List UInt8} (hlo : 0x80 ≤ lo.toNat)
    (hhi : hi.toNat ≤ 0xBF) (h : follow value lo hi n bs = (some v, rest)) :
    value * 64 ^ n ≤ v ∧ v < (value + 1) * 64 ^ n := by
  induction n generalizing value lo hi bs with
  | zero =>
    obtain ⟨hv, -⟩ := Prod.mk.inj h
    obtain rfl := Option.some.inj hv
    omega
  | succ n ih =>
    cases bs with
    | nil => cases h
    | cons b bs =>
      rw [follow] at h
      split at h
      · rename_i hb
        have hlower := UInt8.le_iff_toNat_le.mp hb.1
        have hupper := UInt8.le_iff_toNat_le.mp hb.2
        obtain ⟨hge, hlt⟩ := ih (by decide) (by decide) h
        have hpow : 64 ^ (n + 1) = 64 * 64 ^ n := Nat.pow_succ'
        have hfloor : value * 64 * 64 ^ n ≤ (value * 64 + (b.toNat - 0x80)) * 64 ^ n :=
          Nat.mul_le_mul_right _ (by omega)
        have hceil : (value * 64 + (b.toNat - 0x80) + 1) * 64 ^ n ≤ (value + 1) * 64 * 64 ^ n :=
          Nat.mul_le_mul_right _ (by omega)
        rw [hpow, ← Nat.mul_assoc, ← Nat.mul_assoc]
        omega
      · cases h

/-- What is read after a leading byte is a character, and not an ASCII one. -/
theorem follow_lead {b lo hi : UInt8} {n v : ℕ} {bs rest : List UInt8} (hlead : leadRange b = some (n, lo, hi))
    (h : follow (b.toNat % 2 ^ (6 - n)) lo hi n bs = (some v, rest)) :
    0x80 ≤ v ∧ (v < 0xD800 ∨ 0xDFFF < v ∧ v < 0x110000) := by
  obtain ⟨k, hk, hb⟩ : ∃ k, k = b.toNat ∧ k < 256 := ⟨_, rfl, b.toNat_lt⟩
  have hfirst : ∀ m, n = m + 1 → ∃ x : ℕ, lo.toNat ≤ x ∧ x ≤ hi.toNat ∧
      (k % 2 ^ (6 - n) * 64 + (x - 0x80)) * 64 ^ m ≤ v ∧
      v < (k % 2 ^ (6 - n) * 64 + (x - 0x80) + 1) * 64 ^ m := by
    rintro m rfl
    cases bs with
    | nil => cases h
    | cons x bs =>
      rw [follow] at h
      split at h
      · rename_i hx
        obtain ⟨hge, hlt⟩ := follow_bounds (by decide) (by decide) h
        rw [hk]
        exact ⟨x.toNat, UInt8.le_iff_toNat_le.mp hx.1, UInt8.le_iff_toNat_le.mp hx.2, hge, hlt⟩
      · cases h
  rw [show b = UInt8.ofNat k by rw [hk, UInt8.ofNat_toNat], leadRange_ofNat hb] at hlead
  clear h hk
  split_ifs at hlead
  all_goals
    simp only [Option.some.injEq, Prod.mk.injEq] at hlead
    obtain ⟨rfl, rfl, rfl⟩ := hlead
    obtain ⟨x, hlo, hhi, hge, hlt⟩ := hfirst _ rfl
    simp at hlo hhi hge hlt
    omega

theorem not_lt_of_leadRange {b lo hi : UInt8} {n : ℕ} (h : leadRange b = some (n, lo, hi)) :
    ¬ b < 0x80 ∧ ¬ lo < 0x80 := by
  have hb : b.toNat < 256 := b.toNat_lt
  rw [← UInt8.ofNat_toNat (x := b), leadRange_ofNat hb] at h
  rw [UInt8.lt_iff_toNat_lt, UInt8.lt_iff_toNat_lt]
  split_ifs at h
  all_goals
    simp only [Option.some.injEq, Prod.mk.injEq] at h
    obtain ⟨rfl, rfl, rfl⟩ := h
    simp
    omega

theorem toNat_ofNat_of_isValid {v : ℕ} (h : v < 0xD800 ∨ 0xDFFF < v ∧ v < 0x110000) : (Char.ofNat v).toNat = v := by
  have hvalid : v.isValidChar := h
  rw [Char.ofNat, dif_pos hvalid]
  rfl

theorem decodes_lossyChars {fuel : ℕ} {bs : List UInt8} (h : bs.length ≤ fuel) : Decodes bs (lossyChars fuel bs) := by
  induction fuel generalizing bs with
  | zero =>
    obtain rfl := List.eq_nil_of_length_eq_zero (Nat.le_zero.mp h)
    exact .nil
  | succ fuel ih =>
    cases bs with
    | nil => exact .nil
    | cons b bs =>
      have hbs : bs.length ≤ fuel := Nat.le_of_succ_le_succ h
      rw [lossyChars]
      split
      · rename_i hb
        exact .ascii hb (ih hbs)
      · rename_i hb
        split
        · have hpiece : ∀ x ∈ [b], ¬ x < 0x80 := by simpa using hb
          exact .other (by simp) hpiece (by decide) (ih hbs)
        · rename_i n lo hi hlead
          obtain ⟨-, hlo⟩ := not_lt_of_leadRange hlead
          generalize hfollow : follow (b.toNat % 2 ^ (6 - n)) lo hi n bs = x
          obtain ⟨o, rest⟩ := x
          obtain ⟨piece, rfl, hpiece⟩ := follow_eq hlo hfollow
          have hrest : rest.length ≤ fuel := by
            rw [List.length_append] at hbs
            omega
          have hpiece' : ∀ x ∈ b :: piece, ¬ x < 0x80 := by
            intro x hx
            rcases List.mem_cons.mp hx with rfl | hx
            · exact hb
            · exact hpiece x hx
          cases o with
          | none => exact .other (by simp) hpiece' (by decide) (ih hrest)
          | some v =>
            obtain ⟨hge, hvalid⟩ := follow_lead hlead hfollow
            have hge' : 0x80 ≤ (Char.ofNat v).toNat := by rwa [toNat_ofNat_of_isValid hvalid]
            exact .other (by simp) hpiece' hge' (ih hrest)

theorem not_ascii_of_toNat {c : Char} (hc : 0x80 ≤ c.toNat) (more : List UInt8) :
    ¬ ∀ b ∈ String.utf8EncodeChar c ++ more, b < 0x80 := by
  intro h
  obtain ⟨b, hb⟩ := List.exists_mem_of_ne_nil _ (String.utf8EncodeChar_ne_nil (c := c))
  have hlt : b.toNat < 0x80 := UInt8.lt_iff_toNat_lt.mp (h b (List.mem_append_left _ hb))
  have := toNat_of_mem_utf8EncodeChar hlt hb
  omega

theorem Decodes.splitOn {sep : UInt8} {bs : List UInt8} {cs : List Char} (hsep : sep < 0x80) (h : Decodes bs cs) :
    List.Forall₂ (fun piece text ↦ (∀ b ∈ text, b < 0x80) → piece = text) (bs.splitOn sep)
      ((cs.flatMap String.utf8EncodeChar).splitOn sep) := by
  induction h with
  | nil => exact .cons (fun _ ↦ rfl) .nil
  | @ascii b bs cs hb _ ih =>
    rw [List.flatMap_cons, utf8EncodeChar_ofNat _ (UInt8.lt_iff_toNat_lt.mp hb), UInt8.ofNat_toNat,
      List.singleton_append, List.splitOn_cons_eq_if_modifyHead, List.splitOn_cons_eq_if_modifyHead]
    generalize bs.splitOn sep = ps at ih ⊢
    generalize (cs.flatMap String.utf8EncodeChar).splitOn sep = qs at ih ⊢
    split
    · exact .cons (fun _ ↦ rfl) ih
    · cases ih with
      | nil => exact .nil
      | cons hhead htail =>
        refine .cons (fun hascii ↦ ?_) htail
        rw [hhead fun x hx ↦ hascii x (List.mem_cons_of_mem _ hx)]
  | @other piece bs c cs hne hpiece hc _ ih =>
    have hmem : sep ∉ piece := fun hmem ↦ hpiece sep hmem hsep
    have hmem' : sep ∉ String.utf8EncodeChar c := by
      intro hmem
      have := toNat_of_mem_utf8EncodeChar (UInt8.lt_iff_toNat_lt.mp hsep) hmem
      have := UInt8.lt_iff_toNat_lt.mp hsep
      simp at this
      omega
    rw [List.flatMap_cons, splitOn_append_of_not_mem hmem, splitOn_append_of_not_mem hmem']
    generalize bs.splitOn sep = ps at ih ⊢
    generalize (cs.flatMap String.utf8EncodeChar).splitOn sep = qs at ih ⊢
    cases ih with
    | nil => exact .nil
    | cons hhead htail => exact .cons (fun hascii ↦ absurd hascii (not_ascii_of_toNat hc _)) htail

/-- An ASCII piece of the decoded text was a piece of the bytes. -/
theorem mem_splitOn_of_lossy {sep : UInt8} {bs text : List UInt8} (hsep : sep < 0x80) (htext : ∀ b ∈ text, b < 0x80)
    (h : text ∈ (toBytes (fromUtf8Lossy bs)).splitOn sep) : text ∈ bs.splitOn sep := by
  rw [fromUtf8Lossy, toBytes_ofList] at h
  have hpieces := (decodes_lossyChars (Nat.le_refl bs.length)).splitOn hsep
  generalize bs.splitOn sep = ps at hpieces ⊢
  generalize ((lossyChars bs.length bs).flatMap String.utf8EncodeChar).splitOn sep = qs at hpieces h
  induction hpieces with
  | nil => exact h
  | cons hhead _ ih =>
    rcases List.mem_cons.mp h with rfl | h
    · rw [hhead htext]
      exact List.mem_cons_self
    · exact List.mem_cons_of_mem _ (ih h)

theorem head?_of_lossy {b : UInt8} {bs : List UInt8} (hb : b < 0x80)
    (h : (toBytes (fromUtf8Lossy bs)).head? = some b) : bs.head? = some b := by
  rw [fromUtf8Lossy, toBytes_ofList] at h
  have hdecodes := decodes_lossyChars (Nat.le_refl bs.length)
  generalize lossyChars bs.length bs = cs at hdecodes h
  cases hdecodes with
  | nil => exact h
  | @ascii b' bs cs hb' _ =>
    rw [List.flatMap_cons, utf8EncodeChar_ofNat _ (UInt8.lt_iff_toNat_lt.mp hb'), UInt8.ofNat_toNat] at h
    exact h
  | @other piece bs c cs hne hpiece hc _ =>
    rw [List.flatMap_cons, List.head?_append_of_ne_nil _ String.utf8EncodeChar_ne_nil] at h
    have := toNat_of_mem_utf8EncodeChar (UInt8.lt_iff_toNat_lt.mp hb) (List.mem_of_mem_head? h)
    have := UInt8.lt_iff_toNat_lt.mp hb
    simp at this
    omega

end Ringdrop.Library.Utf8
