import Ringdrop.Core.Util
import Ringdrop.Core.Durations
import Mathlib.Data.List.Chain

namespace Ringdrop

def partSecs (part : List Char) : Option ℕ :=
  if part.takeWhile Char.isDigit = [] then none
  else match units.find? (fun u ↦ u.2.toList == part.dropWhile Char.isDigit) with
    | some (size, _) => some (Nat.ofDigitChars 10 (part.takeWhile Char.isDigit) 0 * size)
    | none => none

/-- The seconds denoted by a text of one part, or of two with a blank between them. -/
def denoted (text : String) : Option ℕ :=
  match text.toList.splitOn ' ' with
  | [major] => partSecs major
  | [major, minor] => do return (← partSecs major) + (← partSecs minor)
  | _ => none

/-- A text of one or two parts for `n` seconds, which comes to `total` seconds: it starts
with the unit `size` and is cut off below the unit after that. -/
def IsTruncation (n : ℕ) (text : String) (total : ℕ) : Prop :=
  ∃ larger size suffix smaller a, units = larger ++ (size, suffix) :: smaller ∧ 1 ≤ a ∧
    (∀ u ∈ larger.getLast?, a < u.1 / size) ∧ total ≤ n ∧
    match smaller with
    | [] => text = s!"{a}{suffix}" ∧ total = n
    | (next, nextSuffix) :: _ => n < total + next ∧
      (text = s!"{a}{suffix}" ∨ ∃ b, 1 ≤ b ∧ b < size / next ∧ text = s!"{a}{suffix} {b}{nextSuffix}")

section Units

theorem isChain_units : units.IsChain (fun u v ↦ v.1 ∣ u.1) := by decide

theorem units_pos {u : ℕ × String} (hu : u ∈ units) : 0 < u.1 := by
  have hall : ∀ u ∈ units, 0 < u.1 := by decide
  exact hall u hu

theorem units_suffix {u : ℕ × String} (hu : u ∈ units) : ∃ c, u.2.toList = [c] ∧ c.isDigit = false ∧
    c ≠ ' ' ∧ units.find? (fun v ↦ v.2.toList == u.2.toList) = some u := by
  have hall : ∀ u ∈ units, u.2.toList = [u.2.toList.headI] ∧ u.2.toList.headI.isDigit = false ∧
      u.2.toList.headI ≠ ' ' ∧ units.find? (fun v ↦ v.2.toList == u.2.toList) = some u := by
    decide
  exact ⟨u.2.toList.headI, hall u hu⟩

theorem eq_seconds {larger : List (ℕ × String)} {u : ℕ × String} (h : units = larger ++ [u]) : u = (1, "s") := by
  have hlast : units.getLast? = some u := by rw [h, List.getLast?_concat]
  exact (Option.some.inj hlast).symm

variable {size a : ℕ} {suffix : String}

theorem partSecs_part (hu : (size, suffix) ∈ units) :
    partSecs (Nat.toDigits 10 a ++ suffix.toList) = some (a * size) := by
  obtain ⟨c, hc, hdigit, -, hfind⟩ := units_suffix hu
  dsimp only at hc hfind
  have hdigits : ∀ d ∈ Nat.toDigits 10 a, d.isDigit = true :=
    fun d hd ↦ Nat.isDigit_of_mem_toDigits (by omega) (by omega) hd
  obtain ⟨htake, hdrop⟩ := span_append hdigits hdigit
  rw [hc] at hfind ⊢
  simp only [partSecs, htake, hdrop, hfind, Nat.toDigits_ne_nil, if_false, Nat.ofDigitChars_ten_toDigits]

theorem blank_notMem_part (hu : (size, suffix) ∈ units) : ' ' ∉ Nat.toDigits 10 a ++ suffix.toList := by
  obtain ⟨c, hc, -, hblank, -⟩ := units_suffix hu
  dsimp only at hc
  intro hmem
  rw [hc, List.mem_append, List.mem_singleton] at hmem
  rcases hmem with hmem | hmem
  · have hdigit : ' '.isDigit = true := Nat.isDigit_of_mem_toDigits (b := 10) (n := a) (by omega) (by omega) hmem
    cases hdigit
  · exact hblank hmem.symm

theorem toList_part : s!"{a}{suffix}".toList = Nat.toDigits 10 a ++ suffix.toList := by
  change (a.repr ++ suffix).toList = _
  rw [String.toList_append, Nat.toList_repr]

theorem denoted_one (hu : (size, suffix) ∈ units) : denoted s!"{a}{suffix}" = some (a * size) := by
  unfold denoted
  rw [toList_part, List.splitOn_eq_singleton (blank_notMem_part hu)]
  exact partSecs_part hu

theorem denoted_two {next b : ℕ} {nextSuffix : String} (hu : (size, suffix) ∈ units)
    (hnext : (next, nextSuffix) ∈ units) :
    denoted s!"{a}{suffix} {b}{nextSuffix}" = some (a * size + b * next) := by
  have htext : s!"{a}{suffix} {b}{nextSuffix}".toList =
      (Nat.toDigits 10 a ++ suffix.toList) ++ ' ' :: (Nat.toDigits 10 b ++ nextSuffix.toList) := by
    change (a.repr ++ suffix ++ " " ++ b.repr ++ nextSuffix).toList = _
    simp only [String.toList_append, Nat.toList_repr, List.append_assoc]
    rfl
  unfold denoted
  rw [htext, List.splitOn_append_cons_self_of_not_mem (blank_notMem_part hu),
    List.splitOn_eq_singleton (blank_notMem_part hnext)]
  simp only [partSecs_part hu, partSecs_part hnext, Option.bind_eq_bind, Option.bind_some]
  rfl

end Units

section Truncation

variable {n m : ℕ}

def Major (n : ℕ) (larger : List (ℕ × String)) (u : ℕ × String) (smaller : List (ℕ × String)) : Prop :=
  units = larger ++ u :: smaller ∧ (∀ v ∈ larger, n < v.1) ∧ u.1 ≤ n

theorem exists_major (hn : n ≠ 0) : ∃ larger u smaller, Major n larger u smaller ∧
    units.dropWhile (fun u ↦ decide (n < u.1)) = u :: smaller := by
  cases hdrop : units.dropWhile (fun u ↦ decide (n < u.1)) with
  | nil =>
    have hsmall := List.dropWhile_eq_nil_iff.mp hdrop (1, "s") (by decide)
    have hlt : n < 1 := by simpa using hsmall
    omega
  | cons u smaller =>
    refine ⟨units.takeWhile (fun u ↦ decide (n < u.1)), u, smaller, ⟨?_, ?_, ?_⟩, rfl⟩
    · rw [← hdrop, List.takeWhile_append_dropWhile]
    · intro v hv
      simpa using List.mem_takeWhile_imp hv
    · have hstop := List.head?_dropWhile_not (fun u : ℕ × String ↦ decide (n < u.1)) units
      rw [hdrop] at hstop
      simpa using hstop

theorem major_mono {larger smaller larger' smaller' : List (ℕ × String)} {u u' : ℕ × String}
    (h : Major n larger u smaller) (h' : Major m larger' u' smaller') (hnm : n ≤ m) :
    smaller = smaller' ∨ n < u'.1 := by
  obtain ⟨hunits, hlarger, hu⟩ := h
  obtain ⟨hunits', hlarger', hu'⟩ := h'
  rcases List.append_eq_append_iff.mp (hunits.symm.trans hunits') with ⟨mid, hmid, hrest⟩ | ⟨mid, hmid, hrest⟩
  · cases mid with
    | nil => exact .inl (List.cons.inj hrest).2
    | cons v mid =>
      obtain ⟨rfl, -⟩ := List.cons.inj hrest
      have hlt := hlarger' u (by rw [hmid]; exact List.mem_append_right _ List.mem_cons_self)
      omega
  · cases mid with
    | nil => exact .inl (List.cons.inj hrest).2.symm
    | cons v mid =>
      obtain ⟨rfl, -⟩ := List.cons.inj hrest
      exact .inr (hlarger u' (by rw [hmid]; exact List.mem_append_right _ List.mem_cons_self))

def truncated (n : ℕ) : List (ℕ × String) → ℕ
  | [] => n
  | (next, _) :: _ => n / next * next

theorem truncated_le (smaller : List (ℕ × String)) : truncated n smaller ≤ n := by
  cases smaller with
  | nil => exact le_refl n
  | cons v smaller => exact Nat.div_mul_le_self n v.1

theorem truncated_mono (smaller : List (ℕ × String)) (h : n ≤ m) : truncated n smaller ≤ truncated m smaller := by
  cases smaller with
  | nil => exact h
  | cons v smaller => exact Nat.mul_le_mul_right v.1 (Nat.div_le_div_right h)

variable {larger smaller : List (ℕ × String)} {u : ℕ × String}

theorem Major.mem (h : Major n larger u smaller) : u ∈ units := by
  rw [h.1]
  exact List.mem_append_right _ List.mem_cons_self

theorem Major.next {v : ℕ × String} (h : Major n larger u (v :: smaller)) : v ∈ units ∧ v.1 ∣ u.1 := by
  have hchain := isChain_units
  rw [h.1, List.isChain_append_cons_cons] at hchain
  refine ⟨?_, hchain.2.1⟩
  rw [h.1]
  exact List.mem_append_right _ (List.mem_cons_of_mem _ List.mem_cons_self)

theorem Major.below (h : Major n larger u smaller) : ∀ v ∈ larger.getLast?, n / u.1 < v.1 / u.1 := by
  intro v hv
  obtain ⟨init, rfl⟩ := List.getLast?_eq_some_iff.mp hv
  have hchain := isChain_units
  rw [h.1, List.append_assoc, List.singleton_append, List.isChain_append_cons_cons] at hchain
  exact Nat.div_lt_div_of_lt_of_dvd hchain.2.1 (h.2.1 v (List.mem_append_right _ (List.mem_singleton_self v)))

theorem Major.le_truncated (h : Major n larger u smaller) : u.1 ≤ truncated n smaller := by
  cases smaller with
  | nil => exact h.2.2
  | cons v smaller =>
    obtain ⟨-, hdvd⟩ := h.next
    calc u.1 = u.1 / v.1 * v.1 := (Nat.div_mul_cancel hdvd).symm
      _ ≤ n / v.1 * v.1 := Nat.mul_le_mul_right v.1 (Nat.div_le_div_right h.2.2)

theorem major_add_minor {size next : ℕ} (hdvd : next ∣ size) (hnext : 0 < next) :
    n / size * size + n % size / next * next = n / next * next := by
  obtain ⟨k, rfl⟩ := hdvd
  have hn : n = n % (next * k) + n / (next * k) * k * next := by
    rw [Nat.mul_assoc, Nat.mul_comm k next]
    exact (Nat.mod_add_div' n (next * k)).symm
  have hdiv : n / next = n % (next * k) / next + n / (next * k) * k := by
    conv_lhs => rw [hn]
    exact Nat.add_mul_div_right _ _ hnext
  rw [hdiv, Nat.add_mul, Nat.add_comm, Nat.mul_assoc _ k next, Nat.mul_comm k next]

theorem formatRemaining_major (h : Major n larger u smaller)
    (hdrop : units.dropWhile (fun u ↦ decide (n < u.1)) = u :: smaller) :
    denoted (formatRemaining n) = some (truncated n smaller) ∧
      IsTruncation n (formatRemaining n) (truncated n smaller) := by
  obtain ⟨size, suffix⟩ := u
  have hpos : 0 < size := units_pos h.mem
  have ha : 1 ≤ n / size := (Nat.one_le_div_iff hpos).mpr h.2.2
  unfold formatRemaining
  rw [hdrop]
  dsimp only
  cases smaller with
  | nil =>
    obtain ⟨rfl, rfl⟩ := Prod.mk.inj (eq_seconds h.1)
    refine ⟨?_, larger, 1, "s", [], n / 1, h.1, ha, h.below, le_refl n, rfl, rfl⟩
    rw [denoted_one h.mem, Nat.div_one, Nat.mul_one, truncated]
  | cons v smaller =>
    obtain ⟨next, nextSuffix⟩ := v
    obtain ⟨hmem, hdvd⟩ := h.next
    have hnext : 0 < next := units_pos hmem
    have htotal : n / size * size + n % size / next * next = n / next * next := major_add_minor hdvd hnext
    have hle : n / next * next ≤ n := Nat.div_mul_le_self n next
    have hlt : n < n / next * next + next := Nat.lt_div_mul_add hnext
    dsimp only
    split
    · rename_i hminor
      have hb : n % size / next < size / next := Nat.div_lt_div_of_lt_of_dvd hdvd (Nat.mod_lt n hpos)
      refine ⟨?_, larger, size, suffix, (next, nextSuffix) :: smaller, n / size, h.1, ha, h.below, hle, hlt, ?_⟩
      · have hden := denoted_two (a := n / size) (b := n % size / next) h.mem hmem
        rw [htotal] at hden
        exact hden
      · exact .inr ⟨n % size / next, hminor, hb, rfl⟩
    · rename_i hminor
      rw [Nat.eq_zero_of_not_pos hminor, Nat.zero_mul, Nat.add_zero] at htotal
      refine ⟨?_, larger, size, suffix, (next, nextSuffix) :: smaller, n / size, h.1, ha, h.below, hle, hlt, .inl rfl⟩
      rw [denoted_one h.mem, htotal, truncated]

theorem formatRemaining_zero : formatRemaining 0 = "0s" := by decide

theorem denoted_zero : denoted "0s" = some 0 := by decide +kernel

theorem exists_truncated (hn : n ≠ 0) : ∃ larger u smaller, Major n larger u smaller ∧
    denoted (formatRemaining n) = some (truncated n smaller) ∧
    IsTruncation n (formatRemaining n) (truncated n smaller) := by
  obtain ⟨larger, u, smaller, hmajor, hdrop⟩ := exists_major hn
  exact ⟨larger, u, smaller, hmajor, formatRemaining_major hmajor hdrop⟩

theorem denoted_mono (h : n ≤ m) : ∃ shorter longer, denoted (formatRemaining n) = some shorter ∧
    denoted (formatRemaining m) = some longer ∧ shorter ≤ longer := by
  by_cases hm : m = 0
  · obtain rfl : n = 0 := by omega
    subst hm
    exact ⟨0, 0, denoted_zero, denoted_zero, le_refl 0⟩
  · obtain ⟨larger', u', smaller', hmajor', hlong, -⟩ := exists_truncated hm
    by_cases hn : n = 0
    · subst hn
      exact ⟨0, _, denoted_zero, hlong, Nat.zero_le _⟩
    · obtain ⟨larger, u, smaller, hmajor, hshort, -⟩ := exists_truncated hn
      refine ⟨_, _, hshort, hlong, ?_⟩
      rcases major_mono hmajor hmajor' h with rfl | hbelow
      · exact truncated_mono smaller h
      · have hle : truncated n smaller ≤ n := truncated_le smaller
        have hge : u'.1 ≤ truncated m smaller' := hmajor'.le_truncated
        omega

/-- The remaining time is cut off below its two most significant units, and nothing else is lost. -/
theorem formatRemaining_denotes (n : ℕ) : (formatRemaining n = "0s" ↔ n = 0) ∧
    (n ≠ 0 → ∃ total, denoted (formatRemaining n) = some total ∧ IsTruncation n (formatRemaining n) total) ∧
    ∀ m, n ≤ m → ∃ shorter longer, denoted (formatRemaining n) = some shorter ∧
      denoted (formatRemaining m) = some longer ∧ shorter ≤ longer := by
  refine ⟨⟨fun h ↦ ?_, fun h ↦ ?_⟩, fun hn ↦ ?_, fun m h ↦ denoted_mono h⟩
  · by_contra hn
    obtain ⟨larger, u, smaller, hmajor, hden, -⟩ := exists_truncated hn
    rw [h, denoted_zero] at hden
    have hge : u.1 ≤ truncated n smaller := hmajor.le_truncated
    have hpos : 0 < u.1 := units_pos hmajor.mem
    have hzero : 0 = truncated n smaller := Option.some.inj hden
    omega
  · rw [h, formatRemaining_zero]
  · obtain ⟨larger, u, smaller, -, hden, htrunc⟩ := exists_truncated hn
    exact ⟨_, hden, htrunc⟩

end Truncation

end Ringdrop
