import Mathlib.Algebra.Group.Nat.Defs
import Mathlib.Order.Basic

namespace Ringdrop.Library.Base32

def alphabet : List Char := "ABCDEFGHIJKLMNOPQRSTUVWXYZ234567".toList

def toBits : ℕ → ℕ → List Bool
  | 0, _ => []
  | width + 1, n => toBits width (n / 2) ++ [n % 2 == 1]

def ofBits (bs : List Bool) : ℕ := bs.foldl (fun acc b ↦ 2 * acc + b.toNat) 0

/-- Split into pieces of `k`, the last one possibly shorter. Each piece takes at
least one element, so the length is fuel enough. -/
def pieces {α : Type} (k : ℕ) : ℕ → List α → List (List α)
  | 0, _ => []
  | _ + 1, [] => []
  | fuel + 1, x :: xs => (x :: xs).take k :: pieces k fuel ((x :: xs).drop k)

def bitsOfBytes (bs : List UInt8) : List Bool := bs.flatMap (fun b ↦ toBits 8 b.toNat)

def symbol (g : List Bool) : Char := alphabet.getD (ofBits (g.rightpad 5 false)) 'A'

def encode (bs : List UInt8) : List Char :=
  (pieces 5 (bitsOfBytes bs).length (bitsOfBytes bs)).map symbol

/-- Strict decoding: only symbols of the alphabet, no impossible length, and zeros
in the bits that are left over. -/
def decode (cs : List Char) : Option (List UInt8) := do
  let symbols ← cs.mapM (fun c ↦ alphabet.idxOf? c)
  let bits := symbols.flatMap (toBits 5)
  let full := bits.length / 8 * 8
  let rest := bits.drop full
  if rest.length < 5 ∧ rest.all (!·) then
    some ((pieces 8 full (bits.take full)).map (fun g ↦ UInt8.ofNat (ofBits g)))
  else none

example : encode [0x66, 0x6F, 0x6F, 0x62] = "MZXW6YQ".toList ∧
    decode "MZXW6YQ".toList = some [0x66, 0x6F, 0x6F, 0x62] := by
  decide

theorem length_toBits (width n : ℕ) : (toBits width n).length = width := by
  induction width generalizing n with
  | zero => rfl
  | succ width ih => simp [toBits, ih]

theorem ofBits_concat (bs : List Bool) (b : Bool) : ofBits (bs ++ [b]) = 2 * ofBits bs + b.toNat := by
  simp [ofBits, List.foldl_append]

theorem ofBits_toBits (width n : ℕ) : ofBits (toBits width n) = n % 2 ^ width := by
  induction width generalizing n with
  | zero => simp [toBits, ofBits, Nat.mod_one]
  | succ width ih =>
    rw [toBits, ofBits_concat, ih, Nat.pow_succ, Nat.mul_comm (2 ^ width), Nat.mod_mul]
    have hb : (n % 2 == 1).toNat = n % 2 := by
      rcases Nat.mod_two_eq_zero_or_one n with h | h <;> simp [h]
    rw [hb]
    omega

theorem toBits_ofBits {width : ℕ} {bs : List Bool} (h : bs.length = width) :
    toBits width (ofBits bs) = bs := by
  induction width generalizing bs with
  | zero => simp [List.eq_nil_of_length_eq_zero h, toBits]
  | succ width ih =>
    obtain ⟨b, x, rfl⟩ : ∃ b x, bs = b ++ [x] :=
      ⟨bs.dropLast, bs.getLast (by rintro rfl; simp at h), (List.dropLast_concat_getLast _).symm⟩
    have hb : b.length = width := by simpa using h
    have hdiv : (2 * ofBits b + x.toNat) / 2 = ofBits b := by
      cases x <;> simp
      omega
    have hmod : ((2 * ofBits b + x.toNat) % 2 == 1) = x := by cases x <;> simp
    rw [ofBits_concat, toBits, hdiv, hmod, ih hb]

theorem ofBits_lt (bs : List Bool) : ofBits bs < 2 ^ bs.length := by
  have h := ofBits_toBits bs.length (ofBits bs)
  rw [toBits_ofBits rfl] at h
  rw [h]
  exact Nat.mod_lt _ (Nat.pow_pos (by omega))

theorem pieces_append {α : Type} {k fuel : ℕ} {g rest : List α} (hk : 0 < k) (hg : g.length = k) :
    pieces k (fuel + 1) (g ++ rest) = g :: pieces k fuel rest := by
  cases g with
  | nil => simp at hg; omega
  | cons x g =>
    have htake : (x :: (g ++ rest)).take k = x :: g := by
      rw [← List.cons_append, List.take_left' hg]
    have hdrop : (x :: (g ++ rest)).drop k = rest := by
      rw [← List.cons_append, List.drop_left' hg]
    rw [List.cons_append, pieces, htake, hdrop]

theorem pieces_rightpad {α : Type} {k : ℕ} (hk : 0 < k) (a : α) (fuel : ℕ) (l : List α)
    (hl : l.length ≤ fuel) :
    ∃ z, z < k ∧ (pieces k fuel l).flatMap (List.rightpad k a) = l ++ List.replicate z a := by
  induction fuel generalizing l with
  | zero =>
    obtain rfl := List.eq_nil_of_length_eq_zero (Nat.le_zero.mp hl)
    exact ⟨0, hk, rfl⟩
  | succ fuel ih =>
    by_cases hlen : k ≤ l.length
    · have hl' : (l.take k).length = k := by simp [hlen]
      obtain ⟨z, hz, he⟩ := ih (l.drop k) (by simp; omega)
      refine ⟨z, hz, ?_⟩
      rw [← List.take_append_drop k l, pieces_append hk hl', List.flatMap_cons, he, List.append_assoc,
        List.rightpad, hl', Nat.sub_self, List.replicate_zero, List.append_nil]
    · cases l with
      | nil => exact ⟨0, hk, rfl⟩
      | cons x xs =>
        have htake : (x :: xs).take k = x :: xs := List.take_of_length_le (by omega)
        have hdrop : (x :: xs).drop k = [] := List.drop_of_length_le (by omega)
        have hnil : pieces k fuel ([] : List α) = [] := by cases fuel <;> rfl
        refine ⟨k - (x :: xs).length, by simp; omega, ?_⟩
        rw [pieces, htake, hdrop, hnil, List.flatMap_cons, List.flatMap_nil, List.append_nil,
          List.rightpad]

theorem pieces_bitsOfBytes {fuel : ℕ} {bs : List UInt8} (h : bs.length ≤ fuel) :
    (pieces 8 fuel (bitsOfBytes bs)).map (fun g ↦ UInt8.ofNat (ofBits g)) = bs := by
  induction bs generalizing fuel with
  | nil => cases fuel <;> rfl
  | cons b bs ih =>
    obtain ⟨fuel, rfl⟩ : ∃ f, fuel = f + 1 := ⟨fuel - 1, by simp at h; omega⟩
    have hb : UInt8.ofNat (ofBits (toBits 8 b.toNat)) = b := by
      rw [ofBits_toBits, Nat.mod_eq_of_lt b.toNat_lt, UInt8.ofNat_toNat]
    have hbits : bitsOfBytes (b :: bs) = toBits 8 b.toNat ++ bitsOfBytes bs := List.flatMap_cons
    rw [hbits, pieces_append (by omega) (length_toBits 8 _), List.map_cons, hb,
      ih (by simpa using h)]

theorem length_bitsOfBytes (bs : List UInt8) : (bitsOfBytes bs).length = 8 * bs.length := by
  induction bs with
  | nil => rfl
  | cons b bs ih =>
    have hbits : bitsOfBytes (b :: bs) = toBits 8 b.toNat ++ bitsOfBytes bs := List.flatMap_cons
    rw [hbits, List.length_append, length_toBits, ih, List.length_cons]
    omega

theorem idxOf_alphabet : ∀ n < 32, alphabet.idxOf? (alphabet.getD n 'A') = some n := by decide

theorem length_of_mem_pieces {α : Type} {k fuel : ℕ} {l g : List α} (h : g ∈ pieces k fuel l) :
    g.length ≤ k := by
  induction fuel generalizing l with
  | zero => simp [pieces] at h
  | succ fuel ih =>
    cases l with
    | nil => simp [pieces] at h
    | cons x xs =>
      rw [pieces] at h
      rcases List.mem_cons.mp h with rfl | h
      · rw [List.length_take]
        omega
      · exact ih h

theorem idxOf_symbol {g : List Bool} (hg : g.length ≤ 5) :
    alphabet.idxOf? (symbol g) = some (ofBits (g.rightpad 5 false)) := by
  have hlen : (g.rightpad 5 false).length = 5 := by simp [List.rightpad]; omega
  have hlt := ofBits_lt (g.rightpad 5 false)
  rw [hlen] at hlt
  exact idxOf_alphabet _ hlt

theorem mapM_symbol {gs : List (List Bool)} (h : ∀ g ∈ gs, g.length ≤ 5) :
    (gs.map symbol).mapM (fun c ↦ alphabet.idxOf? c) =
      some (gs.map (fun g ↦ ofBits (g.rightpad 5 false))) := by
  induction gs with
  | nil => rfl
  | cons g gs ih =>
    rw [List.map_cons, List.mapM_cons, idxOf_symbol (h g (by simp)),
      ih (fun g' hg' ↦ h g' (by simp [hg']))]
    rfl

theorem flatMap_toBits {gs : List (List Bool)} (h : ∀ g ∈ gs, g.length ≤ 5) :
    (gs.map (fun g ↦ ofBits (g.rightpad 5 false))).flatMap (toBits 5) =
      gs.flatMap (List.rightpad 5 false) := by
  induction gs with
  | nil => rfl
  | cons g gs ih =>
    have hg := h g (by simp)
    have hlen : (g.rightpad 5 false).length = 5 := by
      simp only [List.rightpad, List.length_append, List.length_replicate]
      omega
    rw [List.map_cons, List.flatMap_cons, List.flatMap_cons, toBits_ofBits hlen,
      ih (fun g' hg' ↦ h g' (by simp [hg']))]

theorem decode_encode (bs : List UInt8) : decode (encode bs) = some bs := by
  obtain ⟨z, hz, hpad⟩ := pieces_rightpad (k := 5) (by omega) false _ (bitsOfBytes bs) (Nat.le_refl _)
  have hlen : ∀ g ∈ pieces 5 (bitsOfBytes bs).length (bitsOfBytes bs), g.length ≤ 5 :=
    fun g hg ↦ length_of_mem_pieces hg
  have hbits := length_bitsOfBytes bs
  have hfull : (bitsOfBytes bs ++ List.replicate z false).length / 8 * 8 = (bitsOfBytes bs).length := by
    simp only [List.length_append, List.length_replicate, hbits]
    omega
  unfold decode encode
  rw [mapM_symbol hlen]
  simp only [Option.bind_eq_bind, Option.bind_some]
  rw [flatMap_toBits hlen, hpad, hfull, List.drop_left, List.take_left,
    if_pos ⟨by simpa using hz, by simp⟩, pieces_bitsOfBytes (by omega)]

theorem pieces_short {α : Type} {k fuel : ℕ} {l : List α} (hl : l ≠ []) (hk : l.length ≤ k) (hfuel : l.length ≤ fuel) :
    pieces k fuel l = [l] := by
  cases l with
  | nil => exact absurd rfl hl
  | cons x xs =>
    obtain ⟨fuel, rfl⟩ : ∃ f, fuel = f + 1 := ⟨fuel - 1, by simp at hfuel; omega⟩
    have hnil : pieces k fuel ([] : List α) = [] := by cases fuel <;> rfl
    rw [pieces, List.take_of_length_le hk, List.drop_of_length_le hk, hnil]

theorem pieces_rightpad_toBits {symbols : List ℕ} {fuel z : ℕ} {l : List Bool} (hz : z < 5)
    (hl : l ++ List.replicate z false = symbols.flatMap (toBits 5)) (hfuel : l.length ≤ fuel) :
    (pieces 5 fuel l).map (List.rightpad 5 false) = symbols.map (toBits 5) := by
  induction symbols generalizing l fuel with
  | nil =>
    obtain ⟨rfl, -⟩ := List.append_eq_nil_iff.mp hl
    cases fuel <;> rfl
  | cons n rest ih =>
    rw [List.flatMap_cons] at hl
    have hlength : l.length + z = 5 + (rest.flatMap (toBits 5)).length := by
      have h := congrArg List.length hl
      rwa [List.length_append, List.length_replicate, List.length_append, length_toBits] at h
    by_cases hlong : 5 ≤ l.length
    · -- a whole group comes first
      have htake : l.take 5 = toBits 5 n := by
        have h := congrArg (List.take 5) hl
        rwa [List.take_append_of_le_length hlong, List.take_left' (length_toBits 5 n)] at h
      have hdrop : l.drop 5 ++ List.replicate z false = rest.flatMap (toBits 5) := by
        have h := congrArg (List.drop 5) hl
        rwa [List.drop_append_of_le_length hlong, List.drop_left' (length_toBits 5 n)] at h
      obtain ⟨fuel, rfl⟩ : ∃ f, fuel = f + 1 := ⟨fuel - 1, by omega⟩
      have hrest := @ih fuel _ hdrop (by rw [List.length_drop]; omega)
      rw [← List.take_append_drop 5 l, htake, pieces_append (by omega) (length_toBits 5 n), List.map_cons, hrest,
        List.map_cons, List.rightpad, length_toBits]
      simp
    · -- it is the last group
      have hnone : rest = [] := by
        cases rest with
        | nil => rfl
        | cons m rest =>
          rw [List.flatMap_cons, List.length_append, length_toBits] at hlength
          omega
      subst hnone
      rw [List.flatMap_nil, List.append_nil] at hl
      rw [List.flatMap_nil, List.length_nil] at hlength
      have hne : l ≠ [] := by
        rintro rfl
        simp at hlength
        omega
      have hpad : 5 - l.length = z := by omega
      rw [pieces_short hne (by omega) hfuel, List.map_singleton, List.map_singleton, List.rightpad, hpad, hl]

theorem alphabet_of_idxOf {c : Char} {n : ℕ} (h : alphabet.idxOf? c = some n) : n < 32 ∧ alphabet.getD n 'A' = c := by
  obtain ⟨hn, hc, -⟩ := List.idxOf?_eq_some_iff.mp h
  refine ⟨hn, ?_⟩
  rw [List.getD_eq_getElem?_getD, List.getElem?_eq_getElem hn, Option.getD_some, hc]

theorem map_of_mapM {cs : List Char} {symbols : List ℕ} (h : cs.mapM (fun c ↦ alphabet.idxOf? c) = some symbols) :
    (symbols.map (toBits 5)).map (fun g ↦ alphabet.getD (ofBits g) 'A') = cs := by
  induction cs generalizing symbols with
  | nil =>
    obtain rfl : [] = symbols := Option.some.inj h
    rfl
  | cons c cs ih =>
    rw [List.mapM_cons] at h
    cases hc : alphabet.idxOf? c with
    | none => simp [hc] at h
    | some n =>
      cases hcs : cs.mapM (fun c ↦ alphabet.idxOf? c) with
      | none => simp [hc, hcs] at h
      | some rest =>
        obtain rfl : n :: rest = symbols := by simpa [hc, hcs] using h
        obtain ⟨hn, hsymbol⟩ := alphabet_of_idxOf hc
        have hbits : ofBits (toBits 5 n) = n := (ofBits_toBits 5 n).trans (Nat.mod_eq_of_lt hn)
        rw [List.map_cons, List.map_cons, hbits, hsymbol, ih hcs]

theorem bitsOfBytes_pieces {k fuel : ℕ} {l : List Bool} (hl : l.length = 8 * k) (hfuel : k ≤ fuel) :
    bitsOfBytes ((pieces 8 fuel l).map (fun g ↦ UInt8.ofNat (ofBits g))) = l := by
  induction k generalizing l fuel with
  | zero =>
    obtain rfl := List.eq_nil_of_length_eq_zero hl
    cases fuel <;> rfl
  | succ k ih =>
    obtain ⟨fuel, rfl⟩ : ∃ f, fuel = f + 1 := ⟨fuel - 1, by omega⟩
    have htake : (l.take 8).length = 8 := by rw [List.length_take]; omega
    have hrest := @ih fuel (l.drop 8) (by rw [List.length_drop]; omega) (by omega)
    have hlt : ofBits (l.take 8) < 256 := by
      have h := ofBits_lt (l.take 8)
      rwa [htake] at h
    have hbyte : toBits 8 (UInt8.ofNat (ofBits (l.take 8))).toNat = l.take 8 := by
      rw [UInt8.toNat_ofNat_of_lt' hlt, toBits_ofBits htake]
    have hpieces : pieces 8 (fuel + 1) l = l.take 8 :: pieces 8 fuel (l.drop 8) := by
      rw [← pieces_append (by omega) htake, List.take_append_drop]
    rw [hpieces, List.map_cons, bitsOfBytes, List.flatMap_cons, hbyte]
    exact (congrArg (l.take 8 ++ ·) hrest).trans (List.take_append_drop 8 l)

/-- Only encodings are decoded. -/
theorem eq_encode_of_decode {cs : List Char} {bs : List UInt8} (h : decode cs = some bs) : cs = encode bs := by
  unfold decode at h
  cases hsymbols : cs.mapM (fun c ↦ alphabet.idxOf? c) with
  | none => simp [hsymbols] at h
  | some symbols =>
    simp only [hsymbols, Option.bind_eq_bind, Option.bind_some] at h
    obtain ⟨full, hfull⟩ : ∃ full, full = (symbols.flatMap (toBits 5)).length / 8 * 8 := ⟨_, rfl⟩
    rw [← hfull] at h
    split at h
    · rename_i hrest
      obtain ⟨hshort, hzero⟩ := hrest
      obtain rfl := Option.some.inj h
      have htake : ((symbols.flatMap (toBits 5)).take full).length = full := by rw [List.length_take]; omega
      have hzeros : (symbols.flatMap (toBits 5)).drop full =
          List.replicate ((symbols.flatMap (toBits 5)).drop full).length false := by
        refine List.eq_replicate_of_mem fun b hb ↦ ?_
        simpa using List.all_eq_true.mp hzero b hb
      have hbits : bitsOfBytes _ = (symbols.flatMap (toBits 5)).take full :=
        bitsOfBytes_pieces (k := full / 8) (htake.trans (by omega)) (Nat.div_le_self full 8)
      have hgroups : (pieces 5 full ((symbols.flatMap (toBits 5)).take full)).map (List.rightpad 5 false) =
          symbols.map (toBits 5) :=
        pieces_rightpad_toBits hshort (by rw [← hzeros, List.take_append_drop]) (Nat.le_of_eq htake)
      unfold encode
      rw [hbits, htake, ← map_of_mapM hsymbols, ← hgroups, List.map_map]
      rfl
    · cases h

theorem mem_alphabet_of_mem_encode {bs : List UInt8} {c : Char} (h : c ∈ encode bs) : c ∈ alphabet := by
  obtain ⟨g, hg, rfl⟩ := List.mem_map.mp h
  have hs := idxOf_symbol (length_of_mem_pieces hg)
  by_contra hc
  rw [List.idxOf?_eq_none_iff.mpr hc] at hs
  cases hs

end Ringdrop.Library.Base32
