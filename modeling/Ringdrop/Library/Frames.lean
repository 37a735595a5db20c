import Mathlib.Data.List.Basic
import Ringdrop.Library.Output

namespace Ringdrop.Library

variable {α β ε : Type}

structure Delimits (Frame : β → List α → Prop) (decode : List α → Except ε (β × List α)) : Prop where
  decode_append : ∀ {v x}, Frame v x → ∀ rest, decode (x ++ rest) = .ok (v, rest)
  of_decode : ∀ {s v rest}, decode s = .ok (v, rest) → ∃ x, Frame v x ∧ s = x ++ rest
  ne_nil : ∀ {v x}, Frame v x → x ≠ []

inductive Framed (Frame : β → List α → Prop) : List β → List α → Prop
  | nil : Framed Frame [] []
  | cons {v : β} {x : List α} {vs : List β} {s : List α} :
      Frame v x → Framed Frame vs s → Framed Frame (v :: vs) (x ++ s)

def decodeAll (decode : List α → Except ε (β × List α)) : ℕ → List α → Except ε (List β)
  | 0, _ => .ok []
  | _ + 1, [] => .ok []
  | fuel + 1, b :: s =>
    match decode (b :: s) with
    | .error e => .error e
    | .ok (v, rest) => match decodeAll decode fuel rest with
      | .error e => .error e
      | .ok vs => .ok (v :: vs)

variable {Frame : β → List α → Prop} {decode : List α → Except ε (β × List α)}

theorem decodeAll_of_ne_nil (fuel : ℕ) {s : List α} (hs : s ≠ []) : decodeAll decode (fuel + 1) s =
    match decode s with
    | .error e => .error e
    | .ok (v, rest) => match decodeAll decode fuel rest with
      | .error e => .error e
      | .ok vs => .ok (v :: vs) := by
  cases s with
  | nil => exact absurd rfl hs
  | cons b s => rfl

/-- With enough fuel the loop accepts exactly the streams of frames. -/
theorem decodeAll_eq_ok_iff (h : Delimits Frame decode) {fuel : ℕ} {s : List α} {vs : List β}
    (hfuel : s.length < fuel) : decodeAll decode fuel s = .ok vs ↔ Framed Frame vs s := by
  constructor
  · intro hall
    induction fuel generalizing s vs with
    | zero => omega
    | succ fuel ih =>
      by_cases hs : s = []
      · subst hs
        obtain rfl : [] = vs := Except.ok.inj hall
        exact .nil
      · rw [decodeAll_of_ne_nil fuel hs] at hall
        cases hd : decode s with
        | error e =>
          rw [hd] at hall
          cases hall
        | ok r =>
          obtain ⟨v, rest⟩ := r
          rw [hd] at hall
          obtain ⟨x, hx, rfl⟩ := h.of_decode hd
          have hrest : rest.length < fuel := by
            have hpos := List.length_pos_iff.mpr (h.ne_nil hx)
            rw [List.length_append] at hfuel
            omega
          cases hvs : decodeAll decode fuel rest with
          | error e =>
            simp only [hvs] at hall
            cases hall
          | ok ws =>
            simp only [hvs] at hall
            obtain rfl := Except.ok.inj hall
            exact .cons hx (ih hrest hvs)
  · intro hframed
    induction hframed generalizing fuel with
    | nil =>
      cases fuel with
      | zero => omega
      | succ fuel => rfl
    | @cons v x vs s hx _ ih =>
      obtain ⟨fuel, rfl⟩ : ∃ k, fuel = k + 1 := ⟨fuel - 1, by omega⟩
      have hne : x ++ s ≠ [] := List.append_ne_nil_of_left_ne_nil (h.ne_nil hx) s
      have hlength : s.length < fuel := by
        have hpos := List.length_pos_iff.mpr (h.ne_nil hx)
        rw [List.length_append] at hfuel
        omega
      rw [decodeAll_of_ne_nil fuel hne, h.decode_append hx s]
      dsimp only
      rw [ih hlength]

theorem Framed.of_prefix (h : Delimits Frame decode) {vs ws : List β} {s p t : List α}
    (hp : Framed Frame ws p) (hs : Framed Frame vs s) (hst : s = p ++ t) :
    ∃ us, vs = ws ++ us ∧ Framed Frame us t := by
  induction hp generalizing vs s with
  | nil => exact ⟨vs, rfl, by rwa [hst] at hs⟩
  | @cons w y ws p hy _ ih =>
    cases hs with
    | nil =>
      have hnil : y = [] := by
        rw [List.append_assoc] at hst
        exact (List.append_eq_nil_iff.mp hst.symm).1
      exact absurd hnil (h.ne_nil hy)
    | @cons v x vs s hx hs =>
      have hdecode := h.decode_append hx s
      rw [hst, List.append_assoc, h.decode_append hy (p ++ t)] at hdecode
      obtain ⟨rfl, hrest⟩ := Prod.mk.inj (Except.ok.inj hdecode)
      obtain ⟨us, rfl, hus⟩ := ih hs hrest.symm
      exact ⟨us, rfl, hus⟩

theorem Framed.eq_nil (h : Delimits Frame decode) {vs : List β} {s : List α} (hs : Framed Frame vs s)
    (hnil : s = []) : vs = [] := by
  cases hs with
  | nil => rfl
  | cons hx _ => exact absurd (List.append_eq_nil_iff.mp hnil).1 (h.ne_nil hx)

theorem framed_flatMap {γ : Type} {f : γ → β} {g : γ → List α} {xs : List γ}
    (h : ∀ x ∈ xs, Frame (f x) (g x)) : Framed Frame (xs.map f) (xs.flatMap g) := by
  induction xs with
  | nil => exact .nil
  | cons x xs ih => exact .cons (h x (by simp)) (ih (fun y hy ↦ h y (by simp [hy])))

theorem Framed.eq_of_prefix (h : Delimits Frame decode) {vs : List β} {p p' t t' : List α}
    (hp : Framed Frame vs p) (hp' : Framed Frame vs p') (hs : p ++ t = p' ++ t') : p = p' := by
  induction hp generalizing p' with
  | nil =>
    cases hp' with
    | nil => rfl
  | @cons v x vs p hx _ ih =>
    cases hp' with
    | @cons _ x' _ p' hx' hp' =>
      have hdecode := h.decode_append hx (p ++ t)
      rw [← List.append_assoc, hs, List.append_assoc, h.decode_append hx' (p' ++ t')] at hdecode
      obtain ⟨-, hrest⟩ := Prod.mk.inj (Except.ok.inj hdecode)
      rw [List.append_assoc, List.append_assoc, hrest] at hs
      rw [List.append_cancel_right hs, ih hp' hrest.symm]

theorem exists_framed_take {γ : Type} {g : γ → List α} {xs : List γ} (h : ∀ x ∈ xs, ∃ v, Frame v (g x)) :
    ∃ vs : List β, vs.length = xs.length ∧
      ∀ k, Framed Frame (vs.take k) ((xs.take k).flatMap g) ∧
        Framed Frame (vs.drop k) ((xs.drop k).flatMap g) := by
  induction xs with
  | nil => exact ⟨[], rfl, fun k ↦ by rw [List.take_nil, List.drop_nil, List.take_nil, List.drop_nil]; exact ⟨.nil, .nil⟩⟩
  | cons x xs ih =>
    obtain ⟨v, hv⟩ := h x (by simp)
    obtain ⟨vs, hlength, hcut⟩ := ih (fun y hy ↦ h y (by simp [hy]))
    refine ⟨v :: vs, by rw [List.length_cons, List.length_cons, hlength], fun k ↦ ?_⟩
    cases k with
    | zero => exact ⟨.nil, .cons hv (hcut 0).2⟩
    | succ k => exact ⟨.cons hv (hcut k).1, (hcut k).2⟩

section Output

variable {γ : Type} {P : γ → β → Prop} {g : γ → List α × Bool} {xs : List γ} {vs : List β} {p : List α}

/-- Frames that begin an output are those of its first pieces, if a whole piece agrees with no
frame but its own and one that breaks off has no frame in it. -/
theorem Framed.forall₂_of_prefix (h : Delimits Frame decode) (hne : ∀ x ∈ xs, (g x).1 ≠ [])
    (hwhole : ∀ x ∈ xs, (g x).2 = true → ∀ v y s t, Frame v y → y ++ s = (g x).1 ++ t → P x v ∧ s = t)
    (hbroken : ∀ x ∈ xs, (g x).2 = false → ∀ v y s, Frame v y → y ++ s ≠ (g x).1)
    (hp : Framed Frame vs p) (hpre : p <+: (Program.loopOutput g xs).1) :
    ∃ ys, ys <+: xs ∧ List.Forall₂ P ys vs ∧
      (p = (Program.loopOutput g xs).1 → (Program.loopOutput g xs).2 = true → ys = xs) := by
  induction xs generalizing vs p with
  | nil => exact ⟨[], List.nil_prefix, hp.eq_nil h (List.prefix_nil.mp hpre) ▸ .nil, fun _ _ ↦ rfl⟩
  | cons x xs ih =>
    obtain ⟨t, ht⟩ := hpre
    rw [Program.loopOutput] at ht ⊢
    cases hp with
    | nil =>
      refine ⟨[], List.nil_prefix, .nil, fun hall _ ↦ ?_⟩
      have hx := hne x (by simp)
      split at hall
      · exact absurd (List.append_eq_nil_iff.mp hall.symm).1 hx
      · exact absurd hall.symm hx
    | @cons v y vs s hy hs =>
      rw [List.append_assoc] at ht
      by_cases hx : (g x).2 = true
      · rw [if_pos hx] at ht ⊢
        obtain ⟨hP, hrest⟩ := hwhole x (by simp) hx v y _ _ hy ht
        obtain ⟨ys, hys, hall, hend⟩ := ih (fun z hz ↦ hne z (by simp [hz])) (fun z hz ↦ hwhole z (by simp [hz]))
          (fun z hz ↦ hbroken z (by simp [hz])) hs ⟨t, hrest⟩
        refine ⟨x :: ys, List.cons_prefix_cons.mpr ⟨rfl, hys⟩, .cons hP hall, fun heq hflag ↦ ?_⟩
        rw [hend (hwhole x (by simp) hx v y _ _ hy heq).2 hflag]
      · rw [if_neg hx] at ht
        exact absurd ht (hbroken x (by simp) (by simpa using hx) v y _ hy)

end Output

end Ringdrop.Library
