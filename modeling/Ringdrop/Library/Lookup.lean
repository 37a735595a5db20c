import Mathlib.Data.List.Basic
import Mathlib.Data.Option.Basic

namespace Ringdrop.Library.Lookup

variable {L N : Type} {f g : L → N → Option L}

theorem foldlM_append {xs ys : List N} {l : L} :
    (xs ++ ys).foldlM f l = (xs.foldlM f l).bind fun m ↦ ys.foldlM f m := List.foldlM_append

theorem foldlM_cons {x : N} {xs : List N} {l : L} :
    (x :: xs).foldlM f l = (f l x).bind fun m ↦ xs.foldlM f m := List.foldlM_cons

/-- A lookup that gets through gets where steps that never fail lead. -/
theorem foldl_of_foldlM {land : L → N → L} (h : ∀ l x m, f l x = some m → land l x = m) {xs : List N} {l m : L}
    (hxs : xs.foldlM f l = some m) : xs.foldl land l = m := by
  induction xs generalizing l with
  | nil => exact Option.some.inj hxs
  | cons x xs ih =>
    rw [foldlM_cons] at hxs
    obtain ⟨k, hk, hrest⟩ := Option.bind_eq_some_iff.mp hxs
    rw [List.foldl_cons, h l x k hk]
    exact ih hrest

theorem foldlM_mono (h : ∀ l x m, f l x = some m → g l x = some m) {xs : List N} {l m : L}
    (hxs : xs.foldlM f l = some m) : xs.foldlM g l = some m := by
  induction xs generalizing l with
  | nil => exact hxs
  | cons x xs ih =>
    rw [foldlM_cons] at hxs ⊢
    obtain ⟨k, hk, hrest⟩ := Option.bind_eq_some_iff.mp hxs
    rw [h l x k hk, Option.bind_some]
    exact ih hrest

variable (f) in
def progress (l : L) : List N → L × List N
  | [] => (l, [])
  | x :: xs =>
    match f l x with
    | some m => progress m xs
    | none => (l, x :: xs)

theorem progress_append {xs : List N} {l m : L} (h : xs.foldlM f l = some m) (ys : List N) :
    progress f l (xs ++ ys) = progress f m ys := by
  induction xs generalizing l with
  | nil => rw [Option.some.inj h, List.nil_append]
  | cons x xs ih =>
    rw [foldlM_cons] at h
    obtain ⟨k, hk, hrest⟩ := Option.bind_eq_some_iff.mp h
    rw [List.cons_append, progress, hk]
    exact ih hrest

theorem exists_progress (l : L) (xs : List N) : ∃ front, xs = front ++ (progress f l xs).2 ∧
    front.foldlM f l = some (progress f l xs).1 := by
  induction xs generalizing l with
  | nil => exact ⟨[], rfl, rfl⟩
  | cons x xs ih =>
    unfold progress
    cases hstep : f l x with
    | none => exact ⟨[], rfl, rfl⟩
    | some m =>
      obtain ⟨front, hfront, hfold⟩ := ih m
      refine ⟨x :: front, congrArg (x :: ·) hfront, ?_⟩
      rw [foldlM_cons, hstep, Option.bind_some, hfold]

/-- More names are looked up from where the first ones have led. -/
theorem progress_append_eq {l : L} {xs ys : List N} :
    progress f l (xs ++ ys) = progress f (progress f l xs).1 ((progress f l xs).2 ++ ys) := by
  obtain ⟨front, hfront, hfold⟩ := exists_progress (f := f) l xs
  rw [← progress_append hfold, ← List.append_assoc, ← hfront]

/-- Two lookups of the same names come to the same exactly when some of the names lead
both to the same place. -/
theorem progress_eq_iff {l l' : L} {xs : List N} : progress f l xs = progress f l' xs ↔
    ∃ front back, xs = front ++ back ∧ ∃ m, front.foldlM f l = some m ∧ front.foldlM f l' = some m := by
  constructor
  · intro h
    obtain ⟨front, hfront, hfold⟩ := exists_progress (f := f) l xs
    obtain ⟨front', hfront', hfold'⟩ := exists_progress (f := f) l' xs
    rw [← h] at hfront' hfold'
    obtain rfl : front = front' := List.append_cancel_right (hfront.symm.trans hfront')
    exact ⟨front, _, hfront, _, hfold, hfold'⟩
  · rintro ⟨front, back, rfl, m, hl, hl'⟩
    rw [progress_append hl, progress_append hl']

end Ringdrop.Library.Lookup
