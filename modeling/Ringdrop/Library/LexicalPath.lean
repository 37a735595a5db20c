import Mathlib.Data.List.DropRight

namespace Ringdrop.Library.LexicalPath

variable {α : Type} [DecidableEq α] (sep dot : α)

def isAbsolute (p : List α) : Bool := p.head? == some sep

/-- An absolute right-hand side replaces the left one; otherwise one separator is
put between the two texts unless there already is one. -/
def join (p q : List α) : List α :=
  if isAbsolute sep q then q
  else if p = [] ∨ p.getLast? = some sep then p ++ q
  else p ++ sep :: q

/-- Empty pieces and `.` name nothing. -/
def significant (c : List α) : Bool := !(c == [] || c == [dot])

def components (p : List α) : List (List α) := (p.splitOn sep).filter (significant dot)

/-- Follow components downwards, `..` going back up and stopping at the root. -/
def descend (base : List (List α)) : List (List α) → List (List α)
  | [] => base
  | c :: cs => if c = [dot, dot] then descend base.dropLast cs else descend (base ++ [c]) cs

def resolve (cwd : List (List α)) (p : List α) : List (List α) :=
  descend dot (if isAbsolute sep p then [] else cwd) (components sep dot p)

/-- Cancel each `..` against the component before it: what is left is a number of
upward steps followed by plain components. -/
def cancelFrom (k : ℕ) (rest : List (List α)) : List (List α) → ℕ × List (List α)
  | [] => (k, rest)
  | c :: cs =>
    if c = [dot, dot] then
      if rest = [] then cancelFrom (k + 1) [] cs else cancelFrom k rest.dropLast cs
    else cancelFrom k (rest ++ [c]) cs

def cancel (cs : List (List α)) : ℕ × List (List α) := cancelFrom dot 0 [] cs

/-- Seen from inside `dir`, the path text leads into `dir`: after cancellation it
climbs and comes back through the same components, or it does not climb at all. -/
def Stays (dir : List (List α)) (p : List α) : Prop :=
  if isAbsolute sep p then dir <+: (cancel dot (components sep dot p)).2
  else dir.drop (dir.length - (cancel dot (components sep dot p)).1) <+:
    (cancel dot (components sep dot p)).2

def StaysBelow (dir : List (List α)) (p : List α) : Prop :=
  Stays sep dot dir p ∧
    if isAbsolute sep p then (cancel dot (components sep dot p)).2 ≠ dir
    else (cancel dot (components sep dot p)).2 ≠
      dir.drop (dir.length - (cancel dot (components sep dot p)).1)

instance (dir : List (List α)) (p : List α) : Decidable (Stays sep dot dir p) := by
  unfold Stays
  infer_instance

instance (dir : List (List α)) (p : List α) : Decidable (StaysBelow sep dot dir p) := by
  unfold StaysBelow
  infer_instance

variable {sep dot}

theorem splitOn_nil_filter : (([] : List α).splitOn sep).filter (significant dot) = [] := by
  simp [significant]

theorem components_append_sep (p q : List α) :
    components sep dot (p ++ sep :: q) = components sep dot p ++ components sep dot q := by
  simp only [components, List.splitOn_append_cons_self, List.filter_append]

theorem components_concat_sep (p : List α) : components sep dot (p ++ [sep]) = components sep dot p := by
  have h : components sep dot (p ++ sep :: []) = _ := components_append_sep p []
  rwa [show components sep dot ([] : List α) = [] from splitOn_nil_filter, List.append_nil] at h

theorem components_join (p q : List α) :
    components sep dot (join sep p q) =
      if isAbsolute sep q then components sep dot q
      else components sep dot p ++ components sep dot q := by
  unfold join
  split
  · rfl
  · split
    next h =>
      rcases h with rfl | h
      · simp only [List.nil_append]
        rw [show components sep dot ([] : List α) = [] from splitOn_nil_filter, List.nil_append]
      · obtain ⟨p', rfl⟩ : ∃ p', p = p' ++ [sep] := by
          rw [List.getLast?_eq_some_iff] at h
          exact h
        rw [List.append_assoc, List.singleton_append, components_append_sep, components_concat_sep]
    next => exact components_append_sep p q

theorem isAbsolute_join (p q : List α) :
    isAbsolute sep (join sep p q) = (isAbsolute sep p || isAbsolute sep q) := by
  unfold join
  split
  next h => simp [h]
  next h =>
    cases p with
    | nil => simp [isAbsolute] at h ⊢
    | cons c p => split <;> simp [isAbsolute] at h ⊢ <;> simp [h]

theorem descend_append (base cs ds : List (List α)) :
    descend dot base (cs ++ ds) = descend dot (descend dot base cs) ds := by
  induction cs generalizing base with
  | nil => rfl
  | cons c cs ih =>
    simp only [List.cons_append, descend]
    split
    · exact ih _
    · exact ih _

/-- Joining resolves to following the right-hand side from the left-hand side. -/
theorem resolve_join (cwd : List (List α)) (p q : List α) :
    resolve sep dot cwd (join sep p q) =
      if isAbsolute sep q then resolve sep dot cwd q
      else descend dot (resolve sep dot cwd p) (components sep dot q) := by
  unfold resolve
  rw [components_join, isAbsolute_join]
  by_cases hq : isAbsolute sep q
  · simp only [hq, Bool.or_true, if_true]
  · simp only [hq, Bool.or_false, Bool.false_eq_true, if_false, descend_append]

theorem rdrop_dropLast {β : Type} (l : List β) (k : ℕ) : (l.rdrop k).dropLast = l.rdrop (k + 1) := by
  simp only [List.rdrop, List.dropLast_eq_take, List.length_take, List.take_take]
  congr 1
  omega

theorem descend_cancelFrom (base rest : List (List α)) (k : ℕ) (cs : List (List α)) :
    descend dot (base.rdrop k ++ rest) cs =
      base.rdrop (cancelFrom dot k rest cs).1 ++ (cancelFrom dot k rest cs).2 := by
  induction cs generalizing k rest with
  | nil => rfl
  | cons c cs ih =>
    simp only [descend, cancelFrom]
    split
    · split
      next h =>
        subst h
        rw [List.append_nil, rdrop_dropLast, ← ih, List.append_nil]
      next h => rw [List.dropLast_append_of_ne_nil h, ih]
    · rw [List.append_assoc, ih]

/-- Cancelling first and climbing afterwards is the same as following the text. -/
theorem descend_eq_cancel (base cs : List (List α)) :
    descend dot base cs = base.rdrop (cancel dot cs).1 ++ (cancel dot cs).2 := by
  simpa only [List.rdrop_zero, List.append_nil, cancel] using descend_cancelFrom base [] 0 cs

theorem prefix_rdrop_append {β : Type} (l rest : List β) (k : ℕ) :
    l <+: l.rdrop k ++ rest ↔ l.drop (l.length - k) <+: rest := by
  have hs := List.take_append_drop (l.length - k) l
  calc l <+: l.rdrop k ++ rest
      ↔ l.take (l.length - k) ++ l.drop (l.length - k) <+: l.take (l.length - k) ++ rest := by
        rw [hs, List.rdrop]
    _ ↔ l.drop (l.length - k) <+: rest := List.prefix_append_right_inj _

theorem rdrop_append_eq_self {β : Type} (l rest : List β) (k : ℕ) :
    l.rdrop k ++ rest = l ↔ rest = l.drop (l.length - k) := by
  have hs := List.take_append_drop (l.length - k) l
  calc l.rdrop k ++ rest = l
      ↔ l.take (l.length - k) ++ rest = l.take (l.length - k) ++ l.drop (l.length - k) := by
        rw [hs, List.rdrop]
    _ ↔ rest = l.drop (l.length - k) := List.append_right_inj _

theorem resolve_join_eq (cwd : List (List α)) (dir q : List α) :
    resolve sep dot cwd (join sep dir q) =
      if isAbsolute sep q then (cancel dot (components sep dot q)).2
      else (resolve sep dot cwd dir).rdrop (cancel dot (components sep dot q)).1 ++
        (cancel dot (components sep dot q)).2 := by
  rw [resolve_join]
  split
  next h =>
    simp only [resolve, h, if_true, descend_eq_cancel]
    simp [List.rdrop]
  next => exact descend_eq_cancel _ _

/-- The joined path lies inside the directory exactly when the right-hand side stays. -/
theorem prefix_resolve_join (cwd : List (List α)) (dir q : List α) :
    resolve sep dot cwd dir <+: resolve sep dot cwd (join sep dir q) ↔
      Stays sep dot (resolve sep dot cwd dir) q := by
  rw [resolve_join_eq]
  unfold Stays
  split
  · rfl
  · exact prefix_rdrop_append _ _ _

theorem strict_prefix_resolve_join (cwd : List (List α)) (dir q : List α) :
    (resolve sep dot cwd dir <+: resolve sep dot cwd (join sep dir q) ∧
      resolve sep dot cwd (join sep dir q) ≠ resolve sep dot cwd dir) ↔
      StaysBelow sep dot (resolve sep dot cwd dir) q := by
  unfold StaysBelow
  rw [prefix_resolve_join, resolve_join_eq]
  refine and_congr_right fun _ ↦ ?_
  split
  · rfl
  · exact not_congr (rdrop_append_eq_self _ _ _)

theorem staysBelow_of_plain {dir : List (List α)} {q : List α} (hsep : sep ∉ q)
    (hq : q ≠ []) (hdot : q ≠ [dot]) (hup : q ≠ [dot, dot]) : StaysBelow sep dot dir q := by
  have hc : components sep dot q = [q] := by
    rw [components, List.splitOn_eq_singleton hsep]
    simp [significant, hq, hdot]
  have ha : isAbsolute sep q = false := by
    cases q with
    | nil => exact absurd rfl hq
    | cons c q =>
      have hne : c ≠ sep := fun h ↦ hsep (by simp [h])
      simpa [isAbsolute] using hne
  simp [StaysBelow, Stays, ha, hc, cancel, cancelFrom, hup]

variable (sep dot) in
structure IsComponent (c : List α) : Prop where
  ne_nil : c ≠ []
  ne_dot : c ≠ [dot]
  sep_not_mem : sep ∉ c

theorem IsComponent.components_eq {c : List α} (h : IsComponent sep dot c) : components sep dot c = [c] := by
  rw [components, List.splitOn_eq_singleton h.sep_not_mem]
  simp [significant, h.ne_nil, h.ne_dot]

theorem IsComponent.isAbsolute_eq {c : List α} (h : IsComponent sep dot c) : isAbsolute sep c = false := by
  cases c with
  | nil => exact absurd rfl h.ne_nil
  | cons x c =>
    have hx : x ≠ sep := fun hx ↦ h.sep_not_mem (by simp [hx])
    simpa [isAbsolute] using hx

theorem sep_not_mem_of_mem_splitOn {p c : List α} (h : c ∈ p.splitOn sep) : sep ∉ c := by
  induction p generalizing c with
  | nil =>
    rw [List.splitOn_nil, List.mem_singleton] at h
    subst h
    exact List.not_mem_nil
  | cons x p ih =>
    rw [List.splitOn_cons_eq_if_modifyHead] at h
    split at h
    · rcases List.mem_cons.mp h with rfl | h
      · exact List.not_mem_nil
      · exact ih h
    · rename_i hx
      cases hp : p.splitOn sep with
      | nil => exact absurd hp (List.splitOn_ne_nil _ _)
      | cons d ds =>
        rw [hp, List.modifyHead_cons] at h
        rcases List.mem_cons.mp h with rfl | h
        · intro hmem
          rcases List.mem_cons.mp hmem with rfl | hmem
          · exact hx (beq_self_eq_true sep)
          · exact ih (by rw [hp]; exact List.mem_cons_self) hmem
        · exact ih (by rw [hp]; exact List.mem_cons_of_mem _ h)

theorem isComponent_of_mem {p c : List α} (h : c ∈ components sep dot p) : IsComponent sep dot c := by
  obtain ⟨hmem, hsig⟩ := List.mem_filter.mp h
  simp only [significant, Bool.not_eq_true', Bool.or_eq_false_iff, beq_eq_false_iff_ne] at hsig
  exact ⟨hsig.1, hsig.2, sep_not_mem_of_mem_splitOn hmem⟩

theorem components_foldl_join (p : List α) {cs : List (List α)} (h : ∀ c ∈ cs, IsComponent sep dot c) :
    components sep dot (cs.foldl (join sep) p) = components sep dot p ++ cs := by
  induction cs generalizing p with
  | nil => simp
  | cons c cs ih =>
    have hc := h c (by simp)
    rw [List.foldl_cons, ih _ fun d hd ↦ h d (by simp [hd]), components_join, hc.isAbsolute_eq,
      hc.components_eq]
    simp

theorem isAbsolute_foldl_join (p : List α) {cs : List (List α)} (h : ∀ c ∈ cs, IsComponent sep dot c) :
    isAbsolute sep (cs.foldl (join sep) p) = isAbsolute sep p := by
  induction cs generalizing p with
  | nil => rfl
  | cons c cs ih =>
    have hc := h c (by simp)
    rw [List.foldl_cons, ih _ fun d hd ↦ h d (by simp [hd]), isAbsolute_join, hc.isAbsolute_eq, Bool.or_false]

theorem join_relative {p q : List α} (hq : isAbsolute sep q = false) :
    join sep p q = if p = [] ∨ p.getLast? = some sep then p ++ q else p ++ sep :: q :=
  if_neg (by simp [hq])

theorem join_join {p q r : List α} (hq : q ≠ []) (hq' : isAbsolute sep q = false)
    (hr : isAbsolute sep r = false) : join sep p (join sep q r) = join sep (join sep p q) r := by
  have hqr : isAbsolute sep (join sep q r) = false := by rw [isAbsolute_join, hq', hr]; rfl
  have hlast : ∀ l : List α, (l ++ q).getLast? = q.getLast? := fun l ↦ List.getLast?_append_of_ne_nil l hq
  have hcons : ∀ l : List α, (l ++ sep :: q).getLast? = q.getLast? := by
    intro l
    rw [show l ++ sep :: q = (l ++ [sep]) ++ q by simp, hlast]
  rw [join_relative hqr, join_relative hr, join_relative hr, join_relative hq']
  split
  · rw [hlast]
    simp [hq, apply_ite (fun l : List α ↦ p ++ l)]
  · rw [hcons]
    simp [hq, apply_ite (fun l : List α ↦ p ++ sep :: l)]

theorem join_foldl_join {p c : List α} {cs : List (List α)} (hc : IsComponent sep dot c)
    (h : ∀ d ∈ cs, IsComponent sep dot d) :
    join sep p (cs.foldl (join sep) c) = cs.foldl (join sep) (join sep p c) := by
  suffices hjoin : ∀ q : List α, q ≠ [] → isAbsolute sep q = false →
      join sep p (cs.foldl (join sep) q) = cs.foldl (join sep) (join sep p q) from
    hjoin c hc.ne_nil hc.isAbsolute_eq
  induction cs with
  | nil => intro q _ _; rfl
  | cons d cs ih =>
    intro q hq hq'
    have hd := h d (by simp)
    have hne : join sep q d ≠ [] := by
      rw [join_relative hd.isAbsolute_eq]
      split <;> simp [hq]
    have habs : isAbsolute sep (join sep q d) = false := by rw [isAbsolute_join, hq', hd.isAbsolute_eq]; rfl
    rw [List.foldl_cons, List.foldl_cons, ih (fun e he ↦ h e (by simp [he])) _ hne habs,
      join_join hq hq' hd.isAbsolute_eq]

theorem head?_splitOn_join {p c : List α} (hp : p ≠ []) (hc : IsComponent sep dot c) :
    ((join sep p c).splitOn sep).head? = (p.splitOn sep).head? := by
  rw [join_relative hc.isAbsolute_eq]
  split
  next h =>
    obtain ⟨p', rfl⟩ : ∃ p', p = p' ++ [sep] := List.getLast?_eq_some_iff.mp (h.resolve_left hp)
    rw [List.append_assoc, List.singleton_append, List.splitOn_append_cons_self,
      show p' ++ [sep] = p' ++ sep :: [] from rfl, List.splitOn_append_cons_self,
      List.head?_append_of_ne_nil _ (List.splitOn_ne_nil _ _),
      List.head?_append_of_ne_nil _ (List.splitOn_ne_nil _ _)]
  next =>
    rw [List.splitOn_append_cons_self, List.head?_append_of_ne_nil _ (List.splitOn_ne_nil _ _)]

end Ringdrop.Library.LexicalPath
