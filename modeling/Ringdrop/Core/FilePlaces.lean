import Ringdrop.Core.FileSystem
import Ringdrop.Library.Lookup
import Mathlib.Data.List.Infix

namespace Ringdrop

open Std Library

namespace Path

/-- What the file system allows as the name of a file or directory. -/
structure IsName (c : Bytes) : Prop extends LexicalPath.IsComponent slash period c where
  ne_parent : c ≠ [period, period]

def below (p : Path) (rel : List Bytes) : Path := rel.foldl join p

variable {p q cwd : Path} {rel : List Bytes} {c : Bytes}

theorem isComponent_of_isName (h : ∀ c ∈ rel, IsName c) :
    ∀ c ∈ rel, LexicalPath.IsComponent slash period c := fun c hc ↦ (h c hc).toIsComponent

theorem components_below (h : ∀ c ∈ rel, IsName c) : (p.below rel).components = p.components ++ rel :=
  LexicalPath.components_foldl_join p (isComponent_of_isName h)

theorem isAbsolute_below (h : ∀ c ∈ rel, IsName c) : (p.below rel).isAbsolute = p.isAbsolute :=
  LexicalPath.isAbsolute_foldl_join p (isComponent_of_isName h)

theorem trailing_cases (p : Path) : p.trailing = none ∨ p.trailing = some [] ∨ p.trailing = some [period] := by
  unfold trailing
  split
  · exact .inl rfl
  · split
    · exact .inr (.inr rfl)
    · exact .inr (.inl rfl)

theorem trailing_eq_none {front : List Bytes} (h : p.splitOn slash = front ++ [c])
    (hc : LexicalPath.IsComponent slash period c) : p.trailing = none := by
  have hsignificant : LexicalPath.significant period c = true := by
    simp [LexicalPath.significant, hc.ne_nil, hc.ne_dot]
  rw [trailing, h, List.reverse_concat, List.takeWhile_cons_of_neg (by simp [hsignificant])]

theorem mem_steps (h : c ∈ p.steps) : c = [] ∨ c = [period] ∨ LexicalPath.IsComponent slash period c := by
  rcases List.mem_append.mp h with h | h
  · exact .inr (.inr (LexicalPath.isComponent_of_mem h))
  · rcases trailing_cases p with hp | hp | hp
    · rw [hp] at h
      cases h
    · rw [hp] at h
      exact .inl (List.mem_singleton.mp h)
    · rw [hp] at h
      exact .inr (.inl (List.mem_singleton.mp h))

theorem mem_created (h : c ∈ p.created) : LexicalPath.IsComponent slash period c := by
  apply LexicalPath.isComponent_of_mem
  unfold created at h
  split at h
  · exact (List.dropLast_sublist _).subset h
  · exact h

theorem created_of_steps (h : p.steps = p.components) : p.created = p.components := by
  rcases trailing_cases p with hp | hp | hp
  · rw [created, hp, if_neg (by simp)]
  · rw [created, hp, if_neg (by simp)]
  · rw [steps, hp] at h
    simpa using congrArg List.length h

theorem steps_join (hc : LexicalPath.IsComponent slash period c) : (p.join c).steps = p.components ++ [c] := by
  obtain ⟨front, hfront⟩ : ∃ front, (p.join c).splitOn slash = front ++ [c] := by
    have hsplit := List.splitOn_eq_singleton hc.sep_not_mem
    have happend : ∀ p' : Path, (p' ++ slash :: c).splitOn slash = p'.splitOn slash ++ [c] := by
      intro p'
      rw [List.splitOn_append_cons_self, hsplit]
    rw [join, LexicalPath.join_relative hc.isAbsolute_eq]
    split
    · rename_i h
      rcases h with rfl | h
      · exact ⟨[], hsplit⟩
      · obtain ⟨p', rfl⟩ := List.getLast?_eq_some_iff.mp h
        rw [List.append_assoc]
        exact ⟨_, happend p'⟩
    · exact ⟨_, happend p⟩
  have hcomponents : (p.join c).components = p.components ++ [c] := by
    refine (LexicalPath.components_join p c).trans ?_
    rw [hc.isAbsolute_eq, hc.components_eq]
    simp
  rw [steps, trailing_eq_none hfront hc, hcomponents]
  exact List.append_nil _

theorem steps_foldl_join {cs : List Bytes} (hne : cs ≠ []) (h : ∀ c ∈ cs, LexicalPath.IsComponent slash period c) :
    (cs.foldl join p).steps = p.components ++ cs := by
  obtain ⟨cs, c, rfl⟩ := (List.eq_nil_or_concat' cs).resolve_left hne
  have hc := h c (by simp)
  have hcs : ∀ d ∈ cs, LexicalPath.IsComponent slash period d := fun d hd ↦ h d (by simp [hd])
  have hcomponents : (cs.foldl join p).components = p.components ++ cs := LexicalPath.components_foldl_join p hcs
  rw [List.foldl_append, List.foldl_cons, List.foldl_nil, steps_join hc, hcomponents, List.append_assoc]

theorem components_of_slashes : components [slash] = [] ∧ components [slash, slash] = [] := by
  decide

/-- What `absolute` makes of a path: the working directory comes first, and a `.` at the
end is lost. -/
theorem components_absolute (hcwd : cwd.isAbsolute) (h : p.absolute cwd = .ok q) :
    q.isAbsolute ∧ q.components = (if p.isAbsolute then [] else cwd.components) ++ p.components ∧
      (p.components ≠ [] → p.getLast? ≠ some slash → q.steps = q.components) := by
  have hparts : ∀ c ∈ p.components, LexicalPath.IsComponent slash period c :=
    fun c hc ↦ LexicalPath.isComponent_of_mem hc
  unfold absolute at h
  split at h
  · cases h
  · obtain ⟨base, hbase, hq⟩ : ∃ base : Path,
        (base.isAbsolute ∧ base.components = if p.isAbsolute then [] else cwd.components) ∧
        q = if p.getLast? = some slash then join (p.components.foldl join base) []
          else p.components.foldl join base := by
      dsimp only at h
      generalize hbase : (if p.isAbsolute then _ else cwd) = base at h
      refine ⟨base, ?_, (Except.ok.inj h).symm⟩
      subst hbase
      by_cases hp : p.isAbsolute
      · rw [if_pos hp, if_pos hp]
        split
        · exact ⟨rfl, components_of_slashes.2⟩
        · exact ⟨rfl, components_of_slashes.1⟩
      · rw [if_neg hp, if_neg hp]
        exact ⟨hcwd, rfl⟩
    have habs : isAbsolute (p.components.foldl join base) = true :=
      (LexicalPath.isAbsolute_foldl_join base hparts).trans hbase.1
    have hcs : components (p.components.foldl join base) = base.components ++ p.components :=
      LexicalPath.components_foldl_join base hparts
    rw [← hbase.2, hq]
    split
    · refine ⟨(LexicalPath.isAbsolute_join _ _).trans (by rw [show LexicalPath.isAbsolute slash _ = true from habs]; rfl),
        ?_, fun _ hlast ↦ absurd ‹_› hlast⟩
      have hnil : components [] = [] := LexicalPath.splitOn_nil_filter
      refine (LexicalPath.components_join _ _).trans ?_
      rw [show LexicalPath.isAbsolute slash ([] : Path) = false from rfl]
      change (if false = true then _ else components _ ++ components []) = _
      rw [hcs, hnil]
      simp
    · refine ⟨habs, hcs, fun hne _ ↦ ?_⟩
      rw [steps_foldl_join hne hparts, hcs]

theorem below_cons (c : Bytes) : p.below (c :: rel) = (p.join c).below rel := rfl

theorem getLast?_below (hrel : rel ≠ []) (h : ∀ c ∈ rel, IsName c) : (p.below rel).getLast? ≠ some slash := by
  intro hlast
  obtain ⟨p', hp'⟩ := List.getLast?_eq_some_iff.mp hlast
  have hsteps : (p.below rel).steps = p.components ++ rel := steps_foldl_join hrel (isComponent_of_isName h)
  have hmarked : (p.below rel).trailing ≠ none := by
    rw [trailing, hp', show p' ++ [slash] = p' ++ slash :: [] from rfl, List.splitOn_append_cons_self,
      List.splitOn_nil, List.reverse_concat, List.takeWhile_cons_of_pos (by simp [LexicalPath.significant])]
    dsimp only
    split <;> simp
  obtain ⟨c, hc⟩ := Option.ne_none_iff_exists'.mp hmarked
  rw [steps, components_below h, hc] at hsteps
  simpa using congrArg List.length hsteps

theorem join_ne_nil {c : Bytes} (hc : IsName c) : p.join c ≠ [] := by
  intro h
  have hcs := @LexicalPath.components_join UInt8 _ slash period p c
  rw [hc.isAbsolute_eq, hc.components_eq, show LexicalPath.join slash p c = [] from h] at hcs
  simp [LexicalPath.components, LexicalPath.significant] at hcs

theorem parts_below (hp : p ≠ []) (h : ∀ c ∈ rel, IsName c) : (p.below rel).parts = p.parts ++ rel := by
  have hhead : ∀ p : Path, p ≠ [] → ((p.below rel).splitOn slash).head? = (p.splitOn slash).head? := by
    induction rel with
    | nil => intro p _; rfl
    | cons c rel ih =>
      intro p hp
      have hc := h c (by simp)
      rw [below_cons, ih (fun d hd ↦ h d (by simp [hd])) _ (join_ne_nil hc)]
      exact LexicalPath.head?_splitOn_join hp hc.toIsComponent
  have hcomponents : LexicalPath.components slash period (p.below rel) =
      LexicalPath.components slash period p ++ rel := components_below h
  rw [parts, parts, isAbsolute_below h, hhead p hp, hcomponents, List.append_assoc]

theorem stripPrefix_below (hp : p ≠ []) (h : ∀ c ∈ rel, IsName c) :
    (p.below rel).stripPrefix p = some (below [] rel) := by
  rw [stripPrefix, parts_below hp h, if_pos (List.prefix_append _ _), List.drop_left]
  rfl

theorem join_below (hrel : rel ≠ []) (h : ∀ c ∈ rel, IsName c) : p.join (below [] rel) = p.below rel := by
  cases rel with
  | nil => exact absurd rfl hrel
  | cons c rel =>
    have hc := (h c (by simp)).toIsComponent
    have hnil : join [] c = c := by
      rw [join, LexicalPath.join, hc.isAbsolute_eq]
      simp
    rw [below_cons, below_cons, hnil]
    exact LexicalPath.join_foldl_join hc fun d hd ↦ (h d (by simp [hd])).toIsComponent

theorem parent_below (hp : p.isAbsolute) (hrel : rel ≠ []) (h : ∀ c ∈ rel, IsName c) :
    ∃ parent, (p.below rel).parent = some parent ∧ parent.isAbsolute ∧ parent.created = parent.components ∧
      parent.components = p.components ++ rel.dropLast := by
  have hne : p ≠ [] := by
    rintro rfl
    cases hp
  have hparts : (p.below rel).parts = [slash] :: (p.components ++ rel) := by
    rw [parts_below hne h, parts, if_pos hp]
    rfl
  have hlast : p.components ++ rel ≠ [] := by simp [hrel]
  have hcs : ∀ c ∈ (p.components ++ rel).dropLast, LexicalPath.IsComponent slash period c := by
    intro c hc
    rcases List.mem_append.mp ((List.dropLast_sublist _).subset hc) with hc | hc
    · exact LexicalPath.isComponent_of_mem hc
    · exact (h c hc).toIsComponent
  have hcomponents : components (((p.components ++ rel).dropLast).foldl join [slash]) = (p.components ++ rel).dropLast := by
    refine (LexicalPath.components_foldl_join [slash] hcs).trans ?_
    rw [show LexicalPath.components slash period [slash] = [] from components_of_slashes.1, List.nil_append]
  refine ⟨((p.components ++ rel).dropLast).foldl join [slash], ?_, ?_, ?_, ?_⟩
  · rw [parent, hparts, if_neg (by simp [hrel]), List.dropLast_cons_of_ne_nil hlast]
    rfl
  · exact LexicalPath.isAbsolute_foldl_join [slash] hcs
  · by_cases hnil : (p.components ++ rel).dropLast = []
    · rw [hnil]
      decide
    · refine created_of_steps ?_
      rw [steps_foldl_join hnil hcs, hcomponents, components_of_slashes.1, List.nil_append]
  · rw [hcomponents, List.dropLast_append_of_ne_nil hrel]

theorem text_below (h : ∀ c ∈ rel, IsName c) :
    (∃ s, Utf8.toBytes s = below [] rel) ↔ ∀ c ∈ rel, ∃ s, Utf8.toBytes s = c := by
  constructor
  · rintro ⟨s, hs⟩ c hc
    have hcs : c ∈ components (below [] rel) := by
      rw [components_below h]
      exact List.mem_append_right _ hc
    rw [← hs] at hcs
    exact Utf8.exists_toBytes_of_mem_splitOn (by decide) (List.mem_filter.mp hcs).1
  · suffices hbelow : ∀ p : Path, (∃ s, Utf8.toBytes s = p) → (∀ c ∈ rel, ∃ s, Utf8.toBytes s = c) →
        ∃ s, Utf8.toBytes s = p.below rel from hbelow [] ⟨"", rfl⟩
    induction rel with
    | nil => intro p hp _; exact hp
    | cons c rel ih =>
      rintro _ ⟨s, rfl⟩ hrel
      obtain ⟨t, ht⟩ := hrel c (by simp)
      have hjoin : ∃ u, Utf8.toBytes u = join (Utf8.toBytes s) c := by
        rw [join, LexicalPath.join]
        split
        · exact ⟨t, ht⟩
        · split
          · rw [← ht]
            exact Utf8.exists_toBytes_append s t
          · obtain ⟨u, hu⟩ := Utf8.exists_toBytes_append "/" t
            obtain ⟨v, hv⟩ := Utf8.exists_toBytes_append s u
            exact ⟨v, by rw [hv, hu, ht]; rfl⟩
      exact ih (fun d hd ↦ h d (by simp [hd])) _ hjoin fun d hd ↦ hrel d (by simp [hd])

end Path

namespace FileSystem

variable {fs fs' fs'' : FileSystem} {loc next : List Bytes} {c : Bytes} {cs ds : List Bytes} {depth : ℕ}

theorem nodeAt_of_ne (h : loc ≠ []) : fs.nodeAt loc = fs.nodes[loc]? := by
  cases loc with
  | nil => exact absurd rfl h
  | cons c cs => rfl

theorem dirAt_iff : fs.dirAt loc ↔ loc = [] ∨ ∃ r, fs.nodes[loc]? = some (.dir r) := by
  unfold dirAt
  cases loc with
  | nil => simp [nodeAt]
  | cons c cs =>
    rw [show fs.nodeAt (c :: cs) = fs.nodes[c :: cs]? from rfl]
    cases h : fs.nodes[c :: cs]? with
    | none => simp
    | some node => cases node <;> simp

theorem opensAt_iff : fs.opensAt loc ↔ loc = [] ∨ fs.nodes[loc]? = some (.dir true) := by
  rw [opensAt, beq_iff_eq]
  cases loc with
  | nil => simp [nodeAt]
  | cons c cs => simp [nodeAt]

theorem dirAt_of_opensAt (h : fs.opensAt loc) : fs.dirAt loc :=
  dirAt_iff.mpr ((opensAt_iff.mp h).imp_right fun hdir ↦ ⟨true, hdir⟩)

/-- A step under a name: neither empty nor a dot or two. -/
def Named (c : Bytes) : Prop := c ≠ [] ∧ c ≠ [Path.period] ∧ c ≠ [Path.period, Path.period]

theorem named_of_isName (h : Path.IsName c) : Named c := ⟨h.ne_nil, h.ne_dot, h.ne_parent⟩

inductive Steps (fs : FileSystem) : ℕ → List Bytes → Bytes → List Bytes → Prop
  | stay {depth : ℕ} {loc : List Bytes} : fs.dirAt loc → Steps fs depth loc [] loc
  | here {depth : ℕ} {loc : List Bytes} : fs.opensAt loc → Steps fs depth loc [Path.period] loc
  | up {depth : ℕ} {loc : List Bytes} :
      fs.opensAt loc → Steps fs depth loc [Path.period, Path.period] loc.dropLast
  | entry {depth : ℕ} {loc : List Bytes} {c : Bytes} {node : FsNode} : fs.opensAt loc → Named c →
      fs.nodes[loc ++ [c]]? = some node → (∀ target, node ≠ .link target) → Steps fs depth loc c (loc ++ [c])
  | link {depth : ℕ} {loc next : List Bytes} {c : Bytes} {target : Path} : fs.opensAt loc → Named c →
      fs.nodes[loc ++ [c]]? = some (.link target) →
      target.steps.foldlM (fs.step depth) (if target.isAbsolute then [] else loc) = some next →
      Steps fs (depth + 1) loc c next

theorem steps_of_step (h : fs.step depth loc c = some next) : Steps fs depth loc c next := by
  unfold step at h
  split at h
  · rename_i hnil
    split at h
    · rename_i hdir
      obtain rfl := Option.some.inj h
      exact hnil ▸ .stay hdir
    · cases h
  · rename_i hnil
    split at h
    · rename_i hopens
      split at h
      · rename_i hc
        obtain rfl := Option.some.inj h
        exact hc ▸ .here hopens
      · rename_i hc
        split at h
        · rename_i hup
          obtain rfl := Option.some.inj h
          exact hup ▸ .up hopens
        · rename_i hup
          split at h
          · cases h
          · rename_i target hlink
            cases depth with
            | zero => cases h
            | succ depth => exact .link hopens ⟨hnil, hc, hup⟩ hlink h
          · rename_i node hlink hnode
            obtain rfl := Option.some.inj h
            exact .entry hopens ⟨hnil, hc, hup⟩ hnode hlink
    · cases h

theorem step_of_steps (h : Steps fs depth loc c next) : fs.step depth loc c = some next := by
  unfold step
  cases h with
  | stay hdir => rw [if_pos rfl, if_pos hdir]
  | here hopens => rw [if_neg (by decide), if_pos hopens, if_pos rfl]
  | up hopens => rw [if_neg (by decide), if_pos hopens, if_neg (by decide), if_pos rfl]
  | entry hopens hc hnode hlink =>
    rename_i node
    rw [if_neg hc.1, if_pos hopens, if_neg hc.2.1, if_neg hc.2.2, hnode]
    cases node with
    | link target => exact absurd rfl (hlink target)
    | _ => rfl
  | link hopens hc hlink hfold =>
    rw [if_neg hc.1, if_pos hopens, if_neg hc.2.1, if_neg hc.2.2, hlink]
    exact hfold

theorem dirAt_of_step (h : fs.step depth loc c = some next) : fs.dirAt loc := by
  cases steps_of_step h with
  | stay hdir => exact hdir
  | here hopens | up hopens | entry hopens | link hopens => exact dirAt_of_opensAt hopens

theorem landStep_stay (depth : ℕ) (loc : List Bytes) : fs.landStep depth loc [] = loc := by
  unfold landStep
  rw [if_pos (.inl rfl)]

theorem landStep_here (depth : ℕ) (loc : List Bytes) : fs.landStep depth loc [Path.period] = loc := by
  unfold landStep
  rw [if_pos (.inr rfl)]

theorem landStep_up (depth : ℕ) (loc : List Bytes) :
    fs.landStep depth loc [Path.period, Path.period] = loc.dropLast := by
  unfold landStep
  rw [if_neg (by decide), if_pos rfl]

theorem landStep_name (hc : Named c) (hlink : ∀ target, fs.nodes[loc ++ [c]]? ≠ some (.link target)) :
    fs.landStep depth loc c = loc ++ [c] := by
  unfold landStep
  rw [if_neg (not_or.mpr ⟨hc.1, hc.2.1⟩), if_neg hc.2.2]
  split
  · exact absurd ‹_› (hlink _)
  · rfl

theorem landStep_link {target : Path} (hc : Named c) (hlink : fs.nodes[loc ++ [c]]? = some (.link target)) :
    fs.landStep (depth + 1) loc c =
      target.steps.foldl (fs.landStep depth) (if target.isAbsolute then [] else loc) := by
  rw [landStep, if_neg (not_or.mpr ⟨hc.1, hc.2.1⟩), if_neg hc.2.2, hlink]

theorem landStep_of_step (h : fs.step depth loc c = some next) : fs.landStep depth loc c = next := by
  induction depth using Nat.strongRecOn generalizing loc c next with
  | ind depth ih =>
    cases steps_of_step h with
    | stay => exact landStep_stay depth loc
    | here => exact landStep_here depth loc
    | up => exact landStep_up depth loc
    | entry hopens hc hnode hlink =>
      refine landStep_name hc fun target htarget ↦ ?_
      exact hlink target (Option.some.inj (hnode.symm.trans htarget))
    | link hopens hc hlink hfold =>
      rw [landStep_link hc hlink]
      exact Lookup.foldl_of_foldlM (fun _ _ _ ↦ ih _ (Nat.lt_succ_self _)) hfold

/-- The process stays where it is, nothing goes away, directories stay what they are, and
so do links. -/
structure Grows (fs fs' : FileSystem) : Prop where
  cwd : fs'.cwd = fs.cwd
  kept : ∀ loc : List Bytes, (fs.nodes[loc]?).isSome → (fs'.nodes[loc]?).isSome
  dirs : ∀ loc : List Bytes, fs.dirAt loc → fs'.dirAt loc
  opens : ∀ loc : List Bytes, fs.opensAt loc → fs'.opensAt loc
  links : ∀ (loc : List Bytes) (target : Path),
    fs'.nodes[loc]? = some (.link target) ↔ fs.nodes[loc]? = some (.link target)

theorem grows_refl (fs : FileSystem) : fs.Grows fs := 
  ⟨rfl, fun _ h ↦ h, fun _ h ↦ h, fun _ h ↦ h, fun _ _ ↦ Iff.rfl⟩

theorem Grows.trans (h : fs.Grows fs') (h' : fs'.Grows fs'') : fs.Grows fs'' :=
  ⟨h'.cwd.trans h.cwd, fun loc hloc ↦ h'.kept loc (h.kept loc hloc), fun loc hloc ↦ h'.dirs loc (h.dirs loc hloc),
    fun loc hloc ↦ h'.opens loc (h.opens loc hloc), fun loc target ↦ (h'.links loc target).trans (h.links loc target)⟩

theorem Grows.landStep (h : fs.Grows fs') : fs'.landStep depth loc c = fs.landStep depth loc c := by
  induction depth using Nat.strongRecOn generalizing loc c with
  | ind depth ih =>
    by_cases hnil : c = []
    · rw [hnil, landStep_stay, landStep_stay]
    by_cases hdot : c = [Path.period]
    · rw [hdot, landStep_here, landStep_here]
    by_cases hup : c = [Path.period, Path.period]
    · rw [hup, landStep_up, landStep_up]
    have hc : Named c := ⟨hnil, hdot, hup⟩
    by_cases hlink : ∃ target, fs.nodes[loc ++ [c]]? = some (.link target)
    · obtain ⟨target, hlink⟩ := hlink
      have hlink' := (h.links _ target).mpr hlink
      cases depth with
      | zero => rw [FileSystem.landStep, FileSystem.landStep, hlink, hlink']
      | succ depth =>
        have hstep : fs'.landStep depth = fs.landStep depth :=
          funext fun _ ↦ funext fun _ ↦ ih depth (Nat.lt_succ_self depth)
        rw [landStep_link hc hlink, landStep_link hc hlink', hstep]
    · have hlink' : ∀ target, fs'.nodes[loc ++ [c]]? ≠ some (.link target) :=
        fun target htarget ↦ hlink ⟨target, (h.links _ target).mp htarget⟩
      rw [landStep_name hc hlink', landStep_name hc (not_exists.mp hlink)]

theorem Grows.step (h : fs.Grows fs') (hstep : fs.step depth loc c = some next) :
    fs'.step depth loc c = some next := by
  induction depth using Nat.strongRecOn generalizing loc c next with
  | ind depth ih =>
    apply step_of_steps
    cases steps_of_step hstep with
    | stay hdir => exact .stay (h.dirs _ hdir)
    | here hopens => exact .here (h.opens _ hopens)
    | up hopens => exact .up (h.opens _ hopens)
    | entry hopens hc hnode hlink =>
      obtain ⟨node', hnode'⟩ := Option.isSome_iff_exists.mp (h.kept _ (by rw [hnode]; rfl))
      refine .entry (h.opens _ hopens) hc hnode' ?_
      rintro target rfl
      exact hlink target (Option.some.inj (hnode.symm.trans ((h.links _ target).mp hnode')))
    | link hopens hc hlink hfold =>
      exact .link (h.opens _ hopens) hc ((h.links _ _).mpr hlink)
        (Lookup.foldlM_mono (fun _ _ _ ↦ ih _ (Nat.lt_succ_self _)) hfold)

theorem Grows.walk (h : fs.Grows fs') (hwalk : fs.walk loc cs = some next) : fs'.walk loc cs = some next :=
  Lookup.foldlM_mono (fun _ _ _ ↦ h.step) hwalk

theorem Grows.workingDir (h : fs.Grows fs') (cwd : Path) : fs'.workingDir cwd = fs.workingDir cwd := by
  have hstep : fs'.landStep linkDepth = fs.landStep linkDepth := funext fun _ ↦ funext fun _ ↦ h.landStep
  unfold FileSystem.workingDir
  rw [hstep]

theorem Grows.origin (h : fs.Grows fs') (cwd p : Path) : fs'.origin cwd p = fs.origin cwd p := by
  unfold FileSystem.origin
  rw [h.workingDir]

theorem Grows.land (h : fs.Grows fs') (p : Path) : fs'.land p = fs.land p := by
  have hstep : fs'.landStep linkDepth = fs.landStep linkDepth := funext fun _ ↦ funext fun _ ↦ h.landStep
  unfold FileSystem.land
  rw [h.origin, h.cwd, hstep]

theorem land_of_walk (h : fs.walk loc cs = some next) : cs.foldl (fs.landStep linkDepth) loc = next :=
  Lookup.foldl_of_foldlM (fun _ _ _ ↦ landStep_of_step) h

theorem walk_append : fs.walk loc (cs ++ ds) = (fs.walk loc cs).bind fun next ↦ fs.walk next ds :=
  Lookup.foldlM_append

theorem walk_cons : fs.walk loc (c :: cs) = (fs.step linkDepth loc c).bind fun next ↦ fs.walk next cs :=
  Lookup.foldlM_cons

theorem walk_trailing {p : Path} (h : fs.walk loc p.trailing.toList = some next) : next = loc := by
  rcases Path.trailing_cases p with hp | hp | hp
  · rw [hp] at h
    exact (Option.some.inj h).symm
  · rw [hp] at h
    obtain ⟨place, hstep, hrest⟩ := Option.bind_eq_some_iff.mp (walk_cons ▸ h)
    rw [← Option.some.inj hrest, ← landStep_of_step hstep, landStep_stay]
  · rw [hp] at h
    obtain ⟨place, hstep, hrest⟩ := Option.bind_eq_some_iff.mp (walk_cons ▸ h)
    rw [← Option.some.inj hrest, ← landStep_of_step hstep, landStep_here]

theorem walk_components {p : Path} (h : fs.walk loc p.steps = some next) : fs.walk loc p.components = some next := by
  rw [Path.steps, walk_append] at h
  obtain ⟨place, hplace, hlast⟩ := Option.bind_eq_some_iff.mp h
  rw [hplace, walk_trailing hlast]

theorem walk_steps {p : Path} (h : fs.walk loc p.components = some next) (hopens : fs.opensAt next) :
    fs.walk loc p.steps = some next := by
  rw [Path.steps, walk_append, h, Option.bind_some]
  rcases Path.trailing_cases p with hp | hp | hp
  · rw [hp]
    rfl
  · rw [hp, Option.toList_some, walk_cons, step_of_steps (.stay (dirAt_of_opensAt hopens))]
    rfl
  · rw [hp, Option.toList_some, walk_cons, step_of_steps (.here hopens)]
    rfl

theorem foldl_steps (p : Path) : p.steps.foldl (fs.landStep depth) loc = p.components.foldl (fs.landStep depth) loc := by
  rw [Path.steps, List.foldl_append]
  rcases Path.trailing_cases p with hp | hp | hp
  · rw [hp]
    rfl
  · rw [hp]
    exact landStep_stay depth _
  · rw [hp]
    exact landStep_here depth _

theorem land_of_place {p : Path} (h : fs.place p = some loc) : fs.land p = loc := by
  unfold place at h
  split at h
  · cases h
  · exact land_of_walk (walk_components h)

theorem land_join (p q : Path) : fs.land (p.join q) =
    if q.isAbsolute then fs.land q else q.components.foldl (fs.landStep linkDepth) (fs.land p) := by
  have hcs : (p.join q).components = if q.isAbsolute then q.components else p.components ++ q.components :=
    LexicalPath.components_join p q
  have hjoin : (p.join q).isAbsolute = (p.isAbsolute || q.isAbsolute) := LexicalPath.isAbsolute_join p q
  unfold land origin
  rw [hcs, hjoin]
  by_cases hq : q.isAbsolute
  · simp [hq]
  · simp [hq]

theorem land_join_names {p q : Path} (habs : q.isAbsolute = false) (hnames : ∀ c ∈ q.components, Path.IsName c)
    (hlink : ∀ (rel : List Bytes) (target : Path), fs.nodes[fs.land p ++ rel]? ≠ some (.link target)) :
    fs.land (p.join q) = fs.land p ++ q.components := by
  have hfold : ∀ cs loc, (∀ c ∈ cs, Path.IsName c) → (∃ rel, loc = fs.land p ++ rel) →
      cs.foldl (fs.landStep linkDepth) loc = loc ++ cs := by
    intro cs
    induction cs with
    | nil => simp
    | cons c cs ih =>
      rintro _ hcs ⟨rel, rfl⟩
      have hc := hcs c (by simp)
      rw [List.foldl_cons, landStep_name (named_of_isName hc) (fun target ↦ by simpa using hlink (rel ++ [c]) target),
        ih _ (fun d hd ↦ hcs d (by simp [hd])) ⟨rel ++ [c], by simp⟩]
      simp
  rw [land_join, habs]
  exact hfold _ _ hnames ⟨[], (List.append_nil _).symm⟩

structure Makes (fs fs' : FileSystem) : Prop where
  cwd : fs'.cwd = fs.cwd
  nodes : ∀ loc : List Bytes, fs'.nodes[loc]? = fs.nodes[loc]? ∨
    fs.nodes[loc]? = none ∧ fs'.nodes[loc]? = some (.dir true)

theorem makes_refl (fs : FileSystem) : fs.Makes fs := ⟨rfl, fun _ ↦ .inl rfl⟩

theorem Makes.trans (h : fs.Makes fs') (h' : fs'.Makes fs'') : fs.Makes fs'' := by
  refine ⟨h'.cwd.trans h.cwd, fun loc ↦ ?_⟩
  rcases h'.nodes loc with heq | ⟨hnone, hdir⟩
  · rw [heq]
    exact h.nodes loc
  · rcases h.nodes loc with heq | ⟨-, hdir'⟩
    · exact .inr ⟨heq ▸ hnone, hdir⟩
    · rw [hnone] at hdir'
      cases hdir'

theorem Makes.file {content : Content} {r : Bool} (h : fs.Makes fs')
    (hfile : fs'.nodes[loc]? = some (.file content r)) : fs.nodes[loc]? = some (.file content r) := by
  rcases h.nodes loc with heq | ⟨-, hdir⟩
  · rw [← heq, hfile]
  · rw [hfile] at hdir
    cases hdir

theorem Makes.grows (h : fs.Makes fs') : fs.Grows fs' := by
  refine ⟨h.cwd, fun loc hloc ↦ ?_, fun loc hloc ↦ ?_, fun loc hloc ↦ ?_, fun loc target ↦ ?_⟩
  · rcases h.nodes loc with heq | ⟨hnone, -⟩
    · rwa [heq]
    · rw [hnone] at hloc
      cases hloc
  · rw [dirAt_iff] at hloc ⊢
    rcases h.nodes loc with heq | ⟨-, hdir⟩
    · rwa [heq]
    · exact .inr ⟨true, hdir⟩
  · rw [opensAt_iff] at hloc ⊢
    rcases h.nodes loc with heq | ⟨-, hdir⟩
    · rwa [heq]
    · exact .inr hdir
  · rcases h.nodes loc with heq | ⟨hnone, hdir⟩
    · rw [heq]
    · rw [hnone, hdir]
      simp

theorem getElem?_insert_node (nodes : ExtTreeMap (List Bytes) FsNode) (loc x : List Bytes) (node : FsNode) :
    (nodes.insert loc node)[x]? = if x = loc then some node else nodes[x]? := by
  rw [ExtTreeMap.getElem?_insert]
  by_cases hx : x = loc
  · subst hx
    simp
  · have hcompare : compare loc x ≠ .eq := fun h ↦ hx (LawfulEqOrd.eq_of_compare h).symm
    rw [if_neg hcompare, if_neg hx]

/-- What entering a directory comes to: it is there, or it is created where nothing was. -/
theorem enterDir_cases (fs : FileSystem) (loc : List Bytes) (c : Bytes) :
    (∃ next, fs.step linkDepth loc c = some next ∧ fs.dirAt next ∧ fs.enterDir loc c = (.ok next, fs)) ∨
    (fs.opensAt loc ∧ Named c ∧ fs.nodes[loc ++ [c]]? = none ∧
      fs.enterDir loc c = (.ok (loc ++ [c]), { fs with nodes := fs.nodes.insert (loc ++ [c]) (.dir true) })) ∨
    ∃ e, fs.enterDir loc c = (.error e, fs) := by
  unfold enterDir
  cases hstep : fs.step linkDepth loc c with
  | some next =>
    by_cases hdir : fs.dirAt next
    · exact .inl ⟨next, rfl, hdir, if_pos hdir⟩
    · exact .inr (.inr ⟨_, if_neg hdir⟩)
  | none =>
    dsimp only
    split
    · rename_i hcond
      obtain ⟨hopens, hnone⟩ := Bool.and_eq_true_iff.mp hcond
      refine .inr (.inl ⟨hopens, ⟨?_, ?_, ?_⟩, Option.isNone_iff_eq_none.mp hnone, rfl⟩)
      · rintro rfl
        rw [step_of_steps (.stay (dirAt_of_opensAt hopens))] at hstep
        cases hstep
      · rintro rfl
        rw [step_of_steps (.here hopens)] at hstep
        cases hstep
      · rintro rfl
        rw [step_of_steps (.up hopens)] at hstep
        cases hstep
    · exact .inr (.inr ⟨_, rfl⟩)

theorem makes_insert (hnone : fs.nodes[loc]? = none) :
    fs.Makes { fs with nodes := fs.nodes.insert loc (.dir true) } := by
  refine ⟨rfl, fun x ↦ ?_⟩
  rw [getElem?_insert_node]
  split
  · rename_i hx
    exact .inr ⟨hx ▸ hnone, rfl⟩
  · exact .inl rfl

theorem makeDirs_cons : fs.makeDirs loc (c :: cs) = match fs.enterDir loc c with
    | (.ok next, fs') => fs'.makeDirs next cs
    | (.error e, fs') => (.error e, fs') := rfl

theorem makes_makeDirs (fs : FileSystem) (loc cs : List Bytes) : fs.Makes (fs.makeDirs loc cs).2 := by
  induction cs generalizing fs loc with
  | nil => exact makes_refl fs
  | cons c cs ih =>
    rw [makeDirs_cons]
    rcases enterDir_cases fs loc c with ⟨next, -, -, henter⟩ | ⟨-, -, hnone, henter⟩ | ⟨e, henter⟩
    · rw [henter]
      exact ih fs next
    · rw [henter]
      exact (makes_insert hnone).trans (ih _ _)
    · rw [henter]
      exact makes_refl fs

theorem walk_of_makeDirs (hdir : fs.dirAt loc) (h : (fs.makeDirs loc cs).1 = .ok next) :
    (fs.makeDirs loc cs).2.walk loc cs = some next ∧ (fs.makeDirs loc cs).2.dirAt next := by
  induction cs generalizing fs loc with
  | nil =>
    obtain rfl := Except.ok.inj h
    exact ⟨rfl, hdir⟩
  | cons c cs ih =>
    rw [makeDirs_cons] at h ⊢
    rcases enterDir_cases fs loc c with ⟨place, hstep, hplace, henter⟩ | ⟨hopens, hc, hnone, henter⟩ | ⟨e, henter⟩
    · rw [henter] at h ⊢
      obtain ⟨hwalk, hnext⟩ := ih hplace h
      refine ⟨?_, hnext⟩
      rw [walk_cons, (makes_makeDirs fs place cs).grows.step hstep]
      exact hwalk
    · rw [henter] at h ⊢
      dsimp only at h ⊢
      generalize hfs : ({ fs with nodes := fs.nodes.insert (loc ++ [c]) (.dir true) } : FileSystem) = fs₁ at h ⊢
      have hnode : fs₁.nodes[loc ++ [c]]? = some (.dir true) := by
        rw [← hfs]
        exact (getElem?_insert_node ..).trans (if_pos rfl)
      have hgrows : fs.Grows fs₁ := hfs ▸ (makes_insert hnone).grows
      obtain ⟨hwalk, hnext⟩ := ih (dirAt_iff.mpr (.inr ⟨true, hnode⟩)) h
      refine ⟨?_, hnext⟩
      have hstep : fs₁.step linkDepth loc c = some (loc ++ [c]) :=
        step_of_steps (.entry (hgrows.opens loc hopens) hc hnode (by simp))
      rw [walk_cons, (makes_makeDirs fs₁ _ cs).grows.step hstep]
      exact hwalk
    · rw [henter] at h
      cases h

theorem makeDirs_of_walk (h : fs.walk loc cs = some next) (hdir : fs.dirAt next) :
    fs.makeDirs loc cs = (.ok next, fs) := by
  induction cs generalizing loc with
  | nil =>
    obtain rfl := Option.some.inj h
    rfl
  | cons c cs ih =>
    rw [walk_cons] at h
    obtain ⟨place, hstep, hrest⟩ := Option.bind_eq_some_iff.mp h
    have hplace : fs.dirAt place := by
      cases cs with
      | nil => exact (Option.some.inj hrest) ▸ hdir
      | cons d cs =>
        rw [walk_cons] at hrest
        obtain ⟨_, hstep', -⟩ := Option.bind_eq_some_iff.mp hrest
        exact dirAt_of_step hstep'
    have henter : fs.enterDir loc c = (.ok place, fs) := by
      rw [enterDir, hstep]
      exact if_pos hplace
    rw [makeDirs_cons, henter]
    exact ih hrest

theorem makeDirs_append : fs.makeDirs loc (cs ++ ds) = match fs.makeDirs loc cs with
    | (.ok next, fs') => fs'.makeDirs next ds
    | (.error e, fs') => (.error e, fs') := by
  induction cs generalizing fs loc with
  | nil => rfl
  | cons c cs ih =>
    rw [List.cons_append, makeDirs_cons, makeDirs_cons]
    rcases fs.enterDir loc c with ⟨r, fs'⟩
    cases r with
    | ok next => exact ih
    | error e => rfl

/-- Names below a directory can be made directories where nothing else is in the way, and
nothing else is created. -/
theorem makeDirs_names {base rel : List Bytes} (hopens : fs.opensAt base) (hnames : ∀ c ∈ rel, Path.IsName c)
    (hfree : ∀ anc, anc <+: rel → anc ≠ [] → fs.nodes[base ++ anc]? = none ∨ fs.opensAt (base ++ anc)) :
    (fs.makeDirs base rel).1 = .ok (base ++ rel) ∧ (fs.makeDirs base rel).2.opensAt (base ++ rel) ∧
      ∀ loc, (fs.makeDirs base rel).2.nodes[loc]? = fs.nodes[loc]? ∨ ∃ anc, anc <+: rel ∧ loc = base ++ anc := by
  induction rel generalizing fs base with
  | nil =>
    rw [List.append_nil]
    exact ⟨rfl, hopens, fun loc ↦ .inl rfl⟩
  | cons c rel ih =>
    have hc := hnames c (by simp)
    have hrest : ∀ d ∈ rel, Path.IsName d := fun d hd ↦ hnames d (by simp [hd])
    obtain ⟨fs₁, henter, hopens₁, hgrows, hnodes⟩ : ∃ fs₁, fs.enterDir base c = (.ok (base ++ [c]), fs₁) ∧
        fs₁.opensAt (base ++ [c]) ∧ fs.Grows fs₁ ∧ ∀ loc, loc ≠ base ++ [c] → fs₁.nodes[loc]? = fs.nodes[loc]? := by
      rcases hfree [c] ⟨rel, rfl⟩ (by simp) with hnone | hthere
      · have hstep : fs.step linkDepth base c = none := by
          unfold step
          rw [if_neg hc.ne_nil, if_pos hopens, if_neg hc.ne_dot, if_neg hc.ne_parent, hnone]
        refine ⟨_, ?_, ?_, (makes_insert hnone).grows, fun loc hloc ↦ ?_⟩
        · rw [enterDir, hstep]
          exact if_pos (by rw [hopens, hnone]; rfl)
        · exact opensAt_iff.mpr (.inr ((getElem?_insert_node ..).trans (if_pos rfl)))
        · exact (getElem?_insert_node ..).trans (if_neg hloc)
      · have hr := (opensAt_iff.mp hthere).resolve_left (by simp)
        have hstep : fs.step linkDepth base c = some (base ++ [c]) :=
          step_of_steps (.entry hopens (named_of_isName hc) hr (by simp))
        refine ⟨fs, ?_, hthere, grows_refl fs, fun loc _ ↦ rfl⟩
        rw [enterDir, hstep]
        exact if_pos (dirAt_of_opensAt hthere)
    have hfree₁ : ∀ anc, anc <+: rel → anc ≠ [] →
        fs₁.nodes[base ++ [c] ++ anc]? = none ∨ fs₁.opensAt (base ++ [c] ++ anc) := by
      intro anc hanc hne
      rw [hnodes _ (by simpa using hne)]
      rcases hfree (c :: anc) (List.cons_prefix_cons.mpr ⟨rfl, hanc⟩) (by simp) with hnone | hthere
      · exact .inl (by rw [← hnone]; simp)
      · exact .inr (hgrows.opens _ (by rwa [List.append_assoc]))
    obtain ⟨hok, hlast, hothers⟩ := ih hopens₁ hrest hfree₁
    rw [makeDirs_cons, henter]
    rw [List.append_assoc, List.singleton_append] at hok hlast
    refine ⟨hok, hlast, fun loc ↦ ?_⟩
    rcases hothers loc with heq | ⟨anc, hanc, rfl⟩
    · by_cases hloc : loc = base ++ [c]
      · exact .inr ⟨[c], ⟨rel, rfl⟩, hloc⟩
      · exact .inl (heq.trans (hnodes loc hloc))
    · exact .inr ⟨c :: anc, List.cons_prefix_cons.mpr ⟨rfl, hanc⟩, by simp⟩

theorem walk_names {base rel : List Bytes} (hopens : fs.opensAt base) (hnames : ∀ c ∈ rel, Path.IsName c)
    (hdirs : ∀ anc, anc <+: rel → anc ≠ [] → anc ≠ rel → fs.opensAt (base ++ anc))
    (hnode : rel ≠ [] → ∃ node, fs.nodes[base ++ rel]? = some node ∧ ∀ target, node ≠ .link target) :
    fs.walk base rel = some (base ++ rel) := by
  induction rel using List.reverseRecOn with
  | nil => rw [List.append_nil]; rfl
  | append_singleton rel c ih =>
    have hc := hnames c (by simp)
    have hplace : fs.opensAt (base ++ rel) := by
      by_cases hrel : rel = []
      · rwa [hrel, List.append_nil]
      · exact hdirs rel (List.prefix_append _ _) hrel (by simp)
    have hwalk : fs.walk base rel = some (base ++ rel) := by
      refine ih (fun d hd ↦ hnames d (by simp [hd])) (fun anc hanc hne hneq ↦ ?_) fun hrel ↦ ?_
      · refine hdirs anc (hanc.trans (List.prefix_append _ _)) hne ?_
        rintro rfl
        have hlen := hanc.length_le
        rw [List.length_append, List.length_singleton] at hlen
        omega
      · exact ⟨_, (opensAt_iff.mp hplace).resolve_left (by simp [hrel]), by simp⟩
    obtain ⟨node, hnode, hlink⟩ := hnode (by simp)
    rw [← List.append_assoc] at hnode
    have hsteps : Steps fs linkDepth (base ++ rel) c (base ++ rel ++ [c]) :=
      .entry hplace (named_of_isName hc) hnode hlink
    have hstep := step_of_steps hsteps
    rw [walk_append, hwalk, Option.bind_some, walk_cons, hstep, ← List.append_assoc]
    rfl

/-- Where a file is written: where its path leads, under a name, in a directory that is
there, and not in the place of anything but a file. -/
structure Targets (fs : FileSystem) (next : List Bytes) : Prop where
  dir : fs.dirAt next.dropLast
  name : ∃ c, next = next.dropLast ++ [c] ∧ Path.IsName c
  free : fs.nodes[next]? = none ∨ ∃ content r, fs.nodes[next]? = some (.file content r)

theorem targets_concat {dir : List Bytes} (hdir : fs.dirAt dir) (hc : Path.IsName c)
    (hfree : fs.nodes[dir ++ [c]]? = none ∨ ∃ content r, fs.nodes[dir ++ [c]]? = some (.file content r)) :
    fs.Targets (dir ++ [c]) := by
  refine ⟨?_, ⟨c, ?_, hc⟩, hfree⟩
  · rwa [List.dropLast_concat]
  · rw [List.dropLast_concat]

theorem targets_of_fileTarget
    (hcs : ∀ c ∈ cs, c = [] ∨ c = [Path.period] ∨ LexicalPath.IsComponent Path.slash Path.period c)
    (h : fs.fileTarget depth loc cs = some next) : cs.foldl (fs.landStep depth) loc = next ∧ fs.Targets next := by
  induction depth using Nat.strongRecOn generalizing loc cs next with
  | ind depth ih =>
    unfold fileTarget at h
    split at h
    · rename_i c dir hlast hfront
      obtain ⟨front, rfl⟩ := List.getLast?_eq_some_iff.mp hlast
      rw [List.dropLast_concat] at hfront
      split at h
      · rename_i hcond
        simp only [Bool.and_eq_true, decide_eq_true_eq] at hcond
        obtain ⟨⟨⟨hopens, hnil⟩, hdot⟩, hup⟩ := hcond
        have hdir := dirAt_of_opensAt hopens
        have hc : Named c := ⟨hnil, hdot, hup⟩
        have hname : Path.IsName c := ⟨((hcs c (by simp)).resolve_left hnil).resolve_left hdot, hup⟩
        have hland : (front ++ [c]).foldl (fs.landStep depth) loc = fs.landStep depth dir c := by
          rw [List.foldl_append, Lookup.foldl_of_foldlM (fun _ _ _ ↦ landStep_of_step) hfront]
          rfl
        rw [hland]
        split at h
        · rename_i hnone
          obtain rfl := Option.some.inj h
          exact ⟨landStep_name hc (by simp [hnone]), targets_concat hdir hname (.inl hnone)⟩
        · rename_i hfile
          obtain rfl := Option.some.inj h
          exact ⟨landStep_name hc (by simp [hfile]), targets_concat hdir hname (.inr ⟨_, _, hfile⟩)⟩
        · rename_i target hlink
          cases depth with
          | zero => cases h
          | succ depth =>
            rw [landStep_link hc hlink]
            exact ih depth (Nat.lt_succ_self depth) (fun _ ↦ Path.mem_steps) h
        · cases h
      · cases h
    · cases h

theorem fileTarget_names {front : List Bytes} {dir : List Bytes} (hc : Path.IsName c)
    (hwalk : front.foldlM (fs.step depth) loc = some dir) (hopens : fs.opensAt dir)
    (hfree : fs.nodes[dir ++ [c]]? = none ∨ ∃ content r, fs.nodes[dir ++ [c]]? = some (.file content r)) :
    fs.fileTarget depth loc (front ++ [c]) = some (dir ++ [c]) := by
  unfold fileTarget
  rw [List.getLast?_concat, List.dropLast_concat, hwalk]
  dsimp only
  rw [if_pos (by simp [hopens, hc.ne_nil, hc.ne_dot, hc.ne_parent])]
  rcases hfree with hnone | ⟨content, r, hfile⟩
  · rw [hnone]
  · rw [hfile]

structure Writes (fs : FileSystem) (p : Path) (content : Content) (r : Except Error Unit) (fs' : FileSystem) : Prop where
  grows : fs.Grows fs'
  node : r = .ok () → fs'.nodes[fs.land p]? = some (.file content true)
  file : ∀ (loc : List Bytes) (content' : Content) (r' : Bool), fs'.nodes[loc]? = some (.file content' r') →
    loc = fs.land p ∨ fs.nodes[loc]? = some (.file content' r')

theorem makes_createDirAll (fs : FileSystem) (p : Path) : fs.Makes (fs.createDirAll p).2 := by
  have hmakes := makes_makeDirs fs (fs.origin fs.cwd p) p.created
  unfold createDirAll
  split
  · exact makes_refl fs
  · split
    · rename_i hmake
      rw [hmake] at hmakes
      split <;> exact hmakes
    · rename_i hmake
      rwa [hmake] at hmakes

theorem makes_createParents (fs : FileSystem) (p : Path) : fs.Makes (fs.createParents p).2 := by
  unfold createParents
  split
  · exact makes_createDirAll fs _
  · exact makes_refl fs

theorem grows_insert_file {content : Content} (h : fs.Targets loc) :
    fs.Grows { fs with nodes := fs.nodes.insert loc (.file content true) } := by
  have hnode : ∀ x : List Bytes, (fs.nodes.insert loc (.file content true))[x]? =
      if x = loc then some (.file content true) else fs.nodes[x]? :=
    fun x ↦ getElem?_insert_node fs.nodes loc x (.file content true)
  have hkept : ∀ (x : List Bytes) (r : Bool), fs.nodes[x]? = some (.dir r) →
      (fs.nodes.insert loc (.file content true))[x]? = some (.dir r) := by
    intro x r hr
    rw [hnode, if_neg]
    · exact hr
    · rintro rfl
      rcases h.free with hnone | ⟨content', r', hfile⟩
      · rw [hnone] at hr
        cases hr
      · rw [hfile] at hr
        cases hr
  refine ⟨rfl, fun x hx ↦ ?_, fun x hx ↦ ?_, fun x hx ↦ ?_, fun x target ↦ ?_⟩
  · rw [hnode]
    split
    · rfl
    · exact hx
  · rw [dirAt_iff] at hx ⊢
    exact hx.imp_right fun ⟨r, hr⟩ ↦ ⟨r, hkept x r hr⟩
  · rw [opensAt_iff] at hx ⊢
    exact hx.imp_right (hkept x true)
  · rw [hnode]
    split
    · rename_i hx
      subst hx
      rcases h.free with hnone | ⟨content', r', hfile⟩
      · simp [hnone]
      · simp [hfile]
    · exact Iff.rfl

theorem writes_write (fs : FileSystem) (p : Path) (content : Content) :
    fs.Writes p content (fs.write p content).1 (fs.write p content).2 := by
  have hparents := makes_createParents fs p
  unfold write
  generalize fs.createParents p = x at hparents ⊢
  obtain ⟨r, fs₁⟩ := x
  have hgrows := hparents.grows
  have hfailed : ∀ e, fs.Writes p content (.error e) fs₁ := by
    refine fun e ↦ ⟨hgrows, fun h ↦ ?_, fun loc content' r' h ↦ .inr (hparents.file h)⟩
    cases h
  cases r with
  | error e => exact hfailed e
  | ok u =>
    dsimp only
    split
    · rename_i loc htarget
      obtain ⟨hland, htargets⟩ := targets_of_fileTarget (fun _ ↦ Path.mem_steps) htarget
      have hloc : loc = fs.land p := by
        rw [← hgrows.land p, ← hland, foldl_steps]
        rfl
      subst hloc
      refine ⟨hgrows.trans (grows_insert_file htargets), fun _ ↦ ?_, fun x content' r' hx ↦ ?_⟩
      · exact (getElem?_insert_node ..).trans (if_pos rfl)
      · rw [getElem?_insert_node] at hx
        split at hx
        · rename_i heq
          exact .inl heq
        · exact .inr (hparents.file hx)
    · exact hfailed _

end FileSystem

end Ringdrop
