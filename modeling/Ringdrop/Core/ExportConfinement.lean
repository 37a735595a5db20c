import Ringdrop.Core.Rings

namespace Ringdrop.RingReceiver

open Library Program

def exportTarget : Call → Option Path
  | .store (.exportBlob _ target) => some target
  | _ => none

def exportTargets (log : Trace Call.Ans) : List Path := log.filterMap (fun x ↦ exportTarget x.1)

/-- `p` lies inside the directory `dir`, both taken lexically. -/
def Inside (cwd dir p : Path) : Prop := dir.resolve cwd <+: p.resolve cwd

/-- All files written so far lie inside `dir`. -/
def Confined (cwd dir : Path) (x : NodeState × Trace Call.Ans) : Prop :=
  ∀ target ∈ exportTargets x.2, Inside cwd dir target

instance (cwd dir p : Path) : Decidable (Inside cwd dir p) := by
  unfold Inside
  infer_instance

instance (cwd dir : Path) (x : NodeState × Trace Call.Ans) : Decidable (Confined cwd dir x) := by
  unfold Confined
  infer_instance

/-- Seen from inside `dir`, a member name leads into `dir`: it does not climb, or it
climbs and comes back the way it went. -/
def Stays (cwd dir : Path) (name : String) : Prop :=
  LexicalPath.Stays Path.slash Path.period (dir.resolve cwd) (Path.ofString name)

instance (cwd dir : Path) (name : String) : Decidable (Stays cwd dir name) := by
  unfold Stays
  infer_instance

theorem inside_join (cwd dir : Path) (name : String) :
    Inside cwd dir (dir.join (Path.ofString name)) ↔ Stays cwd dir name := by
  exact @LexicalPath.prefix_resolve_join UInt8 _ Path.slash Path.period
    (LexicalPath.resolve Path.slash Path.period [] cwd) dir (Path.ofString name)

def exportDir (fs : FileSystem) (hash : Hash) (name : Option String) (dest : Path) :
    Except Error Path :=
  (if fs.isDir dest then dest.join (Path.ofString (name.getD (toString hash))) else dest).absolute
    fs.cwd

section Confinement

variable {cwd dir : Path} {s s' : NodeState} {log : Trace Call.Ans}

theorem exportTargets_append (c : Call) (a : c.Ans) :
    exportTargets (log ++ [⟨c, a⟩]) = exportTargets log ++ (exportTarget c).toList := by
  unfold exportTargets
  rw [List.filterMap_append]
  cases h : exportTarget c <;> simp [h]

theorem confined_append (c : Call) (a : c.Ans) : Confined cwd dir (s', log ++ [⟨c, a⟩]) ↔
    Confined cwd dir (s, log) ∧ ∀ target, exportTarget c = some target → Inside cwd dir target := by
  unfold Confined
  simp only [exportTargets_append, List.mem_append, Option.mem_toList]
  constructor
  · intro h
    exact ⟨fun t ht ↦ h t (.inl ht), fun t ht ↦ h t (.inr ht)⟩
  · rintro ⟨hl, hc⟩ t (ht | ht)
    · exact hl t ht
    · exact hc t ht

theorem confined_step {c : Call} {a : c.Ans} {x y : NodeState × Trace Call.Ans}
    (hc : exportTarget c = none) (h : logged AnyDisk c x a y) (hx : Confined cwd dir x) :
    Confined cwd dir y := by
  obtain ⟨s, log⟩ := x
  obtain ⟨s', log'⟩ := y
  obtain rfl : log' = log ++ [⟨c, a⟩] := h.2
  exact (confined_append (s := s) c a).mpr ⟨hx, by simp [hc]⟩

theorem confined_exportBlob {hash : Hash} {target : Path} {x y : NodeState × Trace Call.Ans}
    {a : Except Error Unit} (h : logged AnyDisk (.store (.exportBlob hash target)) x a y)
    (ht : Inside cwd dir target) (hx : Confined cwd dir x) : Confined cwd dir y := by
  obtain ⟨s, log⟩ := x
  obtain ⟨s', log'⟩ := y
  obtain rfl : log' = log ++ [⟨.store (.exportBlob hash target), a⟩] := h.2
  refine (confined_append (s := s) _ _).mpr ⟨hx, ?_⟩
  rintro t ⟨⟩
  exact ht

theorem outcome_both {α σ : Type} {P : σ → Prop} {r : Except Error α} {x : σ} (h : P x) :
    Outcome (fun _ ↦ P) (fun _ ↦ P) r x := by
  cases r <;> exact h

theorem wp_createParent {target : Path} {x : NodeState × Trace Call.Ans} (hx : Confined cwd dir x) :
    (createParent target).wp (logged AnyDisk) (fun _ ↦ Confined cwd dir) (fun _ ↦ Confined cwd dir)
      x := by
  unfold createParent
  split
  · rw [wp_fs]
    exact fun a y ha ↦ outcome_both (confined_step rfl ha hx)
  · exact hx

theorem wp_exportMember {m : String × Hash} {x : NodeState × Trace Call.Ans}
    (hm : Stays cwd dir m.1) (hx : Confined cwd dir x) :
    (exportMember dir m).wp (logged AnyDisk) (fun _ ↦ Confined cwd dir) (fun _ ↦ Confined cwd dir)
      x := by
  unfold exportMember
  rw [wp_bind]
  refine wp_mono (wp_createParent hx) (fun _ y hy ↦ ?_) (fun _ _ hz ↦ hz)
  rw [wp_context, wp_store]
  exact fun a z ha ↦ outcome_both (confined_exportBlob ha ((inside_join cwd dir m.1).mpr hm) hy)

theorem exists_of_wp_createParent {target : Path} {Q : Unit → NodeState × Trace Call.Ans → Prop}
    {Z : Error → NodeState × Trace Call.Ans → Prop} {x : NodeState × Trace Call.Ans}
    (h : (createParent target).wp (logged AnyDisk) Q Z x) : ∃ y, Q () y := by
  obtain ⟨s, log⟩ := x
  unfold createParent at h
  split at h
  next parent hp =>
    rw [wp_fs] at h
    exact ⟨_, h (.ok ()) (_, _) ⟨.created parent s s.fs rfl, rfl⟩⟩
  next => exact ⟨_, h⟩

/-- If every run of the member loop is confined then every member stays: the disk
may accept all members up to any one of them. -/
theorem stays_of_wp_forM {collection : Collection} {x : NodeState × Trace Call.Ans}
    (h : (collection.forM (exportMember dir)).wp (logged AnyDisk) (fun _ ↦ Confined cwd dir)
      (fun _ ↦ Confined cwd dir) x) : ∀ m ∈ collection, Stays cwd dir m.1 := by
  induction collection generalizing x with
  | nil => simp
  | cons m rest ih =>
    rw [List.forM_eq_forM, List.forM_cons, wp_bind] at h
    unfold exportMember at h
    rw [wp_bind] at h
    obtain ⟨y, hy⟩ := exists_of_wp_createParent h
    rw [wp_context, wp_store] at hy
    have hfail : Confined cwd dir (y.1, y.2 ++ [⟨.store (.exportBlob m.2 _), .error offline⟩]) :=
      hy (.error offline) (_, _) ⟨.answer (.refused y.1 offline rfl), rfl⟩
    have hrest := ih (hy (.ok ()) (_, _) ⟨.exported m.2 _ y.1 y.1.fs rfl, rfl⟩)
    intro m' hm'
    rcases List.mem_cons.mp hm' with rfl | hm'
    · exact (inside_join cwd dir m'.1).mp (((confined_append (s := y.1) _ _).mp hfail).2 _ rfl)
    · exact hrest m' hm'

theorem wp_exportPath {hash : Hash} {name : Option String} {dest : Path}
    (hdir : exportDir s.fs hash name dest = .ok dir) (hlog : Confined cwd dir (s, log)) :
    (exportPath hash name dest).wp (logged AnyDisk)
      (fun p x ↦ p = dir ∧ x.1 = s ∧ Confined cwd dir x) (fun _ ↦ Confined cwd dir) (s, log) := by
  unfold exportPath
  rw [wp_bind, wp_isDir]
  rintro a ⟨s₁, log₁⟩ h₁
  obtain ⟨rfl, rfl⟩ : a = s.fs.isDir dest ∧ s₁ = s := by
    cases h₁.1 with
    | answer h => exact answers_isDir h
  have hlog₁ := confined_step rfl h₁ hlog
  have habsolute : ∀ p, p.absolute s₁.fs.cwd = .ok dir →
      (fs (.absolute p)).wp (logged AnyDisk) (fun p x ↦ p = dir ∧ x.1 = s₁ ∧ Confined cwd dir x)
        (fun _ ↦ Confined cwd dir) (s₁, log₁) := by
    intro p hp
    rw [wp_fs]
    rintro b ⟨s₂, log₂⟩ h₂
    have hlog₂ := confined_step rfl h₂ hlog₁
    cases h₂.1 with
    | answer h =>
      rcases answers_fs h with ⟨rfl, rfl⟩ | ⟨⟨e, rfl⟩, rfl⟩
      · change Outcome _ _ (p.absolute s₁.fs.cwd) _
        rw [hp]
        exact ⟨rfl, rfl, hlog₂⟩
      · exact hlog₂
  unfold exportDir at hdir
  split
  next hd => exact habsolute _ (by simpa only [hd, if_true] using hdir)
  next hd => exact habsolute _ (by simpa only [hd, Bool.false_eq_true, if_false] using hdir)

theorem exists_of_wp_exportPath {hash : Hash} {name : Option String} {dest : Path}
    (hdir : exportDir s.fs hash name dest = .ok dir) {Q : Path → NodeState × Trace Call.Ans → Prop}
    {Z : Error → NodeState × Trace Call.Ans → Prop}
    (h : (exportPath hash name dest).wp (logged AnyDisk) Q Z (s, log)) :
    ∃ log', Q dir (s, log') := by
  unfold exportPath at h
  rw [wp_bind, wp_isDir] at h
  have h₁ := h (s.fs.isDir dest) (s, _) ⟨.answer (.exec (.isDir dest) s), rfl⟩
  have habsolute : ∀ p log, p.absolute s.fs.cwd = .ok dir →
      (fs (.absolute p)).wp (logged AnyDisk) Q Z (s, log) → ∃ log', Q dir (s, log') := by
    intro p log hp hw
    rw [wp_fs] at hw
    have h₂ := hw _ (s, _) ⟨.answer (.exec (.fs (.absolute p)) s), rfl⟩
    change Outcome Q Z (p.absolute s.fs.cwd) _ at h₂
    rw [hp] at h₂
    exact ⟨_, h₂⟩
  unfold exportDir at hdir
  split at h₁
  next hd => exact habsolute _ _ (by simpa only [hd, if_true] using hdir) h₁
  next hd => exact habsolute _ _ (by simpa only [hd, Bool.false_eq_true, if_false] using hdir) h₁

end Confinement

/-- For every node and every destination, whatever is written and whatever fails:
all files of an exported collection lie inside the export directory exactly when
every member name stays inside it. -/
theorem export_confined_iff {s : NodeState} {hash : Hash} {name : Option String} {dest dir : Path}
    {collection : Collection} (hdir : exportDir s.fs hash name dest = .ok dir)
    (hc : s.store.loadCollection hash = .ok collection) :
    (∀ r s' log, Runs (logged AnyDisk) («export» hash .hashSeq name dest) (s, []) r (s', log) →
      Confined s.fs.cwd dir (s', log)) ↔ ∀ m ∈ collection, Stays s.fs.cwd dir m.1 := by
  have hruns : (∀ r s' log, Runs (logged AnyDisk) («export» hash .hashSeq name dest) (s, []) r
      (s', log) → Confined s.fs.cwd dir (s', log)) ↔
      («export» hash .hashSeq name dest).wp (logged AnyDisk) (fun _ ↦ Confined s.fs.cwd dir)
        (fun _ ↦ Confined s.fs.cwd dir) (s, []) := by
    rw [wp_iff_runs]
    exact ⟨fun h ↦ ⟨fun v x hr ↦ h _ _ _ hr, fun e x hr ↦ h _ _ _ hr⟩,
      fun h r s' log hr ↦ by cases r with
        | ok v => exact h.1 v _ hr
        | error e => exact h.2 e _ hr⟩
  rw [hruns]
  unfold «export»
  rw [wp_bind]
  constructor
  · intro h
    obtain ⟨log₁, h₁⟩ := exists_of_wp_exportPath hdir h
    rw [wp_bind, wp_fs] at h₁
    have h₂ := h₁ (.ok ()) (_, _) ⟨.created dir s s.fs rfl, rfl⟩
    rw [outcome_ok, wp_bind, wp_context, wp_store] at h₂
    have h₃ := h₂ (.ok collection) (s, _) ⟨.answer (by
      have he := Answers.exec (.store (.loadCollection hash)) s
      rwa [show exec (.store (.loadCollection hash)) s = (.ok collection, s) from
        Prod.ext hc rfl] at he), rfl⟩
    exact stays_of_wp_forM h₃
  · intro hm
    refine wp_mono (wp_exportPath hdir (by simp [Confined, exportTargets])) ?_ (fun _ _ hz ↦ hz)
    rintro p ⟨s₁, log₁⟩ ⟨rfl, hs₁, hlog₁⟩
    obtain rfl : s₁ = s := hs₁
    rw [wp_bind, wp_fs]
    rintro a ⟨s₂, log₂⟩ h₂
    have hlog₂ := confined_step rfl h₂ hlog₁
    have hstore : s₂.store = s₁.store := by
      cases h₂.1 with
      | answer h => rcases answers_fs h with ⟨-, rfl⟩ | ⟨-, rfl⟩ <;> rfl
      | created => rfl
    cases a with
    | error e => exact hlog₂
    | ok u =>
      rw [outcome_ok, wp_bind, wp_context, wp_store]
      rintro b ⟨s₃, log₃⟩ h₃
      have hlog₃ := confined_step rfl h₃ hlog₂
      have hb : b = .ok collection ∨ ∃ e, b = .error e := by
        cases h₃.1 with
        | answer h =>
          rcases answers_store (by simp) h with ⟨rfl, -⟩ | ⟨he, -⟩
          · exact .inl (by rw [← hc, ← hstore]; rfl)
          · exact .inr he
      rcases hb with rfl | ⟨e, rfl⟩
      · exact wp_forM (I := fun (rest : Collection) x ↦ (∀ m ∈ rest, Stays s₁.fs.cwd p m.1) ∧ Confined s₁.fs.cwd p x)
          (fun m rest x hx ↦ wp_mono (wp_exportMember (hx.1 m (by simp)) hx.2)
            (fun _ y hy ↦ ⟨fun m' hm' ↦ hx.1 m' (by simp [hm']), hy⟩) (fun _ _ hz ↦ hz))
          (fun x hx ↦ hx.2) ⟨hm, hlog₃⟩
      · exact hlog₃

def holdingMember (name : String) : NodeState where
  endpoint := .new (.fromByte 9)
  clock := 0
  registry := .empty
  localStore := .empty
  store := ((BlobStore.empty.addBlob ⟨.fromByte 1, 64, some [.fromByte 2, .fromByte 3], none⟩).addBlob
    ⟨.fromByte 2, 20, none, some [name]⟩).addBlob ⟨.fromByte 3, 5, none, none⟩
  fs := .home

/-- A member named `sub/../a.jpg` stays in the directory it is exported to. -/
theorem export_confined_plain : Confined (Path.ofString "/home/u") (Path.ofString "/home/u/in/album")
    (run execLogged («export» (.fromByte 1) .hashSeq none (Path.ofString "in/album"))
      (holdingMember "sub/../a.jpg", [])).2 :=
  have hdir : exportDir (holdingMember "sub/../a.jpg").fs (.fromByte 1) none (Path.ofString "in/album") =
      .ok (Path.ofString "/home/u/in/album") := rfl
  have hc : (holdingMember "sub/../a.jpg").store.loadCollection (.fromByte 1) =
      .ok [("sub/../a.jpg", .fromByte 3)] := rfl
  (export_confined_iff hdir hc).mpr (by decide) _ _ _ (runs_execLogged (fun c s ↦ .answer (.exec c s)) _ _)

/-- A member named `../x` is written next to the export directory. -/
theorem export_escapes : ∃ r s' log,
    Runs (logged Answers) («export» (.fromByte 1) .hashSeq none (Path.ofString "in/album"))
      (holdingMember "../x", []) r (s', log) ∧
    exportDir (holdingMember "../x").fs (.fromByte 1) none (Path.ofString "in/album") =
      .ok (Path.ofString "/home/u/in/album") ∧
    (holdingMember "../x").store.loadCollection (.fromByte 1) = .ok [("../x", .fromByte 3)] ∧
    ¬ Confined (Path.ofString "/home/u") (Path.ofString "/home/u/in/album") (s', log) :=
  ⟨_, _, _, runs_execLogged .exec _ _, rfl, rfl, by decide⟩

end Ringdrop.RingReceiver
