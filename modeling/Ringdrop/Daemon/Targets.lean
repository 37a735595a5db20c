import Ringdrop.Core.ImportedTag
import Ringdrop.Daemon.Server

namespace Ringdrop

open Library Program Node

namespace Handlers

/-- The blob a target stands for, and the tag that is set when it is resolved. -/
def targetTag (env : Env) (fs : FileSystem) (target : String) :
    Except Error (Hash × Option (Bytes × HashAndFormat)) :=
  if fs.pathExists (Path.ofString target) then do
    let tag ← importedTag env fs (Path.ofString target)
    return (tag.2.hash, some tag)
  else do
    let hash ← parseHash env target
    return (hash, none)

def Resolved (tag : Option (Bytes × HashAndFormat)) (s s' : NodeState) : Prop :=
  match tag with
  | some tag => TagSet tag s s'
  | none => s' = s

theorem Resolved.registry {tag : Option (Bytes × HashAndFormat)} {s s' : NodeState} (h : Resolved tag s s') :
    s'.registry = s.registry := by
  cases tag with
  | some tag => exact TagSet.registry h
  | none => rw [show s' = s from h]

theorem Resolved.fs {tag : Option (Bytes × HashAndFormat)} {s s' : NodeState} (h : Resolved tag s s') :
    s'.fs = s.fs := by
  cases tag with
  | some tag => exact TagSet.fs h
  | none => rw [show s' = s from h]

theorem wp_resolveTarget (env : Env) (target : String) (s : NodeState) :
    (resolveTarget env target).wp Answers
      (fun hash s' ↦ ∃ tag, targetTag env s.fs target = .ok (hash, tag) ∧ Resolved tag s s')
      (fun _ s' ↦ SameTags s s') s := by
  unfold resolveTarget targetTag
  rw [wp_bind, wp_pathExists]
  intro there s₁ h₁
  obtain ⟨rfl, rfl⟩ := answers_pathExists h₁
  split
  · rw [wp_bind]
    refine wp_mono (wp_importPath_tag _) ?_ (fun _ _ h ↦ h)
    intro r s₂ ⟨key, htag, hset⟩
    exact ⟨some (key, ⟨r.1, r.2⟩), by rw [htag]; rfl, hset⟩
  · rw [wp_ofExcept]
    cases parseHash env target with
    | error e => exact .refl s₁
    | ok hash => exact ⟨none, rfl, rfl⟩

theorem registry_resolveTarget (env : Env) (target : String) (s : NodeState) :
    (run exec (resolveTarget env target) s).2.registry = s.registry := by
  have hout := outcome_run (wp_anti (fun _ _ _ _ ↦ answers_of_graph) (wp_resolveTarget env target s))
  generalize run exec (resolveTarget env target) s = x at hout
  obtain ⟨r, s'⟩ := x
  cases r with
  | ok hash =>
    obtain ⟨tag, -, h⟩ := hout
    exact h.registry
  | error e => exact SameTags.registry hout

theorem wp_resolveTarget_exec (env : Env) (target : String) (s : NodeState) :
    (resolveTarget env target).wp (graph exec) (fun _ _ ↦ True)
      (fun _ _ ↦ ∃ e, targetTag env s.fs target = .error e) s := by
  unfold resolveTarget targetTag
  rw [wp_bind, wp_pathExists_exec]
  split
  · rw [wp_bind]
    refine wp_mono (wp_importPath_exec _) (fun _ _ _ ↦ trivial) ?_
    intro _ _ ⟨e, he⟩
    exact ⟨e, by rw [he]; rfl⟩
  · rw [wp_ofExcept]
    cases parseHash env target with
    | error e => exact ⟨e, rfl⟩
    | ok hash => trivial

theorem run_resolveTarget {env : Env} {target : String} {s : NodeState} {hash : Hash}
    {tag : Option (Bytes × HashAndFormat)} (h : targetTag env s.fs target = .ok (hash, tag)) :
    (run exec (resolveTarget env target) s).1 = .ok hash ∧
      Resolved tag s (run exec (resolveTarget env target) s).2 := by
  have hspec := outcome_run (wp_anti (fun _ _ _ _ ↦ answers_of_graph) (wp_resolveTarget env target s))
  have hexec := outcome_run (wp_resolveTarget_exec env target s)
  generalize run exec (resolveTarget env target) s = x at hspec hexec
  obtain ⟨r, s'⟩ := x
  cases r with
  | error e =>
    obtain ⟨e', he⟩ := hexec
    rw [h] at he
    cases he
  | ok r =>
    obtain ⟨tag', htag, hresolved⟩ := hspec
    rw [h] at htag
    obtain ⟨rfl, rfl⟩ := Prod.mk.inj (Except.ok.inj htag)
    exact ⟨rfl, hresolved⟩

theorem targetTag_hash {env : Env} {fs : FileSystem} {target : String} {hash : Hash}
    (hpath : fs.pathExists (Path.ofString target) = false) (hhash : parseHash env target = .ok hash) :
    targetTag env fs target = .ok (hash, none) := by
  rw [targetTag, if_neg (by simp [hpath]), hhash]
  rfl

end Handlers

end Ringdrop
