import Mathlib.Data.String.Basic
import Ringdrop.Library.JsonReader

namespace Ringdrop.Library.Json

/-- The field of a name, if there is one. A name that comes twice is refused. -/
def field (fields : List (String × Json)) (name : String) : Option (Option Json) :=
  match fields.filter (fun f ↦ f.1 = name) with
  | [] => some none
  | [f] => some (some f.2)
  | _ :: _ :: _ => none

def asStr : Json → Option String
  | str s => some s
  | _ => none

def asBool : Json → Option Bool
  | bool b => some b
  | _ => none

def asU64 : Json → Option UInt64
  | num n => if n < 2 ^ 64 then some (UInt64.ofNat n) else none
  | _ => none

def asUsize : Json → Option ℕ
  | num n => if n < 2 ^ 64 then some n else none
  | _ => none

def asStrings : Json → Option (List String)
  | arr vs => vs.mapM asStr
  | _ => none

section Fields

variable {α : Type} (read : Json → Option α) {fields : List (String × Json)} {name : String} {v : Json}

def required (fields : List (String × Json)) (name : String) : Option α := do
  let v ← ← field fields name
  read v

def optional (fields : List (String × Json)) (name : String) : Option (Option α) := do
  match ← field fields name with
  | none => some none
  | some null => some none
  | some v => (read v).map some

theorem field_head (h : ∀ f ∈ fields, f.1 ≠ name) : field ((name, v) :: fields) name = some (some v) := by
  have hrest : fields.filter (fun f ↦ f.1 = name) = [] := by
    rw [List.filter_eq_nil_iff]
    intro f hf hname
    exact h f hf (of_decide_eq_true hname)
  rw [field, List.filter_cons_of_pos (by simp), hrest]

theorem field_tail {k : String} (h : k ≠ name) : field ((k, v) :: fields) name = field fields name := by
  rw [field, List.filter_cons_of_neg (by simp [h]), field]

@[simp]
theorem required_head (h : ∀ f ∈ fields, f.1 ≠ name) : required read ((name, v) :: fields) name = read v := by
  rw [required, field_head h]
  rfl

@[simp]
theorem required_tail {k : String} (h : k ≠ name) :
    required read ((k, v) :: fields) name = required read fields name := by
  rw [required, field_tail h, required]

@[simp]
theorem optional_nil : optional read [] name = some none := rfl

@[simp]
theorem optional_null (h : ∀ f ∈ fields, f.1 ≠ name) : optional read ((name, null) :: fields) name = some none := by
  rw [optional, field_head h]
  rfl

@[simp]
theorem optional_head (h : ∀ f ∈ fields, f.1 ≠ name) (hnull : v ≠ null) :
    optional read ((name, v) :: fields) name = (read v).map some := by
  rw [optional, field_head h]
  cases v with
  | null => exact absurd rfl hnull
  | _ => rfl

@[simp]
theorem optional_tail {k : String} (h : k ≠ name) :
    optional read ((k, v) :: fields) name = optional read fields name := by
  rw [optional, field_tail h, optional]

@[simp]
theorem asStr_str (s : String) : asStr (str s) = some s := rfl

@[simp]
theorem asBool_bool (b : Bool) : asBool (bool b) = some b := rfl

@[simp]
theorem asU64_toNat (n : UInt64) : asU64 (num n.toNat) = some n := by
  rw [asU64, if_pos n.toNat_lt, UInt64.ofNat_toNat]

theorem asUsize_num {n : ℕ} (h : n < 2 ^ 64) : asUsize (num n) = some n := if_pos h

@[simp]
theorem asStrings_map (xs : List String) : asStrings (arr (xs.map str)) = some xs := by
  rw [asStrings]
  induction xs with
  | nil => rfl
  | cons x xs ih =>
    rw [List.map_cons, List.mapM_cons, ih]
    rfl

end Fields

section Values

/-- A field goes to its place in the order of the names. One of its name that is there
already has come later and is kept. -/
def insertField (f : String × Json) : List (String × Json) → List (String × Json)
  | [] => [f]
  | g :: gs =>
    if f.1 < g.1 then f :: g :: gs
    else if f.1 = g.1 then g :: gs
    else g :: insertField f gs

mutual

def toValue : Json → Json
  | null => null
  | bool b => bool b
  | num n => num n
  | str s => str s
  | arr vs => arr (toValues vs)
  | obj fields => obj (toMap fields)

def toValues : List Json → List Json
  | [] => []
  | v :: vs => toValue v :: toValues vs

def toMap : List (String × Json) → List (String × Json)
  | [] => []
  | f :: fs => insertField (toEntry f) (toMap fs)

def toEntry : String × Json → String × Json
  | (k, v) => (k, toValue v)

end

/-- A value whose objects are maps, nested to at most the given depth. -/
def IsValue : ℕ → Json → Prop
  | _, null => True
  | _, bool _ => True
  | _, num n => n < 2 ^ 64
  | _, str _ => True
  | 0, arr _ => False
  | 0, obj _ => False
  | depth + 1, arr vs => ∀ v ∈ vs, IsValue depth v
  | depth + 1, obj fields => fields.Pairwise (fun f g ↦ f.1 < g.1) ∧ ∀ f ∈ fields, IsValue depth f.2

variable {depth : ℕ} {v : Json} {fields : List (String × Json)}

theorem fits_of_isValue (h : IsValue depth v) : Fits depth v := by
  induction depth generalizing v with
  | zero =>
    cases v with
    | null => trivial
    | bool b => trivial
    | num n => exact h
    | str s => trivial
    | arr vs => exact h
    | obj fields => exact h
  | succ depth ih =>
    cases v with
    | null => trivial
    | bool b => trivial
    | num n => exact h
    | str s => trivial
    | arr vs => exact fun v hv ↦ ih (h v hv)
    | obj fields => exact fun f hf ↦ ih (h.2 f hf)

theorem insertField_of_lt {f : String × Json} (h : ∀ g ∈ fields, f.1 < g.1) : insertField f fields = f :: fields := by
  cases fields with
  | nil => rfl
  | cons g gs => exact if_pos (h g List.mem_cons_self)

theorem toValues_of_forall {vs : List Json} (h : ∀ v ∈ vs, toValue v = v) : toValues vs = vs := by
  induction vs with
  | nil => rfl
  | cons v vs ih =>
    obtain ⟨hv, hvs⟩ := List.forall_mem_cons.mp h
    rw [toValues, hv, ih hvs]

theorem toMap_of_forall (hsorted : fields.Pairwise (fun f g ↦ f.1 < g.1)) (h : ∀ f ∈ fields, toValue f.2 = f.2) :
    toMap fields = fields := by
  induction fields with
  | nil => rfl
  | cons f fs ih =>
    obtain ⟨hlt, hfs⟩ := List.pairwise_cons.mp hsorted
    obtain ⟨hf, hrest⟩ := List.forall_mem_cons.mp h
    have hentry : toEntry f = f := by
      rw [toEntry, hf]
    rw [toMap, hentry, ih hfs hrest, insertField_of_lt hlt]

theorem toValue_of_isValue (h : IsValue depth v) : toValue v = v := by
  induction depth generalizing v with
  | zero =>
    cases v with
    | arr vs => exact h.elim
    | obj fields => exact h.elim
    | _ => rfl
  | succ depth ih =>
    cases v with
    | arr vs =>
      rw [toValue, toValues_of_forall fun v hv ↦ ih (h v hv)]
    | obj fields =>
      rw [toValue, toMap_of_forall h.1 fun f hf ↦ ih (h.2 f hf)]
    | _ => rfl

theorem isValue_object (hnames : (fields.map Prod.fst).Nodup) (h : ∀ f ∈ fields, IsValue depth f.2) :
    IsValue (depth + 1) (object fields) := by
  have hperm := List.perm_insertionSort (fun f g : String × Json ↦ f.1 ≤ g.1) fields
  have hle : (fields.insertionSort (fun f g ↦ f.1 ≤ g.1)).Pairwise (fun f g ↦ f.1 ≤ g.1) :=
    List.pairwise_insertionSort _ _
  have hne : (fields.insertionSort (fun f g ↦ f.1 ≤ g.1)).Pairwise (fun f g ↦ f.1 ≠ g.1) := by
    have hnodup := (hperm.map Prod.fst).nodup_iff.mpr hnames
    exact List.pairwise_map.mp hnodup
  refine ⟨(hle.and hne).imp fun hfg ↦ lt_of_le_of_ne hfg.1 hfg.2, fun f hf ↦ h f (hperm.mem_iff.mp hf)⟩

end Values

end Ringdrop.Library.Json
