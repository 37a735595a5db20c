import Ringdrop.Core.Ticket
import Ringdrop.Daemon.Protocol

namespace Ringdrop.Cli

open Library

inductive Cmd
  | «import» (path : Path) (rings : List String) («open» : Bool)
  | blobImport (path : Path) (rings : List String) («open» : Bool)
  | blobRemove (target : String)
  | blobAttach (target : String) (rings : List String) («open» : Bool)
  | blobDetach (target : String) (rings : List String) («open» all : Bool)
  | receive (ticket : String) (dest : Option Path) (forceOverwrite : Bool)
deriving DecidableEq

def parseDest (raw : Path) : Except String Path :=
  if raw = [] then .error "must not be empty" else .ok raw

/-- What the argument parser lets through: `rings` and `open` exclude each other, and
`attach` and `detach` need exactly one kind of selection. -/
def Cmd.Parses : Cmd → Prop
  | .import _ rings «open» => ¬ (rings ≠ [] ∧ «open»)
  | .blobImport _ rings «open» => ¬ (rings ≠ [] ∧ «open»)
  | .blobRemove _ => True
  | .blobAttach _ rings «open» => (rings ≠ [] ∨ «open») ∧ ¬ (rings ≠ [] ∧ «open»)
  | .blobDetach _ rings «open» all =>
    (rings ≠ [] ∨ «open» ∨ all) ∧ ¬ (rings ≠ [] ∧ «open») ∧ ¬ (rings ≠ [] ∧ all) ∧ ¬ («open» ∧ all)
  | .receive _ dest _ => ∀ raw, dest = some raw → (parseDest raw).toOption = some raw

def sent (path : Path) : Except Error Path :=
  match Utf8.fromUtf8 path with
  | some s => .ok (Path.ofString s)
  | none => .error (.msg "path contains invalid UTF-8 characters")

def Cmd.op (env : Env) : Cmd → Except Error Op
  | .import path rings «open» => do return .import (← sent path) rings «open»
  | .blobImport path rings «open» => do return .import (← sent path) rings «open»
  | .blobRemove target => .ok (.blobRemove target)
  | .blobAttach target rings «open» => .ok (.blobAttach target rings «open»)
  | .blobDetach target rings «open» all => .ok (.blobDetach target rings «open» all)
  | .receive ticket dest forceOverwrite => do
    let _ ← ShareTicket.fromUri env ticket
    return .receive ticket (← dest.mapM sent) forceOverwrite

def Cmd.path : Cmd → Option Path
  | .import path _ _ => some path
  | .blobImport path _ _ => some path
  | .blobRemove target => some (Path.ofString target)
  | .blobAttach target _ _ => some (Path.ofString target)
  | .blobDetach target _ _ _ => some (Path.ofString target)
  | .receive _ dest _ => dest

theorem sent_ok {path sentPath : Path} (h : sent path = .ok sentPath) : sentPath = path := by
  unfold sent at h
  split at h
  · rename_i s hs
    obtain rfl := Except.ok.inj h
    exact Utf8.fromUtf8_eq_some_iff.mp hs
  · cases h

end Ringdrop.Cli
