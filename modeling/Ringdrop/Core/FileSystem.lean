import Ringdrop.Core.Basic

namespace Ringdrop

open Std Library

namespace Path

abbrev components (p : Path) : List Bytes := LexicalPath.components slash period p

/-- What the text has after its last component: nothing, a slash, which is given as an empty
step, or a `.`. -/
def trailing (p : Path) : Option Bytes :=
  match (p.splitOn slash).reverse.takeWhile (fun c ↦ !LexicalPath.significant period c) with
  | [] => none
  | cs => if [period] ∈ cs then some [period] else some []

def steps (p : Path) : List Bytes := p.components ++ p.trailing.toList

/-- The components that are created where they are missing: what a last `.` is to be the
directory of must be there. -/
def created (p : Path) : List Bytes :=
  if p.trailing = some [period] then p.components.dropLast else p.components

end Path

/-- A directory, a file, a symbolic link, or none of these (a socket, a device). A directory
that is not readable can neither be listed nor passed through. -/
inductive FsNode
  | dir (readable : Bool)
  | file (content : Content) (readable : Bool)
  | link (target : Path)
  | other
deriving DecidableEq

structure DirEntry where
  path : Path
  isFile : Bool
deriving DecidableEq

instance : TransOrd (List Bytes) := inferInstance

/-- The file system a node sees: what stands at each place. A place is given by the
names on the way to it from the root. -/
structure FileSystem where
  cwd : Path
  nodes : ExtTreeMap (List Bytes) FsNode

namespace FileSystem

def nodeAt (fs : FileSystem) : List Bytes → Option FsNode
  | [] => some (.dir true)
  | loc => fs.nodes[loc]?

def dirAt (fs : FileSystem) (loc : List Bytes) : Bool :=
  (fs.nodeAt loc).any fun
    | .dir _ => true
    | _ => false

def opensAt (fs : FileSystem) (loc : List Bytes) : Bool := fs.nodeAt loc == some (.dir true)

def linkDepth : ℕ := 40

/-- One component further from a directory: `..` leads to the directory above, and a
link to where its target leads. -/
def step (fs : FileSystem) : ℕ → List Bytes → Bytes → Option (List Bytes)
  | depth, loc, c =>
    if c = [] then (if fs.dirAt loc then some loc else none)
    else if fs.opensAt loc then
      if c = [Path.period] then some loc
      else if c = [Path.period, Path.period] then some loc.dropLast
      else match fs.nodes[loc ++ [c]]? with
        | none => none
        | some (.link target) => match depth with
          | 0 => none
          | depth + 1 => target.steps.foldlM (step fs depth) (if target.isAbsolute then [] else loc)
        | some _ => some (loc ++ [c])
    else none

def walk (fs : FileSystem) (loc : List Bytes) (cs : List Bytes) : Option (List Bytes) :=
  cs.foldlM (fs.step linkDepth) loc

/-- `step`, once the directories on the way have been created. -/
def landStep (fs : FileSystem) : ℕ → List Bytes → Bytes → List Bytes
  | depth, loc, c =>
    if c = [] ∨ c = [Path.period] then loc
    else if c = [Path.period, Path.period] then loc.dropLast
    else match fs.nodes[loc ++ [c]]? with
      | some (.link target) => match depth with
        | 0 => loc ++ [c]
        | depth + 1 => target.steps.foldl (landStep fs depth) (if target.isAbsolute then [] else loc)
      | _ => loc ++ [c]

def workingDir (fs : FileSystem) (cwd : Path) : List Bytes :=
  cwd.components.foldl (fs.landStep linkDepth) []

def origin (fs : FileSystem) (cwd p : Path) : List Bytes :=
  if p.isAbsolute then [] else fs.workingDir cwd

/-- Where a path leads once the directories on the way have been created. -/
def land (fs : FileSystem) (p : Path) : List Bytes :=
  p.components.foldl (fs.landStep linkDepth) (fs.origin fs.cwd p)

def place (fs : FileSystem) (p : Path) : Option (List Bytes) :=
  if p = [] then none else fs.walk (fs.origin fs.cwd p) p.steps

def find (fs : FileSystem) (p : Path) : Option FsNode := (fs.place p).bind fs.nodeAt

def pathExists (fs : FileSystem) (p : Path) : Bool := (fs.find p).isSome

def isDir (fs : FileSystem) (p : Path) : Bool :=
  (fs.find p).any fun
    | .dir _ => true
    | _ => false

def visible (fs : FileSystem) (base cs : List Bytes) : Bool :=
  cs.inits.all (fun anc ↦
    !(base.isPrefixOf anc) || anc.length == cs.length || fs.nodes[anc]? != some (.dir false))

/-- What `WalkDir` yields below a directory: an error where a directory cannot be
read, an entry for everything else it gets to. Links are not followed. -/
def walkDir (fs : FileSystem) (dir : Path) : List (Except Error DirEntry) :=
  match fs.place dir with
  | none => [.error (.msg "no such file or directory")]
  | some base =>
    fs.nodes.toList.filterMap (fun (cs, node) ↦
      if base.isPrefixOf cs && fs.visible base cs then
        let path := (cs.drop base.length).foldl Path.join dir
        match node with
        | .dir false => some (.error (.msg "permission denied"))
        | .file _ _ => some (.ok ⟨path, true⟩)
        | _ => some (.ok ⟨path, false⟩)
      else none)

def read (fs : FileSystem) (p : Path) : Except Error Content :=
  match fs.find p with
  | some (.file content true) => .ok content
  | some (.file _ false) => .error (.msg "permission denied")
  | some _ => .error (.msg "not a regular file")
  | none => .error (.msg "no such file or directory")

def enterDir (fs : FileSystem) (loc : List Bytes) (c : Bytes) : Except Error (List Bytes) × FileSystem :=
  match fs.step linkDepth loc c with
  | some next => if fs.dirAt next then (.ok next, fs) else (.error (.msg "not a directory"), fs)
  | none =>
    if fs.opensAt loc && fs.nodes[loc ++ [c]]?.isNone then
      (.ok (loc ++ [c]), { fs with nodes := fs.nodes.insert (loc ++ [c]) (.dir true) })
    else (.error (.msg "not a directory"), fs)

/-- The directories created before a failure stay. -/
def makeDirs (fs : FileSystem) (loc : List Bytes) : List Bytes → Except Error (List Bytes) × FileSystem
  | [] => (.ok loc, fs)
  | c :: cs =>
    match fs.enterDir loc c with
    | (.ok next, fs') => fs'.makeDirs next cs
    | (.error e, fs') => (.error e, fs')

def createDirAll (fs : FileSystem) (p : Path) : Except Error Unit × FileSystem :=
  if p = [] then (.ok (), fs)
  else match fs.makeDirs (fs.origin fs.cwd p) p.created with
    | (.ok _, fs') => if fs'.isDir p then (.ok (), fs') else (.error (.msg "no such file or directory"), fs')
    | (.error e, fs') => (.error e, fs')

/-- Where a file is written: in the place of the file that is there, or of nothing. -/
def fileTarget (fs : FileSystem) : ℕ → List Bytes → List Bytes → Option (List Bytes)
  | depth, loc, cs =>
    match cs.getLast?, cs.dropLast.foldlM (fs.step depth) loc with
    | some c, some dir =>
      if fs.opensAt dir && c ≠ [] && c ≠ [Path.period] && c ≠ [Path.period, Path.period] then
        match fs.nodes[dir ++ [c]]? with
        | none => some (dir ++ [c])
        | some (.file _ _) => some (dir ++ [c])
        | some (.link target) => match depth with
          | 0 => none
          | depth + 1 => fileTarget fs depth (if target.isAbsolute then [] else dir) target.steps
        | some _ => none
      else none
    | _, _ => none

def createParents (fs : FileSystem) (p : Path) : Except Error Unit × FileSystem :=
  match p.parent with
  | some parent => fs.createDirAll parent
  | none => (.ok (), fs)

def write (fs : FileSystem) (p : Path) (content : Content) : Except Error Unit × FileSystem :=
  match fs.createParents p with
  | (.error e, fs) => (.error e, fs)
  | (.ok (), fs) =>
    match fs.fileTarget linkDepth (fs.origin fs.cwd p) p.steps with
    | some loc => (.ok (), { fs with nodes := fs.nodes.insert loc (.file content true) })
    | none => (.error (.msg "cannot create the file"), fs)

def holding (fs : FileSystem) (entries : List (String × FsNode)) : FileSystem :=
  { fs with
    nodes := entries.foldl (fun ns x ↦
      ns.insert (Path.ofString x.1).components x.2) fs.nodes }

def home : FileSystem :=
  holding ⟨Path.ofString "/home/u", ∅⟩ [("/home", .dir true), ("/home/u", .dir true)]

example : (home.createDirAll (Path.ofString "a/../b")).2.pathExists (Path.ofString "a/../b") ∧
    home.pathExists (Path.ofString "a/..") = false ∧
    (home.createDirAll (Path.ofString "a/.")).2.pathExists (Path.ofString "a") = false := by
  decide +kernel

example : (home.holding [("/home/u/in", .dir false)]).isDir (Path.ofString "in/") ∧
    (home.holding [("/home/u/in", .dir false)]).isDir (Path.ofString "in/.") = false := by
  decide +kernel

end FileSystem

end Ringdrop
