import Shading.Files

/-!
A tree of files held as a value. Places are named by the elements of their path
from the root; the root is always a directory. A relative path starts at the
working directory.
-/

namespace Shading

inductive FileEntry where
  | file (content : Bytes)
  | directory
  deriving DecidableEq, Repr

abbrev Place := List Bytes

structure FileTree where
  entries : List (Place × FileEntry) := []
  workingDirectory : Place := []
  deriving Repr

namespace FileTree

def lookup (t : FileTree) (place : Place) : Option FileEntry :=
  if place = [] then some .directory
  else (t.entries.find? (·.1 = place)).map (·.2)

def insert (t : FileTree) (place : Place) (entry : FileEntry) : FileTree :=
  { t with entries := t.entries.filter (·.1 ≠ place) ++ [(place, entry)] }

def erase (t : FileTree) (place : Place) : FileTree :=
  { t with entries := t.entries.filter fun e => !place.isPrefixOf e.1 }

def maxNameLength : Nat := 255

def maxPathLength : Nat := 4095

def walk (t : FileTree) (place : Place) : List Bytes → Except FileReason Place
  | [] => .ok place
  | element :: rest =>
    match t.lookup place with
    | none => .error .absent
    | some (.file _) => .error .notDirectory
    | some .directory =>
      if element = [] || element = Text.utf8 "." then t.walk place rest
      else if element = Text.utf8 ".." then t.walk place.dropLast rest
      else if maxNameLength < element.length then .error .nameTooLong
      else t.walk (place ++ [element]) rest

def locate (t : FileTree) (path : Bytes) : Except FileReason Place :=
  if path = [] then .error .absent
  else if path.contains 0 then .error .invalidName
  else if maxPathLength < path.length then .error .nameTooLong
  else
    t.walk (if Path.isAbsolute path then [] else t.workingDirectory)
      (Text.splitAt Path.separator path)

def trimmed (path : Bytes) : Bytes :=
  match Text.trimEnd (· = Path.separator) path with
  | [] => path.take 1
  | path => path

def read (t : FileTree) (path : Bytes) : Except FileError Bytes :=
  match t.locate path with
  | .error reason => .error ⟨.access, path, reason⟩
  | .ok place =>
    match t.lookup place with
    | none => .error ⟨.access, path, .absent⟩
    | some .directory => .error ⟨.reading, path, .isDirectory⟩
    | some (.file content) => .ok content

def write (t : FileTree) (path content : Bytes) : Except FileError FileTree :=
  match t.locate (trimmed path) with
  | .error reason => .error ⟨.access, path, reason⟩
  | .ok place =>
    if trimmed path ≠ path || t.lookup place = some .directory then
      .error ⟨.access, path, .isDirectory⟩
    else .ok (t.insert place (.file content))

def temporaryStem : Bytes := Text.utf8 "tmp-"

def freeName? (t : FileTree) (directory : Place) : Option Bytes :=
  ((List.range (t.entries.length + 1)).map fun n => temporaryStem ++ Text.decimal n).find?
    fun name => (t.lookup (directory ++ [name])).isNone

def createTemporary (t : FileTree) (directory : Bytes) : Except FileError (Bytes × FileTree) :=
  let path (name : Bytes) := directory ++ [Path.separator] ++ name
  match t.locate directory with
  | .error reason => .error ⟨.access, path temporaryStem, reason⟩
  | .ok place =>
    match t.lookup place, t.freeName? place with
    | some .directory, some name => .ok (path name, t.insert (place ++ [name]) (.file []))
    | some .directory, none => .error ⟨.access, path temporaryStem, .alreadyThere⟩
    | some (.file _), _ => .error ⟨.access, path temporaryStem, .notDirectory⟩
    | none, _ => .error ⟨.access, path temporaryStem, .absent⟩

def rename (t : FileTree) (path target : Bytes) : Except FileError FileTree :=
  match t.locate path, t.locate target with
  | .error reason, _ => .error ⟨.renaming target, path, reason⟩
  | .ok _, .error reason => .error ⟨.renaming target, path, reason⟩
  | .ok source, .ok place =>
    match t.lookup source, t.lookup place with
    | _, some .directory => .error ⟨.renaming target, path, .alreadyThere⟩
    | some (.file content), _ => .ok ((t.erase source).insert place (.file content))
    | some .directory, _ => .error ⟨.renaming target, path, .isDirectory⟩
    | none, _ => .error ⟨.renaming target, path, .absent⟩

def inspect (t : FileTree) (path : Bytes) : Except FileError FileEntry :=
  match t.locate path with
  | .error reason => .error ⟨.inspection, path, reason⟩
  | .ok place =>
    match t.lookup place with
    | none => .error ⟨.inspection, path, .absent⟩
    | some entry => .ok entry

def makeDirectory (t : FileTree) (path : Bytes) : Except FileError FileTree :=
  match t.locate (trimmed path) with
  | .error reason => .error ⟨.creation, path, reason⟩
  | .ok place =>
    if (t.lookup place).isSome then .error ⟨.creation, path, .alreadyThere⟩
    else .ok (t.insert place .directory)

def parentPath (path : Bytes) : Bytes :=
  let stem := Text.trimEnd (· = Path.separator) path
  stem.take (stem.length - (Path.lastElement stem).length)

def makeDirectoriesWithin : Nat → FileTree → Bytes → Except FileError FileTree
  | 0, _, path => .error ⟨.creation, path, .absent⟩
  | fuel + 1, t, path =>
    match t.inspect path with
    | .ok .directory => .ok t
    | .ok (.file _) => .error ⟨.creation, path, .notDirectory⟩
    | .error _ => do
      let parent := parentPath path
      let t ← if parent = [] then .ok t else makeDirectoriesWithin fuel t parent
      match t.makeDirectory path with
      | .ok t => .ok t
      | .error e =>
        match t.inspect path with
        | .ok .directory => .ok t
        | _ => .error e

def makeDirectories (t : FileTree) (path : Bytes) : Except FileError FileTree :=
  makeDirectoriesWithin (path.length + 1) t path

def remove (t : FileTree) (path : Bytes) : Except FileError FileTree :=
  match t.locate path with
  | .error .absent => .ok t
  | .error reason => .error ⟨.removal, path, reason⟩
  | .ok place => .ok (t.erase place)

def files (t : FileTree) : List (Place × Bytes) :=
  t.entries.filterMap fun
    | (place, .file content) => some (place, content)
    | (_, .directory) => none

def update (operation : FileTree → Except FileError FileTree) :
    StateM FileTree (Except FileError Unit) := do
  match operation (← get) with
  | .ok t => do
    set t
    pure (.ok ())
  | .error e => pure (.error e)

end FileTree

def Files.tree : Files (StateM FileTree) where
  read path := do pure ((← get).read path)
  write path content := FileTree.update (·.write path content)
  createTemporary directory := do
    match (← get).createTemporary directory with
    | .ok (path, t) => do
      set t
      pure (.ok path)
    | .error e => pure (.error e)
  rename path target := FileTree.update (·.rename path target)
  makeDirectories path := FileTree.update (·.makeDirectories path)
  remove path := FileTree.update (·.remove path)
  inspect path := do pure (((← get).inspect path).map fun _ => ())

end Shading
