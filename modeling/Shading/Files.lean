import Shading.Path

/-!
Files as a program sees them: a record of the operations it uses, each of which
gives a result or tells what it could not do, to which path, and why.
-/

namespace Shading

inductive FileReason where
  | absent
  | notDirectory
  | isDirectory
  | alreadyThere
  | nameTooLong
  | invalidName
  | other (text : Bytes)
  deriving DecidableEq, Repr

def FileReason.text : FileReason → Bytes
  | .absent => Text.utf8 "no such file or directory"
  | .notDirectory => Text.utf8 "not a directory"
  | .isDirectory => Text.utf8 "is a directory"
  | .alreadyThere => Text.utf8 "file exists"
  | .nameTooLong => Text.utf8 "file name too long"
  | .invalidName => Text.utf8 "invalid argument"
  | .other text => text

inductive FileAction where
  | access
  | reading
  | creation
  | inspection
  | removal
  | renaming (target : Bytes)
  deriving DecidableEq, Repr

def FileAction.text (action : FileAction) (path : Bytes) : Bytes :=
  match action with
  | .access => Text.utf8 "open " ++ path
  | .reading => Text.utf8 "read " ++ path
  | .creation => Text.utf8 "mkdir " ++ path
  | .inspection => Text.utf8 "stat " ++ path
  | .removal => Text.utf8 "unlinkat " ++ path
  | .renaming target => Text.utf8 "rename " ++ path ++ Text.utf8 " " ++ target

structure FileError where
  action : FileAction
  path : Bytes
  reason : FileReason
  deriving DecidableEq, Repr

def FileError.message (e : FileError) : Bytes :=
  e.action.text e.path ++ Text.utf8 ": " ++ e.reason.text

structure Files (m : Type → Type) where
  read : Bytes → m (Except FileError Bytes)
  write : Bytes → Bytes → m (Except FileError Unit)
  createTemporary : Bytes → m (Except FileError Bytes)
  rename : Bytes → Bytes → m (Except FileError Unit)
  makeDirectories : Bytes → m (Except FileError Unit)
  remove : Bytes → m (Except FileError Unit)
  inspect : Bytes → m (Except FileError Unit)

def Files.through {m n : Type → Type} (carry : {α : Type} → m α → n α) (files : Files m) :
    Files n where
  read path := carry (files.read path)
  write path content := carry (files.write path content)
  createTemporary directory := carry (files.createTemporary directory)
  rename path target := carry (files.rename path target)
  makeDirectories path := carry (files.makeDirectories path)
  remove path := carry (files.remove path)
  inspect path := carry (files.inspect path)

end Shading
