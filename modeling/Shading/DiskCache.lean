import Shading.DiskCache.Entry
import Shading.Limits
import Shading.Log
import Shading.Sha256

/-!
The disk cache keeps compiled code under a key made from the source and the
limits it was compiled with. Every entry is a file of its own that appears
complete or not at all. Where there is no cache, nothing is kept and nothing is
found.
-/

namespace Shading

open Text

def keyPreamble (limits : Limits) : Bytes :=
  utf8 "beans/" ++ decimal entrySchema.toNat ++ utf8 "/" ++
    join (utf8 ",") (limits.withDefaults.toList.map fun l => signed l.toInt) ++ utf8 "\n"

def cacheKey (source : Bytes) (limits : Limits) : Bytes :=
  Sha256.hash (keyPreamble limits ++ source)

structure DiskCache where
  directory : Bytes
  deriving DecidableEq, Repr

namespace DiskCache

variable {m : Type → Type} [Monad m]

def create (files : Files m) (directory : Bytes) : m (Except FileError DiskCache) := do
  match ← files.makeDirectories directory with
  | .ok _ => pure (.ok ⟨directory⟩)
  | .error e => pure (.error e)

def entryDirectory (c : DiskCache) : Bytes := Path.join [c.directory, utf8 "spv"]

def entryPath (c : DiskCache) (key : Bytes) : Bytes :=
  Path.join [c.directory, utf8 "spv", hex key ++ utf8 ".mp"]

def fillAndMove (files : Files m) (temporary content path : Bytes) : m (Except FileError Unit) := do
  let moved ← match ← files.write temporary content with
    | .ok _ => files.rename temporary path
    | .error e => pure (.error e)
  if let .error _ := moved then
    discard <| files.remove temporary
  pure moved

def put (c : DiskCache) (files : Files m) (key : Bytes) (code : Option Bytes) :
    m (Except FileError Unit) := do
  let directory := Path.directory (c.entryPath key)
  match ← files.makeDirectories directory with
  | .error e => pure (.error e)
  | .ok _ =>
    match ← files.createTemporary directory with
    | .error e => pure (.error e)
    | .ok temporary =>
      fillAndMove files temporary (CacheEntry.encode ⟨entrySchema, code⟩) (c.entryPath key)

def entryOf (key : Bytes) : Except FileError Bytes → Except DiskError (Option CacheEntry)
  | .error e =>
    if e.action = .reading then .error (.decode key)
    else if e.reason = .absent then .ok none
    else .error (.file e)
  | .ok content =>
    match CacheEntry.decode? content with
    | some entry => .ok (some entry)
    | none => .error (.decode key)

def get (c : DiskCache) (files : Files m) (key : Bytes) : m (Except DiskError (Option Bytes)) := do
  match entryOf key (← files.read (c.entryPath key)) with
  | .error e => pure (.error e)
  | .ok none => pure (.ok none)
  | .ok (some entry) =>
    pure (.ok (if entry.schema = entrySchema then some (entry.code.getD []) else none))

def clear (c : DiskCache) (files : Files m) : m (Except FileError Unit) :=
  files.remove c.entryDirectory

end DiskCache

end Shading
