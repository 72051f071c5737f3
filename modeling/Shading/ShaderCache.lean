import Shading.Compile
import Shading.DiskCache

/-!
The shader cache keeps the driver modules of shader files, each compiled once,
under a name that equivalent spellings of a path share. What the cache uses of
its surroundings is a record of operations. Any of them may use the same cache
while it runs, so what is loaded is read again after each.
-/

namespace Shading

open Text

structure LoadedShader where
  path : Bytes
  code : Bytes
  handle : UInt64
  deriving DecidableEq, Repr

structure LoadedShaders where
  entries : List (Bytes × LoadedShader) := []
  deriving DecidableEq, Repr

namespace LoadedShaders

def get? (s : LoadedShaders) (key : Bytes) : Option LoadedShader :=
  (s.entries.find? (·.1 = key)).map (·.2)

def insert (s : LoadedShaders) (key : Bytes) (shader : LoadedShader) : LoadedShaders :=
  ⟨s.entries.filter (·.1 ≠ key) ++ [(key, shader)]⟩

def size (s : LoadedShaders) : Nat := s.entries.length

end LoadedShaders

inductive ShaderError where
  | file (e : FileError)
  | compile (path source : Bytes) (e : CompileError)
  | device (path reason : Bytes)
  | notLoaded (path : Bytes)
  | closed (path : Bytes)
  | canceled
  deriving DecidableEq, Repr

def ShaderError.message : ShaderError → Bytes
  | .file e => e.message
  | .compile path source e => utf8 "compile " ++ path ++ utf8 ": " ++ e.message source
  | .device path reason => utf8 "create shader module for " ++ path ++ utf8 ": " ++ reason
  | .notLoaded path => utf8 "shader " ++ quote path ++ utf8 " is not loaded"
  | .closed path => utf8 "shader " ++ quote path ++ utf8 " was closed during reload"
  | .canceled => utf8 "context canceled"

structure ShaderHost (m : Type → Type) where
  files : Files m
  create : Bytes → m (Except Bytes UInt64)
  destroy : UInt64 → m Unit
  log : LogRecord → m Unit
  limits : Limits
  disk : Option DiskCache

namespace ShaderCache

variable {m : Type → Type} [Monad m] [MonadStateOf LoadedShaders m]

def compileFailure (path source : Bytes) (e : CompileError) : LogRecord :=
  let values := match e with
    | .refused why =>
      [("line", .number why.pos.line), ("column", .number why.pos.column),
        ("error", .text why.message)]
    | e => [("error", .text (e.message source))]
  ⟨.error, "failed to compile shader file", ("path", .text path) :: values⟩

def cached? (host : ShaderHost m) (path source : Bytes) : m (Option Bytes) := do
  match host.disk with
  | none => pure none
  | some disk =>
    match ← disk.get host.files (cacheKey source host.limits) with
    | .ok code => pure code
    | .error e => do
      host.log ⟨.warn, "disk cache read failed", [("path", .text path), ("error", .failure e)]⟩
      pure none

def keep (host : ShaderHost m) (path source code : Bytes) : m Unit := do
  if let some disk := host.disk then
    if let .error e ← disk.put host.files (cacheKey source host.limits) (some code) then
      host.log ⟨.warn, "disk cache write failed",
        [("path", .text path), ("error", .failure (.file e))]⟩

def codeOf (host : ShaderHost m) (path source : Bytes) : m (Except ShaderError Bytes) := do
  match ← cached? host path source with
  | some code => pure (.ok code)
  | none =>
    match Shading.compile source host.limits with
    | .error e => do
      host.log (compileFailure path source e)
      pure (.error (.compile path source e))
    | .ok code => do
      keep host path source code
      pure (.ok code)

def codeOfFile (host : ShaderHost m) (path : Bytes) : m (Except ShaderError Bytes) := do
  match ← host.files.read path with
  | .error e => do
    host.log ⟨.error, "failed to open shader file",
      [("path", .text path), ("error", .text e.message)]⟩
    pure (.error (.file e))
  | .ok source => codeOf host path source

def build (host : ShaderHost m) (path : Bytes) : m (Except ShaderError (Bytes × UInt64)) := do
  match ← codeOfFile host path with
  | .error e => pure (.error e)
  | .ok code =>
    match ← host.create code with
    | .ok handle => pure (.ok (code, handle))
    | .error reason => do
      host.log ⟨.error, "failed to create shader module",
        [("path", .text path), ("error", .text reason)]⟩
      pure (.error (.device path reason))

def lookup (path : Bytes) : m (Option LoadedShader) := do
  pure ((← getThe LoadedShaders).get? (Path.key path))

def load (host : ShaderHost m) (path : Bytes) : m (Except ShaderError LoadedShader) := do
  match ← lookup path with
  | some shader => pure (.ok shader)
  | none =>
    match ← build host path with
    | .error e => pure (.error e)
    | .ok (code, handle) =>
      match ← lookup path with
      | some shader => do
        host.destroy handle
        pure (.ok shader)
      | none => do
        let shader : LoadedShader := ⟨path, code, handle⟩
        modifyThe LoadedShaders (·.insert (Path.key path) shader)
        host.log ⟨.debug, "shader loaded",
          [("path", .text path), ("bytes", .number code.length)]⟩
        pure (.ok shader)

def reload (host : ShaderHost m) (path : Bytes) : m (Except ShaderError Unit) := do
  match ← lookup path with
  | none => pure (.error (.notLoaded path))
  | some _ =>
    match ← build host path with
    | .error e => pure (.error e)
    | .ok (code, handle) =>
      match ← lookup path with
      | none => do
        host.destroy handle
        pure (.error (.closed path))
      | some shader => do
        host.destroy shader.handle
        modifyThe LoadedShaders (·.insert (Path.key path) { shader with code, handle })
        host.log ⟨.info, "shader reloaded", [("path", .text path)]⟩
        pure (.ok ())

def loadEach (host : ShaderHost m) : List Bytes → m (Except ShaderError Unit)
  | [] => pure (.ok ())
  | path :: rest => do
    match ← load host path with
    | .ok _ => loadEach host rest
    | .error e => pure (.error e)

def loadAll (host : ShaderHost m) (canceled : Bool) (paths : List Bytes) :
    m (Except ShaderError Unit) :=
  if canceled && paths ≠ [] then pure (.error .canceled) else loadEach host paths

def size : m Nat := do pure (← getThe LoadedShaders).size

def close (host : ShaderHost m) : m Unit := do
  let shaders ← getThe LoadedShaders
  set ({} : LoadedShaders)
  shaders.entries.forM fun (_, shader) => host.destroy shader.handle

end ShaderCache

end Shading
