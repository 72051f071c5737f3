import Shading.Program.Basic

/-!
The types of a program. Vectors, pointers and procedure types are registered
once and found again by their shape; scalars are registered when they are
first named; records are nominal.
-/

namespace Shading

namespace Build

def addType (name : Bytes) (shape : Shape) : Build TypeRef := do
  let id := (← get).nextId
  let ref ← push (·.types) (fun program types => { program with types }) ⟨name, id, shape⟩
  discard freshId
  pure ref

def typeOfShape (shape : Shape) : Build TypeRef := do
  match (← get).types.items.findIdx? (·.shape = shape) with
  | some ref => pure ref
  | none => addType [] shape

def vectorType (component : TypeRef) (size : UInt32) : Build TypeRef :=
  typeOfShape (.vector component size)

def pointerType (base : TypeRef) (storage : StorageClass) : Build TypeRef :=
  typeOfShape (.pointer base storage)

def procedureType (result : TypeRef) : Build TypeRef := typeOfShape (.procedure result)

def namedType (name : Bytes) : Build (Option TypeRef) := do
  match (← get).types.items.findIdx? fun t => t.name ≠ [] ∧ t.name = name with
  | some ref => pure (some ref)
  | none =>
    match ScalarKind.ofName? name with
    | some kind => some <$> addType name (.scalar kind)
    | none => pure none

end Build

namespace Program

def new (limits : Limits) : Except Exhausted Program :=
  let limits := limits.withDefaults
  let program : Program :=
    { limits
      nextId := extendedSetId + 1
      types := .empty .types limits.types
      globals := .empty .globals limits.globals
      constants := .empty .constants limits.constants
      expressions := .empty .expressions limits.expressions
      procedures := .empty .procedures limits.procedures
      entryPoints := .empty .entryPoints limits.entryPoints
      words := ⟨0, limits.words⟩
      interfacesUsed := 0 }
  let seed : Build Unit := do
    discard <| Build.addType (Text.utf8 "void") .void
    discard <| Build.addType (Text.utf8 "f32") (.scalar .f32)
  match seed.run program with
  | .ok _ program => .ok program
  | .error _ program => .error program.types.exhausted

def scalarKind? (p : Program) (ref : TypeRef) : Except Fault (Option ScalarKind) := do
  match (← p.typeAt ref).shape with
  | .scalar kind => pure (some kind)
  | _ => pure none

def vector? (p : Program) (ref : TypeRef) : Except Fault (Option (TypeRef × UInt32)) := do
  match (← p.typeAt ref).shape with
  | .vector component size => pure (some (component, size))
  | _ => pure none

def componentKind? (p : Program) (ref : TypeRef) : Except Fault (Option ScalarKind) := do
  match ← p.vector? ref with
  | some (component, _) => p.scalarKind? component
  | none => p.scalarKind? ref

def hasScalar (p : Program) (kind : ScalarKind) : Bool :=
  p.types.items.any fun t => t.shape = .scalar kind

def typeNameWithin (p : Program) : Nat → TypeRef → Except Fault Bytes
  | 0, _ => .error .endless
  | fuel + 1, ref => do
    let entry ← p.typeAt ref
    match entry.shape with
    | .vector component size =>
      let inner ← p.typeNameWithin fuel component
      pure (Text.utf8 "vec" ++ Text.decimal size.toNat ++ Text.utf8 "<" ++ inner ++ Text.utf8 ">")
    | .pointer base storage =>
      let inner ← p.typeNameWithin fuel base
      pure (Text.utf8 "ptr<" ++ Text.utf8 storage.name ++ Text.utf8 ", " ++ inner ++ Text.utf8 ">")
    | .procedure result =>
      let inner ← p.typeNameWithin fuel result
      pure (Text.utf8 "procedure() -> " ++ inner)
    | _ => pure entry.name

def typeName (p : Program) (ref : TypeRef) : Except Fault Bytes :=
  p.typeNameWithin (p.types.size + 1) ref

end Program

end Shading
