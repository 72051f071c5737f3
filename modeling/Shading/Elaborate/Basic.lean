import Shading.Program.Emit
import Shading.Scope
import Shading.Syntax

/-!
Elaboration turns a syntax tree into a program. It walks the tree in source
order and stops at the first thing wrong with it; a full pool is reported at
the last token that was read when it was found full.
-/

namespace Shading

structure Elaboration where
  program : Program
  scopes : Scopes
  stage : Option (Stage × Position)
  builtin : Option (Builtin × Position)
  recordMembers : Nat
  vectorElements : Nat
  deriving Repr

namespace Elaboration

def ofProgram (program : Program) : Elaboration :=
  ⟨program, .ofLimits program.limits, none, none, 0, 0⟩

end Elaboration

inductive Stop where
  | refused (why : Diagnostic)
  | fault (f : Fault)
  deriving DecidableEq, Repr

abbrev Elaborate := StateT Elaboration (Except Stop)

namespace Elaborate

def refuse {α : Type} (pos : Position) (cause : Cause) : Elaborate α :=
  throw (.refused ⟨pos, cause⟩)

def part {α : Type} : Part α → Elaborate α
  | .ok a => pure a
  | .error why => throw (.refused why)

def build {α : Type} (pos : Position) (operation : Build α) : Elaborate α :=
  fun ⟨program, scopes, stage, builtin, recordMembers, vectorElements⟩ =>
    match operation.run program with
    | .ok a program => .ok (a, ⟨program, scopes, stage, builtin, recordMembers, vectorElements⟩)
    | .error (.limit e) _ => .error (.refused ⟨pos, .limit e⟩)
    | .error (.indexOverflow pool) _ => .error (.refused ⟨pos, .indexOverflow pool⟩)
    | .error f _ => .error (.fault f)

def view {α : Type} (read : Program → Except Fault α) : Elaborate α := do
  match read (← get).program with
  | .ok a => pure a
  | .error f => throw (.fault f)

def scope (pos : Position) (operation : Scopes → Except ScopeError Scopes) : Elaborate Unit := do
  let state ← get
  match operation state.scopes with
  | .ok scopes => set { state with scopes }
  | .error (.limit e) => refuse pos (.limit e)
  | .error (.indexOverflow pool) => refuse pos (.indexOverflow pool)
  | .error _ => throw (.fault .outOfRange)

def typeName (type : TypeRef) : Elaborate Bytes := view fun p => p.typeName type

def typeOf (e : ExprRef) : Elaborate TypeRef := view fun p => (p.expressionAt e).map (·.type)

def type : TypeSyntax → Elaborate TypeRef
  | .missing why => throw (.refused why)
  | .named name => do
    match ← build name.pos (Build.namedType name.text) with
    | some found => pure found
    | none => refuse name.pos (.unknownType name.text)
  | .vector _ size component close => do
    let found ← type component
    if (← view fun p => p.scalarKind? found).isNone then
      refuse component.start (.componentNotScalar (← typeName found))
    let close ← part close
    build close (Build.vectorType found size)

def variableType (name : Bytes) (written : TypeSyntax) : Elaborate TypeRef := do
  let found ← type written
  if found = voidType then refuse written.start (.voidVariable name)
  pure found

def checkPosition (type : TypeRef) (pos : Position) : Elaborate Unit := do
  if (← view fun p => p.vector? type) ≠ some (f32Type, 4) then refuse pos .positionType

end Elaborate

end Shading
