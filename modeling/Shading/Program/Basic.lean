import Shading.Arena
import Shading.Binary.Instruction
import Shading.Program.Type

/-!
Programs under construction. A program holds the pools that a compilation
fills, the counter of result ids and the budget of words. Operations run in
`Build`: a failing operation keeps what it changed before it failed.
-/

namespace Shading

abbrev ExprRef := Nat

abbrev ConstantRef := Nat

abbrev GlobalRef := Nat

abbrev ProcedureRef := Nat

structure Global where
  name : Bytes
  direction : Direction
  location : Option UInt32
  builtin : Builtin
  type : TypeRef
  pointer : TypeRef
  id : UInt32
  deriving DecidableEq, Repr

structure Local where
  name : Bytes
  type : TypeRef
  pointer : TypeRef
  id : UInt32
  global : Option GlobalRef
  deriving DecidableEq, Repr

structure Constant where
  type : TypeRef
  id : UInt32
  bits : UInt32
  deriving DecidableEq, Repr

inductive SumOperator where
  | add
  | subtract
  | other (code : UInt8)
  deriving DecidableEq, Repr

namespace SumOperator

def ofCode : UInt8 → SumOperator
  | 0 => .add
  | 1 => .subtract
  | code => .other code

def code : SumOperator → UInt8
  | .add => 0
  | .subtract => 1
  | .other code => code

end SumOperator

inductive ScaleOperator where
  | multiply
  | divide
  | other (code : UInt8)
  deriving DecidableEq, Repr

namespace ScaleOperator

def ofCode : UInt8 → ScaleOperator
  | 0 => .multiply
  | 1 => .divide
  | code => .other code

def code : ScaleOperator → UInt8
  | .multiply => 0
  | .divide => 1
  | .other code => code

end ScaleOperator

inductive ExprKind where
  | unknown
  | constant (constant : ConstantRef)
  | load (place : Local)
  | vector (elements : List ExprRef)
  | sum (op : SumOperator) (left right : ExprRef)
  | scale (op : ScaleOperator) (scalar vector : ExprRef) (scalarFirst : Bool)
  deriving DecidableEq, Repr

structure ExprEntry where
  kind : ExprKind
  type : TypeRef
  deriving DecidableEq, Repr

structure Procedure where
  name : Bytes
  id : UInt32
  type : TypeRef
  result : TypeRef
  label : UInt32
  locals : Array Binary.Instruction
  body : Array Binary.Instruction
  returned : Bool
  interface : Array GlobalRef
  deriving DecidableEq, Repr

structure EntryPoint where
  name : Bytes
  stage : Stage
  procedure : ProcedureRef
  deriving DecidableEq, Repr

structure Program where
  limits : Limits
  nextId : UInt32
  types : Arena TypeEntry
  globals : Arena Global
  constants : Arena Constant
  expressions : Arena ExprEntry
  procedures : Arena Procedure
  entryPoints : Arena EntryPoint
  words : WordBudget
  interfacesUsed : Nat
  deriving Repr

inductive Fault where
  | limit (e : Exhausted)
  | indexOverflow (pool : Pool)
  | expressionWithoutKind
  | outOfRange
  | oversized (op : Binary.Opcode)
  | endless
  deriving DecidableEq, Repr

open Text in
def Fault.message : Fault → Bytes
  | .limit e => e.message
  | .indexOverflow pool => pool.overflowMessage
  | .expressionWithoutKind => utf8 "cannot generate expression of kind <nil>"
  | .outOfRange => []
  | .oversized op => op.title ++ utf8 " word count overflow: out of range"
  | .endless => []

def extendedSetId : UInt32 := 1

abbrev Build := EStateM Fault Program

namespace Build

def view {α : Type} (read : Program → Except Fault α) : Build α := do
  match read (← get) with
  | .ok a => pure a
  | .error e => throw e

@[inline] def push {α : Type} (pool : Program → Arena α) (put : Program → Arena α → Program)
    (item : α) : Build Nat := do
  let program ← get
  if (pool program).hasRoom then
    if (pool program).hasIndex then
      let index := (pool program).size
      set (put program ((pool program).add item))
      pure index
    else throw (.indexOverflow (pool program).pool)
  else throw (.limit (pool program).exhausted)

def freshId : Build UInt32 := do
  let program ← get
  set { program with nextId := program.nextId + 1 }
  pure program.nextId

end Build

namespace Program

def typeAt (p : Program) (ref : TypeRef) : Except Fault TypeEntry :=
  match p.types.get? ref with
  | some entry => .ok entry
  | none => .error .outOfRange

def typeId (p : Program) (ref : TypeRef) : Except Fault UInt32 := (p.typeAt ref).map (·.id)

def globalAt (p : Program) (ref : GlobalRef) : Except Fault Global :=
  match p.globals.get? ref with
  | some global => .ok global
  | none => .error .outOfRange

def constantAt (p : Program) (ref : ConstantRef) : Except Fault Constant :=
  match p.constants.get? ref with
  | some constant => .ok constant
  | none => .error .outOfRange

def expressionAt (p : Program) (ref : ExprRef) : Except Fault ExprEntry :=
  match p.expressions.get? ref with
  | some entry => .ok entry
  | none => .error .outOfRange

def procedureAt (p : Program) (ref : ProcedureRef) : Except Fault Procedure :=
  match p.procedures.get? ref with
  | some procedure => .ok procedure
  | none => .error .outOfRange

end Program

end Shading
