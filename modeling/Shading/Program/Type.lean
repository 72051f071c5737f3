import Shading.Text.Basic

/-!
The vocabulary of programs: scalar kinds, storage classes, the directions of
global variables, built-in meanings, shader stages, and the shapes of types.
Enumerations that are stored by number keep the numbers they have no name for.
-/

namespace Shading

inductive ScalarKind where
  | bool
  | f32
  | f64
  | i32
  | u32
  deriving DecidableEq, Repr

namespace ScalarKind

def all : List ScalarKind := [.bool, .f32, .f64, .i32, .u32]

def code : ScalarKind → Nat
  | .bool => 0
  | .f32 => 1
  | .f64 => 2
  | .i32 => 3
  | .u32 => 4

def name : ScalarKind → Bytes
  | .bool => Text.utf8 "bool"
  | .f32 => Text.utf8 "f32"
  | .f64 => Text.utf8 "f64"
  | .i32 => Text.utf8 "i32"
  | .u32 => Text.utf8 "u32"

def ofName? (name : Bytes) : Option ScalarKind := all.find? fun k => k.name == name

def isFloat : ScalarKind → Bool
  | .f32 | .f64 => true
  | _ => false

def isInteger : ScalarKind → Bool
  | .i32 | .u32 => true
  | _ => false

end ScalarKind

inductive StorageClass where
  | input
  | output
  | internal
  | function
  | other (code : UInt8)
  deriving DecidableEq, Repr

namespace StorageClass

def ofCode : UInt8 → StorageClass
  | 0 => .input
  | 1 => .output
  | 2 => .internal
  | 3 => .function
  | code => .other code

def code : StorageClass → UInt8
  | .input => 0
  | .output => 1
  | .internal => 2
  | .function => 3
  | .other code => code

def name : StorageClass → String
  | .input => "input"
  | .output => "output"
  | .internal => "private"
  | .function => "function"
  | .other _ => "unknown"

end StorageClass

inductive Direction where
  | input
  | output
  | internal
  | other (code : UInt8)
  deriving DecidableEq, Repr

namespace Direction

def ofCode : UInt8 → Direction
  | 0 => .input
  | 1 => .output
  | 2 => .internal
  | code => .other code

def code : Direction → UInt8
  | .input => 0
  | .output => 1
  | .internal => 2
  | .other code => code

def storageClass : Direction → StorageClass
  | .input => .input
  | .output => .output
  | _ => .internal

def isInterface : Direction → Bool
  | .input | .output => true
  | _ => false

end Direction

inductive Builtin where
  | absent
  | position
  | other (code : UInt8)
  deriving DecidableEq, Repr

namespace Builtin

def ofCode : UInt8 → Builtin
  | 0 => .absent
  | 1 => .position
  | code => .other code

def code : Builtin → UInt8
  | .absent => 0
  | .position => 1
  | .other code => code

end Builtin

inductive Stage where
  | vertex
  | fragment
  | other (code : UInt8)
  deriving DecidableEq, Repr

namespace Stage

def ofCode : UInt8 → Stage
  | 0 => .vertex
  | 1 => .fragment
  | code => .other code

def name : Stage → String
  | .vertex => "vertex"
  | .fragment => "fragment"
  | .other _ => "unknown"

end Stage

abbrev TypeRef := Nat

structure Member where
  name : Bytes
  type : TypeRef
  builtin : Builtin
  deriving DecidableEq, Repr

inductive Shape where
  | void
  | scalar (kind : ScalarKind)
  | vector (component : TypeRef) (size : UInt32)
  | pointer (base : TypeRef) (storage : StorageClass)
  | procedure (result : TypeRef)
  | record (members : List Member)
  deriving DecidableEq, Repr

structure TypeEntry where
  name : Bytes
  id : UInt32
  shape : Shape
  deriving DecidableEq, Repr

def voidType : TypeRef := 0

def f32Type : TypeRef := 1

def isReservedType (name : Bytes) : Bool :=
  name == Text.utf8 "void" || (ScalarKind.ofName? name).isSome

end Shading
