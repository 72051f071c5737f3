import Shading.Proofs.Translation

/-!
The meaning of procedures, twice: of the statements as they are written, and
of the instructions that are emitted for them. Both work on the same values,
whose component arithmetic is left open. A written variable is a cell of a
store, and a name stands for the latest cell declared with it.
-/

namespace Shading.Semantics

open Binary (Instruction Opcode)

/-- Arithmetic on the components of values, for every kind of them. -/
structure Arithmetic (σ : Type) where
  literal : UInt32 → σ
  add : ScalarKind → σ → σ → σ
  subtract : ScalarKind → σ → σ → σ
  multiply : ScalarKind → σ → σ → σ
  divide : ScalarKind → σ → σ → σ
  multiply_comm : ∀ kind, kind.isFloat = true → ∀ x y, multiply kind x y = multiply kind y x

/-- Arithmetic on integers that takes literals by their bits. -/
def integers : Arithmetic Int where
  literal bits := bits.toNat
  add _ := (· + ·)
  subtract _ := (· - ·)
  multiply _ := (· * ·)
  divide _ := (· / ·)
  multiply_comm _ _ := Int.mul_comm

/-- A value: a scalar or vector by its components, or a record by its members. -/
inductive Value (σ : Type) where
  | numbers (kind : ScalarKind) (components : List σ)
  | record (members : List (Value σ))

namespace Value

variable {σ : Type}

def kind? : Value σ → Option ScalarKind
  | .numbers kind _ => some kind
  | .record _ => none

def components? (kind : ScalarKind) : Value σ → Option (List σ)
  | .numbers found components => if found = kind then some components else none
  | .record _ => none

def join : List (Value σ) → Option (Value σ)
  | [] => none
  | first :: rest => do
    let kind ← first.kind?
    let parts ← (first :: rest).mapM (components? kind)
    pure (.numbers kind parts.flatten)

def combine (op : ScalarKind → σ → σ → σ) : Value σ → Value σ → Option (Value σ)
  | .numbers kind xs, .numbers kind' ys =>
    if kind = kind' ∧ xs.length = ys.length then some (.numbers kind (List.zipWith (op kind) xs ys))
    else none
  | _, _ => none

def scale (op : ScalarKind → σ → σ → σ) : Value σ → Value σ → Option (Value σ)
  | .numbers kind xs, .numbers kind' ys =>
    if kind = kind' then
      match xs, ys with
      | [x], ys => some (.numbers kind (ys.map (op kind x)))
      | xs, [y] => some (.numbers kind (xs.map (op kind · y)))
      | _, _ => none
    else none
  | _, _ => none

end Value

namespace Arithmetic

variable {σ : Type} (arithmetic : Arithmetic σ)

def sum : SumOperator → ScalarKind → σ → σ → σ
  | .add => arithmetic.add
  | _ => arithmetic.subtract

def scale : ScaleOperator → ScalarKind → σ → σ → σ
  | .multiply => arithmetic.multiply
  | _ => arithmetic.divide

end Arithmetic

section Source

variable {σ : Type}

abbrev Environment := List (Bytes × Nat)

def Environment.cell? (env : Environment) (name : Bytes) : Option Nat :=
  (env.find? fun binding => binding.1 = name).map (·.2)

mutual

def evaluate (arithmetic : Arithmetic σ) (env : Environment) (store : List (Value σ)) :
    Expr → Option (Value σ)
  | .var name => do store[← env.cell? name.text]?
  | .number bits _ => some (.numbers .f32 [arithmetic.literal bits])
  | .paren _ inner _ => evaluate arithmetic env store inner
  | .vector _ first rest _ => do
    let value ← evaluate arithmetic env store first
    let values ← evaluateAll arithmetic env store rest
    Value.join (value :: values)
  | .sum op _ left right => do
    let left ← evaluate arithmetic env store left
    let right ← evaluate arithmetic env store right
    left.combine (arithmetic.sum op) right
  | .scale op _ left right => do
    let left ← evaluate arithmetic env store left
    let right ← evaluate arithmetic env store right
    left.scale (arithmetic.scale op) right
  | .missing _ => none
  | .stopped _ _ => none

def evaluateAll (arithmetic : Arithmetic σ) (env : Environment) (store : List (Value σ)) :
    List Expr → Option (List (Value σ))
  | [] => some []
  | x :: rest => do
    let value ← evaluate arithmetic env store x
    let values ← evaluateAll arithmetic env store rest
    pure (value :: values)

end

inductive Flow (σ : Type) where
  | goes (env : Environment) (store : List (Value σ))
  | returns (store : List (Value σ)) (value : Option (Value σ))

mutual

def execute (arithmetic : Arithmetic σ) (env : Environment) (store : List (Value σ)) :
    Stmt → Option (Flow σ)
  | .declare _ (.ok name) _ _ value _ => do
    let value ← evaluate arithmetic env store value
    pure (.goes ((name.text, store.length) :: env) (store ++ [value]))
  | .declare _ (.error _) _ _ _ _ => none
  | .leave _ _ => some (.returns store none)
  | .giveBack _ value _ => do
    let value ← evaluate arithmetic env store value
    pure (.returns store (some value))
  | .group _ body _ => do
    match ← executeAll arithmetic env store body with
    | .goes _ store => pure (.goes env store)
    | .returns store value => pure (.returns store value)
  | .evaluate value _ => do
    let _ ← evaluate arithmetic env store value
    pure (.goes env store)
  | .assign target _ value _ => do
    let name ← target.variable?
    let cell ← env.cell? name.text
    let value ← evaluate arithmetic env store value
    pure (.goes env (store.set cell value))

def executeAll (arithmetic : Arithmetic σ) (env : Environment) (store : List (Value σ)) :
    List Stmt → Option (Flow σ)
  | [] => some (.goes env store)
  | stmt :: rest => do
    match ← execute arithmetic env store stmt with
    | .goes env store => executeAll arithmetic env store rest
    | .returns store value => pure (.returns store value)

end

/-- Runs a procedure on the contents of all global variables: their contents at its end and the
value it returns. -/
def runRoutine (arithmetic : Arithmetic σ) (routine : Routine) (contents : List (Value σ)) :
    Option (List (Value σ) × Option (Value σ)) := do
  match ← executeAll arithmetic routine.globals.zipIdx.reverse contents routine.body with
  | .goes _ store => pure (store.take contents.length, none)
  | .returns store value => pure (store.take contents.length, value)

end Source

section Machine

variable {σ : Type}

/-- The values of ids, and the variables with their contents. A variable that nothing has been
stored in has none. -/
structure Machine (σ : Type) where
  values : UInt32 → Option (Value σ)
  memory : UInt32 → Option (Option (Value σ))

namespace Machine

def define (m : Machine σ) (id : UInt32) (value : Value σ) : Machine σ :=
  { m with values := fun found => if found = id then some value else m.values found }

def write (m : Machine σ) (id : UInt32) (contents : Option (Value σ)) : Machine σ :=
  { m with memory := fun found => if found = id then some contents else m.memory found }

end Machine

def operation? (arithmetic : Arithmetic σ) : Opcode → Option (ScalarKind → σ → σ → σ)
  | .fAdd | .iAdd => some arithmetic.add
  | .fSub | .iSub => some arithmetic.subtract
  | .iMul => some arithmetic.multiply
  | .fDiv | .sDiv | .uDiv => some arithmetic.divide
  | _ => none

def timesScalar (arithmetic : Arithmetic σ) : Value σ → Value σ → Option (Value σ)
  | .numbers kind xs, .numbers kind' [y] =>
    if kind = kind' ∧ kind.isFloat then some (.numbers kind (xs.map (arithmetic.multiply kind · y)))
    else none
  | _, _ => none

/-- How far instructions get: to their end, or to a return. -/
inductive Progress (σ : Type) where
  | goes (m : Machine σ)
  | ends (m : Machine σ) (value : Option (Value σ))

def step (arithmetic : Arithmetic σ) (m : Machine σ) (i : Instruction) : Option (Progress σ) :=
  match i.opcode with
  | .var => do
    let [_, id, _] := i.operands | none
    pure (.goes (m.write id none))
  | .load => do
    let [_, id, pointer] := i.operands | none
    let contents ← m.memory pointer
    let value ← contents
    pure (.goes (m.define id value))
  | .store => do
    let [pointer, value] := i.operands | none
    let _ ← m.memory pointer
    let value ← m.values value
    pure (.goes (m.write pointer (some value)))
  | .compositeConstruct => do
    let _ :: id :: parts := i.operands | none
    let values ← parts.mapM m.values
    let value ← Value.join values
    pure (.goes (m.define id value))
  | .vectorTimesScalar => do
    let [_, id, vector, scalar] := i.operands | none
    let vector ← m.values vector
    let scalar ← m.values scalar
    let value ← timesScalar arithmetic vector scalar
    pure (.goes (m.define id value))
  | .exit => do
    let [] := i.operands | none
    pure (.ends m none)
  | .exitValue => do
    let [value] := i.operands | none
    let value ← m.values value
    pure (.ends m (some value))
  | op => do
    let [_, id, left, right] := i.operands | none
    let operation ← operation? arithmetic op
    let left ← m.values left
    let right ← m.values right
    let value ← left.combine operation right
    let kind ← value.kind?
    if op.worksOn kind then pure (.goes (m.define id value)) else none

def run (arithmetic : Arithmetic σ) (m : Machine σ) : List Instruction → Option (Progress σ)
  | [] => some (.goes m)
  | i :: rest => do
    match ← step arithmetic m i with
    | .goes m => run arithmetic m rest
    | .ends m value => pure (.ends m value)

def Machine.start (arithmetic : Arithmetic σ) (p : Program) (contents : List (Value σ)) :
    Machine σ where
  values id := (p.constants.toList.find? fun c => c.id = id).map fun c =>
    .numbers .f32 [arithmetic.literal c.bits]
  memory id := ((p.globals.toList.zip contents).find? fun entry => entry.1.id = id).map fun entry =>
    some entry.2

/-- Runs the instructions of a procedure on the contents of all global variables: their contents at
its end and the value it returns. -/
def runProcedure (arithmetic : Arithmetic σ) (p : Program) (procedure : Procedure)
    (contents : List (Value σ)) : Option (List (Value σ) × Option (Value σ)) := do
  match ← run arithmetic (.start arithmetic p contents)
      (procedure.locals.toList ++ procedure.body.toList) with
  | .goes _ => none
  | .ends m value => do
    let contents ← p.globals.toList.mapM fun g => (m.memory g.id).join
    pure (contents, value)

end Machine

end Shading.Semantics

namespace Shading.Program

open Semantics

variable {σ : Type}

inductive Fits (p : Program) : TypeRef → Value σ → Prop
  | scalar {type : TypeRef} {kind : ScalarKind} {x : σ} :
      p.shapeAt type = some (.scalar kind) → Fits p type (.numbers kind [x])
  | vector {type component : TypeRef} {size : UInt32} {kind : ScalarKind} {xs : List σ} :
      p.shapeAt type = some (.vector component size) →
      p.shapeAt component = some (.scalar kind) → xs.length = size.toNat →
      Fits p type (.numbers kind xs)
  | record {type : TypeRef} {members : List Member} {values : List (Value σ)} :
      p.shapeAt type = some (.record members) → members.length = values.length →
      (∀ pair ∈ members.zip values, Fits p pair.1.type pair.2) →
      Fits p type (.record values)

/-- Every global variable has contents of its type. -/
def Holds (p : Program) (contents : List (Value σ)) : Prop :=
  p.globals.toList.length = contents.length ∧
    ∀ pair ∈ p.globals.toList.zip contents, p.Fits pair.1.type pair.2

end Shading.Program
