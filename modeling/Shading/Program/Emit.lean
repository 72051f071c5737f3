import Shading.Program.Types

/-!
Emitting code. Every instruction reserves its words in the shared budget
before it is added to a procedure, and result ids are taken in the order of
evaluation: operands first, a scalar operand before a vector operand.
-/

namespace Shading.Build

open Binary (Instruction Opcode)

def procedure (ref : ProcedureRef) : Build Procedure := view fun p => p.procedureAt ref

def modifyProcedure (ref : ProcedureRef) (change : Procedure → Procedure) : Build Unit :=
  modify fun p => { p with procedures := p.procedures.modify ref change }

def reserve (count : Int64) : Build Unit := do
  let program ← get
  match program.words.reserve count with
  | .ok words => set { program with words }
  | .error e => throw (.limit e)

def floatConstant (bits : UInt32) : Build ConstantRef := do
  match (← get).constants.items.findIdx? fun c => c.type = f32Type ∧ c.bits = bits with
  | some ref => pure ref
  | none => do
    let id := (← get).nextId
    let ref ← push (·.constants) (fun program constants => { program with constants })
      ⟨f32Type, id, bits⟩
    discard freshId
    pure ref

def addExpression (kind : ExprKind) (type : TypeRef) : Build ExprRef :=
  push (·.expressions) (fun program expressions => { program with expressions }) ⟨kind, type⟩

def addGlobal (global : Global) : Build GlobalRef := do
  let ref ←
    push (·.globals) (fun program globals => { program with globals }) { global with id := 0 }
  let id ← freshId
  modify fun p => { p with globals := p.globals.modify ref fun g => { g with id } }
  pure ref

def modifyGlobal (ref : GlobalRef) (change : Global → Global) : Build Unit :=
  modify fun p => { p with globals := p.globals.modify ref change }

def addProcedure (name : Bytes) (result : TypeRef) : Build ProcedureRef := do
  let ref ← push (·.procedures) (fun program procedures => { program with procedures })
    { name, id := 0, type := voidType, result, label := 0, locals := #[], body := #[],
      returned := false, interface := #[] }
  let id ← freshId
  modifyProcedure ref fun p => { p with id }
  let type ← procedureType result
  modifyProcedure ref fun p => { p with type }
  pure ref

def addEntryPoint (entry : EntryPoint) : Build Nat :=
  push (·.entryPoints) (fun program entryPoints => { program with entryPoints }) entry

def registerInterface (ref : ProcedureRef) (place : Local) : Build Unit := do
  match place.global with
  | none => pure ()
  | some global => do
    let entry ← view fun p => p.globalAt global
    let touched := (← procedure ref).interface
    if entry.direction.isInterface && !touched.contains global then
      let program ← get
      if fits (program.interfacesUsed + 1) program.limits.interfaces then
        set { program with interfacesUsed := program.interfacesUsed + 1 }
        modifyProcedure ref fun p => { p with interface := p.interface.push global }
      else throw (.limit ⟨.interfaces, program.limits.interfaces⟩)

def charge (instruction : Instruction) : Build Unit := do
  reserve (.ofNat instruction.wordCount)
  unless instruction.isEncodable do throw (.oversized instruction.opcode)

def emit (ref : ProcedureRef) (op : Opcode) (operands : List UInt32) : Build Unit := do
  charge ⟨op, operands⟩
  modifyProcedure ref fun p => { p with body := p.body.push ⟨op, operands⟩ }

def openBlock (ref : ProcedureRef) : Build Unit := do
  discard <| procedure ref
  reserve 2
  let label ← freshId
  modifyProcedure ref fun p => { p with label }

def functionStorage : UInt32 := 7

def declareVariable (ref : ProcedureRef) (pointer : TypeRef) : Build UInt32 := do
  discard <| procedure ref
  let id ← freshId
  let type ← view fun p => p.typeId pointer
  let instruction : Instruction := ⟨.var, [type, id, functionStorage]⟩
  charge instruction
  modifyProcedure ref fun p => { p with locals := p.locals.push instruction }
  pure id

def store (ref : ProcedureRef) (pointer value : UInt32) : Build Unit := do
  discard <| procedure ref
  emit ref .store [pointer, value]

def exit (ref : ProcedureRef) : Build Unit := do
  discard <| procedure ref
  emit ref .exit []

def exitValue (ref : ProcedureRef) (value : UInt32) : Build Unit := do
  discard <| procedure ref
  emit ref .exitValue [value]

def hasFloats (type : TypeRef) : Build Bool := do
  pure (((← view fun p => p.componentKind? type).map (·.isFloat)).getD false)

def sumOpcode (op : SumOperator) (float : Bool) : Opcode :=
  match op, float with
  | .add, true => .fAdd
  | .add, false => .iAdd
  | _, true => .fSub
  | _, false => .iSub

def scaleOpcode (op : ScaleOperator) (component : Option ScalarKind) : Opcode :=
  match op, component with
  | .multiply, _ => .iMul
  | _, some .f32 => .fDiv
  | _, some .f64 => .fDiv
  | _, some .u32 => .uDiv
  | _, _ => .sDiv

def expressionWithin (ref : ProcedureRef) : Nat → ExprRef → Build UInt32
  | 0, _ => throw .endless
  | fuel + 1, e => do
    let entry ← view fun p => p.expressionAt e
    match entry.kind with
    | .unknown => throw .expressionWithoutKind
    | .constant constant => pure (← view fun p => p.constantAt constant).id
    | .load place => do
      let id ← freshId
      let type ← view fun p => p.typeId place.type
      emit ref .load [type, id, place.id]
      registerInterface ref place
      pure id
    | .vector elements => do
      let values ← elements.mapM (expressionWithin ref fuel)
      let id ← freshId
      let type ← view fun p => p.typeId entry.type
      emit ref .compositeConstruct (type :: id :: values)
      pure id
    | .sum op left right => do
      let left ← expressionWithin ref fuel left
      let right ← expressionWithin ref fuel right
      let float ← hasFloats entry.type
      let id ← freshId
      let type ← view fun p => p.typeId entry.type
      emit ref (sumOpcode op float) [type, id, left, right]
      pure id
    | .scale op scalar vector scalarFirst => do
      let scalar ← expressionWithin ref fuel scalar
      let vector ← expressionWithin ref fuel vector
      let type ← view fun p => p.typeId entry.type
      let component ← view fun p => p.componentKind? entry.type
      if op = .multiply && (component.map (·.isFloat)).getD false then
        let id ← freshId
        emit ref .vectorTimesScalar [type, id, vector, scalar]
        pure id
      else
        let size := ((← view fun p => p.vector? entry.type).map (·.2)).getD 0
        let spread ← freshId
        emit ref .compositeConstruct (type :: spread :: List.replicate size.toNat scalar)
        let id ← freshId
        let operands := if scalarFirst then [spread, vector] else [vector, spread]
        emit ref (scaleOpcode op component) (type :: id :: operands)
        pure id

def expression (ref : ProcedureRef) (e : ExprRef) : Build UInt32 := do
  discard <| procedure ref
  expressionWithin ref ((← get).expressions.size + 1) e

end Shading.Build
