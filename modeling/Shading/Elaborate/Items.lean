import Shading.Elaborate.Statements

/-!
Elaborating the items of a source file. An attribute waits for the next
declaration and must fit it.
-/

namespace Shading.Elaborate

def noneWaits {α : Type} (waiting : Elaboration → Option (α × Position)) (cause : Cause) :
    Elaborate Unit := do
  if let some (_, pos) := waiting (← get) then refuse pos cause

def takeStage : Elaborate (Option Stage) := do
  let waiting := (← get).stage
  modify ({ · with stage := none })
  pure (waiting.map (·.1))

def takeBuiltin : Elaborate (Option (Builtin × Position)) := do
  let waiting := (← get).builtin
  modify ({ · with builtin := none })
  pure waiting

def stageAttribute (pos : Position) (stage : Stage) (close : Part Position) : Elaborate Unit := do
  if (← get).stage.isSome then refuse pos .duplicateStage
  modify ({ · with stage := some (stage, pos) })
  discard <| part close

def builtinAttribute (pos : Position) (builtin : Builtin) (close : Part Position) :
    Elaborate Unit := do
  if (← get).builtin.isSome then refuse pos .duplicateBuiltin
  modify ({ · with builtin := some (builtin, pos) })
  discard <| part close

def location (direction : Direction) : Option Placement → Elaborate (Option UInt32)
  | none => pure none
  | some placement => do
    if direction = .internal then refuse placement.pos .locationOnPrivate
    let (value, pos) ← part placement.value
    if 0 ≤ value.toInt && value.toInt < 0x100000000 then pure (some value.toUInt64.toUInt32)
    else refuse pos (.locationOutOfRange value)

def declareGlobal (pos : Position) (direction : Direction) (name : Part Name)
    (written : TypeSyntax) (placement : Part (Option Placement))
    (builtin : Option (Builtin × Position)) : Elaborate Unit := do
  let earlier := (← get).program.globals.toList.map (·.name)
  let ref ← build pos (Build.addGlobal ⟨[], direction, none, .absent, voidType, voidType, 0⟩)
  let name ← part name
  if earlier.contains name.text then refuse name.pos (.globalRedeclared name.text)
  let type ← variableType name.text written
  let pointer ← build written.last (Build.pointerType type direction.storageClass)
  let id := (← view fun p => p.globalAt ref).id
  scope written.last (·.add ⟨name.text, type, pointer, id, some ref⟩)
  let location ← location direction (← part placement)
  if builtin.isSome then checkPosition type written.start
  let meaning := (builtin.map (·.1)).getD .absent
  build pos (Build.modifyGlobal ref fun _ =>
    ⟨name.text, direction, location, meaning, type, pointer, id⟩)

def global (pos : Position) (direction : Direction) (name : Part Name) (written : TypeSyntax)
    (placement : Part (Option Placement)) : Elaborate Unit := do
  noneWaits (·.stage) .stageWithoutProcedure
  let builtin ← takeBuiltin
  if let some (_, builtinPos) := builtin then
    if direction = .internal then refuse builtinPos .builtinOnPrivate
  declareGlobal pos direction name written placement builtin

def countMember (pos : Position) : Elaborate Unit := do
  let state ← get
  let limit := state.program.limits.recordMembers
  unless fits (state.recordMembers + 1) limit do refuse pos (.limit ⟨.recordMembers, limit⟩)
  set { state with recordMembers := state.recordMembers + 1 }

def member (record : Bytes) (earlier : List Member) (written : MemberSyntax) :
    Elaborate Member := do
  let name ← part written.name
  if earlier.any fun m => m.name = name.text then
    refuse name.pos (.memberRedeclared name.text record)
  let type ← variableType name.text written.type
  if written.builtin = .position then checkPosition type written.type.start
  countMember (← part written.close)
  pure ⟨name.text, type, written.builtin⟩

def members (record : Bytes) (earlier : List Member) : List MemberSyntax → Elaborate (List Member)
  | [] => pure earlier.reverse
  | written :: rest => do
    let member ← member record earlier written
    members record (member :: earlier) rest

def record (name : Part Name) (written : List MemberSyntax) (close : Part Position) :
    Elaborate Unit := do
  noneWaits (·.stage) .stageWithoutProcedure
  noneWaits (·.builtin) .builtinOnRecord
  let name ← part name
  if isReservedType name.text || (vectorSize? name.text).isSome then
    refuse name.pos (.typeReserved name.text)
  if (← get).program.types.items.any fun t => t.name = name.text then
    refuse name.pos (.typeRedeclared name.text)
  let members ← members name.text [] written
  let close ← part close
  discard <| build close (Build.addType name.text (.record members))

def closeProcedure (pos : Position) (name : Bytes) (stage : Option Stage) (ref : ProcedureRef) :
    Elaborate Unit := do
  scope pos (·.pop)
  if let some stage := stage then
    discard <| build pos (Build.addEntryPoint ⟨name, stage, ref⟩)

def procedureItem (name : Part Name) (written : TypeSyntax) (body : List Stmt)
    (close : Part Position) : Elaborate Unit := do
  noneWaits (·.builtin) .builtinOnProcedure
  let stage ← takeStage
  let name ← part name
  if (← get).program.procedures.items.any fun p => p.name = name.text then
    refuse name.pos (.procedureRedeclared name.text)
  let result ← type written
  if stage.isSome && result ≠ voidType then
    refuse written.start (.entryPointReturns name.text (← typeName result))
  let ref ← build written.last (Build.addProcedure name.text result)
  scope written.last (·.push)
  build written.last (Build.openBlock ref)
  block ref body
  let close ← part close
  unless (← procedure ref).returned do
    if result ≠ voidType then refuse close .missingReturn
    build close (Build.exit ref)
  closeProcedure close name.text stage ref

def item : Item → Elaborate Unit
  | .stage pos stage close => stageAttribute pos stage close
  | .builtin pos builtin close => builtinAttribute pos builtin close
  | .global pos direction name type placement => global pos direction name type placement
  | .record _ name members close => record name members close
  | .procedure _ name result body close => procedureItem name result body close

def sourceTree (tree : SourceTree) : Elaborate Unit := do
  tree.items.forM item
  discard <| part tree.ending
  noneWaits (·.stage) .stageLeftOver
  noneWaits (·.builtin) .builtinLeftOver

end Shading.Elaborate
