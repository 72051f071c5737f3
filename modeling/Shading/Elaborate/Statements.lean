import Shading.Elaborate.Expressions

/-!
Elaborating statements. Code is emitted as soon as a statement has been
checked, and nothing may follow a return.
-/

namespace Shading.Elaborate

def procedure (ref : ProcedureRef) : Elaborate Procedure := view fun p => p.procedureAt ref

def declaration (ref : ProcedureRef) (name : Part Name) (written : TypeSyntax)
    (equal : Part Position) (value : Expr) (close : Part Position) : Elaborate Unit := do
  let name ← part name
  let type ← variableType name.text written
  let pointer ← build written.last (Build.pointerType type .function)
  discard <| part equal
  let e ← expr value
  let given ← typeOf e
  if given ≠ type then
    refuse value.start (.initializerType name.text (← typeName type) (← typeName given))
  let id ← build value.last do
    let id ← Build.declareVariable ref pointer
    let result ← Build.expression ref e
    Build.store ref id result
    pure id
  let close ← part close
  scope close (·.add ⟨name.text, type, pointer, id, none⟩)

def exit (ref : ProcedureRef) (close : Position) : Elaborate Unit := do
  let procedure ← procedure ref
  if procedure.result ≠ voidType then
    refuse close (.returnNeedsValue procedure.name (← typeName procedure.result))
  build close do
    Build.modifyProcedure ref fun p => { p with returned := true }
    Build.exit ref

def exitValue (ref : ProcedureRef) (value : Expr) (close : Part Position) : Elaborate Unit := do
  let e ← expr value
  let close ← part close
  let type ← typeOf e
  let procedure ← procedure ref
  if procedure.result = voidType then refuse value.start (.returnFromVoid procedure.name)
  if type ≠ procedure.result then
    refuse value.start (.returnType (← typeName type) (← typeName procedure.result))
  build close do
    let result ← Build.expression ref e
    Build.modifyProcedure ref fun p => { p with returned := true }
    Build.exitValue ref result

def assignment (ref : ProcedureRef) (target : Expr) (opPos : Position) (value : Expr)
    (close : Part Position) : Elaborate Unit := do
  let left ← expr target
  let e ← expr value
  if (← typeOf left) ≠ (← typeOf e) then refuse opPos .assignmentTypes
  let result ← build value.last (Build.expression ref e)
  match (← view fun p => p.expressionAt left).kind with
  | .load place => do
    if let some global := place.global then
      let global ← view fun p => p.globalAt global
      if global.direction = .input then refuse target.start (.assignmentToInput global.name)
    build value.last do
      Build.registerInterface ref place
      Build.store ref place.id result
    discard <| part close
  | _ => refuse target.start .assignmentTarget

mutual

def statement (ref : ProcedureRef) : Stmt → Elaborate Unit
  | .declare _ name type equal value close => declaration ref name type equal value close
  | .leave _ close => exit ref close
  | .giveBack _ value close => exitValue ref value close
  | .group pos body close => do
    scope pos (·.push)
    block ref body
    let close ← part close
    scope close (·.pop)
  | .evaluate value close => do
    let e ← expr value
    let close ← part close
    discard <| build close (Build.expression ref e)
  | .assign target opPos value close => assignment ref target opPos value close

def block (ref : ProcedureRef) : List Stmt → Elaborate Unit
  | [] => pure ()
  | next :: rest => do
    if (← procedure ref).returned then refuse next.start .statementAfterReturn
    statement ref next
    block ref rest

end

end Shading.Elaborate
