import Shading.Elaborate.Basic

/-!
Elaborating expressions. Sums take two values of one numeric type; a product
or quotient takes a vector and a scalar of its component type in either order;
a vector literal joins scalars and vectors of one component type.
-/

namespace Shading

def SumOperator.verb : SumOperator → Verb
  | .add => .add
  | _ => .subtract

def ScaleOperator.verb : ScaleOperator → Verb
  | .multiply => .multiply
  | _ => .divide

namespace Elaborate

def isNumeric (type : TypeRef) : Elaborate Bool := do
  match ← view fun p => p.componentKind? type with
  | none => pure false
  | some kind => pure (kind ≠ .bool)

def sum (op : SumOperator) (opPos last : Position) (left right : ExprRef) : Elaborate ExprRef := do
  let type ← typeOf left
  if type ≠ (← typeOf right) then refuse opPos (.operandsDiffer op.verb)
  unless ← isNumeric type do refuse opPos (.operandType op.verb (← typeName type))
  build last (Build.addExpression (.sum op left right) type)

def isVectorOf (type component : TypeRef) : Elaborate Bool := do
  pure ((← view fun p => p.vector? type).map (·.1) = some component)

def scale (op : ScaleOperator) (opPos last : Position) (left right : ExprRef) :
    Elaborate ExprRef := do
  let leftType ← typeOf left
  let rightType ← typeOf right
  if ← isVectorOf leftType rightType then
    unless ← isNumeric leftType do refuse opPos (.operandType op.verb (← typeName leftType))
    build last (Build.addExpression (.scale op right left false) leftType)
  else if ← isVectorOf rightType leftType then
    unless ← isNumeric rightType do refuse opPos (.operandType op.verb (← typeName rightType))
    build last (Build.addExpression (.scale op left right true) rightType)
  else refuse opPos .notScalarByVector

def firstElement (e : ExprRef) (pos : Position) : Elaborate (TypeRef × UInt32) := do
  let type ← typeOf e
  let (component, count) := (← view fun p => p.vector? type).getD (type, 1)
  if (← view fun p => p.scalarKind? component).isNone then
    refuse pos (.elementType (← typeName component))
  pure (component, count)

def elementSize (component : TypeRef) (e : ExprRef) (pos : Position) : Elaborate UInt32 := do
  let type ← typeOf e
  match ← view fun p => p.vector? type with
  | some (inner, size) =>
    if inner = component then pure size
    else if type = component then pure 1
    else refuse pos .elementsDiffer
  | none => if type = component then pure 1 else refuse pos .elementsDiffer

def vectorLiteral (opened closed : Position) (component : TypeRef) (count : UInt32)
    (elements : List ExprRef) : Elaborate ExprRef := do
  if count < 2 || 4 < count then refuse opened (.literalSize count)
  let state ← get
  let used := state.vectorElements + elements.length
  let limit := state.program.limits.vectorElements
  unless fits used limit do refuse closed (.limit ⟨.vectorElements, limit⟩)
  set { state with vectorElements := used }
  build closed do
    let type ← Build.vectorType component count
    Build.addExpression (.vector elements) type

mutual

def expr : Expr → Elaborate ExprRef
  | .missing why => throw (.refused why)
  | .stopped operand why => do
    discard <| expr operand
    throw (.refused why)
  | .var name => do
    match (← get).scopes.lookup name.text with
    | none => refuse name.pos (.unknownVariable name.text)
    | some place => build name.pos (Build.addExpression (.load place) place.type)
  | .number bits pos =>
    build pos do
      let constant ← Build.floatConstant bits
      Build.addExpression (.constant constant) f32Type
  | .paren _ inner close => do
    let e ← expr inner
    discard <| part close
    pure e
  | .sum op opPos left right => do
    let l ← expr left
    let r ← expr right
    sum op opPos right.last l r
  | .scale op opPos left right => do
    let l ← expr left
    let r ← expr right
    scale op opPos right.last l r
  | .vector pos first rest close => do
    let e ← expr first
    let (component, count) ← firstElement e first.start
    let (others, count) ← elements component count rest
    let close ← part close
    vectorLiteral pos close component count (e :: others)

def elements (component : TypeRef) (count : UInt32) :
    List Expr → Elaborate (List ExprRef × UInt32)
  | [] => pure ([], count)
  | element :: rest => do
    let e ← expr element
    let size ← elementSize component e element.start
    let (others, count) ← elements component (count + size) rest
    pure (e :: others, count)

end

end Elaborate

end Shading
