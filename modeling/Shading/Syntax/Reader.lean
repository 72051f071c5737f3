import Shading.Syntax
import Shading.Token.Lexer

/-!
Reading syntax trees from tokens. A failure replaces the tokens that are left
by itself, so everything read after it is that failure again: a reader never
has to ask whether an earlier one failed.
-/

namespace Shading

abbrev Reading := ReaderT Nat (StateM Tokens)

namespace Reading

def peek : Reading (Part Token) := do
  let left ← get
  match left.tokens, left.ending with
  | token :: _, _ => pure (.ok token)
  | [], .ok pos => pure (.ok ⟨.eof, pos⟩)
  | [], .error why => pure (.error why)

def skip : Reading Unit := modify fun left => { left with tokens := left.tokens.drop 1 }

def next : Reading (Part Token) := do
  let token ← peek
  skip
  pure token

def stop {α : Type} (why : Diagnostic) : Reading (Part α) := do
  set (⟨[], .error why⟩ : Tokens)
  pure (.error why)

def expect (kind : Kind) : Reading (Part Position) := do
  match ← next with
  | .error why => pure (.error why)
  | .ok token =>
    if token.kind = kind then pure (.ok token.pos)
    else stop ⟨token.pos, .expected kind token.kind⟩

def name : Reading (Part Name) := do
  match ← next with
  | .error why => pure (.error why)
  | .ok ⟨.sym text, pos⟩ => pure (.ok ⟨text, pos⟩)
  | .ok token => stop ⟨token.pos, .expected .sym token.kind⟩

def integer : Reading (Part (Int64 × Position)) := do
  match ← next with
  | .error why => pure (.error why)
  | .ok ⟨.integer value, pos⟩ => pure (.ok (value, pos))
  | .ok token => stop ⟨token.pos, .expected .integer token.kind⟩

def isNext (kind : Kind) : Reading Bool := do
  match ← peek with
  | .ok token => pure (token.kind = kind)
  | .error _ => pure false

def bound : Reading Nat := read

def typeWithin : Nat → Reading TypeSyntax
  | 0 => do
    match ← expect .sym with
    | .ok pos => pure (.named ⟨[], pos⟩)
    | .error why => pure (.missing why)
  | fuel + 1 => do
    match ← name with
    | .error why => pure (.missing why)
    | .ok name =>
      match vectorSize? name.text with
      | none => pure (.named name)
      | some size => do
        discard <| expect (.mark .less)
        let component ← typeWithin fuel
        let close ← expect (.mark .greater)
        pure (.vector name.pos size component close)

def type : Reading TypeSyntax := do typeWithin ((← bound) + 1)

def noExpression : Reading Expr := do
  match ← peek with
  | .error why => pure (.missing why)
  | .ok token => pure (.missing ⟨token.pos, .expectedExpression⟩)

mutual

def operand : Nat → Reading Expr
  | 0 => noExpression
  | fuel + 1 => do
    match ← next with
    | .error why => pure (.missing why)
    | .ok ⟨.sym text, pos⟩ => pure (.var ⟨text, pos⟩)
    | .ok ⟨.number bits, pos⟩ => pure (.number bits pos)
    | .ok ⟨.mark .leftParen, pos⟩ => do
      let inner ← sum fuel
      let close ← expect (.mark .rightParen)
      pure (.paren pos inner close)
    | .ok ⟨.mark .leftBrace, pos⟩ => do
      let first ← sum fuel
      let rest ← elements fuel
      let close ← expect (.mark .rightBrace)
      pure (.vector pos first rest close)
    | .ok token => do
      let why : Diagnostic := ⟨token.pos, .expectedExpression⟩
      discard <| (stop why : Reading (Part Unit))
      pure (.missing why)

def factors : Nat → Expr → Reading Expr
  | 0, left => pure left
  | fuel + 1, left => do
    match ← peek with
    | .error why => pure (.stopped left why)
    | .ok ⟨.mark .star, pos⟩ => do
      skip
      let right ← operand fuel
      factors fuel (.scale .multiply pos left right)
    | .ok ⟨.mark .slash, pos⟩ => do
      skip
      let right ← operand fuel
      factors fuel (.scale .divide pos left right)
    | .ok _ => pure left

def product : Nat → Reading Expr
  | 0 => noExpression
  | fuel + 1 => do
    let left ← operand fuel
    factors fuel left

def terms : Nat → Expr → Reading Expr
  | 0, left => pure left
  | fuel + 1, left => do
    match ← peek with
    | .ok ⟨.mark .plus, pos⟩ => do
      skip
      let right ← product fuel
      terms fuel (.sum .add pos left right)
    | .ok ⟨.mark .minus, pos⟩ => do
      skip
      let right ← product fuel
      terms fuel (.sum .subtract pos left right)
    | _ => pure left

def sum : Nat → Reading Expr
  | 0 => noExpression
  | fuel + 1 => do
    let left ← product fuel
    terms fuel left

def elements : Nat → Reading (List Expr)
  | 0 => pure []
  | fuel + 1 => do
    if ← isNext (.mark .comma) then
      skip
      let element ← sum fuel
      let rest ← elements fuel
      pure (element :: rest)
    else pure []

end

def expression : Reading Expr := do sum (3 * ((← bound) + 1))

def semicolon : Reading (Part Position) := expect (.mark .semicolon)

def declaration (pos : Position) : Reading Stmt := do
  let name ← name
  discard <| expect (.mark .colon)
  let type ← type
  let equal ← expect (.mark .equal)
  let value ← expression
  let close ← semicolon
  pure (.declare pos name type equal value close)

def result (pos : Position) : Reading Stmt := do
  match ← peek with
  | .ok ⟨.mark .semicolon, close⟩ => do
    skip
    pure (.leave pos close)
  | _ => do
    let value ← expression
    let close ← semicolon
    pure (.giveBack pos value close)

def simple : Reading Stmt := do
  let value ← expression
  match ← next with
  | .ok ⟨.mark .semicolon, close⟩ => pure (.evaluate value (.ok close))
  | .ok ⟨.mark .assign, pos⟩ => do
    let given ← expression
    let close ← semicolon
    pure (.assign value pos given close)
  | .ok token => do pure (.evaluate value (← stop ⟨token.pos, .expectedStatement⟩))
  | .error why => pure (.evaluate value (.error why))

mutual

def block : Nat → List Stmt → Reading (List Stmt × Part Position)
  | 0, read => do pure (read.reverse, ← expect (.keyword .close))
  | fuel + 1, read => do
    match ← peek with
    | .error why => pure (read.reverse, .error why)
    | .ok ⟨.keyword .close, pos⟩ => do
      skip
      pure (read.reverse, .ok pos)
    | .ok ⟨.eof, pos⟩ => do pure (read.reverse, ← stop ⟨pos, .expected (.keyword .close) .eof⟩)
    | .ok token => do
      let statement ← statement fuel token
      block fuel (statement :: read)

def statement : Nat → Token → Reading Stmt
  | 0, _ => simple
  | fuel + 1, token =>
    match token.lexeme with
    | .keyword .declare => do
      skip
      declaration token.pos
    | .keyword .give => do
      skip
      result token.pos
    | .keyword .group => do
      skip
      let (body, close) ← block fuel []
      pure (.group token.pos body close)
    | _ => simple

end

def body : Reading (List Stmt × Part Position) := do block (2 * ((← bound) + 1)) []

def argument : Reading (Part Name) := do
  discard <| expect (.mark .leftParen)
  let argument ← name
  match ← expect (.mark .rightParen) with
  | .ok _ => pure argument
  | .error why => pure (.error why)

def bracket : Reading (Part Position) := expect (.mark .rightBracket)

def builtin : Reading (Part Builtin) := do
  match ← argument with
  | .error why => pure (.error why)
  | .ok argument =>
    if argument.text = Text.utf8 "position" then pure (.ok .position)
    else stop ⟨argument.pos, .unknownBuiltin argument.text⟩

def stage : Reading (Part Stage) := do
  match ← argument with
  | .error why => pure (.error why)
  | .ok argument =>
    if argument.text = Text.utf8 "vertex" then pure (.ok .vertex)
    else if argument.text = Text.utf8 "fragment" then pure (.ok .fragment)
    else stop ⟨argument.pos, .unknownStage argument.text⟩

def attributeItem : Reading (Part Item) := do
  match ← name with
  | .error why => pure (.error why)
  | .ok name =>
    if name.text = Text.utf8 "entry_point" then
      match ← stage with
      | .error why => pure (.error why)
      | .ok stage => do pure (.ok (.stage name.pos stage (← bracket)))
    else if name.text = Text.utf8 "builtin" then
      match ← builtin with
      | .error why => pure (.error why)
      | .ok builtin => do pure (.ok (.builtin name.pos builtin (← bracket)))
    else stop ⟨name.pos, .unknownAttribute name.text⟩

def placement : Reading (Part (Option Placement)) := do
  match ← peek with
  | .error why => pure (.error why)
  | .ok ⟨.keyword .place, pos⟩ => do
    skip
    pure (.ok (some ⟨pos, ← integer⟩))
  | .ok _ => pure (.ok none)

def global (pos : Position) (direction : Direction) : Reading Item := do
  let name ← name
  discard <| expect (.mark .colon)
  let type ← type
  let placement ← placement
  if ← isNext (.mark .semicolon) then skip
  pure (.global pos direction name type placement)

def memberAttribute : Reading (Part Builtin) := do
  if ← isNext (.mark .leftBracket) then
    skip
    match ← name with
    | .error why => pure (.error why)
    | .ok name =>
      if name.text = Text.utf8 "builtin" then
        let builtin ← builtin
        match ← bracket with
        | .ok _ => pure builtin
        | .error why => pure (.error why)
      else stop ⟨name.pos, .expectedMemberAttribute⟩
  else pure (.ok .absent)

def member : Reading MemberSyntax := do
  let builtin := ((← memberAttribute).toOption).getD .absent
  let name ← name
  discard <| expect (.mark .colon)
  let type ← type
  let close ← semicolon
  pure ⟨builtin, name, type, close⟩

def members : Nat → List MemberSyntax → Reading (List MemberSyntax × Part Position)
  | 0, read => do pure (read.reverse, ← expect (.keyword .close))
  | fuel + 1, read => do
    match ← peek with
    | .error why => pure (read.reverse, .error why)
    | .ok ⟨.keyword .close, pos⟩ => do
      skip
      pure (read.reverse, .ok pos)
    | .ok _ => do
      let member ← member
      members fuel (member :: read)

def record (pos : Position) : Reading Item := do
  let name ← name
  let (members, close) ← members ((← bound) + 2) []
  pure (.record pos name members close)

def procedure (pos : Position) : Reading Item := do
  let name ← name
  discard <| expect (.mark .leftParen)
  discard <| expect (.mark .rightParen)
  discard <| expect (.mark .arrow)
  let result ← type
  let (body, close) ← body
  pure (.procedure pos name result body close)

def item (token : Token) : Reading (Part Item) := do
  skip
  match token.lexeme with
  | .mark .leftBracket => attributeItem
  | .keyword .procedure => do pure (.ok (← procedure token.pos))
  | .keyword .record => do pure (.ok (← record token.pos))
  | .keyword .input => do pure (.ok (← global token.pos .input))
  | .keyword .output => do pure (.ok (← global token.pos .output))
  | .keyword .declare => do pure (.ok (← global token.pos .internal))
  | _ => stop ⟨token.pos, .expectedTopLevel⟩

def items : Nat → List Item → Reading SourceTree
  | 0, read => do
    let left ← get
    match left.tokens with
    | [] => pure ⟨read.reverse, left.ending⟩
    | token :: _ => pure ⟨read.reverse, .error ⟨token.pos, .expected .eof token.kind⟩⟩
  | fuel + 1, read => do
    let left ← get
    match left.tokens with
    | [] => pure ⟨read.reverse, left.ending⟩
    | token :: _ =>
      match ← item token with
      | .ok item => items fuel (item :: read)
      | .error why => pure ⟨read.reverse, .error why⟩

end Reading

def SourceTree.ofTokens (tokens : Tokens) : SourceTree :=
  let count := tokens.tokens.length
  (((Reading.items (count + 1) []).run count).run tokens).1

def SourceTree.ofSource (source : Bytes) : SourceTree := .ofTokens (.ofSource source)

end Shading
