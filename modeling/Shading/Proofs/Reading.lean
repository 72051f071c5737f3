import Shading.Proofs.Grammar
import Shading.Syntax.Reader

/-!
What readers read. A reader is given fuel, and more than enough of it; what it
reads is told here without, by relations between the tokens before, the part of
a tree that is read of them, and the tokens that are left. Every reader follows
its relation, and the relations leave no choice. A relation stands with the two
facts that later ones need of it: what it reads is unique, and it adds no tokens.
-/

namespace Shading

namespace Tokens

def first : Tokens → Part Token
  | ⟨token :: _, _⟩ => .ok token
  | ⟨[], .ok pos⟩ => .ok ⟨.eof, pos⟩
  | ⟨[], .error why⟩ => .error why

def behind (t : Tokens) : Tokens := ⟨t.tokens.drop 1, t.ending⟩

def ended (why : Diagnostic) : Tokens := ⟨[], .error why⟩

end Tokens

namespace Reading

variable {α : Type} {kind : Kind}

theorem length_behind (left : Tokens) :
    left.behind.tokens.length = left.tokens.length - 1 := List.length_drop

theorem first_token {left : Tokens} {token : Token} (h : left.first = .ok token)
    (hne : token.lexeme ≠ .eof) : 0 < left.tokens.length := by
  obtain ⟨_ | ⟨_, _⟩, _ | _⟩ := left
  · cases h
  · cases h
    exact absurd rfl hne
  · exact Nat.succ_pos _
  · exact Nat.succ_pos _

inductive TakesOne {α : Type} (kind : Kind) (accept : Token → Option α) :
    Tokens → Part α → Tokens → Prop
  | taken : left.first = .ok token → accept token = some a →
      TakesOne kind accept left (.ok a) left.behind
  | refused : left.first = .ok token → accept token = none →
      why = ⟨token.pos, .expected kind token.kind⟩ →
      TakesOne kind accept left (.error why) (.ended why)
  | failed : left.first = .error why → TakesOne kind accept left (.error why) left.behind

theorem TakesOne.unique {accept : Token → Option α} {x y : Part α}
    (h : TakesOne kind accept left x right) (h' : TakesOne kind accept left y right') :
    y = x ∧ right' = right := by
  cases h <;> cases h' <;> simp_all

theorem TakesOne.length {accept : Token → Option α} {x : Part α}
    (h : TakesOne kind accept left x right) : right.tokens.length ≤ left.tokens.length - 1 := by
  cases h with
  | refused => exact Nat.zero_le _
  | _ => exact Nat.le_of_eq (length_behind left)

theorem TakesOne.ended {accept : Token → Option α} {x : Part α} {why : Diagnostic}
    (h : TakesOne kind accept (.ended why) x right) :
    x = .error why ∧ right = .ended why := by
  cases h with
  | taken hfirst | refused hfirst => cases hfirst
  | failed hfirst =>
    cases hfirst
    exact ⟨rfl, rfl⟩

theorem TakesOne.error {accept : Token → Option α} {why : Diagnostic}
    (h : TakesOne kind accept left (.error why) right) : right = .ended why := by
  cases h with
  | refused => rfl
  | failed hfirst =>
    obtain ⟨_ | ⟨_, _⟩, _ | _⟩ := left <;> cases hfirst
    rfl

abbrev Expects (kind : Kind) : Tokens → Part Position → Tokens → Prop :=
  TakesOne kind fun token => if token.kind = kind then some token.pos else none

abbrev Names : Tokens → Part Name → Tokens → Prop :=
  TakesOne .sym fun
    | ⟨.sym text, pos⟩ => some ⟨text, pos⟩
    | _ => none

theorem Names.length_lt {called : Name} (h : Names left (.ok called) right) :
    right.tokens.length < left.tokens.length := by
  cases h with
  | taken hfirst haccept =>
    have := first_token hfirst (by rintro heof; grind)
    grind [length_behind]

abbrev Integers : Tokens → Part (Int64 × Position) → Tokens → Prop :=
  TakesOne .integer fun
    | ⟨.integer value, pos⟩ => some (value, pos)
    | _ => none

inductive ReadsType : Tokens → TypeSyntax → Tokens → Prop
  | named : Names left (.ok called) right → vectorSize? called.text = none →
      ReadsType left (.named called) right
  | vector : Names left (.ok called) a → vectorSize? called.text = some size →
      Expects (.mark .less) a less b → ReadsType b component c →
      Expects (.mark .greater) c close right →
      ReadsType left (.vector called.pos size component close) right
  | missing : Names left (.error why) right → ReadsType left (.missing why) right

theorem ReadsType.unique {x y : TypeSyntax} (h : ReadsType left x right)
    (h' : ReadsType left y right') : y = x ∧ right' = right := by
  induction h generalizing y right' with
  | _ => cases h' <;> grind [TakesOne.unique]

theorem ReadsType.ended {why : Diagnostic} {x : TypeSyntax} (h : ReadsType (.ended why) x right) :
    right = .ended why := by
  cases h with
  | named hname | vector hname => cases hname.ended.1
  | missing hname => exact hname.ended.2

theorem ReadsType.length {x : TypeSyntax} (h : ReadsType left x right) :
    right.tokens.length ≤ left.tokens.length - 1 := by
  induction h with
  | _ => grind [→ TakesOne.length]

inductive Section where
  | operand
  | factors (x : Expr)
  | product
  | terms (x : Expr)
  | sum
  | elements

def startsExpression : Lexeme → Bool
  | .sym _ | .number _ | .mark .leftParen | .mark .leftBrace => true
  | _ => false

def endsExpression : Lexeme → Bool
  | .mark .semicolon | .mark .assign => true
  | _ => false

def startsSimple : Lexeme → Bool
  | .eof | .keyword .close | .keyword .group | .keyword .declare | .keyword .give => false
  | _ => true

def direction? : Lexeme → Option Direction
  | .keyword .input => some .input
  | .keyword .output => some .output
  | .keyword .declare => some .internal
  | _ => none

def startsItem : Lexeme → Bool
  | .mark .leftBracket | .keyword .procedure | .keyword .record => true
  | lexeme => (direction? lexeme).isSome

theorem startsItem_of_direction {lexeme : Lexeme} {way : Direction}
    (h : direction? lexeme = some way) : startsItem lexeme = true := by
  cases lexeme with
  | keyword word => cases word <;> first | rfl | cases h
  | _ => cases h

def scaleOperator? : Lexeme → Option ScaleOperator
  | .mark .star => some .multiply
  | .mark .slash => some .divide
  | _ => none

def sumOperator? : Lexeme → Option SumOperator
  | .mark .plus => some .add
  | .mark .minus => some .subtract
  | _ => none

inductive Reads : Section → Tokens → List Expr → Tokens → Prop
  | var : left.first = .ok ⟨.sym text, pos⟩ → Reads .operand left [.var ⟨text, pos⟩] left.behind
  | number : left.first = .ok ⟨.number bits, pos⟩ →
      Reads .operand left [.number bits pos] left.behind
  | paren : left.first = .ok ⟨.mark .leftParen, pos⟩ → Reads .sum left.behind [inside] a →
      Expects (.mark .rightParen) a close right →
      Reads .operand left [.paren pos inside close] right
  | vector : left.first = .ok ⟨.mark .leftBrace, pos⟩ → Reads .sum left.behind [x] a →
      Reads .elements a rest b → Expects (.mark .rightBrace) b close right →
      Reads .operand left [.vector pos x rest close] right
  | refused : left.first = .ok token → startsExpression token.lexeme = false →
      why = ⟨token.pos, .expectedExpression⟩ → Reads .operand left [.missing why] (.ended why)
  | failed : left.first = .error why → Reads .operand left [.missing why] left.behind
  | factor : left.first = .ok token → scaleOperator? token.lexeme = some op →
      Reads .operand left.behind [r] a → Reads (.factors (.scale op token.pos x r)) a [y] right →
      Reads (.factors x) left [y] right
  | factored : left.first = .ok token → scaleOperator? token.lexeme = none →
      Reads (.factors x) left [x] left
  | stopped : left.first = .error why → Reads (.factors x) left [.stopped x why] left
  | product : Reads .operand left [x] a → Reads (.factors x) a [y] right →
      Reads .product left [y] right
  | term : left.first = .ok token → sumOperator? token.lexeme = some op →
      Reads .product left.behind [r] a → Reads (.terms (.sum op token.pos x r)) a [y] right →
      Reads (.terms x) left [y] right
  | summed : (∀ token, left.first = .ok token → sumOperator? token.lexeme = none) →
      Reads (.terms x) left [x] left
  | sum : Reads .product left [x] a → Reads (.terms x) a [y] right → Reads .sum left [y] right
  | element : left.first = .ok ⟨.mark .comma, pos⟩ → Reads .sum left.behind [x] a →
      Reads .elements a rest right → Reads .elements left (x :: rest) right
  | listed : (∀ pos, left.first ≠ .ok ⟨.mark .comma, pos⟩) → Reads .elements left [] left

theorem ne_of_startsExpression {lexeme : Lexeme} (h : startsExpression lexeme = false) :
    (∀ text, lexeme ≠ .sym text) ∧ (∀ bits, lexeme ≠ .number bits) ∧ lexeme ≠ .mark .leftParen ∧
      lexeme ≠ .mark .leftBrace := by
  refine ⟨?_, ?_, ?_, ?_⟩
  · rintro text rfl
    cases h
  · rintro bits rfl
    cases h
  · rintro rfl
    cases h
  · rintro rfl
    cases h

theorem Reads.unique {part : Section} {xs ys : List Expr} (h : Reads part left xs right)
    (h' : Reads part left ys right') : ys = xs ∧ right' = right := by
  induction h generalizing ys right' with
  | _ => cases h' <;> grind [TakesOne.unique, ne_of_startsExpression]

theorem Reads.length {part : Section} {xs : List Expr} (h : Reads part left xs right) :
    right.tokens.length ≤ left.tokens.length ∧
      (part = .operand ∨ part = .product ∨ part = .sum →
        right.tokens.length ≤ left.tokens.length - 1) := by
  induction h with
  | refused => simp [Tokens.ended]
  | _ => grind [→ TakesOne.length, length_behind]

abbrev ReadsExpression (left : Tokens) (x : Expr) (right : Tokens) : Prop :=
  Reads .sum left [x] right

inductive ReadsSimple : Tokens → Stmt → Tokens → Prop
  | evaluate : ReadsExpression left value a → a.first = .ok ⟨.mark .semicolon, close⟩ →
      ReadsSimple left (.evaluate value (.ok close)) a.behind
  | assign : ReadsExpression left target a → a.first = .ok ⟨.mark .assign, pos⟩ →
      ReadsExpression a.behind value b → Expects (.mark .semicolon) b close right →
      ReadsSimple left (.assign target pos value close) right
  | refused : ReadsExpression left value a → a.first = .ok token →
      endsExpression token.lexeme = false → why = ⟨token.pos, .expectedStatement⟩ →
      ReadsSimple left (.evaluate value (.error why)) (.ended why)
  | failed : ReadsExpression left value a → a.first = .error why →
      ReadsSimple left (.evaluate value (.error why)) a.behind

theorem ReadsSimple.unique {x y : Stmt} (h : ReadsSimple left x right)
    (h' : ReadsSimple left y right') : y = x ∧ right' = right := by
  cases h <;> cases h' <;> grind [TakesOne.unique, Reads.unique, endsExpression]

theorem ReadsSimple.length {x : Stmt} (h : ReadsSimple left x right) :
    right.tokens.length ≤ left.tokens.length - 1 := by
  cases h with
  | refused => exact Nat.zero_le _
  | _ => grind [→ TakesOne.length, → Reads.length, length_behind]

inductive ReadsStatement : Tokens → Stmt → Tokens → Prop
  | declare : left.first = .ok ⟨.keyword .declare, pos⟩ → Names left.behind called a →
      Expects (.mark .colon) a colon b → ReadsType b written c →
      Expects (.mark .equal) c equal d → ReadsExpression d value e →
      Expects (.mark .semicolon) e close right →
      ReadsStatement left (.declare pos called written equal value close) right
  | leave : left.first = .ok ⟨.keyword .give, pos⟩ →
      left.behind.first = .ok ⟨.mark .semicolon, close⟩ →
      ReadsStatement left (.leave pos close) left.behind.behind
  | giveBack : left.first = .ok ⟨.keyword .give, pos⟩ →
      (∀ close, left.behind.first ≠ .ok ⟨.mark .semicolon, close⟩) →
      ReadsExpression left.behind value a → Expects (.mark .semicolon) a close right →
      ReadsStatement left (.giveBack pos value close) right
  | simple : left.first = .ok token → startsSimple token.lexeme = true → ReadsSimple left x right →
      ReadsStatement left x right

theorem ReadsStatement.unique {x y : Stmt} (h : ReadsStatement left x right)
    (h' : ReadsStatement left y right') : y = x ∧ right' = right := by
  cases h <;> cases h' <;>
    grind [TakesOne.unique, Reads.unique, ReadsType.unique, ReadsSimple.unique, startsSimple]

theorem ReadsStatement.length {x : Stmt} (h : ReadsStatement left x right) :
    right.tokens.length < left.tokens.length := by
  cases h with
  | simple hfirst hstarts hsimple =>
    have := hsimple.length
    have := first_token hfirst (by rintro heof; rw [heof] at hstarts; cases hstarts)
    omega
  | declare hfirst | leave hfirst | giveBack hfirst =>
    have := first_token hfirst nofun
    grind [→ TakesOne.length, → ReadsType.length, → Reads.length, length_behind]

inductive ReadsBlock : Tokens → List Stmt → Part Position → Tokens → Prop
  | close : left.first = .ok ⟨.keyword .close, pos⟩ → ReadsBlock left [] (.ok pos) left.behind
  | group : left.first = .ok ⟨.keyword .group, pos⟩ → ReadsBlock left.behind inside close a →
      ReadsBlock a rest last right → ReadsBlock left (.group pos inside close :: rest) last right
  | statement : ReadsStatement left x a → ReadsBlock a rest close right →
      ReadsBlock left (x :: rest) close right
  | unclosed : left.first = .ok ⟨.eof, pos⟩ → why = ⟨pos, .expected (.keyword .close) .eof⟩ →
      ReadsBlock left [] (.error why) (.ended why)
  | failed : left.first = .error why → ReadsBlock left [] (.error why) left

theorem ReadsBlock.unique {xs ys : List Stmt} {end' end'' : Part Position}
    (h : ReadsBlock left xs end' right) (h' : ReadsBlock left ys end'' right') :
    ys = xs ∧ end'' = end' ∧ right' = right := by
  induction h generalizing ys end'' right' with
  | _ => cases h' <;> grind [ReadsStatement.unique, ReadsStatement, startsSimple]

theorem ReadsBlock.length {stmts : List Stmt} {close : Part Position}
    (h : ReadsBlock left stmts close right) : right.tokens.length ≤ left.tokens.length := by
  induction h with
  | unclosed => exact Nat.zero_le _
  | _ => grind [→ ReadsStatement.length, length_behind]

inductive ReadsArgument : Tokens → Part Name → Tokens → Prop
  | mk : Expects (.mark .leftParen) left paren a → Names a called b →
      Expects (.mark .rightParen) b close right → arg = (close >>= fun _ => called) →
      ReadsArgument left arg right

theorem ReadsArgument.unique {x y : Part Name} (h : ReadsArgument left x right)
    (h' : ReadsArgument left y right') : y = x ∧ right' = right := by
  cases h
  cases h'
  grind [TakesOne.unique]

inductive Tells {α : Type} (meaning : Bytes → Option α) (unknown : Bytes → Cause) :
    Tokens → Part α → Tokens → Prop
  | known : ReadsArgument left (.ok called) right → meaning called.text = some a →
      Tells meaning unknown left (.ok a) right
  | unknown : ReadsArgument left (.ok called) a → meaning called.text = none →
      why = ⟨called.pos, unknown called.text⟩ → Tells meaning unknown left (.error why) (.ended why)
  | failed : ReadsArgument left (.error why) right → Tells meaning unknown left (.error why) right

theorem Tells.unique {meaning : Bytes → Option α} {cause : Bytes → Cause} {x y : Part α}
    (h : Tells meaning cause left x right) (h' : Tells meaning cause left y right') :
    y = x ∧ right' = right := by
  cases h <;> cases h' <;> grind [ReadsArgument.unique]

theorem Tells.length {meaning : Bytes → Option α} {unknown : Bytes → Cause} {x : Part α}
    (h : Tells meaning unknown left x right) : right.tokens.length ≤ left.tokens.length := by
  cases h with
  | known harg _ | failed harg =>
    obtain ⟨hopen, hcalled, hclose⟩ := harg
    grind [→ TakesOne.length]
  | unknown => exact Nat.zero_le _

def builtin? (text : Bytes) : Option Builtin :=
  if text = Text.utf8 "position" then some .position else none

def stage? (text : Bytes) : Option Stage :=
  if text = Text.utf8 "vertex" then some .vertex
  else if text = Text.utf8 "fragment" then some .fragment
  else none

inductive ReadsAttribute : Tokens → Part Item → Tokens → Prop
  | stage : Names left (.ok called) a → called.text = Text.utf8 "entry_point" →
      Tells stage? .unknownStage a (.ok found) b → Expects (.mark .rightBracket) b close right →
      ReadsAttribute left (.ok (.stage called.pos found close)) right
  | noStage : Names left (.ok called) a → called.text = Text.utf8 "entry_point" →
      Tells stage? .unknownStage a (.error why) right → ReadsAttribute left (.error why) right
  | builtin : Names left (.ok called) a → called.text = Text.utf8 "builtin" →
      Tells builtin? .unknownBuiltin a (.ok found) b → Expects (.mark .rightBracket) b close right →
      ReadsAttribute left (.ok (.builtin called.pos found close)) right
  | noBuiltin : Names left (.ok called) a → called.text = Text.utf8 "builtin" →
      Tells builtin? .unknownBuiltin a (.error why) right → ReadsAttribute left (.error why) right
  | unknown : Names left (.ok called) a → called.text ≠ Text.utf8 "entry_point" →
      called.text ≠ Text.utf8 "builtin" → why = ⟨called.pos, .unknownAttribute called.text⟩ →
      ReadsAttribute left (.error why) (.ended why)
  | failed : Names left (.error why) right → ReadsAttribute left (.error why) right

theorem ReadsAttribute.unique {x y : Part Item} (h : ReadsAttribute left x right)
    (h' : ReadsAttribute left y right') : y = x ∧ right' = right := by
  have hother : Text.utf8 "entry_point" ≠ Text.utf8 "builtin" := by decide
  cases h <;> cases h' <;> grind [TakesOne.unique, Tells.unique]

inductive ReadsPlacement : Tokens → Part (Option Placement) → Tokens → Prop
  | location : left.first = .ok ⟨.keyword .place, pos⟩ → Integers left.behind value right →
      ReadsPlacement left (.ok (some ⟨pos, value⟩)) right
  | absent : left.first = .ok token → token.lexeme ≠ .keyword .place →
      ReadsPlacement left (.ok none) left
  | failed : left.first = .error why → ReadsPlacement left (.error why) left

theorem ReadsPlacement.unique {x y : Part (Option Placement)} (h : ReadsPlacement left x right)
    (h' : ReadsPlacement left y right') : y = x ∧ right' = right := by
  cases h <;> cases h' <;> grind [TakesOne.unique]

inductive ReadsSemicolon : Tokens → Tokens → Prop
  | taken : left.first = .ok ⟨.mark .semicolon, pos⟩ → ReadsSemicolon left left.behind
  | absent : (∀ pos, left.first ≠ .ok ⟨.mark .semicolon, pos⟩) → ReadsSemicolon left left

theorem ReadsSemicolon.unique (h : ReadsSemicolon left right) (h' : ReadsSemicolon left right') :
    right' = right := by
  cases h <;> cases h' <;> grind

inductive ReadsMemberAttribute : Tokens → Part Builtin → Tokens → Prop
  | absent : (∀ pos, left.first ≠ .ok ⟨.mark .leftBracket, pos⟩) →
      ReadsMemberAttribute left (.ok .absent) left
  | builtin : left.first = .ok ⟨.mark .leftBracket, pos⟩ → Names left.behind (.ok called) a →
      called.text = Text.utf8 "builtin" → Tells builtin? .unknownBuiltin a found b →
      Expects (.mark .rightBracket) b close right → x = (close >>= fun _ => found) →
      ReadsMemberAttribute left x right
  | unknown : left.first = .ok ⟨.mark .leftBracket, pos⟩ → Names left.behind (.ok called) a →
      called.text ≠ Text.utf8 "builtin" → why = ⟨called.pos, .expectedMemberAttribute⟩ →
      ReadsMemberAttribute left (.error why) (.ended why)
  | failed : left.first = .ok ⟨.mark .leftBracket, pos⟩ → Names left.behind (.error why) right →
      ReadsMemberAttribute left (.error why) right

theorem ReadsMemberAttribute.unique {x y : Part Builtin} (h : ReadsMemberAttribute left x right)
    (h' : ReadsMemberAttribute left y right') : y = x ∧ right' = right := by
  cases h <;> cases h' <;> grind [TakesOne.unique, Tells.unique]

theorem ReadsMemberAttribute.length {x : Part Builtin} (h : ReadsMemberAttribute left x right) :
    right.tokens.length ≤ left.tokens.length := by
  cases h with
  | unknown => exact Nat.zero_le _
  | _ => grind [→ TakesOne.length, → Tells.length, length_behind]

inductive ReadsMembers : Tokens → List MemberSyntax → Part Position → Tokens → Prop
  | close : left.first = .ok ⟨.keyword .close, pos⟩ → ReadsMembers left [] (.ok pos) left.behind
  | member : left.first = .ok token → token.lexeme ≠ .keyword .close →
      ReadsMemberAttribute left meaning a → Names a called b → Expects (.mark .colon) b colon c →
      ReadsType c written d → Expects (.mark .semicolon) d close e →
      ReadsMembers e rest end' right →
      ReadsMembers left (⟨meaning.toOption.getD .absent, called, written, close⟩ :: rest) end' right
  | failed : left.first = .error why → ReadsMembers left [] (.error why) left

theorem ReadsMembers.unique {xs ys : List MemberSyntax} {end' end'' : Part Position}
    (h : ReadsMembers left xs end' right) (h' : ReadsMembers left ys end'' right') :
    ys = xs ∧ end'' = end' ∧ right' = right := by
  induction h generalizing ys end'' right' with
  | _ => cases h' <;> grind [TakesOne.unique, ReadsType.unique, ReadsMemberAttribute.unique]

theorem ReadsMembers.length {fields : List MemberSyntax} {end' : Part Position}
    (h : ReadsMembers left fields end' right) : right.tokens.length ≤ left.tokens.length := by
  induction h with
  | _ => grind [→ TakesOne.length, → ReadsType.length, → ReadsMemberAttribute.length, length_behind]

inductive ReadsItem : Tokens → Part Item → Tokens → Prop
  | tagged : left.first = .ok ⟨.mark .leftBracket, pos⟩ → ReadsAttribute left.behind found right →
      ReadsItem left found right
  | procedure : left.first = .ok ⟨.keyword .procedure, pos⟩ → Names left.behind called a →
      Expects (.mark .leftParen) a paren b → Expects (.mark .rightParen) b unparen c →
      Expects (.mark .arrow) c arrow d → ReadsType d written e → ReadsBlock e stmts close right →
      ReadsItem left (.ok (.procedure pos called written stmts close)) right
  | record : left.first = .ok ⟨.keyword .record, pos⟩ → Names left.behind called a →
      ReadsMembers a fields close right →
      ReadsItem left (.ok (.record pos called fields close)) right
  | global : left.first = .ok ⟨lexeme, pos⟩ → direction? lexeme = some way →
      Names left.behind called a →
      Expects (.mark .colon) a colon b → ReadsType b written c → ReadsPlacement c placed d →
      ReadsSemicolon d right →
      ReadsItem left (.ok (.global pos way called written placed)) right
  | refused : left.first = .ok token → startsItem token.lexeme = false →
      why = ⟨token.pos, .expectedTopLevel⟩ → ReadsItem left (.error why) (.ended why)

theorem ReadsItem.unique {x y : Part Item} (h : ReadsItem left x right)
    (h' : ReadsItem left y right') : y = x ∧ right' = right := by
  cases h <;> cases h' <;>
    grind [TakesOne.unique, ReadsAttribute.unique, ReadsType.unique, ReadsBlock.unique,
      ReadsMembers.unique, ReadsPlacement.unique, ReadsSemicolon.unique, startsItem,
      direction?, startsItem_of_direction]

theorem ReadsItem.length {x : Part Item} (h : ReadsItem left x right) :
    right.tokens.length ≤ left.tokens.length - 1 := by
  cases h with
  | tagged _ hfound =>
    cases hfound with
    | unknown => exact Nat.zero_le _
    | _ => grind [→ TakesOne.length, → Tells.length, length_behind]
  | procedure => grind [→ TakesOne.length, → ReadsType.length, → ReadsBlock.length, length_behind]
  | record => grind [→ TakesOne.length, → ReadsMembers.length, length_behind]
  | global _ _ _ _ _ hplaced hsemicolon =>
    cases hplaced <;> cases hsemicolon <;>
      grind [→ TakesOne.length, → ReadsType.length, length_behind]
  | refused => exact Nat.zero_le _

inductive ReadsItems : Tokens → SourceTree → Prop
  | done : left.tokens = [] → ReadsItems left ⟨[], left.ending⟩
  | next : left.tokens ≠ [] → ReadsItem left (.ok x) a → ReadsItems a tree →
      ReadsItems left ⟨x :: tree.items, tree.ending⟩
  | failed : left.tokens ≠ [] → ReadsItem left (.error why) right → ReadsItems left ⟨[], .error why⟩

theorem ReadsItems.unique {x y : SourceTree} (h : ReadsItems left x) (h' : ReadsItems left y) :
    y = x := by
  induction h generalizing y with
  | _ => cases h' <;> grind [ReadsItem.unique]

def Gives {α : Type} (x : Reading α) (n : Nat) (left : Tokens) (found : α → Tokens → Prop) : Prop :=
  found (x n left).1 (x n left).2

namespace Gives

variable {α β : Type} {n : Nat} {left : Tokens} {found : α → Tokens → Prop} {pos : Position}
  {between : β → Tokens → Prop} {f : Part Token → Reading α}

protected theorem pure {a : α} (h : found a left) : Gives (pure a) n left found := h

theorem imp {x : Reading α} {found' : α → Tokens → Prop} (h : Gives x n left found)
    (himp : ∀ a right, found a right → found' a right) : Gives x n left found' := himp _ _ h

protected theorem bind {x : Reading β} {f : β → Reading α} (hx : Gives x n left between)
    (hf : ∀ b mid, between b mid → Gives (f b) n mid found) :
    Gives (x >>= f) n left found := hf _ _ hx

theorem discard_bind {x : Reading β} {f : PUnit → Reading α} (hx : Gives x n left between)
    (hf : ∀ b mid, between b mid → Gives (f ⟨⟩) n mid found) :
    Gives (discard x >>= f) n left found := hf _ _ hx

theorem peek_bind (h : Gives (f left.first) n left found) :
    Gives (peek >>= f) n left found := by
  obtain ⟨_ | ⟨_, _⟩, _ | _⟩ := left <;> exact h

theorem next_bind (h : Gives (f left.first) n left.behind found) :
    Gives (next >>= f) n left found := by
  obtain ⟨_ | ⟨_, _⟩, _ | _⟩ := left <;> exact h

theorem skip_bind {f : PUnit → Reading α} (h : Gives (f ⟨⟩) n left.behind found) :
    Gives (skip >>= f) n left found := h

theorem bound_bind {f : Nat → Reading α} (h : Gives (f n) n left found) :
    Gives (bound >>= f) n left found := h

theorem get_bind {f : Tokens → Reading α} (h : Gives (f left) n left found) :
    Gives (get >>= f) n left found := h

theorem stop {found : Part α → Tokens → Prop} {why : Diagnostic}
    (h : found (.error why) (.ended why)) : Gives (stop why) n left found := h

protected theorem ite {c : Prop} [Decidable c] {x y : Reading α} (hx : c → Gives x n left found)
    (hy : ¬c → Gives y n left found) : Gives (if c then x else y) n left found := by
  by_cases hc : c
  · rw [if_pos hc]
    exact hx hc
  · rw [if_neg hc]
    exact hy hc

theorem expect {kind : Kind} : Gives (expect kind) n left (Expects kind left) := by
  refine .next_bind ?_
  cases hfirst : left.first with
  | error why => exact .pure (.failed hfirst)
  | ok token =>
    exact .ite (fun hkind => .pure (.taken hfirst (if_pos hkind)))
      fun hkind => .stop (.refused hfirst (if_neg hkind) rfl)

theorem name : Gives name n left (Names left) := by
  refine .next_bind ?_
  cases hfirst : left.first with
  | error why => exact .pure (.failed hfirst)
  | ok token =>
    obtain ⟨lexeme, pos⟩ := token
    cases lexeme with
    | sym text => exact .pure (.taken hfirst rfl)
    | _ => exact .stop (.refused hfirst rfl rfl)

theorem integer : Gives integer n left (Integers left) := by
  refine .next_bind ?_
  cases hfirst : left.first with
  | error why => exact .pure (.failed hfirst)
  | ok token =>
    obtain ⟨lexeme, pos⟩ := token
    cases lexeme with
    | integer value => exact .pure (.taken hfirst rfl)
    | _ => exact .stop (.refused hfirst rfl rfl)

theorem isNext {mark : Mark} :
    Gives (isNext (.mark mark)) n left fun found right =>
      right = left ∧ (found = true ↔ ∃ pos, left.first = .ok ⟨.mark mark, pos⟩) := by
  refine .peek_bind ?_
  cases hfirst : left.first with
  | error why => exact .pure ⟨rfl, by simp⟩
  | ok token =>
    refine .pure ⟨rfl, ?_⟩
    obtain ⟨lexeme, pos⟩ := token
    cases lexeme <;> simp [Token.kind, Lexeme.kind]

theorem typeWithin (fuel : Nat) (h : left.tokens.length < fuel) :
    Gives (typeWithin fuel) n left (ReadsType left) := by
  induction fuel generalizing left with
  | zero => exact absurd h (Nat.not_lt_zero _)
  | succ fuel ih =>
    refine .bind .name fun found a hname => ?_
    cases found with
    | error why => exact .pure (.missing hname)
    | ok called =>
      simp only
      cases hsize : vectorSize? called.text with
      | none => exact .pure (.named hname hsize)
      | some size =>
        refine .discard_bind .expect fun _ b hless => .bind (ih ?_) fun _ c hcomponent =>
          .bind .expect fun _ _ hclose => .pure (.vector hname hsize hless hcomponent hclose)
        have := hname.length_lt
        have := hless.length
        omega

theorem type (h : left.tokens.length ≤ n) : Gives type n left (ReadsType left) :=
  .typeWithin (n + 1) (Nat.lt_succ_of_le h)

structure Expressions (fuel n : Nat) : Prop where
  operand : ∀ left : Tokens, 3 * left.tokens.length + 1 ≤ fuel →
    Gives (operand fuel) n left fun x => Reads .operand left [x]
  factors : ∀ (left : Tokens) x, 3 * left.tokens.length + 1 ≤ fuel →
    Gives (factors fuel x) n left fun y => Reads (.factors x) left [y]
  product : ∀ left : Tokens, 3 * left.tokens.length + 2 ≤ fuel →
    Gives (product fuel) n left fun x => Reads .product left [x]
  terms : ∀ (left : Tokens) x, 3 * left.tokens.length + 1 ≤ fuel →
    Gives (terms fuel x) n left fun y => Reads (.terms x) left [y]
  sum : ∀ left : Tokens, 3 * left.tokens.length + 3 ≤ fuel →
    Gives (sum fuel) n left fun x => Reads .sum left [x]
  elements : ∀ left : Tokens, 3 * left.tokens.length + 1 ≤ fuel →
    Gives (elements fuel) n left (Reads .elements left)

theorem expressions (fuel n : Nat) : Expressions fuel n := by
  induction fuel with
  | zero => constructor <;> intros <;> omega
  | succ fuel ih =>
    constructor
    case operand =>
      intro left hfuel
      refine .next_bind ?_
      cases hfirst : left.first with
      | error why => exact .pure (.failed hfirst)
      | ok token =>
        obtain ⟨lexeme, pos⟩ := token
        have hlength := length_behind left
        cases lexeme with
        | sym text => exact .pure (.var hfirst)
        | number bits => exact .pure (.number hfirst)
        | mark m =>
          cases m with
          | leftParen =>
            have := first_token hfirst nofun
            exact .bind (ih.sum _ (by omega)) fun _ _ hinner => .bind .expect fun _ _ hclose =>
              .pure (.paren hfirst hinner hclose)
          | leftBrace =>
            have := first_token hfirst nofun
            refine .bind (ih.sum _ (by omega)) fun _ _ hx => .bind (ih.elements _ ?_)
              fun _ _ hrest => .bind .expect fun _ _ hclose =>
                .pure (.vector hfirst hx hrest hclose)
            have := hx.length
            omega
          | _ => exact Reads.refused hfirst rfl rfl
        | _ => exact Reads.refused hfirst rfl rfl
    case factors =>
      intro left x hfuel
      refine .peek_bind ?_
      cases hfirst : left.first with
      | error why => exact .pure (.stopped hfirst)
      | ok token =>
        obtain ⟨lexeme, pos⟩ := token
        have hoperator : ∀ op, scaleOperator? lexeme = some op →
            Gives (do skip; let r ← Reading.operand fuel; Reading.factors fuel (.scale op pos x r))
              n left fun y => Reads (.factors x) left [y] := by
          intro op hop
          have := first_token hfirst (by rintro rfl; cases hop)
          have := length_behind left
          refine .skip_bind (.bind (ih.operand _ (by omega)) fun _ _ hr => ?_)
          have := hr.length
          exact (ih.factors _ _ (by omega)).imp fun _ _ hy => .factor hfirst hop hr hy
        cases lexeme with
        | mark m =>
          cases m with
          | star => exact hoperator .multiply rfl
          | slash => exact hoperator .divide rfl
          | _ => exact .pure (.factored hfirst rfl)
        | _ => exact .pure (.factored hfirst rfl)
    case product =>
      intro left hfuel
      refine .bind (ih.operand _ (by omega)) fun _ _ hx => ?_
      have := hx.length
      exact (ih.factors _ _ (by omega)).imp fun _ _ hy => .product hx hy
    case terms =>
      intro left x hfuel
      refine .peek_bind ?_
      cases hfirst : left.first with
      | error why => exact .pure (.summed (by simp [hfirst]))
      | ok token =>
        obtain ⟨lexeme, pos⟩ := token
        have hoperator : ∀ op, sumOperator? lexeme = some op →
            Gives (do skip; let r ← Reading.product fuel; Reading.terms fuel (.sum op pos x r))
              n left fun y => Reads (.terms x) left [y] := by
          intro op hop
          have := first_token hfirst (by rintro rfl; cases hop)
          have := length_behind left
          refine .skip_bind (.bind (ih.product _ (by omega)) fun _ _ hr => ?_)
          have := hr.length
          exact (ih.terms _ _ (by omega)).imp fun _ _ hy => .term hfirst hop hr hy
        have hnone : sumOperator? lexeme = none → Reads (.terms x) left [x] left := by
          intro hlexeme
          refine .summed fun token htoken => ?_
          rw [hfirst] at htoken
          cases htoken
          exact hlexeme
        cases lexeme with
        | mark m =>
          cases m with
          | plus => exact hoperator .add rfl
          | minus => exact hoperator .subtract rfl
          | _ => exact .pure (hnone rfl)
        | _ => exact .pure (hnone rfl)
    case sum =>
      intro left hfuel
      refine .bind (ih.product _ (by omega)) fun _ _ hx => ?_
      have := hx.length
      exact (ih.terms _ _ (by omega)).imp fun _ _ hy => .sum hx hy
    case elements =>
      intro left hfuel
      refine .bind .isNext fun found a hfound => ?_
      obtain ⟨rfl, hfound⟩ := hfound
      refine .ite (fun hcomma => ?_) fun hcomma => ?_
      · obtain ⟨pos, hfirst⟩ := hfound.1 hcomma
        have := first_token hfirst nofun
        have := length_behind a
        refine .skip_bind (.bind (ih.sum _ (by omega)) fun _ _ hx => ?_)
        have := hx.length
        exact .bind (ih.elements _ (by omega)) fun _ _ hrest => .pure (.element hfirst hx hrest)
      · exact .pure (.listed fun pos hfirst => hcomma (hfound.2 ⟨pos, hfirst⟩))

theorem expression (h : left.tokens.length ≤ n) : Gives expression n left (ReadsExpression left) :=
  (expressions (3 * (n + 1)) n).sum left (by omega)

theorem simple (h : left.tokens.length ≤ n) : Gives simple n left (ReadsSimple left) := by
  refine .bind (.expression h) fun value a hvalue => .next_bind ?_
  have := hvalue.length
  cases hfirst : a.first with
  | error why => exact .pure (.failed hvalue hfirst)
  | ok token =>
    obtain ⟨lexeme, pos⟩ := token
    cases lexeme with
    | mark m =>
      cases m with
      | semicolon => exact .pure (.evaluate hvalue hfirst)
      | assign =>
        exact .bind (.expression (by grind [length_behind])) fun _ _ hgiven =>
          .bind .expect fun _ _ hclose => .pure (.assign hvalue hfirst hgiven hclose)
      | _ => exact ReadsSimple.refused hvalue hfirst rfl rfl
    | _ => exact ReadsSimple.refused hvalue hfirst rfl rfl

theorem declaration (hfirst : left.first = .ok ⟨.keyword .declare, pos⟩)
    (h : left.tokens.length ≤ n) : Gives (declaration pos) n left.behind (ReadsStatement left) := by
  have := length_behind left
  refine .bind .name fun _ _ hcalled => .discard_bind .expect fun _ b hcolon => ?_
  have := hcalled.length
  have := hcolon.length
  refine .bind (.type (by omega)) fun _ _ hwritten => .bind .expect fun _ _ hequal => ?_
  have := hwritten.length
  have := hequal.length
  exact .bind (.expression (by omega)) fun _ _ hvalue => .bind .expect fun _ _ hclose =>
    .pure (.declare hfirst hcalled hcolon hwritten hequal hvalue hclose)

theorem result (hfirst : left.first = .ok ⟨.keyword .give, pos⟩) (h : left.tokens.length ≤ n) :
    Gives (result pos) n left.behind (ReadsStatement left) := by
  have hlength := length_behind left
  have hvalue : (∀ close, left.behind.first ≠ .ok ⟨.mark .semicolon, close⟩) →
      Gives (do let value ← Reading.expression; let close ← semicolon
                pure (.giveBack pos value close)) n left.behind (ReadsStatement left) :=
    fun hne => .bind (.expression (by omega)) fun _ _ hvalue => .bind .expect fun _ _ hclose =>
      .pure (.giveBack hfirst hne hvalue hclose)
  refine .peek_bind ?_
  cases hnext : left.behind.first with
  | error why => exact hvalue (by simp [hnext])
  | ok token =>
    obtain ⟨lexeme, close⟩ := token
    cases lexeme with
    | mark m =>
      cases m with
      | semicolon => exact .skip_bind (.pure (.leave hfirst hnext))
      | _ => exact hvalue (by simp [hnext])
    | _ => exact hvalue (by simp [hnext])

theorem block_statement (fuel n : Nat) :
    (∀ (left : Tokens) read, 2 * left.tokens.length + 1 ≤ fuel → left.tokens.length ≤ n →
      Gives (block fuel read) n left fun found right => ∃ stmts,
        found.1 = read.reverse ++ stmts ∧ ReadsBlock left stmts found.2 right) ∧
    ∀ (left : Tokens) token, left.first = .ok token → token.lexeme ≠ .keyword .close →
      token.lexeme ≠ .eof → 2 * left.tokens.length ≤ fuel → left.tokens.length ≤ n →
      Gives (statement fuel token) n left fun x a => a.tokens.length < left.tokens.length ∧
        ∀ {rest close right}, ReadsBlock a rest close right →
          ReadsBlock left (x :: rest) close right := by
  induction fuel with
  | zero =>
    refine ⟨by omega, fun left token hfirst _ hne hfuel _ => ?_⟩
    have := first_token hfirst hne
    omega
  | succ fuel ih =>
    constructor
    · intro left read hfuel hn
      refine .peek_bind ?_
      cases hfirst : left.first with
      | error why => exact .pure ⟨[], by simp, .failed hfirst⟩
      | ok token =>
        have hread : token.lexeme ≠ .keyword .close → token.lexeme ≠ .eof →
            Gives (do let x ← statement fuel token; block fuel (x :: read)) n left
              fun found right => ∃ stmts,
                found.1 = read.reverse ++ stmts ∧ ReadsBlock left stmts found.2 right := by
          intro hclose heof
          refine .bind (ih.2 left token hfirst hclose heof (by omega) hn) fun x a hx => ?_
          have := hx.1
          refine (ih.1 a (x :: read) (by omega) (by omega)).imp ?_
          rintro found right ⟨stmts, hstmts, hblock⟩
          exact ⟨x :: stmts, by simp [hstmts], hx.2 hblock⟩
        obtain ⟨lexeme, pos⟩ := token
        cases lexeme with
        | eof => exact ⟨[], (List.append_nil _).symm, .unclosed hfirst rfl⟩
        | keyword word =>
          cases word with
          | close => exact .skip_bind (.pure ⟨[], by simp, .close hfirst⟩)
          | _ => exact hread nofun nofun
        | _ => exact hread nofun nofun
    · intro left token hfirst hclose heof hfuel hn
      have hpos := first_token hfirst heof
      have hlength := length_behind left
      have hstatement : ∀ {x : Reading Stmt}, Gives x n left (ReadsStatement left) →
          Gives x n left fun x a => a.tokens.length < left.tokens.length ∧
            ∀ {rest close right}, ReadsBlock a rest close right →
              ReadsBlock left (x :: rest) close right :=
        fun h => h.imp fun _ _ hx => ⟨hx.length, .statement hx⟩
      obtain ⟨lexeme, pos⟩ := token
      cases lexeme with
      | eof => exact absurd rfl heof
      | keyword word =>
        cases word with
        | declare => exact hstatement (.skip_bind (.declaration hfirst hn))
        | give => exact hstatement (.skip_bind (.result hfirst hn))
        | group =>
          refine .skip_bind (.bind (ih.1 left.behind [] (by omega) (by omega)) ?_)
          rintro ⟨_, close⟩ a ⟨inner, rfl, hinner⟩
          exact .pure ⟨by have := hinner.length; omega, .group hfirst hinner⟩
        | close => exact absurd rfl hclose
        | _ => exact hstatement ((simple hn).imp fun _ _ hx => .simple hfirst rfl hx)
      | _ => exact hstatement ((simple hn).imp fun _ _ hx => .simple hfirst rfl hx)

theorem body (h : left.tokens.length ≤ n) :
    Gives body n left fun found => ReadsBlock left found.1 found.2 := by
  refine .bound_bind (((block_statement (2 * (n + 1)) n).1 left [] (by omega) h).imp ?_)
  rintro ⟨_, close⟩ right ⟨stmts, rfl, hblock⟩
  exact hblock

theorem argument : Gives argument n left (ReadsArgument left) := by
  refine .discard_bind .expect fun _ _ hopen => .bind .name fun called _ hcalled =>
    .bind .expect fun close _ hclose => ?_
  have harg := ReadsArgument.mk hopen hcalled hclose rfl
  cases close with
  | ok pos => exact .pure harg
  | error why => exact .pure harg

theorem builtin : Gives builtin n left (Tells builtin? .unknownBuiltin left) := by
  refine .bind .argument fun called _ hcalled => ?_
  cases called with
  | error why => exact .pure (.failed hcalled)
  | ok called =>
    exact .ite (fun h => .pure (.known hcalled (if_pos h)))
      fun h => .stop (.unknown hcalled (if_neg h) rfl)

theorem stage : Gives stage n left (Tells stage? .unknownStage left) := by
  refine .bind .argument fun called _ hcalled => ?_
  cases called with
  | error why => exact .pure (.failed hcalled)
  | ok called =>
    refine .ite (fun h => .pure (.known hcalled (if_pos h))) fun h => ?_
    exact .ite (fun h' => .pure (.known hcalled ((if_neg h).trans (if_pos h'))))
      fun h' => .stop (.unknown hcalled ((if_neg h).trans (if_neg h')) rfl)

theorem attributeItem : Gives attributeItem n left (ReadsAttribute left) := by
  refine .bind .name fun called _ hcalled => ?_
  cases called with
  | error why => exact .pure (.failed hcalled)
  | ok called =>
    refine .ite (fun hentry => .bind .stage fun found _ hfound => ?_) fun hentry =>
      .ite (fun hbuiltin => .bind .builtin fun found _ hfound => ?_)
        fun hbuiltin => .stop (.unknown hcalled hentry hbuiltin rfl)
    · cases found with
      | error why => exact .pure (.noStage hcalled hentry hfound)
      | ok found =>
        exact .bind .expect fun _ _ hclose => .pure (.stage hcalled hentry hfound hclose)
    · cases found with
      | error why => exact .pure (.noBuiltin hcalled hbuiltin hfound)
      | ok found =>
        exact .bind .expect fun _ _ hclose => .pure (.builtin hcalled hbuiltin hfound hclose)

theorem placement : Gives placement n left (ReadsPlacement left) := by
  refine .peek_bind ?_
  cases hfirst : left.first with
  | error why => exact .pure (.failed hfirst)
  | ok token =>
    obtain ⟨lexeme, pos⟩ := token
    cases lexeme with
    | keyword word =>
      cases word with
      | place => exact .skip_bind (.bind .integer fun _ _ hvalue => .pure (.location hfirst hvalue))
      | _ => exact .pure (.absent hfirst nofun)
    | _ => exact .pure (.absent hfirst nofun)

theorem global {lexeme : Lexeme} {way : Direction} (hfirst : left.first = .ok ⟨lexeme, pos⟩)
    (hway : direction? lexeme = some way) (h : left.tokens.length ≤ n) :
    Gives (global pos way) n left.behind fun x => ReadsItem left (.ok x) := by
  have := length_behind left
  refine .bind .name fun _ _ hcalled => .discard_bind .expect fun _ _ hcolon => ?_
  have := hcalled.length
  have := hcolon.length
  refine .bind (.type (by omega)) fun _ _ hwritten => .bind .placement fun _ _ hplaced =>
    .bind .isNext fun found d hfound => ?_
  obtain ⟨rfl, hfound⟩ := hfound
  refine .ite (fun hsemicolon => ?_) fun hsemicolon => ?_
  · obtain ⟨pos, hnext⟩ := hfound.1 hsemicolon
    exact .skip_bind (.pure (.global hfirst hway hcalled hcolon hwritten hplaced (.taken hnext)))
  · exact .pure (.global hfirst hway hcalled hcolon hwritten hplaced
      (.absent fun pos hnext => hsemicolon (hfound.2 ⟨pos, hnext⟩)))

theorem memberAttribute : Gives memberAttribute n left (ReadsMemberAttribute left) := by
  refine .bind .isNext fun found a hfound => ?_
  obtain ⟨rfl, hfound⟩ := hfound
  refine .ite (fun hbracket => .skip_bind (.bind .name fun called _ hcalled => ?_)) fun hbracket =>
    .pure (.absent fun pos hnext => hbracket (hfound.2 ⟨pos, hnext⟩))
  obtain ⟨pos, hnext⟩ := hfound.1 hbracket
  cases called with
  | error why => exact .pure (.failed hnext hcalled)
  | ok called =>
    refine .ite (fun hbuiltin => .bind .builtin fun found _ hfound => .bind .expect
      fun close _ hclose => ?_) fun hbuiltin => .stop (.unknown hnext hcalled hbuiltin rfl)
    have hread := ReadsMemberAttribute.builtin hnext hcalled hbuiltin hfound hclose rfl
    cases close with
    | ok pos => exact .pure hread
    | error why => exact .pure hread

theorem member {token : Token} (hfirst : left.first = .ok token)
    (hne : token.lexeme ≠ .keyword .close) (hn : left.tokens.length ≤ n) :
    Gives member n left fun x a =>
      (a.tokens.length < left.tokens.length ∨ ∃ why, a = .ended why) ∧
        ∀ {rest end' right}, ReadsMembers a rest end' right →
          ReadsMembers left (x :: rest) end' right := by
  refine .bind .memberAttribute fun _ _ hmeaning => .bind .name fun called _ hcalled =>
    .discard_bind .expect fun _ _ hcolon => ?_
  have := hmeaning.length
  have := hcalled.length
  have := hcolon.length
  refine .bind (.type (by omega)) fun _ _ hwritten => .bind .expect fun _ _ hclose => ?_
  have := hwritten.length
  have := hclose.length
  refine .pure ⟨?_, .member hfirst hne hmeaning hcalled hcolon hwritten hclose⟩
  cases called with
  | ok called =>
    have := hcalled.length_lt
    exact .inl (by omega)
  | error why =>
    cases hcalled.error
    cases hcolon.ended.2
    cases hwritten.ended
    exact .inr ⟨why, hclose.ended.2⟩

theorem members (fuel : Nat) (read : List MemberSyntax)
    (hfuel : left.tokens.length + 2 ≤ fuel ∨ (∃ why, left = .ended why) ∧ 0 < fuel)
    (hn : left.tokens.length ≤ n) :
    Gives (members fuel read) n left fun found right => ∃ fields,
      found.1 = read.reverse ++ fields ∧ ReadsMembers left fields found.2 right := by
  induction fuel generalizing left read with
  | zero => omega
  | succ fuel ih =>
    refine .peek_bind ?_
    cases hfirst : left.first with
    | error why => exact .pure ⟨[], by simp, .failed hfirst⟩
    | ok token =>
      have hread : token.lexeme ≠ .keyword .close →
          Gives (do let member ← Reading.member; Reading.members fuel (member :: read)) n left
            fun found right => ∃ fields,
              found.1 = read.reverse ++ fields ∧ ReadsMembers left fields found.2 right := by
        intro hne
        obtain ⟨⟨why, rfl⟩, -⟩ | hfuel := hfuel.symm
        · cases hfirst
        refine .bind (.member hfirst hne hn) fun x a hx => ?_
        have hless : a.tokens.length + 2 ≤ fuel ∨ (∃ why, a = .ended why) ∧ 0 < fuel :=
          hx.1.imp (by omega) (⟨·, by omega⟩)
        refine (ih _ hless (by grind [Tokens.ended])).imp ?_
        rintro found right ⟨fields, hfields, hrest⟩
        exact ⟨_, by simp [hfields], hx.2 hrest⟩
      obtain ⟨lexeme, pos⟩ := token
      cases lexeme with
      | keyword word =>
        cases word with
        | close => exact .skip_bind (.pure ⟨[], by simp, .close hfirst⟩)
        | _ => exact hread nofun
      | _ => exact hread nofun

theorem procedure (hfirst : left.first = .ok ⟨.keyword .procedure, pos⟩)
    (h : left.tokens.length ≤ n) :
    Gives (procedure pos) n left.behind fun x => ReadsItem left (.ok x) := by
  have := length_behind left
  refine .bind .name fun _ _ hcalled => .discard_bind .expect fun _ _ hopen =>
    .discard_bind .expect fun _ _ hclose => .discard_bind .expect fun _ _ harrow => ?_
  have := hcalled.length
  have := hopen.length
  have := hclose.length
  have := harrow.length
  refine .bind (.type (by omega)) fun _ _ hwritten => ?_
  have := hwritten.length
  exact .bind (.body (by omega)) fun _ _ hblock =>
    .pure (.procedure hfirst hcalled hopen hclose harrow hwritten hblock)

theorem record (hfirst : left.first = .ok ⟨.keyword .record, pos⟩) (h : left.tokens.length ≤ n) :
    Gives (record pos) n left.behind fun x => ReadsItem left (.ok x) := by
  have := length_behind left
  refine .bind .name fun _ _ hcalled => .bound_bind ?_
  have := hcalled.length
  refine .bind (.members (n + 2) [] (.inl (by omega)) (by omega)) ?_
  rintro ⟨_, close⟩ right ⟨fields, rfl, hfields⟩
  exact .pure (.record hfirst hcalled hfields)

theorem item {token : Token} (hfirst : left.first = .ok token) (h : left.tokens.length ≤ n) :
    Gives (item token) n left (ReadsItem left) := by
  refine .skip_bind ?_
  obtain ⟨lexeme, pos⟩ := token
  cases lexeme with
  | mark m =>
    cases m with
    | leftBracket => exact attributeItem.imp fun _ _ hfound => .tagged hfirst hfound
    | _ => exact .stop (.refused hfirst rfl rfl)
  | keyword word =>
    cases word with
    | procedure => exact .bind (.procedure hfirst h) fun _ _ hx => .pure hx
    | record => exact .bind (.record hfirst h) fun _ _ hx => .pure hx
    | input | output | declare => exact .bind (.global hfirst rfl h) fun _ _ hx => .pure hx
    | _ => exact .stop (.refused hfirst rfl rfl)
  | _ => exact .stop (.refused hfirst rfl rfl)

theorem items (fuel : Nat) (read : List Item) (hfuel : left.tokens.length < fuel)
    (hn : left.tokens.length ≤ n) :
    Gives (items fuel read) n left fun found _ => ∃ tree,
      found = ⟨read.reverse ++ tree.items, tree.ending⟩ ∧ ReadsItems left tree := by
  induction fuel generalizing left read with
  | zero => omega
  | succ fuel ih =>
    refine .get_bind ?_
    obtain ⟨_ | ⟨token, rest⟩, ending⟩ := left
    · exact .pure ⟨⟨[], ending⟩, by simp, .done rfl⟩
    · refine .bind (.item rfl hn) fun found a hfound => ?_
      have := hfound.length
      cases found with
      | error why => exact .pure ⟨⟨[], .error why⟩, by simp, .failed nofun hfound⟩
      | ok x =>
        refine (ih _ (by grind) (by grind)).imp ?_
        rintro _ _ ⟨tree, rfl, htree⟩
        exact ⟨_, by simp, .next nofun hfound htree⟩

end Gives

end Reading

open Reading

theorem SourceTree.ofTokens_enough (tokens : Tokens) {fuel n : Nat}
    (hfuel : tokens.tokens.length < fuel) (hn : tokens.tokens.length ≤ n) :
    (Reading.items fuel [] n tokens).1 = .ofTokens tokens := by
  obtain ⟨tree, htree, hreads⟩ := Gives.items fuel [] hfuel hn
  obtain ⟨tree', htree', hreads'⟩ :=
    Gives.items _ [] (Nat.lt_succ_self _) (Nat.le_refl tokens.tokens.length)
  rw [hreads.unique hreads'] at htree'
  exact htree.trans htree'.symm

theorem SourceTree.ofTokens_reads (tokens : Tokens) : ReadsItems tokens (.ofTokens tokens) := by
  obtain ⟨tree, htree, hreads⟩ :=
    Gives.items _ [] (Nat.lt_succ_self _) (Nat.le_refl tokens.tokens.length)
  exact Eq.subst (motive := ReadsItems tokens) htree.symm hreads

theorem SourceTree.eq_ofTokens {tokens : Tokens} {tree : SourceTree} (h : ReadsItems tokens tree) :
    tree = .ofTokens tokens :=
  (ofTokens_reads tokens).unique h

end Shading
