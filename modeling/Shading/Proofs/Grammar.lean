import Shading.Syntax

/-!
The grammar of the shading language: which tokens a syntax tree is written
with. Sums and products are left-recursive, so operators group to the left,
and a product is a part of a sum, so that multiplying binds tighter than
adding. Only whole trees are written with tokens: none of their parts is
missing.
-/

namespace Shading

theorem vectorSize?_cases {name : Bytes} {size : UInt32} (h : vectorSize? name = some size) :
    size = 2 ∨ size = 3 ∨ size = 4 := by
  simp only [vectorSize?] at h
  split at h
  · exact .inl (Option.some.inj h).symm
  · split at h
    · exact .inr (.inl (Option.some.inj h).symm)
    · split at h
      · exact .inr (.inr (Option.some.inj h).symm)
      · cases h

inductive Expr.Whole : Expr → Prop
  | var {name : Name} : Whole (.var name)
  | number {bits : UInt32} {pos : Position} : Whole (.number bits pos)
  | paren {pos close : Position} {inner : Expr} :
      Whole inner → Whole (.paren pos inner (.ok close))
  | vector {pos close : Position} {first : Expr} {rest : List Expr} :
      Whole first → (∀ x ∈ rest, Whole x) → Whole (.vector pos first rest (.ok close))
  | sum {op : SumOperator} {pos : Position} {left right : Expr} :
      Whole left → Whole right → Whole (.sum op pos left right)
  | scale {op : ScaleOperator} {pos : Position} {left right : Expr} :
      Whole left → Whole right → Whole (.scale op pos left right)

namespace Grammar

inductive Level where
  | operand
  | product
  | sum
  deriving DecidableEq, Repr

/-- The tokens of an expression. -/
inductive Expression : Level → List Token → Expr → Prop
  | var {text : Bytes} {pos : Position} :
      Expression .operand [⟨.sym text, pos⟩] (.var ⟨text, pos⟩)
  | number {bits : UInt32} {pos : Position} :
      Expression .operand [⟨.number bits, pos⟩] (.number bits pos)
  | paren {pos close : Position} {tokens : List Token} {inner : Expr} :
      Expression .sum tokens inner →
      Expression .operand ([⟨.mark .leftParen, pos⟩] ++ tokens ++ [⟨.mark .rightParen, close⟩])
        (.paren pos inner (.ok close))
  | vector {pos close : Position} {tokens : List Token} {first : Expr}
      {rest : List (Position × List Token × Expr)} :
      Expression .sum tokens first →
      (∀ element ∈ rest, Expression .sum element.2.1 element.2.2) →
      Expression .operand ([⟨.mark .leftBrace, pos⟩] ++ tokens ++
          rest.flatMap (fun element => ⟨.mark .comma, element.1⟩ :: element.2.1) ++
          [⟨.mark .rightBrace, close⟩])
        (.vector pos first (rest.map (·.2.2)) (.ok close))
  | factor {tokens : List Token} {x : Expr} :
      Expression .operand tokens x → Expression .product tokens x
  | multiply {pos : Position} {before after : List Token} {left right : Expr} :
      Expression .product before left → Expression .operand after right →
      Expression .product (before ++ ([⟨.mark .star, pos⟩] ++ after))
        (.scale .multiply pos left right)
  | divide {pos : Position} {before after : List Token} {left right : Expr} :
      Expression .product before left → Expression .operand after right →
      Expression .product (before ++ ([⟨.mark .slash, pos⟩] ++ after))
        (.scale .divide pos left right)
  | term {tokens : List Token} {x : Expr} :
      Expression .product tokens x → Expression .sum tokens x
  | add {pos : Position} {before after : List Token} {left right : Expr} :
      Expression .sum before left → Expression .product after right →
      Expression .sum (before ++ ([⟨.mark .plus, pos⟩] ++ after)) (.sum .add pos left right)
  | subtract {pos : Position} {before after : List Token} {left right : Expr} :
      Expression .sum before left → Expression .product after right →
      Expression .sum (before ++ ([⟨.mark .minus, pos⟩] ++ after)) (.sum .subtract pos left right)

inductive WrittenType : List Token → TypeSyntax → Prop
  | named {text : Bytes} {pos : Position} :
      vectorSize? text = none → WrittenType [⟨.sym text, pos⟩] (.named ⟨text, pos⟩)
  | vector {text : Bytes} {pos less close : Position} {size : UInt32} {tokens : List Token}
      {component : TypeSyntax} :
      vectorSize? text = some size → WrittenType tokens component →
      WrittenType ([⟨.sym text, pos⟩] ++ ([⟨.mark .less, less⟩] ++
        (tokens ++ [⟨.mark .greater, close⟩]))) (.vector pos size component (.ok close))

inductive Statements : List Token → List Stmt → Prop
  | done : Statements [] []
  | next {tokens tokens' : List Token} {stmt : Stmt} {rest : List Stmt} :
      Statements tokens [stmt] → Statements tokens' rest →
      Statements (tokens ++ tokens') (stmt :: rest)
  | declare {pos namePos colon equal close : Position} {text : Bytes}
      {typeTokens valueTokens : List Token} {type : TypeSyntax} {value : Expr} :
      WrittenType typeTokens type → Expression .sum valueTokens value →
      Statements ([⟨.keyword .declare, pos⟩] ++ ([⟨.sym text, namePos⟩] ++
        ([⟨.mark .colon, colon⟩] ++
          (typeTokens ++ ([⟨.mark .equal, equal⟩] ++ (valueTokens ++
            [⟨.mark .semicolon, close⟩]))))))
        [.declare pos (.ok ⟨text, namePos⟩) type (.ok equal) value (.ok close)]
  | leave {pos close : Position} :
      Statements ([⟨.keyword .give, pos⟩] ++ [⟨.mark .semicolon, close⟩]) [.leave pos close]
  | giveBack {pos close : Position} {tokens : List Token} {value : Expr} :
      Expression .sum tokens value →
      Statements ([⟨.keyword .give, pos⟩] ++ (tokens ++ [⟨.mark .semicolon, close⟩]))
        [.giveBack pos value (.ok close)]
  | group {pos close : Position} {tokens : List Token} {body : List Stmt} :
      Statements tokens body →
      Statements ([⟨.keyword .group, pos⟩] ++ (tokens ++ [⟨.keyword .close, close⟩]))
        [.group pos body (.ok close)]
  | evaluate {close : Position} {tokens : List Token} {value : Expr} :
      Expression .sum tokens value →
      Statements (tokens ++ [⟨.mark .semicolon, close⟩]) [.evaluate value (.ok close)]
  | assign {pos close : Position} {tokens tokens' : List Token} {target value : Expr} :
      Expression .sum tokens target → Expression .sum tokens' value →
      Statements (tokens ++ ([⟨.mark .assign, pos⟩] ++ (tokens' ++ [⟨.mark .semicolon, close⟩])))
        [.assign target pos value (.ok close)]

def attributeTokens (opened : Position) (name : Name) (paren : Position) (argument : Name)
    (unparen close : Position) : List Token :=
  [⟨.mark .leftBracket, opened⟩, ⟨.sym name.text, name.pos⟩, ⟨.mark .leftParen, paren⟩,
    ⟨.sym argument.text, argument.pos⟩, ⟨.mark .rightParen, unparen⟩, ⟨.mark .rightBracket, close⟩]

inductive MemberAttribute : List Token → Builtin → Prop
  | absent : MemberAttribute [] .absent
  | position {opened paren unparen close : Position} {name argument : Name} :
      name.text = Text.utf8 "builtin" → argument.text = Text.utf8 "position" →
      MemberAttribute (attributeTokens opened name paren argument unparen close) .position

inductive Member : List Token → MemberSyntax → Prop
  | member {tokens typeTokens : List Token} {builtin : Builtin} {text : Bytes}
      {namePos colon close : Position} {type : TypeSyntax} :
      MemberAttribute tokens builtin → WrittenType typeTokens type →
      Member (tokens ++ ([⟨.sym text, namePos⟩] ++ ([⟨.mark .colon, colon⟩] ++
          (typeTokens ++ [⟨.mark .semicolon, close⟩]))))
        ⟨builtin, .ok ⟨text, namePos⟩, type, .ok close⟩

inductive Place : List Token → Option Placement → Prop
  | absent : Place [] none
  | location {pos valuePos : Position} {value : Int64} :
      Place [⟨.keyword .place, pos⟩, ⟨.integer value, valuePos⟩]
        (some ⟨pos, .ok (value, valuePos)⟩)

def directionKeyword : Direction → Option Keyword
  | .input => some .input
  | .output => some .output
  | .internal => some .declare
  | .other _ => none

def stageName : Stage → Option Bytes
  | .vertex => some (Text.utf8 "vertex")
  | .fragment => some (Text.utf8 "fragment")
  | .other _ => none

inductive TopLevel : List Token → Item → Prop
  | stage {opened paren unparen close : Position} {name argument : Name} {stage : Stage} :
      name.text = Text.utf8 "entry_point" → stageName stage = some argument.text →
      TopLevel (attributeTokens opened name paren argument unparen close)
        (.stage name.pos stage (.ok close))
  | builtin {opened paren unparen close : Position} {name argument : Name} :
      name.text = Text.utf8 "builtin" → argument.text = Text.utf8 "position" →
      TopLevel (attributeTokens opened name paren argument unparen close)
        (.builtin name.pos .position (.ok close))
  | global {keyword : Keyword} {pos namePos colon : Position} {direction : Direction} {text : Bytes}
      {typeTokens placeTokens last : List Token} {type : TypeSyntax}
      {placement : Option Placement} :
      directionKeyword direction = some keyword → WrittenType typeTokens type →
      Place placeTokens placement →
      (last = [] ∨ ∃ close, last = [⟨.mark .semicolon, close⟩]) →
      TopLevel ([⟨.keyword keyword, pos⟩] ++ ([⟨.sym text, namePos⟩] ++ ([⟨.mark .colon, colon⟩] ++
          (typeTokens ++ (placeTokens ++ last)))))
        (.global pos direction (.ok ⟨text, namePos⟩) type (.ok placement))
  | record {pos namePos close : Position} {text : Bytes}
      {members : List (List Token × MemberSyntax)} :
      (∀ member ∈ members, Member member.1 member.2) →
      TopLevel ([⟨.keyword .record, pos⟩] ++ ([⟨.sym text, namePos⟩] ++
          (members.flatMap (·.1) ++ [⟨.keyword .close, close⟩])))
        (.record pos (.ok ⟨text, namePos⟩) (members.map (·.2)) (.ok close))
  | procedure {pos namePos paren unparen arrow close : Position} {text : Bytes}
      {typeTokens bodyTokens : List Token} {result : TypeSyntax} {body : List Stmt} :
      WrittenType typeTokens result → Statements bodyTokens body →
      TopLevel ([⟨.keyword .procedure, pos⟩] ++ ([⟨.sym text, namePos⟩] ++
          ([⟨.mark .leftParen, paren⟩] ++ ([⟨.mark .rightParen, unparen⟩] ++
          ([⟨.mark .arrow, arrow⟩] ++ (typeTokens ++ (bodyTokens ++
            [⟨.keyword .close, close⟩])))))))
        (.procedure pos (.ok ⟨text, namePos⟩) result body (.ok close))

/-- The tokens of a source file. -/
inductive File : List Token → List Item → Prop
  | done : File [] []
  | next {tokens tokens' : List Token} {item : Item} {rest : List Item} :
      TopLevel tokens item → File tokens' rest → File (tokens ++ tokens') (item :: rest)

end Grammar

end Shading
