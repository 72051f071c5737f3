import Shading.Proofs.Grammar

/-!
The grammar of the shading language as productions. A production is a phrase
of tokens and symbols, in sequence, as alternatives, once, perhaps or any
number of times, and a symbol derives what its production does. The relations
between tokens and trees tell the same grammar: the tokens of a source file
are derived exactly if there are items that they write.
-/

namespace Shading

open List

variable {parts : List (List Token)} {text : Bytes} {α : Type}

namespace Grammar

variable {tokens : List Token}

inductive Terminal where
  | mark (m : Mark)
  | keyword (k : Keyword)
  | word (spelling : String)
  | sym
  | typeName
  | integer
  | number

def vectorNames : List String := ["vec2", "vec3", "vec4"]

inductive Terminal.Accepts : Terminal → Lexeme → Prop
  | mark {m : Mark} : Accepts (.mark m) (.mark m)
  | keyword {k : Keyword} : Accepts (.keyword k) (.keyword k)
  | word {spelling : String} : Accepts (.word spelling) (.sym (Text.utf8 spelling))
  | sym {text : Bytes} : Accepts .sym (.sym text)
  | typeName {text : Bytes} (h : ∀ name ∈ vectorNames, text ≠ Text.utf8 name) :
      Accepts .typeName (.sym text)
  | integer {value : Int64} : Accepts .integer (.integer value)
  | number {bits : UInt32} : Accepts .number (.number bits)

inductive Symbol where
  | file
  | item
  | attributeBody
  | procedure
  | record
  | member
  | global
  | type
  | statement
  | expression
  | product
  | operand
  deriving DecidableEq, Repr

inductive Phrase where
  | terminal (t : Terminal)
  | symbol (s : Symbol)
  | both (first second : Phrase)
  | either (first second : Phrase)
  | optional (part : Phrase)
  | repeated (part : Phrase)

variable {level : Level} {s : Symbol} {b : Phrase}

namespace Phrase

instance : Append Phrase := ⟨both⟩

instance : OrOp Phrase := ⟨either⟩

abbrev mark (m : Mark) : Phrase := terminal (.mark m)

abbrev keyword (k : Keyword) : Phrase := terminal (.keyword k)

abbrev word (spelling : String) : Phrase := terminal (.word spelling)

abbrev sym : Phrase := terminal .sym

end Phrase

open Phrase in
def production : Symbol → Phrase
  | .file => repeated (symbol .item)
  | .item =>
    mark .leftBracket ++ symbol .attributeBody ++ mark .rightBracket |||
    symbol .procedure ||| symbol .record ||| symbol .global
  | .attributeBody =>
    word "entry_point" ++ mark .leftParen ++ (word "vertex" ||| word "fragment") ++
      mark .rightParen |||
    word "builtin" ++ mark .leftParen ++ word "position" ++ mark .rightParen
  | .procedure =>
    keyword .procedure ++ sym ++ mark .leftParen ++ mark .rightParen ++ mark .arrow ++
      symbol .type ++ repeated (symbol .statement) ++ keyword .close
  | .record => keyword .record ++ sym ++ repeated (symbol .member) ++ keyword .close
  | .member =>
    optional (mark .leftBracket ++ word "builtin" ++ mark .leftParen ++ word "position" ++
      mark .rightParen ++ mark .rightBracket) ++
    sym ++ mark .colon ++ symbol .type ++ mark .semicolon
  | .global =>
    (keyword .input ||| keyword .output ||| keyword .declare) ++ sym ++ mark .colon ++
      symbol .type ++ optional (keyword .place ++ terminal .integer) ++ optional (mark .semicolon)
  | .type =>
    (word "vec2" ||| word "vec3" ||| word "vec4") ++ mark .less ++ symbol .type ++
      mark .greater |||
    terminal .typeName
  | .statement =>
    keyword .declare ++ sym ++ mark .colon ++ symbol .type ++ mark .equal ++
      symbol .expression ++ mark .semicolon |||
    keyword .give ++ optional (symbol .expression) ++ mark .semicolon |||
    keyword .group ++ repeated (symbol .statement) ++ keyword .close |||
    symbol .expression ++ mark .semicolon |||
    symbol .expression ++ mark .assign ++ symbol .expression ++ mark .semicolon
  | .expression => symbol .product ++ repeated ((mark .plus ||| mark .minus) ++ symbol .product)
  | .product => symbol .operand ++ repeated ((mark .star ||| mark .slash) ++ symbol .operand)
  | .operand =>
    mark .leftParen ++ symbol .expression ++ mark .rightParen |||
    sym ||| terminal .number |||
    mark .leftBrace ++ symbol .expression ++ repeated (mark .comma ++ symbol .expression) ++
      mark .rightBrace

/-- The tokens that a phrase derives. -/
inductive Derives : Phrase → List Token → Prop
  | terminal {t : Terminal} {lexeme : Lexeme} {pos : Position} :
      t.Accepts lexeme → Derives (.terminal t) [⟨lexeme, pos⟩]
  | symbol {s : Symbol} {tokens : List Token} :
      Derives (production s) tokens → Derives (.symbol s) tokens
  | both {a b : Phrase} {tokens tokens' : List Token} :
      Derives a tokens → Derives b tokens' → Derives (.both a b) (tokens ++ tokens')
  | first {a b : Phrase} {tokens : List Token} : Derives a tokens → Derives (.either a b) tokens
  | second {a b : Phrase} {tokens : List Token} : Derives b tokens → Derives (.either a b) tokens
  | absent {a : Phrase} : Derives (.optional a) []
  | present {a : Phrase} {tokens : List Token} : Derives a tokens → Derives (.optional a) tokens
  | done {a : Phrase} : Derives (.repeated a) []
  | more {a : Phrase} {tokens tokens' : List Token} :
      Derives a tokens → Derives (.repeated a) tokens' → Derives (.repeated a) (tokens ++ tokens')

def Phrase.Means (meaning : Symbol → List Token → Prop) : Phrase → List Token → Prop
  | .terminal t, tokens => ∃ lexeme pos, tokens = [⟨lexeme, pos⟩] ∧ t.Accepts lexeme
  | .symbol s, tokens => meaning s tokens
  | .both a b, tokens => ∃ x y, tokens = x ++ y ∧ a.Means meaning x ∧ b.Means meaning y
  | .either a b, tokens => a.Means meaning tokens ∨ b.Means meaning tokens
  | .optional a, tokens => tokens = [] ∨ a.Means meaning tokens
  | .repeated a, tokens => ∃ parts : List (List Token),
      tokens = parts.flatten ∧ ∀ part ∈ parts, a.Means meaning part

theorem Derives.means {meaning : Symbol → List Token → Prop}
    (hclosed : ∀ s tokens, (production s).Means meaning tokens → meaning s tokens) {a : Phrase}
    (h : Derives a tokens) : a.Means meaning tokens := by
  induction h with
  | terminal haccepts => exact ⟨_, _, rfl, haccepts⟩
  | symbol _ ih => exact hclosed _ _ ih
  | both _ _ iha ihb => exact ⟨_, _, rfl, iha, ihb⟩
  | first _ ih => exact .inl ih
  | second _ ih => exact .inr ih
  | absent => exact .inl rfl
  | present _ ih => exact .inr ih
  | done => exact ⟨[], rfl, fun _ hpart => nomatch hpart⟩
  | more _ _ iha ihb =>
    obtain ⟨parts, rfl, hparts⟩ := ihb
    exact ⟨_ :: parts, rfl, forall_mem_cons.mpr ⟨iha, hparts⟩⟩

def Symbol.Writes : Symbol → List Token → Prop
  | .file, tokens => ∃ items, File tokens items
  | .item, tokens | .procedure, tokens | .record, tokens | .global, tokens =>
    ∃ item, TopLevel tokens item
  | .attributeBody, tokens => ∀ opened close,
      ∃ item, TopLevel ([⟨.mark .leftBracket, opened⟩] ++ tokens ++ [⟨.mark .rightBracket, close⟩])
        item
  | .member, tokens => ∃ member, Member tokens member
  | .type, tokens => ∃ type, WrittenType tokens type
  | .statement, tokens => ∃ stmt, Statements tokens [stmt]
  | .expression, tokens => ∃ x, Expression .sum tokens x
  | .product, tokens => ∃ x, Expression .product tokens x
  | .operand, tokens => ∃ x, Expression .operand tokens x

theorem exists_trees {writes : List Token → α → Prop}
    (h : ∀ part ∈ parts, ∃ tree, writes part tree) :
    ∃ written : List (List Token × α), written.flatMap (·.1) = parts.flatten ∧
      ∀ pair ∈ written, writes pair.1 pair.2 := by
  induction parts with
  | nil => exact ⟨[], rfl, fun _ hpair => nomatch hpair⟩
  | cons part parts ih =>
    obtain ⟨⟨tree, htree⟩, hparts⟩ := forall_mem_cons.mp h
    obtain ⟨written, hflat, hwritten⟩ := ih hparts
    refine ⟨(part, tree) :: written, ?_, forall_mem_cons.mpr ⟨htree, hwritten⟩⟩
    rw [flatMap_cons, hflat, flatten_cons]

theorem vectorSize?_isSome {name : String} (h : name ∈ vectorNames) :
    ∃ size, vectorSize? (Text.utf8 name) = some size := by
  simp only [vectorNames, mem_cons, not_mem_nil, or_false] at h
  rcases h with rfl | rfl | rfl
  · exact ⟨2, by decide⟩
  · exact ⟨3, by decide⟩
  · exact ⟨4, by decide⟩

theorem vectorSize?_eq_none (h : ∀ name ∈ vectorNames, text ≠ Text.utf8 name) :
    vectorSize? text = none := by
  rw [vectorSize?, if_neg (h "vec2" (by decide)), if_neg (h "vec3" (by decide)),
    if_neg (h "vec4" (by decide))]

theorem file_writes (h : (production .file).Means Symbol.Writes tokens) :
    ∃ items, File tokens items := by
  obtain ⟨parts, rfl, hparts⟩ := h
  induction parts with
  | nil => exact ⟨[], .done⟩
  | cons part parts ih =>
    obtain ⟨⟨item, hitem⟩, hparts⟩ := forall_mem_cons.mp hparts
    obtain ⟨items, hfile⟩ := ih hparts
    exact ⟨item :: items, .next hitem hfile⟩

theorem item_writes (h : (production .item).Means Symbol.Writes tokens) :
    ∃ item, TopLevel tokens item := by
  obtain ((⟨_, _, rfl, ⟨_, _, rfl, ⟨_, opened, rfl, ⟨⟩⟩, hattribute⟩, ⟨_, close, rfl, ⟨⟩⟩⟩ | h) | h)
    | h := h
  · exact hattribute opened close
  · exact h
  · exact h
  · exact h

theorem attribute_writes (h : (production .attributeBody).Means Symbol.Writes tokens) :
    Symbol.Writes .attributeBody tokens := by
  intro opened close
  obtain ⟨_, _, rfl, ⟨_, _, rfl, ⟨_, _, rfl, ⟨_, namePos, rfl, ⟨⟩⟩, ⟨_, paren, rfl, ⟨⟩⟩⟩, hstage⟩,
      ⟨_, unparen, rfl, ⟨⟩⟩⟩ |
    ⟨_, _, rfl, ⟨_, _, rfl, ⟨_, _, rfl, ⟨_, namePos, rfl, ⟨⟩⟩, ⟨_, paren, rfl, ⟨⟩⟩⟩,
      ⟨_, pos, rfl, ⟨⟩⟩⟩, ⟨_, unparen, rfl, ⟨⟩⟩⟩ := h
  · have hitem : ∀ stage argument pos, stageName stage = some argument →
        TopLevel (attributeTokens opened ⟨Text.utf8 "entry_point", namePos⟩ paren ⟨argument, pos⟩
          unparen close) (.stage namePos stage (.ok close)) :=
      fun _ _ _ hargument => .stage rfl hargument
    obtain ⟨_, pos, rfl, ⟨⟩⟩ | ⟨_, pos, rfl, ⟨⟩⟩ := hstage
    · exact ⟨_, hitem .vertex _ pos rfl⟩
    · exact ⟨_, hitem .fragment _ pos rfl⟩
  · have hitem : TopLevel (attributeTokens opened ⟨Text.utf8 "builtin", namePos⟩ paren
        ⟨Text.utf8 "position", pos⟩ unparen close) (.builtin namePos .position (.ok close)) :=
      .builtin rfl rfl
    exact ⟨_, hitem⟩

theorem type_writes (h : (production .type).Means Symbol.Writes tokens) :
    ∃ type, WrittenType tokens type := by
  obtain ⟨_, _, rfl, ⟨_, _, rfl, ⟨first, _, rfl, hname, ⟨_, less, rfl, ⟨⟩⟩⟩,
    ⟨component, hcomponent⟩⟩, ⟨_, close, rfl, ⟨⟩⟩⟩ | ⟨_, pos, rfl, haccepts⟩ := h
  · have hvector : ∃ name ∈ vectorNames, ∃ pos, first = [⟨.sym (Text.utf8 name), pos⟩] := by
      obtain (⟨_, pos, rfl, ⟨⟩⟩ | ⟨_, pos, rfl, ⟨⟩⟩) | ⟨_, pos, rfl, ⟨⟩⟩ := hname
      · exact ⟨"vec2", by decide, pos, rfl⟩
      · exact ⟨"vec3", by decide, pos, rfl⟩
      · exact ⟨"vec4", by decide, pos, rfl⟩
    obtain ⟨name, hmem, pos, rfl⟩ := hvector
    obtain ⟨size, hsize⟩ := vectorSize?_isSome hmem
    exact ⟨_, by simpa only [append_assoc] using .vector hsize hcomponent⟩
  · cases haccepts with
    | typeName htext => exact ⟨_, .named (vectorSize?_eq_none htext)⟩

theorem expression_chain {continues : List Token → Prop}
    (hnext : ∀ {before part left}, Expression level before left → continues part →
      ∃ x, Expression level (before ++ part) x) (hparts : ∀ part ∈ parts, continues part)
    {before : List Token} {left : Expr} (hbefore : Expression level before left) :
    ∃ x, Expression level (before ++ parts.flatten) x := by
  induction parts generalizing before left with
  | nil => exact ⟨left, by simpa using hbefore⟩
  | cons part parts ih =>
    obtain ⟨hpart, hparts⟩ := forall_mem_cons.mp hparts
    obtain ⟨x, hx⟩ := hnext hbefore hpart
    rw [flatten_cons, ← append_assoc]
    exact ih hparts hx

theorem product_writes (h : (production .product).Means Symbol.Writes tokens) :
    ∃ x, Expression .product tokens x := by
  obtain ⟨_, _, rfl, ⟨first, hfirst⟩, parts, rfl, hparts⟩ := h
  refine expression_chain ?_ hparts (.factor hfirst)
  rintro before _ left hleft ⟨_, _, rfl, ⟨_, pos, rfl, ⟨⟩⟩ | ⟨_, pos, rfl, ⟨⟩⟩, ⟨right, hright⟩⟩
  · exact ⟨_, .multiply hleft hright⟩
  · exact ⟨_, .divide hleft hright⟩

theorem expression_writes (h : (production .expression).Means Symbol.Writes tokens) :
    ∃ x, Expression .sum tokens x := by
  obtain ⟨_, _, rfl, ⟨first, hfirst⟩, parts, rfl, hparts⟩ := h
  refine expression_chain ?_ hparts (.term hfirst)
  rintro before _ left hleft ⟨_, _, rfl, ⟨_, pos, rfl, ⟨⟩⟩ | ⟨_, pos, rfl, ⟨⟩⟩, ⟨right, hright⟩⟩
  · exact ⟨_, .add hleft hright⟩
  · exact ⟨_, .subtract hleft hright⟩

theorem elements_writes (h : ∀ part ∈ parts,
      (Phrase.mark .comma ++ Phrase.symbol .expression).Means Symbol.Writes part) :
    ∃ rest : List (Position × List Token × Expr),
      rest.flatMap (fun element => ⟨.mark .comma, element.1⟩ :: element.2.1) = parts.flatten ∧
      ∀ element ∈ rest, Expression .sum element.2.1 element.2.2 := by
  induction parts with
  | nil => exact ⟨[], rfl, fun _ helement => nomatch helement⟩
  | cons part parts ih =>
    obtain ⟨hpart, hparts⟩ := forall_mem_cons.mp h
    obtain ⟨_, used, rfl, ⟨_, pos, rfl, ⟨⟩⟩, ⟨x, hx⟩⟩ := hpart
    obtain ⟨rest, hflat, hrest⟩ := ih hparts
    refine ⟨(pos, used, x) :: rest, ?_, forall_mem_cons.mpr ⟨hx, hrest⟩⟩
    rw [flatMap_cons, hflat, flatten_cons]
    rfl

theorem operand_writes (h : (production .operand).Means Symbol.Writes tokens) :
    ∃ x, Expression .operand tokens x := by
  obtain ((⟨_, _, rfl, ⟨_, _, rfl, ⟨_, pos, rfl, ⟨⟩⟩, ⟨inner, hinner⟩⟩, ⟨_, close, rfl, ⟨⟩⟩⟩ |
    ⟨_, pos, rfl, ⟨⟩⟩) | ⟨_, pos, rfl, ⟨⟩⟩) |
    ⟨_, _, rfl, ⟨_, _, rfl, ⟨_, _, rfl, ⟨_, pos, rfl, ⟨⟩⟩, ⟨first, hfirst⟩⟩,
      ⟨parts, rfl, hparts⟩⟩, ⟨_, close, rfl, ⟨⟩⟩⟩ := h
  · exact ⟨_, .paren hinner⟩
  · exact ⟨_, .var⟩
  · exact ⟨_, .number⟩
  · obtain ⟨rest, hflat, hrest⟩ := elements_writes hparts
    rw [← hflat]
    exact ⟨_, .vector hfirst hrest⟩

theorem statements_writes (h : ∀ part ∈ parts, ∃ stmt, Statements part [stmt]) :
    ∃ body, Statements parts.flatten body := by
  induction parts with
  | nil => exact ⟨[], .done⟩
  | cons part parts ih =>
    obtain ⟨⟨stmt, hstmt⟩, hparts⟩ := forall_mem_cons.mp h
    obtain ⟨body, hbody⟩ := ih hparts
    exact ⟨stmt :: body, .next hstmt hbody⟩

theorem statement_writes (h : (production .statement).Means Symbol.Writes tokens) :
    ∃ stmt, Statements tokens [stmt] := by
  obtain (((hdeclare | hgive) | hgroup) | hevaluate) | hassign := h
  · obtain ⟨_, _, rfl, ⟨_, _, rfl, ⟨_, _, rfl, ⟨_, _, rfl, ⟨_, _, rfl, ⟨_, _, rfl,
      ⟨_, pos, rfl, ⟨⟩⟩, ⟨_, namePos, rfl, ⟨⟩⟩⟩, ⟨_, colon, rfl, ⟨⟩⟩⟩, ⟨type, htype⟩⟩,
      ⟨_, equal, rfl, ⟨⟩⟩⟩, ⟨value, hvalue⟩⟩, ⟨_, close, rfl, ⟨⟩⟩⟩ := hdeclare
    exact ⟨_, by simpa only [append_assoc] using .declare htype hvalue⟩
  · obtain ⟨_, _, rfl, ⟨_, _, rfl, ⟨_, pos, rfl, ⟨⟩⟩, hvalue⟩, ⟨_, close, rfl, ⟨⟩⟩⟩ := hgive
    obtain rfl | ⟨value, hvalue⟩ := hvalue
    · exact ⟨_, .leave⟩
    · exact ⟨_, by simpa only [append_assoc] using .giveBack hvalue⟩
  · obtain ⟨_, _, rfl, ⟨_, _, rfl, ⟨_, pos, rfl, ⟨⟩⟩, ⟨parts, rfl, hparts⟩⟩,
      ⟨_, close, rfl, ⟨⟩⟩⟩ := hgroup
    obtain ⟨body, hbody⟩ := statements_writes hparts
    exact ⟨_, by simpa only [append_assoc] using .group hbody⟩
  · obtain ⟨_, _, rfl, ⟨value, hvalue⟩, ⟨_, close, rfl, ⟨⟩⟩⟩ := hevaluate
    exact ⟨_, .evaluate hvalue⟩
  · obtain ⟨_, _, rfl, ⟨_, _, rfl, ⟨_, _, rfl, ⟨target, htarget⟩, ⟨_, pos, rfl, ⟨⟩⟩⟩,
      ⟨value, hvalue⟩⟩, ⟨_, close, rfl, ⟨⟩⟩⟩ := hassign
    exact ⟨_, by simpa only [append_assoc] using .assign htarget hvalue⟩

theorem member_writes (h : (production .member).Means Symbol.Writes tokens) :
    ∃ member, Member tokens member := by
  obtain ⟨_, _, rfl, ⟨_, _, rfl, ⟨_, _, rfl, ⟨first, _, rfl, hfirst, ⟨_, namePos, rfl, ⟨⟩⟩⟩,
    ⟨_, colon, rfl, ⟨⟩⟩⟩, ⟨type, htype⟩⟩, ⟨_, close, rfl, ⟨⟩⟩⟩ := h
  have hattribute : ∃ builtin, MemberAttribute first builtin := by
    obtain rfl | ⟨_, _, rfl, ⟨_, _, rfl, ⟨_, _, rfl, ⟨_, _, rfl, ⟨_, _, rfl,
      ⟨_, opened, rfl, ⟨⟩⟩, ⟨_, pos, rfl, ⟨⟩⟩⟩, ⟨_, paren, rfl, ⟨⟩⟩⟩, ⟨_, pos', rfl, ⟨⟩⟩⟩,
      ⟨_, unparen, rfl, ⟨⟩⟩⟩, ⟨_, close, rfl, ⟨⟩⟩⟩ := hfirst
    · exact ⟨_, .absent⟩
    · have hposition : MemberAttribute (attributeTokens opened ⟨Text.utf8 "builtin", pos⟩ paren
          ⟨Text.utf8 "position", pos'⟩ unparen close) .position := .position rfl rfl
      exact ⟨_, hposition⟩
  obtain ⟨builtin, hbuiltin⟩ := hattribute
  exact ⟨_, by simpa only [append_assoc] using .member hbuiltin htype⟩

theorem record_writes (h : (production .record).Means Symbol.Writes tokens) :
    ∃ item, TopLevel tokens item := by
  obtain ⟨_, _, rfl, ⟨_, _, rfl, ⟨_, _, rfl, ⟨_, pos, rfl, ⟨⟩⟩, ⟨_, namePos, rfl, ⟨⟩⟩⟩,
    ⟨parts, rfl, hparts⟩⟩, ⟨_, close, rfl, ⟨⟩⟩⟩ := h
  obtain ⟨members, hflat, hmembers⟩ := exists_trees hparts
  rw [← hflat]
  exact ⟨_, by simpa only [append_assoc] using .record hmembers⟩

theorem procedure_writes (h : (production .procedure).Means Symbol.Writes tokens) :
    ∃ item, TopLevel tokens item := by
  obtain ⟨_, _, rfl, ⟨_, _, rfl, ⟨_, _, rfl, ⟨_, _, rfl, ⟨_, _, rfl, ⟨_, _, rfl, ⟨_, _, rfl,
    ⟨_, pos, rfl, ⟨⟩⟩, ⟨_, namePos, rfl, ⟨⟩⟩⟩, ⟨_, paren, rfl, ⟨⟩⟩⟩, ⟨_, unparen, rfl, ⟨⟩⟩⟩,
    ⟨_, arrow, rfl, ⟨⟩⟩⟩, ⟨type, htype⟩⟩, ⟨parts, rfl, hparts⟩⟩, ⟨_, close, rfl, ⟨⟩⟩⟩ := h
  obtain ⟨body, hbody⟩ := statements_writes hparts
  exact ⟨_, by simpa only [append_assoc] using .procedure htype hbody⟩

theorem global_writes (h : (production .global).Means Symbol.Writes tokens) :
    ∃ item, TopLevel tokens item := by
  obtain ⟨_, last, rfl, ⟨_, place, rfl, ⟨_, _, rfl, ⟨_, _, rfl, ⟨first, _, rfl, hfirst,
    ⟨_, namePos, rfl, ⟨⟩⟩⟩, ⟨_, colon, rfl, ⟨⟩⟩⟩, ⟨type, htype⟩⟩, hplace⟩, hlast⟩ := h
  have hkeyword : ∃ direction keyword pos, directionKeyword direction = some keyword ∧
      first = [⟨.keyword keyword, pos⟩] := by
    obtain (⟨_, pos, rfl, ⟨⟩⟩ | ⟨_, pos, rfl, ⟨⟩⟩) | ⟨_, pos, rfl, ⟨⟩⟩ := hfirst
    · exact ⟨.input, .input, pos, rfl, rfl⟩
    · exact ⟨.output, .output, pos, rfl, rfl⟩
    · exact ⟨.internal, .declare, pos, rfl, rfl⟩
  have hplacement : ∃ placement, Place place placement := by
    obtain rfl | ⟨_, _, rfl, ⟨_, pos, rfl, ⟨⟩⟩, ⟨_, valuePos, rfl, ⟨⟩⟩⟩ := hplace
    · exact ⟨_, .absent⟩
    · exact ⟨_, .location⟩
  have hend : last = [] ∨ ∃ close, last = [⟨.mark .semicolon, close⟩] := by
    obtain rfl | ⟨_, close, rfl, ⟨⟩⟩ := hlast
    · exact .inl rfl
    · exact .inr ⟨close, rfl⟩
  obtain ⟨direction, keyword, pos, hdirection, rfl⟩ := hkeyword
  obtain ⟨placement, hplacement⟩ := hplacement
  exact ⟨_, by simpa only [append_assoc] using .global hdirection htype hplacement hend⟩

theorem Derives.writes (h : Derives (.symbol s) tokens) :
    s.Writes tokens := by
  have hclosed : ∀ s tokens, (production s).Means Symbol.Writes tokens → s.Writes tokens := by
    intro s tokens hsays
    cases s with
    | file => exact file_writes hsays
    | item => exact item_writes hsays
    | attributeBody => exact attribute_writes hsays
    | procedure => exact procedure_writes hsays
    | record => exact record_writes hsays
    | member => exact member_writes hsays
    | global => exact global_writes hsays
    | type => exact type_writes hsays
    | statement => exact statement_writes hsays
    | expression => exact expression_writes hsays
    | product => exact product_writes hsays
    | operand => exact operand_writes hsays
  exact h.means hclosed

namespace Derives

variable {a : Phrase} {tokens tokens' : List Token} {pos : Position}

theorem mark {m : Mark} : Derives (.mark m) [⟨.mark m, pos⟩] := .terminal .mark

theorem keyword {k : Keyword} : Derives (.keyword k) [⟨.keyword k, pos⟩] := .terminal .keyword

theorem sym : Derives .sym [⟨.sym text, pos⟩] := .terminal .sym

theorem word {spelling : String} (h : text = Text.utf8 spelling) :
    Derives (.word spelling) [⟨.sym text, pos⟩] := by
  subst h
  exact .terminal .word

theorem snoc (h : Derives (.repeated a) tokens) (hlast : Derives a tokens') :
    Derives (.repeated a) (tokens ++ tokens') := by
  generalize hphrase : Phrase.repeated a = phrase at h
  induction h with
  | done =>
    cases hphrase
    rw [nil_append, ← append_nil tokens']
    exact .more hlast .done
  | more hfirst _ _ ih =>
    cases hphrase
    rw [append_assoc]
    exact .more hfirst (ih rfl)
  | _ => cases hphrase

theorem flatMap {part : α → List Token} {parts : List α} (h : ∀ x ∈ parts, Derives a (part x)) :
    Derives (.repeated a) (parts.flatMap part) := by
  induction parts with
  | nil => exact .done
  | cons x parts ih =>
    obtain ⟨hx, hparts⟩ := forall_mem_cons.mp h
    rw [flatMap_cons]
    exact .more hx (ih hparts)

theorem alone (hrule : production s = .both a (.repeated b)) (h : Derives a tokens) :
    Derives (.symbol s) tokens := by
  refine .symbol (hrule ▸ ?_)
  rw [← append_nil tokens]
  exact .both h .done

theorem continued (hrule : production s = .both b (.repeated a)) (h : Derives (.symbol s) tokens)
    (hlast : Derives a tokens') : Derives (.symbol s) (tokens ++ tokens') := by
  cases h with
  | symbol h =>
    rw [hrule] at h
    cases h with
    | both hfirst hrest =>
      refine .symbol (hrule ▸ ?_)
      rw [append_assoc]
      exact .both hfirst (hrest.snoc hlast)

end Derives

def Level.symbol : Level → Symbol
  | .operand => .operand
  | .product => .product
  | .sum => .expression

theorem Expression.derives {x : Expr} (h : Expression level tokens x) :
    Derives (.symbol level.symbol) tokens := by
  induction h with
  | var => exact .symbol (.first (.first (.second .sym)))
  | number => exact .symbol (.first (.second (.terminal .number)))
  | paren _ ih => exact .symbol (.first (.first (.first (.both (.both .mark ih) .mark))))
  | vector _ _ ih ihs =>
    refine .symbol (.second (.both (.both (.both .mark ih) (.flatMap fun element helement => ?_))
      .mark))
    exact .both .mark (ihs element helement)
  | factor _ ih => exact .alone rfl ih
  | multiply _ _ ih ih' => exact .continued rfl ih (.both (.first .mark) ih')
  | divide _ _ ih ih' => exact .continued rfl ih (.both (.second .mark) ih')
  | term _ ih => exact .alone rfl ih
  | add _ _ ih ih' => exact .continued rfl ih (.both (.first .mark) ih')
  | subtract _ _ ih ih' => exact .continued rfl ih (.both (.second .mark) ih')

theorem vectorSize?_some {size : UInt32} (h : vectorSize? text = some size) :
    ∃ name ∈ vectorNames, text = Text.utf8 name := by
  apply Classical.byContradiction
  intro hnone
  rw [vectorSize?_eq_none fun name hname htext => hnone ⟨name, hname, htext⟩] at h
  cases h

theorem vectorSize?_none (h : vectorSize? text = none) :
    ∀ name ∈ vectorNames, text ≠ Text.utf8 name := by
  rintro name hname rfl
  obtain ⟨size, hsize⟩ := vectorSize?_isSome hname
  rw [hsize] at h
  cases h

theorem WrittenType.derives {type : TypeSyntax} (h : WrittenType tokens type) :
    Derives (.symbol .type) tokens := by
  induction h with
  | named hsize => exact .symbol (.second (.terminal (.typeName (vectorSize?_none hsize))))
  | @vector text pos less close size tokens component hsize _ ih =>
    have hname : Derives (.either (.either (.word "vec2") (.word "vec3")) (.word "vec4"))
        [⟨.sym text, pos⟩] := by
      obtain ⟨name, hname, rfl⟩ := vectorSize?_some hsize
      simp only [vectorNames, mem_cons, not_mem_nil, or_false] at hname
      rcases hname with rfl | rfl | rfl
      · exact .first (.first (.word rfl))
      · exact .first (.second (.word rfl))
      · exact .second (.word rfl)
    refine .symbol (.first ?_)
    simp only [← append_assoc]
    exact .both (.both (.both hname .mark) ih) .mark

structure DerivesStatements (tokens : List Token) (body : List Stmt) : Prop where
  all : Derives (.repeated (.symbol .statement)) tokens
  none : body = [] → tokens = []
  one : ∀ stmt, body = [stmt] → Derives (.symbol .statement) tokens

theorem DerivesStatements.of_one {stmt : Stmt} (h : Derives (.symbol .statement) tokens) :
    DerivesStatements tokens [stmt] where
  all := by
    rw [← append_nil tokens]
    exact .more h .done
  none := fun hbody => nomatch hbody
  one := fun _ _ => h

theorem Statements.derives {body : List Stmt} (h : Statements tokens body) :
    DerivesStatements tokens body := by
  induction h with
  | done => exact ⟨.done, fun _ => rfl, fun _ hbody => nomatch hbody⟩
  | next _ _ ih ih' =>
    refine ⟨.more (ih.one _ rfl) ih'.all, (fun hbody => nomatch hbody), fun _ hbody => ?_⟩
    rw [ih'.none (cons.inj hbody).2, append_nil]
    exact ih.one _ rfl
  | declare htype hvalue =>
    refine .of_one (.symbol (.first (.first (.first (.first ?_)))))
    simp only [← append_assoc]
    exact .both (.both (.both (.both (.both (.both .keyword .sym) .mark) htype.derives) .mark)
      hvalue.derives) .mark
  | leave =>
    refine .of_one (.symbol (.first (.first (.first (.second ?_)))))
    exact .both (.both .keyword .absent) .mark
  | giveBack hvalue =>
    refine .of_one (.symbol (.first (.first (.first (.second ?_)))))
    simp only [← append_assoc]
    exact .both (.both .keyword (.present hvalue.derives)) .mark
  | group _ ih =>
    refine .of_one (.symbol (.first (.first (.second ?_))))
    simp only [← append_assoc]
    exact .both (.both .keyword ih.all) .keyword
  | evaluate hvalue =>
    refine .of_one (.symbol (.first (.second ?_)))
    exact .both hvalue.derives .mark
  | assign htarget hvalue =>
    refine .of_one (.symbol (.second ?_))
    simp only [← append_assoc]
    exact .both (.both (.both htarget.derives .mark) hvalue.derives) .mark

theorem Member.derives {member : MemberSyntax} (h : Member tokens member) :
    Derives (.symbol .member) tokens := by
  cases h with
  | member hattribute htype =>
    refine .symbol ?_
    simp only [← append_assoc]
    refine .both (.both (.both (.both ?_ .sym) .mark) htype.derives) .mark
    cases hattribute with
    | absent => exact .absent
    | position hname hargument =>
      exact .present (.both (.both (.both (.both (.both .mark (.word hname)) .mark)
        (.word hargument)) .mark) .mark)

theorem TopLevel.derives {item : Item} (h : TopLevel tokens item) :
    Derives (.symbol .item) tokens := by
  cases h with
  | @stage opened paren unparen close name argument stage hname hargument =>
    have hstage : Derives (.either (.word "vertex") (.word "fragment"))
        [⟨.sym argument.text, argument.pos⟩] := by
      cases stage with
      | vertex => exact .first (.word (Option.some.inj hargument).symm)
      | fragment => exact .second (.word (Option.some.inj hargument).symm)
      | other => cases hargument
    have hbody : Derives (.symbol .attributeBody) [⟨.sym name.text, name.pos⟩,
        ⟨.mark .leftParen, paren⟩, ⟨.sym argument.text, argument.pos⟩,
        ⟨.mark .rightParen, unparen⟩] :=
      .symbol (.first (.both (.both (.both (.word hname) .mark) hstage) .mark))
    exact .symbol (.first (.first (.first (.both (.both .mark hbody) .mark))))
  | @builtin opened paren unparen close name argument hname hargument =>
    have hbody : Derives (.symbol .attributeBody) [⟨.sym name.text, name.pos⟩,
        ⟨.mark .leftParen, paren⟩, ⟨.sym argument.text, argument.pos⟩,
        ⟨.mark .rightParen, unparen⟩] :=
      .symbol (.second (.both (.both (.both (.word hname) .mark) (.word hargument)) .mark))
    exact .symbol (.first (.first (.first (.both (.both .mark hbody) .mark))))
  | @global keyword pos namePos colon direction text typeTokens placeTokens last type placement
      hdirection htype hplace hlast =>
      have hkeyword : Derives
          (.either (.either (.keyword .input) (.keyword .output)) (.keyword .declare))
          [⟨.keyword keyword, pos⟩] := by
        cases direction <;> cases hdirection
        · exact .first (.first .keyword)
        · exact .first (.second .keyword)
        · exact .second .keyword
      have hplacement : Derives (.optional (.both (.keyword .place) (.terminal .integer)))
          placeTokens := by
        cases hplace with
        | absent => exact .absent
        | location => exact .present (.both .keyword (.terminal .integer))
      have hend : Derives (.optional (.mark .semicolon)) last := by
        obtain rfl | ⟨close, rfl⟩ := hlast
        · exact .absent
        · exact .present .mark
      refine .symbol (.second (.symbol ?_))
      simp only [← append_assoc]
      exact .both (.both (.both (.both (.both hkeyword .sym) .mark) htype.derives) hplacement) hend
  | record hall =>
    refine .symbol (.first (.second (.symbol ?_)))
    simp only [← append_assoc]
    exact .both (.both (.both .keyword .sym)
      (.flatMap fun member hmember => (hall member hmember).derives)) .keyword
  | procedure htype hbody =>
    refine .symbol (.first (.first (.second (.symbol ?_))))
    simp only [← append_assoc]
    exact .both (.both (.both (.both (.both (.both (.both .keyword .sym) .mark) .mark) .mark)
      htype.derives) hbody.derives.all) .keyword

theorem File.derives {items : List Item} (h : File tokens items) :
    Derives (.symbol .file) tokens := by
  refine .symbol ?_
  induction h with
  | done => exact .done
  | next hitem _ ih => exact .more hitem.derives ih

theorem derives_file_iff :
    Derives (.symbol .file) tokens ↔ ∃ items, File tokens items :=
  ⟨Derives.writes, fun ⟨_, h⟩ => h.derives⟩

end Grammar

end Shading
