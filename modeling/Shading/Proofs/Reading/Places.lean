import Shading.Proofs.Reading
import Shading.Proofs.Text

/-!
The places that a tree names. Everything that is read stands at a place of a
token, names are words, and where a part is missing, the failure that stands
for it is a lexical one or one that a reader made up at the place of a token.
Whatever the tokens, what is read of them and what is left of them is marked.
-/

namespace Shading

variable {why : Diagnostic} {α : Type} {x : Part Item} {xs : List Expr}

namespace Lexeme

/-- Whether a text can be a name: a word that is not a keyword. -/
def isIdentifier : Bytes → Bool
  | [] => false
  | b :: rest => startsWord b && rest.all continuesWord && (Keyword.ofWord? (b :: rest)).isNone

theorem continuesWord_of_mem {text : Bytes} {b : UInt8} (h : isIdentifier text = true)
    (hb : b ∈ text) : continuesWord b = true := by
  cases text with
  | nil => exact (List.not_mem_nil hb).elim
  | cons first rest =>
    simp only [isIdentifier, Bool.and_eq_true, List.all_eq_true] at h
    rcases List.mem_cons.mp hb with rfl | hb
    · rw [continuesWord, h.1.1]
      rfl
    · exact h.1.2 b hb

theorem oneLine_identifier {text : Bytes} (h : isIdentifier text = true) : Text.OneLine text := by
  intro hmem
  exact absurd (continuesWord_of_mem h hmem) (by decide)

end Lexeme

/-- Causes that are found without looking at what names mean: no token starts, or a token stands
where the grammar has no room for it. -/
def Cause.isSyntactic : Cause → Bool
  | .unexpectedByte _ => true
  | .unexpectedCharacter _ => true
  | .integerTooLarge => true
  | .unterminatedString => true
  | .expected _ _ => true
  | .expectedTopLevel => true
  | .expectedExpression => true
  | .expectedStatement => true
  | .expectedMemberAttribute => true
  | .unknownAttribute _ => true
  | .unknownStage _ => true
  | .unknownBuiltin _ => true
  | _ => false

def Cause.Grammatical : Cause → Prop
  | .expected _ _ | .expectedTopLevel | .expectedExpression | .expectedStatement
  | .expectedMemberAttribute => True
  | .unknownAttribute name | .unknownStage name | .unknownBuiltin name =>
    Lexeme.isIdentifier name = true
  | _ => False

theorem Cause.Grammatical.isSyntactic {cause : Cause} (h : cause.Grammatical) :
    cause.isSyntactic = true := by
  cases cause with
  | expected | expectedTopLevel | expectedExpression | expectedStatement
  | expectedMemberAttribute | unknownAttribute | unknownStage | unknownBuiltin => rfl
  | _ => exact h.elim

structure Marks where
  place : Position → Prop
  hole : Diagnostic → Prop
  size : Nat

namespace Marks

variable (m : Marks)

def part {α : Type} (good : α → Prop) : Part α → Prop
  | .ok a => good a
  | .error why => m.hole why

def called (name : Name) : Prop := m.place name.pos ∧ Lexeme.isIdentifier name.text = true

def name : Part Name → Prop := m.part m.called

def type : TypeSyntax → Prop
  | .missing why => m.hole why
  | .named name => m.place name.pos ∧ Text.OneLine name.text
  | .vector pos size component close =>
    m.place pos ∧ (size = 2 ∨ size = 3 ∨ size = 4) ∧ type component ∧ m.part m.place close

mutual

def expr : Expr → Prop
  | .missing why => m.hole why
  | .stopped operand why => expr operand ∧ m.hole why
  | .var name => m.called name
  | .number _ pos => m.place pos
  | .paren pos inner close => m.place pos ∧ expr inner ∧ m.part m.place close
  | .sum _ pos left right => m.place pos ∧ expr left ∧ expr right
  | .scale _ pos left right => m.place pos ∧ expr left ∧ expr right
  | .vector pos first rest close =>
    m.place pos ∧ expr first ∧ (elements rest ∧ rest.length ≤ m.size) ∧ m.part m.place close

def elements : List Expr → Prop
  | [] => True
  | x :: rest => expr x ∧ elements rest

end

mutual

def stmt : Stmt → Prop
  | .declare pos name type equal value close =>
    m.place pos ∧ m.name name ∧ m.type type ∧ m.part m.place equal ∧ m.expr value ∧
      m.part m.place close
  | .leave pos close => m.place pos ∧ m.place close
  | .giveBack pos value close => m.place pos ∧ m.expr value ∧ m.part m.place close
  | .group pos body close => m.place pos ∧ block body ∧ m.part m.place close
  | .evaluate value close => m.expr value ∧ m.part m.place close
  | .assign target pos value close =>
    m.expr target ∧ m.place pos ∧ m.expr value ∧ m.part m.place close

def block : List Stmt → Prop
  | [] => True
  | next :: rest => stmt next ∧ m.place next.start ∧ block rest

end

def member (written : MemberSyntax) : Prop :=
  m.name written.name ∧ m.type written.type ∧ m.part m.place written.close

def placement (p : Placement) : Prop := m.place p.pos ∧ m.part (fun v => m.place v.2) p.value

def item : Item → Prop
  | .stage pos _ close => m.place pos ∧ m.part m.place close
  | .builtin pos _ close => m.place pos ∧ m.part m.place close
  | .global pos _ name type placement =>
    m.place pos ∧ m.name name ∧ m.type type ∧
      m.part (fun found => ∀ p ∈ found, m.placement p) placement
  | .record pos name members close =>
    m.place pos ∧ m.name name ∧ (∀ written ∈ members, m.member written) ∧ m.part m.place close
  | .procedure pos name result body close =>
    m.place pos ∧ m.name name ∧ m.type result ∧ m.block body ∧ m.part m.place close

def tree (t : SourceTree) : Prop := (∀ x ∈ t.items, m.item x) ∧ m.part m.place t.ending

def token (found : Token) : Prop :=
  m.place found.pos ∧ ∀ text, found.lexeme = .sym text → Lexeme.isIdentifier text = true

def tokens (t : Tokens) : Prop :=
  ((∀ found ∈ t.tokens, m.token found) ∧ t.tokens.length ≤ m.size) ∧ m.part m.place t.ending

def Admits : Prop := ∀ pos cause, m.place pos → cause.Grammatical → m.hole ⟨pos, cause⟩

end Marks

namespace Reading

variable {m : Marks} {left right : Tokens}

theorem first_marked (h : m.tokens left) : m.part m.token left.first := by
  obtain ⟨_ | ⟨token, rest⟩, ending⟩ := left
  · cases ending with
    | ok pos => exact ⟨h.2, nofun⟩
    | error why => exact h.2
  · exact h.1.1 token List.mem_cons_self

theorem behind_marked (h : m.tokens left) : m.tokens left.behind := by
  refine ⟨⟨fun token htoken => h.1.1 token (List.mem_of_mem_drop htoken), ?_⟩, h.2⟩
  have := length_behind left
  have := h.1.2
  omega

theorem ended_marked (h : m.hole why) : m.tokens (.ended why) :=
  ⟨⟨nofun, Nat.zero_le _⟩, h⟩

theorem token_marked {token : Token} (h : m.tokens left) (hfirst : left.first = .ok token) :
    m.token token := by
  have := first_marked h
  rwa [hfirst] at this

theorem failure_marked (h : m.tokens left) (hfirst : left.first = .error why) : m.hole why := by
  have := first_marked h
  rwa [hfirst] at this

variable (hm : m.Admits)

include hm

theorem TakesOne.marked {kind : Kind} {accept : Token → Option α} {x : Part α}
    (h : TakesOne kind accept left x right) (hleft : m.tokens left) {good : α → Prop}
    (haccept : ∀ token a, m.token token → accept token = some a → good a) :
    m.part good x ∧ m.tokens right := by
  have hfirst := first_marked hleft
  cases h with
  | taken h ha =>
    rw [h] at hfirst
    exact ⟨haccept _ _ hfirst ha, behind_marked hleft⟩
  | refused h _ hwhy =>
    subst hwhy
    rw [h] at hfirst
    suffices hhole : m.hole _ from ⟨hhole, ended_marked hhole⟩
    exact hm _ _ hfirst.1 trivial
  | failed h =>
    rw [h] at hfirst
    exact ⟨hfirst, behind_marked hleft⟩

theorem Expects.marked {kind : Kind} {x : Part Position} (h : Expects kind left x right)
    (hleft : m.tokens left) : m.part m.place x ∧ m.tokens right := by
  refine TakesOne.marked hm h hleft fun token pos htoken hpos => ?_
  by_cases hkind : token.kind = kind
  · cases (if_pos hkind).symm.trans hpos
    exact htoken.1
  · cases (if_neg hkind).symm.trans hpos

theorem Names.marked {x : Part Name} (h : Names left x right) (hleft : m.tokens left) :
    m.name x ∧ m.tokens right := by
  refine TakesOne.marked hm h hleft fun token called htoken hcalled => ?_
  obtain ⟨lexeme, pos⟩ := token
  cases lexeme <;> cases hcalled
  exact ⟨htoken.1, htoken.2 _ rfl⟩

theorem Integers.marked {x : Part (Int64 × Position)} (h : Integers left x right)
    (hleft : m.tokens left) : m.part (fun v => m.place v.2) x ∧ m.tokens right := by
  refine TakesOne.marked hm h hleft fun token value htoken hvalue => ?_
  obtain ⟨lexeme, pos⟩ := token
  cases lexeme <;> cases hvalue
  exact htoken.1

theorem ReadsType.marked {x : TypeSyntax} (h : ReadsType left x right) (hleft : m.tokens left) :
    m.type x ∧ m.tokens right := by
  induction h with
  | named hname _ =>
    obtain ⟨hcalled, hright⟩ := hname.marked hm hleft
    exact ⟨⟨hcalled.1, Lexeme.oneLine_identifier hcalled.2⟩, hright⟩
  | vector hname hsize hless _ hclose ih =>
    obtain ⟨hcalled, ha⟩ := hname.marked hm hleft
    obtain ⟨hcomponent, hc⟩ := ih (hless.marked hm ha).2
    obtain ⟨hgreater, hright⟩ := hclose.marked hm hc
    exact ⟨⟨hcalled.1, vectorSize?_cases hsize, hcomponent, hgreater⟩, hright⟩
  | missing hname => exact hname.marked hm hleft

theorem Reads.marked {part : Section} (h : Reads part left xs right) (hleft : m.tokens left)
    (hpart : ∀ x, part = .factors x ∨ part = .terms x → m.expr x) :
    m.elements xs ∧ m.tokens right ∧ (part = .elements → xs.length ≤ left.tokens.length) := by
  induction h with
  | refused h _ hwhy =>
    subst hwhy
    have hhole := hm _ .expectedExpression (token_marked hleft h).1 trivial
    exact ⟨⟨hhole, trivial⟩, ended_marked hhole, nofun⟩
  | _ =>
    grind [Marks.elements, Marks.expr, Marks.called, behind_marked, → token_marked, Marks.token,
      → Expects.marked, → failure_marked, length_behind, Marks.tokens, → Reads.length,
        → first_token]

theorem ReadsExpression.marked {x : Expr} (h : ReadsExpression left x right)
    (hleft : m.tokens left) : m.expr x ∧ m.tokens right := by
  obtain ⟨hx, hright, -⟩ := Reads.marked hm h hleft nofun
  exact ⟨hx.1, hright⟩

omit hm in
theorem Reads.start {part : Section} (h : Reads part left xs right) :
    ∀ y ∈ xs.head?, match part with
      | .factors x | .terms x => y.start = x.start
      | .elements => True
      | _ => ∀ token, left.first = .ok token → y.start = token.pos := by
  induction h with
  | _ => grind [Expr.start]

omit hm in
theorem ReadsExpression.start {x : Expr} {token : Token} (h : ReadsExpression left x right)
    (hfirst : left.first = .ok token) : x.start = token.pos :=
  Reads.start h x rfl token hfirst

theorem ReadsSimple.marked {x : Stmt} (h : ReadsSimple left x right) (hleft : m.tokens left) :
    m.stmt x ∧ m.tokens right := by
  cases h with
  | refused hvalue h _ hwhy =>
    subst hwhy
    obtain ⟨hx, ha⟩ := hvalue.marked hm hleft
    suffices hhole : m.hole _ from ⟨⟨hx, hhole⟩, ended_marked hhole⟩
    exact hm _ _ (token_marked ha h).1 trivial
  | _ =>
    grind [Marks.stmt, Marks.part, Marks.token, behind_marked, → token_marked, → failure_marked,
      → Expects.marked, → ReadsExpression.marked]

theorem ReadsStatement.marked {x : Stmt} (h : ReadsStatement left x right) (hleft : m.tokens left) :
    (m.stmt x ∧ m.place x.start) ∧ m.tokens right := by
  cases h with
  | simple h _ hsimple =>
    obtain ⟨hx, hright⟩ := hsimple.marked hm hleft
    refine ⟨⟨hx, Eq.subst (motive := m.place) (Eq.symm ?_) (token_marked hleft h).1⟩, hright⟩
    cases hsimple with
    | evaluate hvalue | assign hvalue | refused hvalue | failed hvalue => exact hvalue.start h
  | _ =>
    grind [Marks.stmt, Stmt.start, Marks.token, behind_marked, → token_marked, → Expects.marked,
      → Names.marked, → ReadsType.marked, → ReadsExpression.marked]

theorem ReadsBlock.marked {stmts : List Stmt} {close : Part Position}
    (h : ReadsBlock left stmts close right) (hleft : m.tokens left) :
    m.block stmts ∧ m.part m.place close ∧ m.tokens right := by
  induction h with
  | unclosed h hwhy =>
    subst hwhy
    suffices hhole : m.hole _ from ⟨trivial, hhole, ended_marked hhole⟩
    exact hm _ _ (token_marked hleft h).1 trivial
  | _ =>
    grind [Marks.block, Marks.stmt, Marks.part, Stmt.start, Marks.token, behind_marked,
      → token_marked, → failure_marked, → ReadsStatement.marked]

theorem Tells.marked {meaning : Bytes → Option α} {unknown : Bytes → Cause} {x : Part α}
    (h : Tells meaning unknown left x right) (hleft : m.tokens left)
    (hunknown : ∀ text, Lexeme.isIdentifier text = true → (unknown text).Grammatical) :
    m.part (fun _ => True) x ∧ m.tokens right := by
  have hargument : ∀ {x right}, ReadsArgument left x right → m.name x ∧ m.tokens right := by
    rintro x right ⟨hopen, hcalled, hclose, rfl⟩
    obtain ⟨hname, hb⟩ := hcalled.marked hm (hopen.marked hm hleft).2
    obtain ⟨hend, hright⟩ := hclose.marked hm hb
    rename_i close
    cases close with
    | ok pos => exact ⟨hname, hright⟩
    | error why => exact ⟨hend, hright⟩
  cases h with
  | known hcalled _ => exact ⟨trivial, (hargument hcalled).2⟩
  | unknown hcalled _ hwhy =>
    subst hwhy
    suffices hhole : m.hole _ from ⟨hhole, ended_marked hhole⟩
    exact hm _ _ (hargument hcalled).1.1 (hunknown _ (hargument hcalled).1.2)
  | failed hcalled => exact hargument hcalled

theorem ReadsAttribute.marked (h : ReadsAttribute left x right) (hleft : m.tokens left) :
    m.part m.item x ∧ m.tokens right := by
  cases h with
  | stage hcalled _ hfound hclose | builtin hcalled _ hfound hclose =>
    obtain ⟨hname, ha⟩ := hcalled.marked hm hleft
    obtain ⟨hend, hright⟩ := hclose.marked hm (hfound.marked hm ha fun _ h => h).2
    exact ⟨⟨hname.1, hend⟩, hright⟩
  | noStage hcalled _ hfound | noBuiltin hcalled _ hfound =>
    exact hfound.marked hm (hcalled.marked hm hleft).2 fun _ h => h
  | unknown hcalled _ _ hwhy =>
    subst hwhy
    have hname := (hcalled.marked hm hleft).1
    suffices hhole : m.hole _ from ⟨hhole, ended_marked hhole⟩
    exact hm _ _ hname.1 hname.2
  | failed hcalled => exact hcalled.marked hm hleft

theorem ReadsMemberAttribute.marked {x : Part Builtin} (h : ReadsMemberAttribute left x right)
    (hleft : m.tokens left) : m.tokens right := by
  cases h with
  | absent => exact hleft
  | builtin _ hcalled _ hfound hclose _ =>
    have ha := (hcalled.marked hm (behind_marked hleft)).2
    exact (hclose.marked hm (hfound.marked hm ha fun _ h => h).2).2
  | unknown _ hcalled _ hwhy =>
    subst hwhy
    exact ended_marked (hm _ _ (hcalled.marked hm (behind_marked hleft)).1.1 trivial)
  | failed _ hcalled => exact (hcalled.marked hm (behind_marked hleft)).2

theorem ReadsMembers.marked {fields : List MemberSyntax} {end' : Part Position}
    (h : ReadsMembers left fields end' right) (hleft : m.tokens left) :
    (∀ w ∈ fields, m.member w) ∧ m.part m.place end' ∧ m.tokens right := by
  induction h with
  | _ =>
    grind [Marks.member, Marks.part, Marks.token, behind_marked, → token_marked, → failure_marked,
      → Expects.marked, → Names.marked, → ReadsType.marked, → ReadsMemberAttribute.marked]

theorem ReadsItem.marked (h : ReadsItem left x right) (hleft : m.tokens left) :
    m.part m.item x ∧ m.tokens right := by
  have hbehind := behind_marked hleft
  cases h with
  | tagged _ hfound => exact hfound.marked hm hbehind
  | procedure h hcalled hopen hclose harrow hwritten hblock =>
    obtain ⟨hname, ha⟩ := hcalled.marked hm hbehind
    have hd := (harrow.marked hm (hclose.marked hm (hopen.marked hm ha).2).2).2
    obtain ⟨htype, he⟩ := hwritten.marked hm hd
    obtain ⟨hstmts, hend, hright⟩ := hblock.marked hm he
    exact ⟨⟨(token_marked hleft h).1, hname, htype, hstmts, hend⟩, hright⟩
  | record h hcalled hfields =>
    obtain ⟨hname, ha⟩ := hcalled.marked hm hbehind
    obtain ⟨hmembers, hend, hright⟩ := hfields.marked hm ha
    exact ⟨⟨(token_marked hleft h).1, hname, hmembers, hend⟩, hright⟩
  | global h _ hcalled hcolon hwritten hplaced hsemicolon =>
    obtain ⟨hname, ha⟩ := hcalled.marked hm hbehind
    obtain ⟨htype, hc⟩ := hwritten.marked hm (hcolon.marked hm ha).2
    have hplace := (token_marked hleft h).1
    cases hplaced <;> cases hsemicolon <;>
      grind [Marks.item, Marks.part, Marks.placement, Marks.token, behind_marked, → token_marked,
        → failure_marked, → Integers.marked]
  | refused h _ hwhy =>
    subst hwhy
    suffices hhole : m.hole _ from ⟨hhole, ended_marked hhole⟩
    exact hm _ _ (token_marked hleft h).1 trivial

end Reading

theorem SourceTree.marked {m : Marks} {tokens : Tokens} (h : m.tokens tokens) (hm : m.Admits) :
    m.tree (.ofTokens tokens) := by
  have hread := ofTokens_reads tokens
  generalize SourceTree.ofTokens tokens = tree at hread ⊢
  induction hread with
  | done => exact ⟨List.forall_mem_nil _, h.2⟩
  | next _ hx _ ih =>
    obtain ⟨hitem, ha⟩ := hx.marked hm h
    exact ⟨List.forall_mem_cons.mpr ⟨hitem, (ih ha).1⟩, (ih ha).2⟩
  | failed _ hx => exact ⟨List.forall_mem_nil _, (hx.marked hm h).1⟩

end Shading
