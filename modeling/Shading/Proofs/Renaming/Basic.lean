import Shading.Elaborate.Items
import Shading.Syntax.Reader

/-!
Renaming. A source can be written with other names and with its tokens in other
places. A renaming gives every word its other name and forgets the places; it is
applied to tokens, to syntax trees and to programs alike, so that what is made
of a source can be compared with what is made of it under other names.
-/

namespace Shading

/-- The words that mean something wherever they stand: the names of types, of attributes and of what
attributes tell. -/
def reservedWords : List Bytes :=
  [Text.utf8 "void", Text.utf8 "bool", Text.utf8 "f32", Text.utf8 "f64", Text.utf8 "i32",
    Text.utf8 "u32", Text.utf8 "vec2", Text.utf8 "vec3", Text.utf8 "vec4",
    Text.utf8 "entry_point", Text.utf8 "builtin", Text.utf8 "vertex", Text.utf8 "fragment",
    Text.utf8 "position"]

structure Renaming where
  word : Bytes → Bytes
  injective : ∀ {a b}, word a = word b → a = b
  reserved : ∀ w ∈ reservedWords, word w = w
  nameless : word [] = []

/-- A lexeme with another name, if it is one. -/
def Lexeme.mapName (f : Bytes → Bytes) : Lexeme → Lexeme
  | .sym text => .sym (f text)
  | other => other

def Position.nowhere : Position := ⟨0, 0⟩

def Arena.map {α β : Type} (f : α → β) (a : Arena α) : Arena β := ⟨a.items.map f, a.pool, a.limit⟩

namespace Renaming

open Position (nowhere)

def keep : Renaming := ⟨id, id, fun _ _ => rfl, rfl⟩

variable (ρ : Renaming)

def Keeps : Prop := ∀ w, ρ.word w = w

theorem word_inj {a b : Bytes} : ρ.word a = ρ.word b ↔ a = b := ⟨ρ.injective, congrArg _⟩

theorem word_eq_iff {a w : Bytes} (h : ρ.word w = w) : ρ.word a = w ↔ a = w := by
  constructor
  · intro ha
    exact ρ.injective (ha.trans h.symm)
  · rintro rfl
    exact h

theorem word_reserved {a w : Bytes} (h : w ∈ reservedWords) : ρ.word a = w ↔ a = w :=
  ρ.word_eq_iff (ρ.reserved w h)

theorem word_nil {a : Bytes} : ρ.word a = [] ↔ a = [] := ρ.word_eq_iff ρ.nameless

def cause : Cause → Cause
  | .unknownAttribute name => .unknownAttribute (ρ.word name)
  | .unknownStage name => .unknownStage (ρ.word name)
  | .unknownBuiltin name => .unknownBuiltin (ρ.word name)
  | c => c

def diagnostic (d : Diagnostic) : Diagnostic := ⟨nowhere, ρ.cause d.cause⟩

def part {α β : Type} (f : α → β) : Part α → Part β
  | .ok a => .ok (f a)
  | .error why => .error (ρ.diagnostic why)

def place : Part Position → Part Position := ρ.part fun _ => nowhere

section Tokens

def token (t : Token) : Token := ⟨t.lexeme.mapName ρ.word, nowhere⟩

def tokens (t : Tokens) : Tokens := ⟨t.tokens.map ρ.token, ρ.place t.ending⟩

end Tokens

section Trees

def name (n : Name) : Name := ⟨ρ.word n.text, nowhere⟩

def type : TypeSyntax → TypeSyntax
  | .missing why => .missing (ρ.diagnostic why)
  | .named n => .named (ρ.name n)
  | .vector _ size component close => .vector nowhere size (type component) (ρ.place close)

mutual

def expr : Expr → Expr
  | .missing why => .missing (ρ.diagnostic why)
  | .var n => .var (ρ.name n)
  | .number bits _ => .number bits nowhere
  | .paren _ inner close => .paren nowhere (expr inner) (ρ.place close)
  | .vector _ first rest close => .vector nowhere (expr first) (exprs rest) (ρ.place close)
  | .sum op _ left right => .sum op nowhere (expr left) (expr right)
  | .scale op _ left right => .scale op nowhere (expr left) (expr right)
  | .stopped operand why => .stopped (expr operand) (ρ.diagnostic why)

def exprs : List Expr → List Expr
  | [] => []
  | first :: rest => expr first :: exprs rest

end

mutual

def stmt : Stmt → Stmt
  | .declare _ n type equal value close => .declare nowhere (ρ.part ρ.name n) (ρ.type type)
      (ρ.place equal) (ρ.expr value) (ρ.place close)
  | .leave _ _ => .leave nowhere nowhere
  | .giveBack _ value close => .giveBack nowhere (ρ.expr value) (ρ.place close)
  | .group _ body close => .group nowhere (stmts body) (ρ.place close)
  | .evaluate value close => .evaluate (ρ.expr value) (ρ.place close)
  | .assign target _ value close =>
    .assign (ρ.expr target) nowhere (ρ.expr value) (ρ.place close)

def stmts : List Stmt → List Stmt
  | [] => []
  | first :: rest => stmt first :: stmts rest

end

def placement (p : Placement) : Placement := ⟨nowhere, ρ.part (fun v => (v.1, nowhere)) p.value⟩

def member (m : MemberSyntax) : MemberSyntax :=
  ⟨m.builtin, ρ.part ρ.name m.name, ρ.type m.type, ρ.place m.close⟩

def item : Item → Item
  | .stage _ stage close => .stage nowhere stage (ρ.place close)
  | .builtin _ builtin close => .builtin nowhere builtin (ρ.place close)
  | .global _ direction n type placement => .global nowhere direction (ρ.part ρ.name n)
      (ρ.type type) (ρ.part (Option.map ρ.placement) placement)
  | .record _ n members close =>
    .record nowhere (ρ.part ρ.name n) (members.map ρ.member) (ρ.place close)
  | .procedure _ n result body close =>
    .procedure nowhere (ρ.part ρ.name n) (ρ.type result) (ρ.stmts body) (ρ.place close)

def tree (t : SourceTree) : SourceTree := ⟨t.items.map ρ.item, ρ.place t.ending⟩

end Trees

section Programs

def field (m : Member) : Member := { m with name := ρ.word m.name }

def shape : Shape → Shape
  | .record members => .record (members.map ρ.field)
  | other => other

def typeEntry (t : TypeEntry) : TypeEntry := ⟨ρ.word t.name, t.id, ρ.shape t.shape⟩

def global (g : Global) : Global := { g with name := ρ.word g.name }

def binding (v : Local) : Local := { v with name := ρ.word v.name }

def exprKind : ExprKind → ExprKind
  | .load v => .load (ρ.binding v)
  | other => other

def exprEntry (e : ExprEntry) : ExprEntry := ⟨ρ.exprKind e.kind, e.type⟩

def procedure (a : Procedure) : Procedure := { a with name := ρ.word a.name }

def entryPoint (e : EntryPoint) : EntryPoint := { e with name := ρ.word e.name }

def program (p : Program) : Program :=
  { p with
    types := p.types.map ρ.typeEntry
    globals := p.globals.map ρ.global
    expressions := p.expressions.map ρ.exprEntry
    procedures := p.procedures.map ρ.procedure
    entryPoints := p.entryPoints.map ρ.entryPoint }

def scopes (s : Scopes) : Scopes := { s with locals := s.locals.map ρ.binding }

def elaboration (s : Elaboration) : Elaboration :=
  ⟨ρ.program s.program, ρ.scopes s.scopes, s.stage.map fun waiting => (waiting.1, nowhere),
    s.builtin.map fun waiting => (waiting.1, nowhere), s.recordMembers, s.vectorElements⟩

end Programs

end Renaming

end Shading
