import Shading.Text.Basic

/-!
Places in a source text. A position counts lines and byte columns from one; a
cursor is a position together with the bytes that follow it.
-/

namespace Shading

structure Position where
  line : Int
  column : Int
  deriving DecidableEq, Repr, Inhabited

namespace Position

def start : Position := ⟨1, 1⟩

def next (p : Position) (b : UInt8) : Position :=
  if b = Text.byte '\n' then ⟨p.line + 1, 1⟩ else ⟨p.line, p.column + 1⟩

def past (p : Position) (text : Bytes) : Position := text.foldl next p

@[simp] theorem past_nil (p : Position) : p.past [] = p := rfl

@[simp] theorem past_cons (p : Position) (b : UInt8) (text : Bytes) :
    p.past (b :: text) = (p.next b).past text := rfl

theorem past_append (p : Position) (s t : Bytes) : p.past (s ++ t) = (p.past s).past t := by
  simp [past]

end Position

structure Cursor where
  rest : Bytes
  pos : Position
  deriving DecidableEq, Repr

namespace Cursor

def ofSource (source : Bytes) : Cursor := ⟨source, .start⟩

def advance (c : Cursor) (count : Nat) : Cursor :=
  ⟨c.rest.drop count, c.pos.past (c.rest.take count)⟩

@[simp] theorem rest_advance (c : Cursor) (count : Nat) :
    (c.advance count).rest = c.rest.drop count := rfl

@[simp] theorem pos_advance (c : Cursor) (count : Nat) :
    (c.advance count).pos = c.pos.past (c.rest.take count) := rfl

end Cursor

end Shading
