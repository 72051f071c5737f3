import Shading.Diagnostic
import Shading.Number.Literal

/-!
Lexing: a source is a sequence of lexemes with blanks and comments between
them. The longest lexeme is taken at each place. `Tokens.ofSource` reads a
whole source; `Lexer` reads it on demand with one token of lookahead.
-/

namespace Shading

namespace Lexeme

def isBlank (b : UInt8) : Bool :=
  b = 0x20 || b = 0x09 || b = 0x0A || b = 0x0D || b = 0x0B || b = 0x0C

def isLetter (b : UInt8) : Bool := (0x61 ≤ b && b ≤ 0x7A) || (0x41 ≤ b && b ≤ 0x5A)

def isDigit (b : UInt8) : Bool := 0x30 ≤ b && b ≤ 0x39

def startsWord (b : UInt8) : Bool := isLetter b || b = Text.byte '_'

def continuesWord (b : UInt8) : Bool := startsWord b || isDigit b

def digitValue (b : UInt8) : Nat := b.toNat - 0x30

def mark? (b : UInt8) : Option Mark :=
  match b with
  | 0x2E => some .period
  | 0x3D => some .equal
  | 0x40 => some .address
  | 0x2C => some .comma
  | 0x28 => some .leftParen
  | 0x29 => some .rightParen
  | 0x5B => some .leftBracket
  | 0x5D => some .rightBracket
  | 0x3C => some .less
  | 0x3E => some .greater
  | 0x7B => some .leftBrace
  | 0x7D => some .rightBrace
  | 0x2B => some .plus
  | 0x2A => some .star
  | 0x2F => some .slash
  | 0x3B => some .semicolon
  | 0x3A => some .colon
  | 0x2D => some .minus
  | _ => none

abbrev Measured := Lexeme × Nat

def word (text : Bytes) : Measured :=
  let spelling := text.takeWhile continuesWord
  match Keyword.ofWord? spelling with
  | some k => (.keyword k, spelling.length)
  | none => (.sym spelling, spelling.length)

def numeral (negative : Bool) (text : Bytes) : Except Cause Measured :=
  let whole := text.takeWhile isDigit
  match Number.Literal.word? (whole.map digitValue) with
  | none => .error .integerTooLarge
  | some value =>
    match text.drop whole.length with
    | 0x2E :: rest =>
      let part := rest.takeWhile isDigit
      let bits := Number.Literal.fraction value (part.map digitValue)
      .ok (.number (if negative then Number.Binary32.negate bits else bits),
        whole.length + 1 + part.length)
    | _ => .ok (.integer (if negative then -value else value), whole.length)

def quoted (text : Bytes) : Except Cause Measured :=
  let body := text.takeWhile (· ≠ Text.byte '"')
  if body.length < text.length then .ok (.string body, body.length + 2)
  else .error .unterminatedString

def longest (b : UInt8) (rest : Bytes) : Except Cause Measured :=
  if startsWord b then .ok (word (b :: rest))
  else if isDigit b then numeral false (b :: rest)
  else if b = Text.byte '"' then quoted rest
  else
    match b, rest with
    | 0x2D, c :: _ =>
      if isDigit c then (numeral true rest).map fun m => (m.1, m.2 + 1)
      else if c = Text.byte '>' then .ok (.mark .arrow, 2)
      else .ok (.mark .minus, 1)
    | 0x3A, 0x3D :: _ => .ok (.mark .assign, 2)
    | _, _ =>
      match mark? b with
      | some m => .ok (.mark m, 1)
      | none => .error (if 0x80 ≤ b then .unexpectedByte b else .unexpectedCharacter b)

def triviaFrom (count : Nat) : Bool → Bytes → Nat
  | _, [] => count
  | true, b :: rest => triviaFrom (count + 1) (b ≠ Text.byte '\n') rest
  | false, b :: rest =>
    if isBlank b then triviaFrom (count + 1) false rest
    else if b = Text.byte '/' && rest.head? = some (Text.byte '/') then
      triviaFrom (count + 1) true rest
    else count

def triviaLength (text : Bytes) : Nat := triviaFrom 0 false text

end Lexeme

namespace Cursor

def skipTrivia (c : Cursor) : Cursor := c.advance (Lexeme.triviaLength c.rest)

def token (c : Cursor) : Except Diagnostic (Token × Cursor) :=
  let start := c.skipTrivia
  match start.rest with
  | [] => .ok (⟨.eof, start.pos⟩, start)
  | b :: rest =>
    match Lexeme.longest b rest with
    | .ok (lexeme, length) => .ok (⟨lexeme, start.pos⟩, start.advance length)
    | .error cause => .error ⟨start.pos, cause⟩

end Cursor

structure Lexer where
  cursor : Cursor
  ahead : Option Token
  failure : Option Diagnostic
  deriving DecidableEq, Repr

namespace Lexer

def ofSource (source : Bytes) : Lexer := ⟨.ofSource source, none, none⟩

def scan (l : Lexer) : Token × Lexer :=
  match l.failure with
  | some d => (⟨.error, d.pos⟩, l)
  | none =>
    match l.cursor.token with
    | .ok (token, cursor) => (token, { l with cursor })
    | .error d => (⟨.error, d.pos⟩, { l with failure := some d })

def next (l : Lexer) : Token × Lexer :=
  match l.ahead with
  | some token => (token, { l with ahead := none })
  | none => l.scan

def peek (l : Lexer) : Token × Lexer :=
  match l.ahead with
  | some token => (token, l)
  | none =>
    let (token, scanned) := l.scan
    (token, { scanned with ahead := some token })

end Lexer

structure Tokens where
  tokens : List Token
  ending : Except Diagnostic Position
  deriving Repr

namespace Tokens

def readFrom : Nat → List Token → Cursor → Tokens
  | 0, read, c => ⟨read.reverse, .ok c.pos⟩
  | fuel + 1, read, c =>
    match c.token with
    | .error d => ⟨read.reverse, .error d⟩
    | .ok (token, cursor) =>
      if token.lexeme = .eof then ⟨read.reverse, .ok token.pos⟩
      else readFrom fuel (token :: read) cursor

def ofSource (source : Bytes) : Tokens := readFrom (source.length + 1) [] (.ofSource source)

def toList (t : Tokens) : List Token :=
  match t.ending with
  | .ok pos => t.tokens ++ [⟨.eof, pos⟩]
  | .error _ => t.tokens

end Tokens

end Shading
