import Shading.Source

/-!
Tokens of the shading language: words, literals, punctuation and keywords,
each with the place where it starts.
-/

namespace Shading

inductive Mark where
  | period
  | assign
  | equal
  | leftParen
  | rightParen
  | leftBrace
  | rightBrace
  | leftBracket
  | rightBracket
  | comma
  | plus
  | minus
  | star
  | slash
  | semicolon
  | colon
  | address
  | arrow
  | less
  | greater
  deriving DecidableEq, Repr

inductive Keyword where
  | procedure
  | close
  | input
  | output
  | record
  | declare
  | give
  | place
  | group
  deriving DecidableEq, Repr

inductive Kind where
  | eof
  | error
  | sym
  | string
  | integer
  | number
  | mark (m : Mark)
  | keyword (k : Keyword)
  deriving DecidableEq, Repr

namespace Mark

def name : Mark → String
  | .period => "Period"
  | .assign => "Assign"
  | .equal => "Equal"
  | .leftParen => "LParen"
  | .rightParen => "RParen"
  | .leftBrace => "LCurly"
  | .rightBrace => "RCurly"
  | .leftBracket => "LBracket"
  | .rightBracket => "RBracket"
  | .comma => "Comma"
  | .plus => "Add"
  | .minus => "Sub"
  | .star => "Mul"
  | .slash => "Div"
  | .semicolon => "Semicolon"
  | .colon => "Colon"
  | .address => "Address"
  | .arrow => "Arrow"
  | .less => "LessThan"
  | .greater => "GreaterThan"

def all : List Mark :=
  [.period, .assign, .equal, .leftParen, .rightParen, .leftBrace, .rightBrace, .leftBracket,
    .rightBracket, .comma, .plus, .minus, .star, .slash, .semicolon, .colon, .address, .arrow,
    .less, .greater]

end Mark

namespace Keyword

def spelling : Keyword → String
  | .procedure => "procedure"
  | .close => "end"
  | .input => "in"
  | .output => "out"
  | .record => "record"
  | .declare => "var"
  | .give => "return"
  | .place => "at"
  | .group => "do"

def name : Keyword → String
  | .procedure => "Procedure"
  | .close => "End"
  | .input => "In"
  | .output => "Out"
  | .record => "Record"
  | .declare => "Var"
  | .give => "Return"
  | .place => "At"
  | .group => "Do"

def all : List Keyword :=
  [.procedure, .close, .input, .output, .record, .declare, .give, .place, .group]

def ofWord? (word : Bytes) : Option Keyword :=
  all.find? fun k => Text.utf8 k.spelling == word

end Keyword

namespace Kind

def name : Kind → String
  | .eof => "EOF"
  | .error => "Error"
  | .sym => "Sym"
  | .string => "String"
  | .integer => "Integer"
  | .number => "Number"
  | .mark m => m.name
  | .keyword k => k.name

def all : List Kind :=
  [.eof, .error, .sym, .string, .integer, .number] ++ Mark.all.map .mark ++
    Keyword.all.map .keyword

def nameOfCode (code : UInt8) : String :=
  match all[code.toNat]? with
  | some kind => kind.name
  | none => "Unknown"

end Kind

inductive Lexeme where
  | eof
  | error
  | sym (text : Bytes)
  | string (text : Bytes)
  | integer (value : Int64)
  | number (bits : UInt32)
  | mark (m : Mark)
  | keyword (k : Keyword)
  deriving DecidableEq, Repr

def Lexeme.kind : Lexeme → Kind
  | .eof => .eof
  | .error => .error
  | .sym _ => .sym
  | .string _ => .string
  | .integer _ => .integer
  | .number _ => .number
  | .mark m => .mark m
  | .keyword k => .keyword k

structure Token where
  lexeme : Lexeme
  pos : Position
  deriving DecidableEq, Repr

def Token.kind (t : Token) : Kind := t.lexeme.kind

end Shading
