import Shading.Limits
import Shading.Text.Cells
import Shading.Token

/-!
Diagnostics: why a source is refused and where. Every cause has one wording,
a message is cut to a fixed length on a character boundary, and a report can
show the offending line with a caret under the place.
-/

namespace Shading

inductive Verb where
  | add
  | subtract
  | multiply
  | divide
  deriving DecidableEq, Repr

def Verb.word : Verb → String
  | .add => "add"
  | .subtract => "subtract"
  | .multiply => "multiply"
  | .divide => "divide"

inductive Cause where
  | unexpectedByte (b : UInt8)
  | unexpectedCharacter (b : UInt8)
  | integerTooLarge
  | unterminatedString
  | expected (wanted found : Kind)
  | expectedTopLevel
  | expectedExpression
  | expectedStatement
  | expectedMemberAttribute
  | unknownAttribute (name : Bytes)
  | unknownStage (name : Bytes)
  | unknownBuiltin (name : Bytes)
  | duplicateStage
  | duplicateBuiltin
  | stageLeftOver
  | builtinLeftOver
  | stageWithoutProcedure
  | builtinOnPrivate
  | builtinOnRecord
  | builtinOnProcedure
  | positionType
  | componentNotScalar (type : Bytes)
  | unknownType (name : Bytes)
  | voidVariable (name : Bytes)
  | globalRedeclared (name : Bytes)
  | locationOnPrivate
  | locationOutOfRange (value : Int64)
  | typeReserved (name : Bytes)
  | typeRedeclared (name : Bytes)
  | memberRedeclared (member record : Bytes)
  | procedureRedeclared (name : Bytes)
  | entryPointReturns (name type : Bytes)
  | missingReturn
  | statementAfterReturn
  | initializerType (name declared given : Bytes)
  | returnNeedsValue (procedure type : Bytes)
  | returnFromVoid (procedure : Bytes)
  | returnType (given declared : Bytes)
  | assignmentTypes
  | assignmentTarget
  | assignmentToInput (name : Bytes)
  | operandsDiffer (verb : Verb)
  | operandType (verb : Verb) (type : Bytes)
  | notScalarByVector
  | unknownVariable (name : Bytes)
  | elementType (type : Bytes)
  | elementsDiffer
  | literalSize (count : UInt32)
  | limit (e : Exhausted)
  | indexOverflow (pool : Pool)
  deriving DecidableEq, Repr

namespace Cause

open Text in
def wording : Cause → Bytes
  | .unexpectedByte b => utf8 "unexpected byte 0x" ++ hexDigits upperDigit 2 b.toNat
  | .unexpectedCharacter b => utf8 "unexpected character '" ++ [b] ++ utf8 "'"
  | .integerTooLarge => utf8 "integer literal is too large"
  | .unterminatedString => utf8 "unterminated string literal"
  | .expected wanted found =>
    utf8 "expected '" ++ utf8 wanted.name ++ utf8 "', not '" ++ utf8 found.name ++ utf8 "'"
  | .expectedTopLevel => utf8 "expected toplevel"
  | .expectedExpression => utf8 "expected expression"
  | .expectedStatement => utf8 "expected assignment or expression statement"
  | .expectedMemberAttribute => utf8 "expected [builtin(x)] attribute before record members"
  | .unknownAttribute name => utf8 "unknown attribute '" ++ name ++ utf8 "'"
  | .unknownStage name => utf8 "unknown entry point type '" ++ name ++ utf8 "'"
  | .unknownBuiltin name => utf8 "unknown builtin type '" ++ name ++ utf8 "'"
  | .duplicateStage => utf8 "duplicate entry_point attribute"
  | .duplicateBuiltin => utf8 "duplicate builtin attribute"
  | .stageLeftOver => utf8 "entry_point attribute is not followed by a procedure"
  | .builtinLeftOver => utf8 "builtin attribute is not followed by a variable"
  | .stageWithoutProcedure => utf8 "entry_point attribute must be followed by a procedure"
  | .builtinOnPrivate => utf8 "builtin attribute requires an in or out variable"
  | .builtinOnRecord => utf8 "builtin attribute cannot be applied to a record"
  | .builtinOnProcedure => utf8 "builtin attribute cannot be applied to a procedure"
  | .positionType => utf8 "expected vec4<f32> for builtin type position"
  | .componentNotScalar type =>
    utf8 "vector components must be scalars, not '" ++ type ++ utf8 "'"
  | .unknownType name => utf8 "expected type, not '" ++ name ++ utf8 "'"
  | .voidVariable name => utf8 "variable '" ++ name ++ utf8 "' cannot have type void"
  | .globalRedeclared name => utf8 "'" ++ name ++ utf8 "' is already declared"
  | .locationOnPrivate => utf8 "only in and out variables can have a location"
  | .locationOutOfRange value =>
    utf8 "location " ++ signed value.toInt ++ utf8 " is out of range"
  | .typeReserved name => utf8 "type name '" ++ name ++ utf8 "' is reserved"
  | .typeRedeclared name => utf8 "type '" ++ name ++ utf8 "' is already declared"
  | .memberRedeclared member record =>
    utf8 "duplicate member '" ++ member ++ utf8 "' in record '" ++ record ++ utf8 "'"
  | .procedureRedeclared name => utf8 "procedure '" ++ name ++ utf8 "' is already declared"
  | .entryPointReturns name type =>
    utf8 "entry point '" ++ name ++ utf8 "' must return void, not '" ++ type ++ utf8 "'"
  | .missingReturn => utf8 "non-void function must return"
  | .statementAfterReturn => utf8 "'return' must be the last statement in a block"
  | .initializerType name declared given =>
    utf8 "cannot initialize '" ++ name ++ utf8 "' of type " ++ declared ++
      utf8 " with a value of type " ++ given
  | .returnNeedsValue procedure type =>
    utf8 "procedure '" ++ procedure ++ utf8 "' must return a value of type " ++ type
  | .returnFromVoid procedure =>
    utf8 "void procedure '" ++ procedure ++ utf8 "' cannot return a value"
  | .returnType given declared =>
    utf8 "cannot return " ++ given ++ utf8 " from a procedure returning " ++ declared
  | .assignmentTypes => utf8 "cannot assign incompatible types"
  | .assignmentTarget => utf8 "can only assign to variables"
  | .assignmentToInput name => utf8 "cannot assign to input variable '" ++ name ++ utf8 "'"
  | .operandsDiffer verb =>
    utf8 "cannot " ++ utf8 verb.word ++ utf8 " expressions of different types"
  | .operandType verb type =>
    utf8 "cannot " ++ utf8 verb.word ++ utf8 " values of type " ++ type
  | .notScalarByVector => utf8 "can only multiply a scalar by a vector"
  | .unknownVariable name => utf8 "couldn't find variable '" ++ name ++ utf8 "' in scope"
  | .elementType type => utf8 "vector elements must be scalars or vectors, not " ++ type
  | .elementsDiffer => utf8 "all types in vector expression are not the same"
  | .literalSize count =>
    utf8 "vector literal must have between 2 and 4 components, not " ++ decimal count.toNat
  | .limit e => e.message
  | .indexOverflow pool => pool.overflowMessage

end Cause

def maxMessageLength : Nat := 512

def characterBoundary (text : Bytes) : Nat → Nat
  | 0 => 0
  | cut + 1 =>
    match text[cut + 1]? with
    | some b => if Text.startsCharacter b then cut + 1 else characterBoundary text cut
    | none => cut + 1

def truncateMessage (text : Bytes) : Bytes :=
  if text.length ≤ maxMessageLength then text
  else text.take (characterBoundary text maxMessageLength)

structure Diagnostic where
  pos : Position
  cause : Cause
  deriving DecidableEq, Repr

def Diagnostic.message (d : Diagnostic) : Bytes := truncateMessage d.cause.wording

def Diagnostic.limit? (d : Diagnostic) : Option Exhausted :=
  match d.cause with
  | .limit e => some e
  | _ => none

structure Report where
  message : Bytes
  pos : Position
  source : Bytes
  deriving DecidableEq, Repr

def Diagnostic.report (source : Bytes) (d : Diagnostic) : Report := ⟨d.message, d.pos, source⟩

namespace Report

open Text

def text (r : Report) : Bytes :=
  if r.pos.line = 0 then r.message
  else signed r.pos.line ++ utf8 ":" ++ signed r.pos.column ++ utf8 ": " ++ r.message

def lineAt? (source : Bytes) (line : Int) : Option Bytes :=
  if line < 1 then none
  else ((splitAt (byte '\n') source)[line.toNat - 1]?).map (trimEnd (· = byte '\r'))

def clampColumn (line : Bytes) (column : Int) : Nat :=
  min (max column 1).toNat (line.length + 1)

def showTabs (text : Bytes) : Bytes := replaceByte (byte '\t') (byte ' ') text

def caretIndent (line : Bytes) (column : Nat) : Nat := cells (showTabs (line.take (column - 1)))

def context (r : Report) : Bytes :=
  if r.source = [] || r.pos.line = 0 then r.text
  else
    match lineAt? r.source r.pos.line with
    | none => r.text
    | some line =>
      let column := clampColumn line r.pos.column
      utf8 "error: " ++ r.message ++ utf8 "\n" ++
      utf8 "  --> line " ++ signed r.pos.line ++ utf8 ":" ++ decimal column ++ utf8 "\n" ++
      utf8 "   |\n" ++
      padLeft 3 (byte ' ') (signed r.pos.line) ++ utf8 "| " ++ showTabs line ++ utf8 "\n" ++
      utf8 "   | " ++ blanks (caretIndent line column) ++ utf8 "^\n"

end Report

end Shading
