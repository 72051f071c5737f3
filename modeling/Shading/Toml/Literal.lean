import Shading.Text.Digits
import Shading.Text.Utf8

/-!
The literals of TOML: which spellings of numbers, dates and strings are well
formed, and what they stand for.
-/

namespace Shading.Toml

open Text

def underscoresSeparate (behind : Bool) : Bytes → Bool
  | [] => behind
  | b :: rest =>
    if b = byte '_' && !behind then false else underscoresSeparate (isHexDigit b) rest

def isDigitOf (base : Nat) (b : UInt8) : Bool := isHexDigit b && hexDigitValue b < base

def hasLeadingZero (text : Bytes) : Bool :=
  match (splitSign text).2 with
  | b :: _ :: _ => b = byte '0'
  | _ => false

def withoutUnderscores (text : Bytes) : Bytes := text.filter (· ≠ byte '_')

def decimalInteger? (text : Bytes) : Option Int64 :=
  if underscoresSeparate false text && !hasLeadingZero text then
    integer? (withoutUnderscores text)
  else none

def basedInteger? (base : Nat) (digits : Bytes) : Option Int64 :=
  if underscoresSeparate false digits then word64? (natural base (withoutUnderscores digits))
  else none

structure Decimal where
  digits : Nat
  power : Int
  deriving DecidableEq, Repr

def overflowBound : Nat := Nat.pow 2 1024 - Nat.pow 2 970

def Decimal.isFinite (d : Decimal) : Bool :=
  let size := (decimal d.digits).length + d.power
  if d.digits = 0 || size < 300 then true
  else if 400 < size then false
  else if 0 ≤ d.power then d.digits * Nat.pow 10 d.power.toNat < overflowBound
  else d.digits < overflowBound * Nat.pow 10 (-d.power).toNat

def exponent? : Bytes → Option Int
  | [] => some 0
  | letter :: text =>
    let (negative, digits) := splitSign text
    if (letter = byte 'e' || letter = byte 'E') && digits ≠ [] && digits.all isDecimalDigit then
      some (if negative then -(natural 10 digits : Int) else natural 10 digits)
    else none

def splitFraction : Bytes → Bytes × Bytes
  | [] => ([], [])
  | b :: rest =>
    if b = byte '.' then (rest.takeWhile isDecimalDigit, rest.dropWhile isDecimalDigit)
    else ([], b :: rest)

def decimalNumber? (text : Bytes) : Option Decimal := do
  let unsigned := (splitSign text).2
  let (fraction, rest) := splitFraction (unsigned.dropWhile isDecimalDigit)
  let exponent ← exponent? rest
  pure ⟨natural 10 (unsigned.takeWhile isDecimalDigit ++ fraction), exponent - fraction.length⟩

def pointsPrecedeDigits : Bytes → Bool
  | [] => true
  | b :: rest =>
    (b != byte '.' || (rest.head?.map isDecimalDigit).getD false) && pointsPrecedeDigits rest

def floatParts (text : Bytes) : List Bytes :=
  let points := text.map fun b => if b = byte 'e' || b = byte 'E' then byte '.' else b
  (splitAt (byte '.') points).filter (· ≠ [])

def isFloat (text : Bytes) : Bool :=
  let parts := floatParts text
  parts.all (underscoresSeparate false) && !((parts.head?.map hasLeadingZero).getD false) &&
    pointsPrecedeDigits text &&
    match decimalNumber? (withoutUnderscores text) with
    | some d => d.isFinite
    | none => false

def isLeapYear (year : Nat) : Bool := year % 4 = 0 && (year % 100 ≠ 0 || year % 400 = 0)

def daysOfMonth (year month : Nat) : Nat :=
  if month = 2 then (if isLeapYear year then 29 else 28)
  else if month = 4 || month = 6 || month = 9 || month = 11 then 30
  else 31

def splitDigits? (count : Nat) (text : Bytes) : Option (Nat × Bytes) :=
  let digits := text.take count
  if digits.length = count && digits.all isDecimalDigit then
    some (natural 10 digits, text.drop count)
  else none

def afterByte? (c : Char) : Bytes → Option Bytes
  | [] => none
  | b :: rest => if b = byte c then some rest else none

def afterDate? (text : Bytes) : Option Bytes := do
  let (year, text) ← splitDigits? 4 text
  let (month, text) ← splitDigits? 2 (← afterByte? '-' text)
  let (day, text) ← splitDigits? 2 (← afterByte? '-' text)
  if 1 ≤ month && month ≤ 12 && 1 ≤ day && day ≤ daysOfMonth year month then some text else none

def afterFraction (text : Bytes) : Bytes :=
  match afterByte? '.' text with
  | some (b :: rest) => if isDecimalDigit b then rest.dropWhile isDecimalDigit else text
  | _ => text

def afterTime? (text : Bytes) : Option Bytes := do
  let (hour, text) ← splitDigits? 2 text
  let (minute, text) ← splitDigits? 2 (← afterByte? ':' text)
  let (second, text) ← splitDigits? 2 (← afterByte? ':' text)
  if hour < 24 && minute < 60 && second < 60 then some (afterFraction text) else none

def isOffset (text : Bytes) : Bool :=
  let distance? : Option (Nat × Nat × Bytes) := do
    let sign ← text.head?
    if sign ≠ byte '+' && sign ≠ byte '-' then none
    let (hours, rest) ← splitDigits? 2 (text.drop 1)
    let (minutes, rest) ← splitDigits? 2 (← afterByte? ':' rest)
    pure (hours, minutes, rest)
  text = utf8 "Z" ||
    match distance? with
    | some (hours, minutes, rest) => hours ≤ 24 && minutes ≤ 60 && rest = []
    | none => false

def isMoment (text : Bytes) : Bool :=
  let text := text.map fun b =>
    if b = byte ' ' || b = byte 't' then byte 'T' else if b = byte 'z' then byte 'Z' else b
  afterTime? text = some [] ||
    match afterDate? text with
    | none => false
    | some [] => true
    | some rest =>
      match (afterByte? 'T' rest).bind afterTime? with
      | none => false
      | some rest => rest = [] || isOffset rest

def escaped? (letter : UInt8) : Option UInt8 :=
  if letter = byte 'b' then some 0x08
  else if letter = byte 't' then some 0x09
  else if letter = byte 'n' then some 0x0A
  else if letter = byte 'f' then some 0x0C
  else if letter = byte 'r' then some 0x0D
  else if letter = byte '"' || letter = byte '\\' then some letter
  else none

def numbered? (count : Nat) (text : Bytes) : Option Bytes :=
  let digits := text.take count
  let code := natural 16 digits
  if digits.length = count && digits.all isHexDigit && code.isValidChar then
    some (encodeChar (.ofNat code))
  else none

def unescapeFrom : Bytes → Nat → Bytes → Option Bytes
  | found, _, [] => some found.reverse
  | found, skip + 1, _ :: rest => unescapeFrom found skip rest
  | found, 0, b :: rest =>
    if b ≠ byte '\\' then unescapeFrom (b :: found) 0 rest
    else
      match rest with
      | [] => none
      | letter :: rest =>
        if letter = byte 'u' || letter = byte 'U' then
          let count := if letter = byte 'u' then 4 else 8
          match numbered? count rest with
          | some character => unescapeFrom (character.reverse ++ found) count rest
          | none => none
        else
          match escaped? letter with
          | some b => unescapeFrom (b :: found) 0 rest
          | none => none

def unescape? (text : Bytes) : Option Bytes := unescapeFrom [] 0 text

def isSpace (b : UInt8) : Bool := b = byte ' ' || b = byte '\t' || b = byte '\r' || b = byte '\n'

def joinLinesFrom : Bytes → Nat → Bytes → Bytes
  | found, _, [] => found.reverse
  | found, skip + 1, _ :: rest => joinLinesFrom found skip rest
  | found, 0, b :: rest =>
    if b ≠ byte '\\' then joinLinesFrom (b :: found) 0 rest
    else
      match rest with
      | [] => (b :: found).reverse
      | next :: rest =>
        if next = byte '\\' then joinLinesFrom (next :: b :: found) 0 rest
        else
          let gap := (next :: rest).takeWhile isSpace
          if gap.contains (byte '\n') then joinLinesFrom found (gap.length - 1) rest
          else joinLinesFrom (next :: b :: found) 0 rest

def joinLines (text : Bytes) : Bytes := joinLinesFrom [] 0 text

def dropFirstLineEnd (text : Bytes) : Bytes :=
  match after? (utf8 "\r\n") text with
  | some rest => rest
  | none => (after? (utf8 "\n") text).getD text

end Shading.Toml
