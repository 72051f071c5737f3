import Shading.Toml.Literal
import Shading.Toml.Syntax

/-!
Reading the lines of a TOML document. A document that is malformed anywhere has
no lines.
-/

namespace Shading.Toml

open Text

abbrev Read := StateT Bytes Option

namespace Read

def isBlank (b : UInt8) : Bool := b = byte ' ' || b = byte '\t'

def isLineEnd (b : UInt8) : Bool := b = byte '\n' || b = byte '\r'

def peek : Read (Option UInt8) := do pure (← get).head?

def accept (text : String) : Read Bool := do
  match after? (utf8 text) (← get) with
  | some rest => do
    set rest
    pure true
  | none => pure false

def expect (text : String) : Read Unit := do
  if !(← accept text) then failure

def span (test : UInt8 → Bool) : Read Bytes := do
  let text ← get
  set (text.dropWhile test)
  pure (text.takeWhile test)

def blanks : Read Unit := discard (span isBlank)

def afterGap (inside : Bool) : Bytes → Bytes
  | [] => []
  | b :: rest =>
    if isLineEnd b then afterGap false rest
    else if inside then afterGap true rest
    else if isBlank b then afterGap false rest
    else if b = byte '#' then afterGap true rest
    else b :: rest

def gap : Read Unit := modify (afterGap false)

def splitQuoted (quote : UInt8) (escapes : Bool) : Bytes → Bytes → Option (Bytes × Bytes)
  | _, [] => none
  | found, b :: rest =>
    if b = quote then some (found.reverse, rest)
    else if isLineEnd b then none
    else if escapes && b = byte '\\' then
      match rest with
      | [] => none
      | next :: rest => splitQuoted quote escapes (next :: b :: found) rest
    else splitQuoted quote escapes (b :: found) rest

def endsInFive (quote : UInt8) (escapes : Bool) (reversed : Bytes) : Bool :=
  reversed.take 5 = List.replicate 5 quote && !(escapes && reversed[5]? = some (byte '\\'))

def splitLong (quote : UInt8) (escapes : Bool) : Bytes → Bytes → Option (Bytes × Bytes)
  | _, [] => none
  | found, b :: rest =>
    if escapes && b = byte '\\' then
      match rest with
      | [] => none
      | next :: rest => splitLong quote escapes (next :: b :: found) rest
    else if b = quote && rest.take 2 = [quote, quote] then
      if rest[2]? = some quote then
        if endsInFive quote escapes (quote :: quote :: b :: found) then none
        else splitLong quote escapes (b :: found) rest
      else some (found.reverse, rest.drop 2)
    else splitLong quote escapes (b :: found) rest

def splitOff (split : Bytes → Option (Bytes × Bytes)) : Read Bytes := do
  match split (← get) with
  | some (taken, rest) => do
    set rest
    pure taken
  | none => failure

def quotedText (escapes : Bool) : Read Bytes :=
  if escapes then do unescape? (← splitOff (splitQuoted (byte '"') true []))
  else splitOff (splitQuoted (byte '\'') false [])

def longText (escapes : Bool) : Read Bytes :=
  if escapes then do
    unescape? (joinLines (dropFirstLineEnd (← splitOff (splitLong (byte '"') true []))))
  else do pure (dropFirstLineEnd (← splitOff (splitLong (byte '\'') false [])))

def keyPart : Read Bytes := do
  if ← accept "\"" then quotedText true
  else if ← accept "'" then quotedText false
  else do
    let part ← span isBare
    if part = [] then failure
    pure part

def key : Nat → Read Key
  | 0 => failure
  | fuel + 1 => do
    blanks
    let part ← keyPart
    blanks
    if ← accept "." then pure (part :: (← key fuel)) else pure [part]

def based (base : Nat) : Read Literal := do
  if !((← peek).map (isDigitOf base)).getD false then failure
  .integer <$> basedInteger? base (← span fun b => isDigitOf base b || b = byte '_')

def decimal (start : Bytes) : Read Literal := do
  let whole := start ++ (← span fun b => isDecimalDigit b || b = byte '_')
  let isFloatByte (b : UInt8) : Bool := isDecimalDigit b || (utf8 "_.-+eE").contains b
  if ((← peek).map (utf8 ".eE").contains).getD false then
    let spelling := whole ++ (← span isFloatByte)
    if isFloat spelling then pure (.float spelling) else failure
  else .integer <$> decimalInteger? whole

def moment (start : Bytes) : Read Literal := do
  let rest ← span fun b => isDecimalDigit b || (utf8 "-:Tt .Zz+").contains b
  let spelling := trimEnd isBlank (start ++ rest)
  if isMoment spelling then pure (.moment spelling) else failure

def number : Read Literal := do
  if ← accept "0x" then based 16
  else if ← accept "0o" then based 8
  else if ← accept "0b" then based 2
  else do
    let digits ← span isDecimalDigit
    if ((← peek).map (utf8 "-:").contains).getD false then moment digits else decimal digits

def signedNumber (sign : Char) : Read Literal := do
  if ← accept "inf" then pure (.float (byte sign :: utf8 "inf"))
  else if ← accept "nan" then pure (.float (byte sign :: utf8 "nan"))
  else if ((← peek).map isDecimalDigit).getD false then decimal [byte sign]
  else failure

def scalar : Read Literal := do
  if ← accept "\"\"\"" then .text <$> longText true
  else if ← accept "\"" then .text <$> quotedText true
  else if ← accept "'''" then .text <$> longText false
  else if ← accept "'" then .text <$> quotedText false
  else if ← accept "true" then pure (.boolean true)
  else if ← accept "false" then pure (.boolean false)
  else if ← accept "inf" then pure (.float (utf8 "inf"))
  else if ← accept "nan" then pure (.float (utf8 "nan"))
  else if ← accept "+" then signedNumber '+'
  else if ← accept "-" then signedNumber '-'
  else if ((← peek).map isDecimalDigit).getD false then number
  else failure

mutual

def value : Nat → Read Literal
  | 0 => failure
  | fuel + 1 => do
    if ← accept "[" then .array <$> items fuel []
    else if ← accept "\x7b" then do
      blanks
      if ← accept "\x7d" then pure (.inline []) else .inline <$> pairs fuel []
    else scalar

def items : Nat → List Literal → Read (List Literal)
  | 0, _ => failure
  | fuel + 1, found => do
    gap
    if ← accept "]" then pure found.reverse
    else do
      let item ← value fuel
      gap
      if ← accept "," then items fuel (item :: found)
      else do
        expect "]"
        pure (item :: found).reverse

def pairs : Nat → List (Key × Literal) → Read (List (Key × Literal))
  | 0, _ => failure
  | fuel + 1, found => do
    let name ← key fuel
    expect "="
    blanks
    let item ← value fuel
    blanks
    if ← accept "," then pairs fuel ((name, item) :: found)
    else do
      expect "\x7d"
      pure ((name, item) :: found).reverse

end

def line (fuel : Nat) : Read Line := do
  if ← accept "[[" then do
    let name ← key fuel
    expect "]]"
    pure (.row name)
  else if ← accept "[" then do
    let name ← key fuel
    expect "]"
    pure (.table name)
  else do
    let name ← key fuel
    expect "="
    blanks
    pure (.pair name (← value fuel))

def lineEnd : Read Unit := do
  blanks
  match ← peek with
  | none => pure ()
  | some b => if isLineEnd b || b = byte '#' then pure () else failure

def lines : Nat → List Line → Read (List Line)
  | 0, _ => failure
  | fuel + 1, found => do
    gap
    match ← peek with
    | none => pure found.reverse
    | some _ => do
      let next ← line fuel
      lineEnd
      lines fuel (next :: found)

end Read

def hasPlainControls : Bytes → Bool
  | [] => true
  | b :: rest =>
    (if b = byte '\r' then rest.head? = some (byte '\n')
      else b = byte '\t' || b = byte '\n' || !(b < 0x20 || b = 0x7F)) && hasPlainControls rest

def withoutMark (text : Bytes) : Bytes :=
  match after? [0xFF, 0xFE] text, after? [0xFE, 0xFF] text, after? [0xEF, 0xBB, 0xBF] text with
  | some rest, _, _ | none, some rest, _ | none, none, some rest => rest
  | none, none, none => text

def lines? (text : Bytes) : Option (List Line) :=
  let text := withoutMark text
  if isUtf8 text && hasPlainControls text then
    ((Read.lines (text.length + 1) []).run text).map (·.1)
  else none

end Shading.Toml
