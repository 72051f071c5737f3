import Shading.Text.Utf8

/-!
TOML as it is written: keys of several parts, literals, and the lines of a
document.
-/

namespace Shading.Toml

open Text

abbrev Key := List Bytes

def isBare (b : UInt8) : Bool :=
  (byte 'a' ≤ b && b ≤ byte 'z') || (byte 'A' ≤ b && b ≤ byte 'Z') ||
    (byte '0' ≤ b && b ≤ byte '9') || b = byte '_' || b = byte '-'

def quotedByte (b : UInt8) : Bytes :=
  if b = byte '"' || b = byte '\\' then [byte '\\', b]
  else if b = 0x08 then utf8 "\\b"
  else if b = 0x09 then utf8 "\\t"
  else if b = 0x0A then utf8 "\\n"
  else if b = 0x0C then utf8 "\\f"
  else if b = 0x0D then utf8 "\\r"
  else if b < 0x20 || b = 0x7F then utf8 "\\u" ++ hexDigits lowerDigit 4 b.toNat
  else [b]

def partText (part : Bytes) : Bytes :=
  if part ≠ [] && part.all isBare then part
  else byte '"' :: part.flatMap quotedByte ++ [byte '"']

def keyText (key : Key) : Bytes := join (utf8 ".") (key.map partText)

inductive Literal where
  | text (value : Bytes)
  | integer (value : Int64)
  | boolean (value : Bool)
  | float (spelling : Bytes)
  | moment (spelling : Bytes)
  | array (items : List Literal)
  | inline (pairs : List (Key × Literal))

inductive Line where
  | table (key : Key)
  | row (key : Key)
  | pair (key : Key) (value : Literal)

end Shading.Toml
