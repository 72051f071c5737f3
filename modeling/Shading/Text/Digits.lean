import Shading.Text.Basic

/-!
Digits and the numbers that texts of digits stand for.
-/

namespace Shading.Text

def isDecimalDigit (b : UInt8) : Bool := byte '0' ≤ b && b ≤ byte '9'

def isHexDigit (b : UInt8) : Bool :=
  isDecimalDigit b || (byte 'a' ≤ b && b ≤ byte 'f') || (byte 'A' ≤ b && b ≤ byte 'F')

def hexDigitValue (b : UInt8) : Nat :=
  if b ≤ byte '9' then b.toNat - 0x30
  else if b ≤ byte 'F' then b.toNat - 0x37
  else b.toNat - 0x57

def natural (base : Nat) (digits : Bytes) : Nat :=
  digits.foldl (fun n b => n * base + hexDigitValue b) 0

def word64? (n : Int) : Option Int64 :=
  if Int64.minValue.toInt ≤ n && n ≤ Int64.maxValue.toInt then some (.ofInt n) else none

def splitSign : Bytes → Bool × Bytes
  | [] => (false, [])
  | b :: rest =>
    if b = byte '-' then (true, rest)
    else if b = byte '+' then (false, rest)
    else (false, b :: rest)

def integer? (text : Bytes) : Option Int64 :=
  let (negative, digits) := splitSign text
  if digits ≠ [] && digits.all isDecimalDigit then
    word64? (if negative then -(natural 10 digits : Int) else natural 10 digits)
  else none

end Shading.Text
