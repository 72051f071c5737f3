import Shading.Number.Binary32

/-!
Decimal literals. An integer part is accumulated digit by digit in a signed
64-bit word and refused as soon as the next digit would leave it. A fraction
is accumulated in binary32: each digit is divided by its decimal position in
binary64, added in binary64, and the sum rounded to binary32.
-/

namespace Shading.Number.Literal

def doubleBits : Nat := 53

def pushDigit (word : Int64) (digit : Nat) : Option Int64 :=
  if word > (Int64.maxValue - Int64.ofNat digit) / 10 then none
  else some (word * 10 + Int64.ofNat digit)

def word? (digits : List Nat) : Option Int64 :=
  digits.foldlM pushDigit 0

structure Fraction where
  value : UInt32
  position : Scaled
  deriving DecidableEq, Repr

def Fraction.start (word : Int64) : Fraction :=
  ⟨Binary32.ofQuotient word.toNatClampNeg 1, ⟨10, 0⟩⟩

def Fraction.push (f : Fraction) (digit : Nat) : Fraction :=
  let term := f.position.under doubleBits digit
  let sum := ((Binary32.magnitude f.value).add term).round doubleBits
  let next : Scaled := { f.position with mantissa := f.position.mantissa * 10 }
  ⟨Binary32.ofScaled sum, next.round doubleBits⟩

def fraction (word : Int64) (digits : List Nat) : UInt32 :=
  (digits.foldl Fraction.push (Fraction.start word)).value

end Shading.Number.Literal
