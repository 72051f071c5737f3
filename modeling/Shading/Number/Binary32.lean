import Shading.Number.Rounding

/-!
The binary32 format. A value is its 32 bits; here they are taken apart into
mantissa and exponent and built again from an exact quotient, rounding to the
nearest value and ties to even.
-/

namespace Shading.Number.Binary32

def leastExponent : Int := -149

def infinity : UInt32 := 0x7F800000

def signBit : UInt32 := 0x80000000

def isNegative (bits : UInt32) : Bool := bits &&& signBit != 0

def negate (bits : UInt32) : UInt32 := bits ^^^ signBit

def exponentField (bits : UInt32) : Nat := (bits.toNat / 0x800000) % 256

def fractionField (bits : UInt32) : Nat := bits.toNat % 0x800000

def magnitude (bits : UInt32) : Scaled :=
  if exponentField bits = 0 then ⟨fractionField bits, leastExponent⟩
  else ⟨fractionField bits + 0x800000, exponentField bits - 150⟩

def ofQuotient (num den : Nat) : UInt32 :=
  if num = 0 then 0
  else
    let exponent := max (floorLog2 num den - 23) leastExponent
    let bits := (exponent - leastExponent).toNat * 0x800000 + roundScaled num den exponent
    if bits < infinity.toNat then bits.toUInt32 else infinity

def ofScaled (x : Scaled) : UInt32 :=
  let (num, den) := x.quotient
  ofQuotient num den

end Shading.Number.Binary32
