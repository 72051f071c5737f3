/-!
Exact rounding. A positive number is kept as a natural mantissa times a power
of two, and a quotient is rounded to the nearest number with a given count of
significant bits, ties going to the even mantissa.
-/

namespace Shading.Number

structure Scaled where
  mantissa : Nat
  exponent : Int
  deriving DecidableEq, Repr

def roundDiv (num den : Nat) : Nat :=
  let quotient := num / den
  let twice := 2 * (num % den)
  if twice < den then quotient
  else if den < twice then quotient + 1
  else if quotient % 2 = 0 then quotient
  else quotient + 1

def roundScaled (num den : Nat) (shift : Int) : Nat :=
  match shift with
  | .ofNat n => roundDiv num (den * Nat.pow 2 n)
  | .negSucc n => roundDiv (num * Nat.pow 2 (n + 1)) den

def atLeastPower (num den : Nat) (shift : Int) : Bool :=
  match shift with
  | .ofNat n => den * Nat.pow 2 n ≤ num
  | .negSucc n => den ≤ num * Nat.pow 2 (n + 1)

def floorLog2 (num den : Nat) : Int :=
  let guess : Int := (Nat.log2 num : Int) - (Nat.log2 den : Int)
  if atLeastPower num den guess then guess else guess - 1

def roundToBits (bits num den : Nat) : Scaled :=
  if num = 0 then ⟨0, 0⟩
  else
    let exponent := floorLog2 num den - (bits : Int) + 1
    ⟨roundScaled num den exponent, exponent⟩

def Scaled.quotient (x : Scaled) : Nat × Nat :=
  match x.exponent with
  | .ofNat n => (x.mantissa * Nat.pow 2 n, 1)
  | .negSucc n => (x.mantissa, Nat.pow 2 (n + 1))

def Scaled.add (x y : Scaled) : Scaled :=
  let exponent := min x.exponent y.exponent
  let raise (z : Scaled) : Nat := z.mantissa * Nat.pow 2 (z.exponent - exponent).toNat
  ⟨raise x + raise y, exponent⟩

def Scaled.round (bits : Nat) (x : Scaled) : Scaled :=
  let (num, den) := x.quotient
  roundToBits bits num den

def Scaled.under (bits n : Nat) (x : Scaled) : Scaled :=
  let (num, den) := x.quotient
  roundToBits bits (n * den) num

end Shading.Number
