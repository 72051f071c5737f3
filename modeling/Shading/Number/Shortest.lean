import Shading.Number.Binary32
import Shading.Text.Basic

/-!
The fewest decimal digits that read back as the same binary32 value, and their
layout. The digits are found exactly: for each count of digits the two
neighbours of the value on that decimal grid are tested against the interval
of reals that round to the value, and the first grid with a hit wins.
-/

namespace Shading.Number

structure RoundingInterval where
  lower : Nat
  value : Nat
  upper : Nat
  scale : Nat
  closed : Bool
  deriving Repr

def RoundingInterval.ofBits (bits : UInt32) : RoundingInterval :=
  let x := Binary32.magnitude bits
  let narrow : Bool := Binary32.fractionField bits = 0 && 1 < Binary32.exponentField bits
  let below := if narrow then 1 else 2
  let exponent := x.exponent - 2
  let up := Nat.pow 2 exponent.toNat
  ⟨(4 * x.mantissa - below) * up, 4 * x.mantissa * up, (4 * x.mantissa + 2) * up,
    Nat.pow 2 (-exponent).toNat, x.mantissa % 2 = 0⟩

def RoundingInterval.contains (r : RoundingInterval) (num den : Nat) : Bool :=
  let point := num * r.scale
  let lower := r.lower * den
  let upper := r.upper * den
  if r.closed then lower ≤ point && point ≤ upper else lower < point && point < upper

structure Digits where
  digits : List Nat
  point : Int
  deriving DecidableEq, Repr

def digitsOf (n : Nat) : List Nat :=
  (Nat.toDigits 10 n).map fun c => c.toNat - 0x30

def scaleTen (num den : Nat) (power : Int) : Nat × Nat :=
  match power with
  | .ofNat n => (num * Nat.pow 10 n, den)
  | .negSucc n => (num, den * Nat.pow 10 (n + 1))

def pointFrom (num den : Nat) : Nat → Int → Int
  | 0, p => p
  | fuel + 1, p =>
    let (n, d) := scaleTen num den (1 - p)
    if d ≤ n then p else pointFrom num den fuel (p - 1)

def onGrid? (r : RoundingInterval) (point : Int) (count : Nat) : Option Nat :=
  let (num, den) := scaleTen r.value r.scale ((count : Int) - point)
  let low := num / den
  let (lowNum, lowDen) := scaleTen low 1 (point - count)
  let (highNum, highDen) := scaleTen (low + 1) 1 (point - count)
  let lowFits := r.contains lowNum lowDen
  let highFits := r.contains highNum highDen
  let nearest := roundDiv num den
  if lowFits && highFits then some nearest
  else if lowFits then some low
  else if highFits then some (low + 1)
  else none

def shortestFrom (r : RoundingInterval) (point : Int) : Nat → Nat → Nat × Nat
  | 0, count => ((onGrid? r point count).getD 0, count)
  | fuel + 1, count =>
    match onGrid? r point count with
    | some n => (n, count)
    | none => shortestFrom r point fuel (count + 1)

def shortest (bits : UInt32) : Digits :=
  if (Binary32.magnitude bits).mantissa = 0 then ⟨[], 0⟩
  else
    let r := RoundingInterval.ofBits bits
    let point := pointFrom r.value r.scale 100 40
    let (n, count) := shortestFrom r point 17 1
    let digits := digitsOf n
    ⟨(digits.reverse.dropWhile (· = 0)).reverse, point + digits.length - count⟩

structure Layout where
  leastPlain : Int
  greatestPlain : Int
  deriving Repr

def Layout.general : Layout := ⟨-4, 6⟩

private def digitBytes (digits : List Nat) : Bytes :=
  digits.map fun d => (0x30 + d).toUInt8

def Digits.scientific (d : Digits) : Bytes :=
  let exponent := d.point - 1
  let sign := if exponent < 0 then '-' else '+'
  let digits := Text.padLeft 2 (Text.byte '0') (Text.decimal exponent.natAbs)
  let mark := Text.byte 'e' :: Text.byte sign :: digits
  match d.digits with
  | [] => Text.utf8 "0" ++ mark
  | [only] => digitBytes [only] ++ mark
  | first :: rest => digitBytes [first] ++ Text.utf8 "." ++ digitBytes rest ++ mark

def Digits.positional (d : Digits) : Bytes :=
  let before := d.point.toNat
  let whole := d.digits.take before ++ List.replicate (before - d.digits.length) 0
  let fraction := List.replicate (-d.point).toNat 0 ++ d.digits.drop before
  (if whole = [] then Text.utf8 "0" else digitBytes whole) ++
    (if fraction = [] then [] else Text.utf8 "." ++ digitBytes fraction)

def Digits.render (layout : Layout) (d : Digits) : Bytes :=
  if d.digits = [] then Text.utf8 "0"
  else if d.point - 1 < layout.leastPlain || layout.greatestPlain ≤ d.point - 1 then d.scientific
  else d.positional

namespace Binary32

def render (bits : UInt32) : Bytes :=
  let sign := if isNegative bits then Text.utf8 "-" else []
  if exponentField bits = 255 then
    if fractionField bits = 0 then (if isNegative bits then Text.utf8 "-Inf" else Text.utf8 "+Inf")
    else Text.utf8 "NaN"
  else sign ++ (shortest bits).render Layout.general

end Binary32

end Shading.Number
