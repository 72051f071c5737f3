/-!
Sets of characters given as ranges of code points, or by the lengths of the
stretches outside and inside of them.
-/

namespace Shading.Text

def inRanges (ranges : List (Nat × Nat)) (code : Nat) : Bool :=
  ranges.any fun r => r.1 ≤ code && code ≤ r.2

def inStretches : List Nat → Nat → Bool
  | outside :: inside :: rest, code =>
    outside ≤ code && (code < outside + inside || inStretches rest (code - (outside + inside)))
  | _, _ => false

def stretchValue? {α : Type} : List (Nat × Nat × α) → Nat → Option α
  | (gap, length, value) :: rest, code =>
    if code < gap then none
    else if code < gap + length then some value
    else stretchValue? rest (code - (gap + length))
  | [], _ => none

end Shading.Text
