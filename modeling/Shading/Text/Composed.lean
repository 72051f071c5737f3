import Shading.Text.Cluster
import Shading.Text.CombiningClassTable
import Shading.Text.CompositionTable
import Shading.Text.DecompositionTable

/-!
Composed text: the canonical form in which equivalent texts are spelled alike.
Characters are taken apart, marks are put in the order of their classes, and
marks are joined with the character before them where one character stands for
both. Malformed bytes stay as they are. No character carries more than thirty
marks: a joiner is put before the next one, so that the work on one character
is bounded.
-/

namespace Shading.Text

def combiningClass (code : Nat) : Nat := (stretchValue? combiningClassTable code).getD 0

namespace Hangul

def base : Nat := 0xAC00

def isSyllable (code : Nat) : Bool := base ≤ code && code < 0xD7A4

def isLeading (code : Nat) : Bool := 0x1100 ≤ code && code < 0x1113

def isVowel (code : Nat) : Bool := 0x1161 ≤ code && code < 0x1176

def isTrailing (code : Nat) : Bool := 0x11A8 ≤ code && code < 0x11C3

def letters (code : Nat) : List Nat :=
  let index := code - base
  let open' := [0x1100 + index / 588, 0x1161 + index % 588 / 28]
  if index % 28 = 0 then open' else open' ++ [0x11A7 + index % 28]

def join? (first second : Nat) : Option Nat :=
  if isLeading first && isVowel second then
    some (base + (first - 0x1100) * 588 + (second - 0x1161) * 28)
  else if isSyllable first && (first - base) % 28 = 0 && isTrailing second then
    some (first + (second - 0x11A7))
  else none

end Hangul

def join? (first second : Nat) : Option Nat :=
  match Hangul.join? first second with
  | some code => some code
  | none => do
    let (_, joined) ← compositionTable.find? (·.1 = second)
    let (_, code) ← joined.find? (·.1 = first)
    pure code

def parts? (code : Nat) : Option (Nat × Nat) :=
  compositionTable.findSome? fun (mark, joined) =>
    (joined.find? (·.2 = code)).map fun (first, _) => (first, mark)

def replacement? (code : Nat) : Option (List Nat) :=
  match singletonTable.findSome? fun (first, codes) =>
    if first ≤ code then codes.toList[code - first]? else none with
  | some single => some [single.toNat]
  | none => (expansionTable.find? (·.1 = code)).map (·.2)

def decomposeWithin : Nat → Nat → List Nat
  | 0, code => [code]
  | fuel + 1, code =>
    if code < 0xC0 then [code]
    else if Hangul.isSyllable code then Hangul.letters code
    else
      match parts? code with
      | some (first, mark) => decomposeWithin fuel first ++ [mark]
      | none => (replacement? code).getD [code]

def decompose (code : Nat) : List Nat := decomposeWithin 4 code

def joinsBackward (code : Nat) : Bool :=
  Hangul.isVowel code || Hangul.isTrailing code || compositionTable.any (·.1 = code)

def isMark (code : Nat) : Bool := 0 < combiningClass code || joinsBackward code

def markCounts (code : Nat) : Nat × Nat :=
  if code < 0x80 then (0, 0)
  else if Hangul.isSyllable code then (0, if (code - Hangul.base) % 28 = 0 then 1 else 2)
  else
    match stretchValue? lookalikeTable code with
    | some counts => counts
    | none =>
      let codes := decompose code
      ((codes.takeWhile isMark).length, (codes.reverse.takeWhile isMark).length)

def insertMark (code : Nat) : List Nat → List Nat
  | [] => [code]
  | last :: earlier =>
    if 0 < combiningClass code && combiningClass code < combiningClass last then
      last :: insertMark code earlier
    else code :: last :: earlier

def joinMarks (done : List Nat) (base : Nat) (marks : List Nat) : List Nat → List Nat
  | [] => (marks ++ base :: done).reverse
  | code :: rest =>
    let blocked := match marks with
      | [] => false
      | last :: _ => combiningClass code ≤ combiningClass last
    match if blocked then none else join? base code with
    | some joined => joinMarks done joined marks rest
    | none =>
      if combiningClass code = 0 then joinMarks (marks ++ base :: done) code [] rest
      else joinMarks done base (code :: marks) rest

def composeMarks (segment : List Nat) : List Nat :=
  match (segment.foldr insertMark []).reverse with
  | [] => []
  | first :: rest => joinMarks [] first [] rest

def maxMarks : Nat := 30

def markJoiner : Nat := 0x034F

structure Composing where
  written : List Bytes := []
  segment : List Nat := []
  marks : Nat := 0

namespace Composing

def flush (s : Composing) : Composing where
  written :=
    (composeMarks s.segment).flatMap (fun code => encodeChar (Char.ofNat code)) :: s.written

def next (s : Composing) : Piece → Composing
  | .stray b => { written := [b] :: s.flush.written }
  | .char c =>
    let (leading, trailing) := markCounts c.toNat
    let codes := (decompose c.toNat).reverse
    if leading = 0 then { s.flush with segment := codes, marks := trailing }
    else if maxMarks < s.marks + leading then
      let joined : Composing := { s with segment := markJoiner :: s.segment }
      { joined.flush with segment := codes, marks := leading }
    else { s with segment := codes ++ s.segment, marks := s.marks + leading }

end Composing

def composeFrom (s : Composing) : Nat → Bytes → Bytes
  | _, [] => s.flush.written.reverse.flatten
  | skip + 1, _ :: rest => composeFrom s skip rest
  | 0, b :: rest =>
    match clusterUnit? (b :: rest), character? (b :: rest) with
    | none, _ => ((b :: rest) :: s.flush.written).reverse.flatten
    | _, some (c, size) => composeFrom (s.next (.char c)) (size - 1) rest
    | _, none => composeFrom (s.next (.stray b)) 0 rest

def composed (text : Bytes) : Bytes := composeFrom {} 0 text

end Shading.Text
