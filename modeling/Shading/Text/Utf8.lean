import Shading.Text.Basic

/-!
Reading UTF-8. A byte string is cut into well-formed characters and single
bytes that begin no character, which is how malformed text is counted, quoted
and measured.
-/

namespace Shading.Text

def isContinuation (b : UInt8) : Bool := 0x80 ≤ b && b < 0xC0

def startsCharacter (b : UInt8) : Bool := !isContinuation b

def character? : Bytes → Option (Char × Nat)
  | [] => none
  | a :: rest =>
    if a < 0x80 then some (Char.ofNat a.toNat, 1)
    else if 0xC2 ≤ a && a < 0xE0 then
      match rest with
      | b :: _ =>
        if isContinuation b then
          some (Char.ofNat ((a.toNat - 0xC0) * 0x40 + (b.toNat - 0x80)), 2)
        else none
      | [] => none
    else if 0xE0 ≤ a && a < 0xF0 then
      match rest with
      | b :: c :: _ =>
        let code := (a.toNat - 0xE0) * 0x1000 + (b.toNat - 0x80) * 0x40 + (c.toNat - 0x80)
        if isContinuation b && isContinuation c && 0x800 ≤ code &&
            !(0xD800 ≤ code && code < 0xE000) then some (Char.ofNat code, 3)
        else none
      | _ => none
    else if 0xF0 ≤ a && a < 0xF5 then
      match rest with
      | b :: c :: d :: _ =>
        let code := (a.toNat - 0xF0) * 0x40000 + (b.toNat - 0x80) * 0x1000 +
          (c.toNat - 0x80) * 0x40 + (d.toNat - 0x80)
        if isContinuation b && isContinuation c && isContinuation d && 0x10000 ≤ code &&
            code < 0x110000 then some (Char.ofNat code, 4)
        else none
      | _ => none
    else none

inductive Piece where
  | char (c : Char)
  | stray (b : UInt8)
  deriving DecidableEq, Repr

def piecesFrom : List Piece → Nat → Bytes → List Piece
  | found, _, [] => found.reverse
  | found, skip + 1, _ :: rest => piecesFrom found skip rest
  | found, 0, b :: rest =>
    match character? (b :: rest) with
    | some (c, size) => piecesFrom (.char c :: found) (size - 1) rest
    | none => piecesFrom (.stray b :: found) 0 rest

def pieces (text : Bytes) : List Piece := piecesFrom [] 0 text

def encodeChar (c : Char) : Bytes :=
  let n := c.toNat
  if n < 0x80 then [n.toUInt8]
  else if n < 0x800 then [(0xC0 + n / 0x40).toUInt8, (0x80 + n % 0x40).toUInt8]
  else if n < 0x10000 then
    [(0xE0 + n / 0x1000).toUInt8, (0x80 + n / 0x40 % 0x40).toUInt8, (0x80 + n % 0x40).toUInt8]
  else
    [(0xF0 + n / 0x40000).toUInt8, (0x80 + n / 0x1000 % 0x40).toUInt8,
      (0x80 + n / 0x40 % 0x40).toUInt8, (0x80 + n % 0x40).toUInt8]

def Piece.bytes : Piece → Bytes
  | .char c => encodeChar c
  | .stray b => [b]

def Piece.scalar : Piece → Nat
  | .char c => c.toNat
  | .stray _ => 0xFFFD

def isUtf8 (text : Bytes) : Bool :=
  (pieces text).all fun
    | .char _ => true
    | .stray _ => false

end Shading.Text
