/-!
Text as bytes. Sources, names and messages are byte strings that need not be
valid UTF-8, so the library computes on lists of bytes and writes its own
wording as the UTF-8 bytes of string literals.
-/

namespace Shading

abbrev Bytes := List UInt8

namespace Text

def utf8 (s : String) : Bytes := s.toUTF8.data.toList

def byte (c : Char) : UInt8 := c.toNat.toUInt8

def decimal (n : Nat) : Bytes := (Nat.toDigits 10 n).map byte

def signed : Int → Bytes
  | .ofNat n => decimal n
  | .negSucc n => byte '-' :: decimal (n + 1)

def padLeft (width : Nat) (fill : UInt8) (text : Bytes) : Bytes :=
  List.replicate (width - text.length) fill ++ text

def padRight (width : Nat) (text : Bytes) : Bytes :=
  text ++ List.replicate (width - text.length) (byte ' ')

def blanks (count : Nat) : Bytes := List.replicate count (byte ' ')

def upperDigit (d : Nat) : UInt8 :=
  if d < 10 then (0x30 + d).toUInt8 else (0x37 + d).toUInt8

def lowerDigit (d : Nat) : UInt8 :=
  if d < 10 then (0x30 + d).toUInt8 else (0x57 + d).toUInt8

def hexDigits (digit : Nat → UInt8) (width n : Nat) : Bytes :=
  match width with
  | 0 => []
  | rest + 1 => hexDigits digit rest (n / 16) ++ [digit (n % 16)]

def hex (text : Bytes) : Bytes :=
  text.flatMap fun b => hexDigits lowerDigit 2 b.toNat

def splitFrom (separator : UInt8) : List Bytes → Bytes → Bytes → List Bytes
  | found, opened, [] => (opened.reverse :: found).reverse
  | found, opened, b :: rest =>
    if b = separator then splitFrom separator (opened.reverse :: found) [] rest
    else splitFrom separator found (b :: opened) rest

def splitAt (separator : UInt8) (text : Bytes) : List Bytes := splitFrom separator [] [] text

def join (separator : Bytes) (pieces : List Bytes) : Bytes := separator.intercalate pieces

def trimEnd (drop : UInt8 → Bool) (text : Bytes) : Bytes :=
  (text.reverse.dropWhile drop).reverse

def after? (head : Bytes) (text : Bytes) : Option Bytes :=
  if head.isPrefixOf text then some (text.drop head.length) else none

def replaceByte (old new : UInt8) (text : Bytes) : Bytes :=
  text.map fun b => if b = old then new else b

def replaceFirstFrom (old new : Bytes) : Bytes → Bytes → Bytes
  | found, [] => found.reverse
  | found, b :: rest =>
    match after? old (b :: rest) with
    | some rest => found.reverseAux (new ++ rest)
    | none => replaceFirstFrom old new (b :: found) rest

def replaceFirst (old new text : Bytes) : Bytes := replaceFirstFrom old new [] text

def before : Bytes → Bytes → Bool
  | [], [] => false
  | [], _ :: _ => true
  | _ :: _, [] => false
  | a :: s, b :: t => a < b || (a == b && before s t)

end Text

end Shading
