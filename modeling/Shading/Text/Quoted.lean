import Shading.Text.Printable
import Shading.Text.Utf8

/-!
Quoted text: double quotes around a text whose quotes, backslashes and
unprintable characters are escaped, so that it stays on one line.
-/

namespace Shading.Text

def escapeLetter? (code : Nat) : Option Char :=
  match code with
  | 0x07 => some 'a'
  | 0x08 => some 'b'
  | 0x09 => some 't'
  | 0x0A => some 'n'
  | 0x0B => some 'v'
  | 0x0C => some 'f'
  | 0x0D => some 'r'
  | 0x22 => some '"'
  | 0x5C => some '\\'
  | _ => none

def numericEscape (mark : Char) (width code : Nat) : Bytes :=
  byte '\\' :: byte mark :: hexDigits lowerDigit width code

def quoteChar (c : Char) : Bytes :=
  let code := c.toNat
  match escapeLetter? code with
  | some letter => [byte '\\', byte letter]
  | none =>
    if isPrintable code then encodeChar c
    else if code < 0x80 then numericEscape 'x' 2 code
    else if code < 0x10000 then numericEscape 'u' 4 code
    else numericEscape 'U' 8 code

def quoteLetter (c : Char) : Bytes :=
  let inner :=
    if c = '\'' then [byte '\\', byte '\'']
    else if c = '"' then [byte '"']
    else quoteChar c
  byte '\'' :: inner ++ [byte '\'']

def quotePiece : Piece → Bytes
  | .char c => quoteChar c
  | .stray b => numericEscape 'x' 2 b.toNat

def quote (text : Bytes) : Bytes :=
  byte '"' :: (pieces text).flatMap quotePiece ++ [byte '"']

end Shading.Text
