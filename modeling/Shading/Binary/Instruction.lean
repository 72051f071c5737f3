import Shading.Binary.Opcode

/-!
Instructions of the binary format: an operation code and operand words. The
first word of an encoded instruction holds the number of its words and the
code; literal strings are packed four bytes to a word, the first byte lowest,
and always end in a zero byte.
-/

namespace Shading.Binary

structure Instruction where
  opcode : Opcode
  operands : List UInt32
  deriving DecidableEq, Repr

def maxInstructionWords : Nat := 0xFFFF

namespace Instruction

def wordCount (i : Instruction) : Nat := i.operands.length + 1

def isEncodable (i : Instruction) : Bool := i.wordCount ≤ maxInstructionWords

def header (i : Instruction) : UInt32 := (i.wordCount.toUInt32 <<< 16) ||| i.opcode.code.toUInt32

def words (i : Instruction) : List UInt32 := i.header :: i.operands

end Instruction

def wordsOf (instructions : List Instruction) : List UInt32 :=
  instructions.flatMap Instruction.words

def wordOfBytes (a b c d : UInt8) : UInt32 :=
  a.toUInt32 ||| (b.toUInt32 <<< 8) ||| (c.toUInt32 <<< 16) ||| (d.toUInt32 <<< 24)

def bytesOfWord (w : UInt32) : Bytes :=
  [w.toUInt8, (w >>> 8).toUInt8, (w >>> 16).toUInt8, (w >>> 24).toUInt8]

def bytesOfWords (words : List UInt32) : Bytes := words.flatMap bytesOfWord

def packFrom (packed : List UInt32) : Bytes → List UInt32
  | a :: b :: c :: d :: rest => packFrom (wordOfBytes a b c d :: packed) rest
  | [a, b, c] => (wordOfBytes a b c 0 :: packed).reverse
  | [a, b] => (wordOfBytes a b 0 0 :: packed).reverse
  | [a] => (wordOfBytes a 0 0 0 :: packed).reverse
  | [] => (0 :: packed).reverse

def packString (text : Bytes) : List UInt32 := packFrom [] text

def stringWordCount (text : Bytes) : Nat := text.length / 4 + 1

def unpackString (words : List UInt32) : Bytes × Nat :=
  let bytes := bytesOfWords words
  let text := bytes.takeWhile (· ≠ 0)
  (text, if text.length < bytes.length then text.length / 4 + 1 else words.length)

end Shading.Binary
