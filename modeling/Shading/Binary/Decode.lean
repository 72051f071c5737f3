import Shading.Binary.Instruction

/-!
Decoding a binary: a header of five words and instructions that fill the rest
exactly. A failure keeps what was decoded before it.
-/

namespace Shading.Binary

def magic : UInt32 := 0x07230203

def headerWords : Nat := 5

structure Header where
  magic : UInt32 := 0
  version : UInt32 := 0
  generator : UInt32 := 0
  bound : UInt32 := 0
  schema : UInt32 := 0
  deriving DecidableEq, Repr

def Header.words (h : Header) : List UInt32 := [h.magic, h.version, h.generator, h.bound, h.schema]

inductive DecodeError where
  | tooSmall
  | misaligned
  | badMagic (found : UInt32)
  | badInstruction (wordCount offset : Nat)
  deriving DecidableEq, Repr

open Text in
def DecodeError.message : DecodeError → Bytes
  | .tooSmall => utf8 "spirv: binary smaller than header"
  | .misaligned => utf8 "spirv: binary size is not a multiple of 4"
  | .badMagic found => utf8 "spirv: invalid magic number: 0x" ++ hexDigits upperDigit 8 found.toNat
  | .badInstruction wordCount offset =>
    utf8 "spirv: invalid instruction word count: " ++ decimal wordCount ++ utf8 " at word " ++
      decimal offset

structure Decoded where
  header : Header := {}
  instructions : List Instruction := []
  failure : Option DecodeError := none
  deriving DecidableEq, Repr

def readWordsFrom (read : List UInt32) : Bytes → List UInt32
  | a :: b :: c :: d :: rest => readWordsFrom (wordOfBytes a b c d :: read) rest
  | _ => read.reverse

def readWords (data : Bytes) : List UInt32 := readWordsFrom [] data

def splitWords (total : Nat) :
    Nat → Nat → List Instruction → List UInt32 → List Instruction × Option DecodeError
  | _, _, found, [] => (found.reverse, none)
  | 0, _, found, _ :: _ => (found.reverse, none)
  | fuel + 1, offset, found, word :: rest =>
    let count := (word >>> 16).toNat
    if count = 0 || total < offset + count then
      (found.reverse, some (.badInstruction count offset))
    else
      let instruction : Instruction := ⟨⟨word.toUInt16⟩, rest.take (count - 1)⟩
      splitWords total fuel (offset + count) (instruction :: found) (rest.drop (count - 1))

def decode (data : Bytes) : Decoded :=
  if data.length < headerWords * 4 then { failure := some .tooSmall }
  else if data.length % 4 ≠ 0 then { failure := some .misaligned }
  else
    match readWords data with
    | found :: version :: generator :: bound :: schema :: rest =>
      let header : Header := ⟨found, version, generator, bound, schema⟩
      if found ≠ magic then { header, failure := some (.badMagic found) }
      else
        let total := rest.length + headerWords
        let (instructions, failure) := splitWords total total headerWords [] rest
        { header, instructions, failure }
    | _ => { failure := some .tooSmall }

end Shading.Binary
