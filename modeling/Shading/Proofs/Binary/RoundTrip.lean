import Shading.Binary.Decode

/-!
Decoding a binary gives back the header and the instructions it was made of,
as long as every instruction can be encoded.
-/

namespace Shading.Binary

open UInt32 List

variable {instructions : List Instruction}

theorem wordOfBytes_bytesOfWord (w : UInt32) :
    wordOfBytes w.toUInt8 (w >>> 8).toUInt8 (w >>> 16).toUInt8 (w >>> 24).toUInt8 = w := by
  apply UInt32.eq_of_toBitVec_eq
  simp only [wordOfBytes, UInt32.toBitVec_or, UInt32.toBitVec_shiftLeft, UInt32.toBitVec_shiftRight,
    UInt8.toBitVec_toUInt32, toBitVec_toUInt8]
  ext i hi
  simp
  grind

theorem readWordsFrom_bytesOfWords (read words : List UInt32) :
    readWordsFrom read (bytesOfWords words) = read.reverse ++ words := by
  induction words generalizing read with
  | nil => exact (append_nil _).symm
  | cons w rest ih =>
    change readWordsFrom (wordOfBytes w.toUInt8 (w >>> 8).toUInt8 (w >>> 16).toUInt8
      (w >>> 24).toUInt8 :: read) (bytesOfWords rest) = _
    rw [wordOfBytes_bytesOfWord, ih, reverse_cons, append_assoc, singleton_append]

theorem length_bytesOfWords (words : List UInt32) :
    (bytesOfWords words).length = 4 * words.length := by
  induction words with
  | nil => rfl
  | cons w rest ih =>
    change (bytesOfWords rest).length + 4 = _
    rw [ih, length_cons]
    omega

theorem length_packFrom (packed : List UInt32) (text : Bytes) :
    (packFrom packed text).length = packed.length + stringWordCount text := by
  induction packed, text using packFrom.induct with
  | case1 packed a b c d rest ih =>
    rw [packFrom, ih, stringWordCount, stringWordCount]
    simp only [length_cons]
    omega
  | _ => simp [packFrom, stringWordCount]

theorem length_packString (text : Bytes) : (packString text).length = stringWordCount text := by
  rw [packString, length_packFrom, length_nil, Nat.zero_add]

namespace Instruction

theorem header_shiftRight {i : Instruction} (h : i.isEncodable = true) :
    (i.header >>> 16).toNat = i.wordCount := by
  have hcount : i.wordCount ≤ 65535 := of_decide_eq_true h
  have hcode : i.opcode.code.toNat < 65536 := i.opcode.code.toNat_lt
  have hwords : i.wordCount.toUInt32.toNat = i.wordCount := by
    simp
    omega
  simp only [header, UInt32.toNat_shiftRight, UInt32.toNat_or, UInt32.toNat_shiftLeft, hwords,
    UInt16.toNat_toUInt32, Nat.shiftRight_or_distrib]
  simp only [UInt32.reduceToNat, Nat.reduceMod, Nat.shiftRight_eq_div_pow, Nat.shiftLeft_eq,
    Nat.reducePow]
  rw [Nat.div_eq_of_lt hcode, Nat.or_zero]
  omega

theorem header_toUInt16 (i : Instruction) : i.header.toUInt16 = i.opcode.code := by
  apply UInt16.eq_of_toBitVec_eq
  simp only [header, UInt32.toBitVec_toUInt16, UInt32.toBitVec_or, UInt32.toBitVec_shiftLeft]
  ext bit hbit
  simp

end Instruction

theorem wordsOf_cons (i : Instruction) (rest : List Instruction) :
    wordsOf (i :: rest) = i.header :: (i.operands ++ wordsOf rest) := rfl

theorem wordsOf_append (before after : List Instruction) :
    wordsOf (before ++ after) = wordsOf before ++ wordsOf after := flatMap_append

theorem length_wordsOf_le (instructions : List Instruction) :
    instructions.length ≤ (wordsOf instructions).length := by
  induction instructions with
  | nil => exact Nat.le_refl _
  | cons i rest ih =>
    rw [wordsOf_cons, length_cons, length_cons, length_append]
    omega

theorem splitWords_wordsOf (total : Nat) {fuel offset : Nat} (found : List Instruction)
    (h : ∀ i ∈ instructions, i.isEncodable = true) (hfuel : instructions.length ≤ fuel)
    (htotal : offset + (wordsOf instructions).length = total) :
    splitWords total fuel offset found (wordsOf instructions) =
      (found.reverse ++ instructions, none) := by
  induction instructions generalizing fuel offset found with
  | nil =>
    rw [append_nil]
    cases fuel <;> rfl
  | cons i rest ih =>
    cases fuel with
    | zero => cases hfuel
    | succ fuel =>
      have hcount := Instruction.header_shiftRight (h i mem_cons_self)
      have hwords : i.wordCount - 1 = i.operands.length := by
        unfold Instruction.wordCount
        omega
      rw [wordsOf_cons, length_cons, length_append] at htotal
      have hroom : ¬ total < offset + i.wordCount := by
        unfold Instruction.wordCount
        omega
      have hpositive : i.wordCount ≠ 0 := Nat.succ_ne_zero _
      rw [wordsOf_cons, splitWords]
      simp only [hcount, hpositive, hroom, decide_false, Bool.or_self, Bool.false_eq_true,
        if_false, hwords, take_left, drop_left, Instruction.header_toUInt16]
      rw [ih _ (fun j hj => h j (mem_cons_of_mem _ hj)) (Nat.le_of_succ_le_succ hfuel)]
      · rw [reverse_cons, append_assoc, singleton_append]
      · unfold Instruction.wordCount
        omega

theorem decode_bytesOfWords {header : Header} (hmagic : header.magic = magic)
    (h : ∀ i ∈ instructions, i.isEncodable = true) :
    decode (bytesOfWords (header.words ++ wordsOf instructions)) =
      ⟨header, instructions, none⟩ := by
  have hlength := length_bytesOfWords (header.words ++ wordsOf instructions)
  have hheader : (header.words ++ wordsOf instructions).length =
      (wordsOf instructions).length + headerWords := by
    rw [length_append, Nat.add_comm]
    rfl
  have hread : readWords (bytesOfWords (header.words ++ wordsOf instructions)) =
      header.words ++ wordsOf instructions := readWordsFrom_bytesOfWords [] _
  have hsplit := splitWords_wordsOf ((wordsOf instructions).length + headerWords) [] h
    (Nat.le_trans (length_wordsOf_le instructions) (Nat.le_add_right _ headerWords))
    (Nat.add_comm headerWords _)
  obtain ⟨found, version, generator, bound, schema⟩ := header
  obtain rfl : found = magic := hmagic
  unfold decode
  rw [if_neg (by omega), if_neg (by omega), hread]
  simp only [Header.words, cons_append, nil_append, ne_eq, not_true_eq_false, if_false]
  rw [hsplit]
  rfl

end Shading.Binary
