import Shading.Proofs.Binary.RoundTrip

/-!
Which texts are binaries. The words of a binary, behind its header, are cut into
runs, and the upper half of the first word of a run tells how many words the run
has. Decoding finds the longest start that can be cut so; it accepts a text if
nothing is left behind that start, and then writing what it found gives the text
back.
-/

namespace Shading.Binary

open UInt32 List Instruction

variable {rest : List UInt32}

def littleEndian (bytes : Bytes) : Nat := bytes.foldr (fun b n => b.toNat + 256 * n) 0

/-- The words of a text, four bytes each. Bytes behind the last whole word do not count. -/
def wordsIn (data : Bytes) : List UInt32 :=
  (List.range (data.length / 4)).map fun k =>
    UInt32.ofNat (littleEndian ((data.drop (4 * k)).take 4))

def IsRun (run : List UInt32) : Prop :=
  ∃ first, run.head? = some first ∧ (first >>> 16).toNat = run.length

/-- Words that are cut into runs without a rest. -/
inductive WellFramed : List UInt32 → Prop
  | done : WellFramed []
  | next {run rest : List UInt32} : IsRun run → WellFramed rest → WellFramed (run ++ rest)

/-- `framed` is the longest start of some words that can be cut into runs. -/
structure LongestFramed (framed words : List UInt32) : Prop where
  starts : framed <+: words
  wellFramed : WellFramed framed
  longest : ∀ other, other <+: words → WellFramed other → other <+: framed

section Words

theorem toNat_wordOfBytes (a b c d : UInt8) :
    (wordOfBytes a b c d).toNat = littleEndian [a, b, c, d] := by
  have ha := a.toNat_lt
  have hb := b.toNat_lt
  have hc := c.toNat_lt
  have hd := d.toNat_lt
  simp only [wordOfBytes, UInt32.toNat_or, UInt32.toNat_shiftLeft, UInt8.toNat_toUInt32,
    UInt32.reduceToNat, Nat.reduceMod]
  -- a byte stands above those before it, so that joining their bits is adding
  have hjoin : ∀ low byte count : Nat, low < 2 ^ count →
      low ||| byte <<< count = byte <<< count + low := by
    intro low byte count hlow
    rw [Nat.or_comm, Nat.shiftLeft_add_eq_or_of_lt hlow]
  rw [Nat.mod_eq_of_lt (by omega : b.toNat <<< 8 < 2 ^ 32),
    Nat.mod_eq_of_lt (by omega : c.toNat <<< 16 < 2 ^ 32),
    Nat.mod_eq_of_lt (by omega : d.toNat <<< 24 < 2 ^ 32),
    hjoin a.toNat b.toNat 8 (by omega), hjoin _ c.toNat 16 (by omega),
    hjoin _ d.toNat 24 (by omega)]
  simp only [littleEndian, foldr_cons, foldr_nil]
  omega

theorem wordsIn_of_lt {data : Bytes} (h : data.length < 4) : wordsIn data = [] := by
  rw [wordsIn, Nat.div_eq_of_lt h]
  rfl

theorem wordsIn_cons (a b c d : UInt8) (rest : Bytes) :
    wordsIn (a :: b :: c :: d :: rest) = wordOfBytes a b c d :: wordsIn rest := by
  have hlength : (a :: b :: c :: d :: rest).length / 4 = rest.length / 4 + 1 := by
    simp only [length_cons]
    omega
  have hword : ofNat (littleEndian [a, b, c, d]) = wordOfBytes a b c d := by
    rw [← toNat_wordOfBytes, UInt32.ofNat_toNat]
  rw [wordsIn, hlength, range_succ_eq_map, map_cons, map_map]
  refine cons_eq_cons.mpr ⟨hword, map_congr_left fun k _ => ?_⟩
  have hdrop : (a :: b :: c :: d :: rest).drop (4 * (k + 1)) = rest.drop (4 * k) := by
    rw [show 4 * (k + 1) = 4 * k + 4 by omega]
    rfl
  rw [Function.comp_apply, Nat.succ_eq_add_one, hdrop]

theorem readWordsFrom_eq (read : List UInt32) (data : Bytes) :
    readWordsFrom read data = read.reverse ++ wordsIn data := by
  fun_induction readWordsFrom read data with
  | case1 read a b c d rest ih =>
    rw [ih, wordsIn_cons, reverse_cons, append_assoc, singleton_append]
  | case2 data read hshort =>
    have hlength : data.length < 4 := by
      match data, hshort with
      | [], _ | [_], _ | [_, _], _ | [_, _, _], _ => simp
      | a :: b :: c :: d :: rest, h => exact absurd rfl (h a b c d rest)
    rw [wordsIn_of_lt hlength, append_nil]

theorem readWords_eq (data : Bytes) : readWords data = wordsIn data := readWordsFrom_eq [] data

theorem bytesOfWord_wordOfBytes (a b c d : UInt8) :
    bytesOfWord (wordOfBytes a b c d) = [a, b, c, d] := by
  have hword := toNat_wordOfBytes a b c d
  have ha := a.toNat_lt
  have hb := b.toNat_lt
  have hc := c.toNat_lt
  have hd := d.toNat_lt
  simp only [littleEndian, foldr_cons, foldr_nil] at hword
  simp only [bytesOfWord, cons.injEq, and_true, ← UInt8.toNat_inj, toNat_toUInt8,
    UInt32.toNat_shiftRight, UInt32.reduceToNat, Nat.reduceMod, Nat.shiftRight_eq_div_pow, hword]
  omega

theorem bytesOfWords_wordsIn {data : Bytes} (h : 4 ∣ data.length) :
    bytesOfWords (wordsIn data) = data := by
  match data, h with
  | [], _ => rfl
  | [_], h | [_, _], h | [_, _, _], h => simp at h
  | a :: b :: c :: d :: rest, h =>
    have hrest : 4 ∣ rest.length := by
      simp only [length_cons] at h
      omega
    rw [wordsIn_cons, bytesOfWords, flatMap_cons, bytesOfWord_wordOfBytes, ← bytesOfWords,
      bytesOfWords_wordsIn hrest]
    rfl

end Words

section Runs

theorem wordsOf_words (i : Instruction) (rest : List Instruction) :
    wordsOf (i :: rest) = i.words ++ wordsOf rest := rfl

theorem joined_halves (w : UInt32) : (w >>> 16 <<< 16) ||| w.toUInt16.toUInt32 = w := by
  have hw := w.toNat_lt
  have hlow : w.toNat % 2 ^ 16 < 2 ^ 16 := Nat.mod_lt _ (by decide)
  have hhigh : w.toNat >>> 16 <<< 16 = w.toNat / 2 ^ 16 * 2 ^ 16 := by
    rw [Nat.shiftLeft_eq, Nat.shiftRight_eq_div_pow]
  apply UInt32.toNat_inj.mp
  calc ((w >>> 16 <<< 16) ||| w.toUInt16.toUInt32).toNat
      = w.toNat >>> 16 <<< 16 % 2 ^ 32 ||| w.toNat % 2 ^ 16 := by
        rw [UInt32.toNat_or, UInt32.toNat_shiftLeft, UInt32.toNat_shiftRight,
          UInt16.toNat_toUInt32, toNat_toUInt16]
        rfl
    _ = w.toNat >>> 16 <<< 16 ||| w.toNat % 2 ^ 16 := by
        rw [Nat.mod_eq_of_lt (by omega)]
    _ = w.toNat >>> 16 <<< 16 + w.toNat % 2 ^ 16 := (Nat.shiftLeft_add_eq_or_of_lt hlow _).symm
    _ = w.toNat := by omega

def instructionOf (first : UInt32) (rest : List UInt32) : Instruction := ⟨⟨first.toUInt16⟩, rest⟩

theorem words_instructionOf {first : UInt32} (h : (first >>> 16).toNat = rest.length + 1) :
    (instructionOf first rest).isEncodable = true ∧
      (instructionOf first rest).words = first :: rest := by
  have hcount : rest.length + 1 ≤ maxInstructionWords := by
    have hlt := first.toNat_lt
    rw [← h]
    simp only [UInt32.toNat_shiftRight, UInt32.reduceToNat, Nat.reduceMod,
      Nat.shiftRight_eq_div_pow, maxInstructionWords]
    omega
  have hheader : (instructionOf first rest).header = first := by
    have hupper : (rest.length + 1).toUInt32 = first >>> 16 := by
      rw [← h]
      exact UInt32.ofNat_toNat
    rw [header, wordCount, instructionOf, hupper]
    exact joined_halves first
  refine ⟨decide_eq_true hcount, ?_⟩
  rw [words, hheader]
  rfl

theorem isRun_iff {run : List UInt32} :
    IsRun run ↔ ∃ i : Instruction, i.isEncodable = true ∧ i.words = run := by
  constructor
  · rintro ⟨first, hfirst, hcount⟩
    obtain ⟨rest, rfl⟩ := head?_eq_some_iff.mp hfirst
    exact ⟨_, words_instructionOf hcount⟩
  · rintro ⟨i, hi, rfl⟩
    exact ⟨i.header, rfl, header_shiftRight hi⟩

theorem wellFramed_iff {words : List UInt32} :
    WellFramed words ↔
      ∃ instructions : List Instruction,
        (∀ i ∈ instructions, i.isEncodable = true) ∧ wordsOf instructions = words := by
  constructor
  · intro h
    induction h with
    | done => exact ⟨[], nofun, rfl⟩
    | next hrun _ ih =>
      obtain ⟨i, hi, rfl⟩ := isRun_iff.mp hrun
      obtain ⟨instructions, hall, rfl⟩ := ih
      exact ⟨i :: instructions, forall_mem_cons.mpr ⟨hi, hall⟩, rfl⟩
  · rintro ⟨instructions, hall, rfl⟩
    induction instructions with
    | nil => exact .done
    | cons i rest ih =>
      obtain ⟨hi, hrest⟩ := forall_mem_cons.mp hall
      exact .next (isRun_iff.mpr ⟨i, hi, rfl⟩) (ih hrest)

def Stuck : List UInt32 → Prop
  | [] => True
  | first :: rest => (first >>> 16).toNat = 0 ∨ rest.length + 1 < (first >>> 16).toNat

def failureAt (offset : Nat) : List UInt32 → Option DecodeError
  | [] => none
  | first :: _ => some (.badInstruction (first >>> 16).toNat offset)

theorem not_stuck_words {i : Instruction} (h : i.isEncodable = true) (rest : List UInt32) :
    ¬ Stuck (i.words ++ rest) := by
  have hcount := header_shiftRight h
  rw [words, cons_append, Stuck, hcount, wordCount, length_append]
  omega

theorem splitWords_stuck (total : Nat) {fuel offset : Nat} (found : List Instruction)
    {words : List UInt32} (hfuel : words.length ≤ fuel) (htotal : offset + words.length = total) :
    ∃ instructions rest, words = wordsOf instructions ++ rest ∧
      (∀ i ∈ instructions, i.isEncodable = true) ∧ Stuck rest ∧
      splitWords total fuel offset found words =
        (found.reverse ++ instructions,
          failureAt (offset + (wordsOf instructions).length) rest) := by
  induction fuel generalizing offset found words with
  | zero =>
    obtain rfl : words = [] := eq_nil_of_length_eq_zero (Nat.le_zero.mp hfuel)
    exact ⟨[], [], rfl, nofun, trivial, by rw [append_nil]; rfl⟩
  | succ fuel ih =>
    cases words with
    | nil => exact ⟨[], [], rfl, nofun, trivial, by rw [append_nil]; rfl⟩
    | cons first rest =>
      rw [length_cons] at hfuel htotal
      rw [splitWords]
      by_cases hbad : (first >>> 16).toNat = 0 ∨ total < offset + (first >>> 16).toNat
      · refine ⟨[], first :: rest, rfl, nofun, ?_, ?_⟩
        · exact hbad.imp_right fun h => by omega
        · rw [append_nil, if_pos (by simpa using hbad)]
          rfl
      · obtain ⟨hzero, hroom⟩ := not_or.mp hbad
        -- the run is whole, so that its instruction can be encoded
        have hlength : (rest.take ((first >>> 16).toNat - 1)).length + 1 =
            (first >>> 16).toNat := by
          rw [length_take]
          omega
        obtain ⟨hencodable, hwords⟩ := words_instructionOf hlength.symm
        obtain ⟨instructions, behind, hrest, hall, hstuck, hsplit⟩ :=
          @ih (offset + (first >>> 16).toNat)
            (instructionOf first (rest.take ((first >>> 16).toNat - 1)) :: found)
            (rest.drop ((first >>> 16).toNat - 1)) (by rw [length_drop]; omega)
            (by rw [length_drop]; omega)
        refine ⟨instructionOf first (rest.take ((first >>> 16).toNat - 1)) :: instructions,
          behind, ?_, forall_mem_cons.mpr ⟨hencodable, hall⟩, hstuck, ?_⟩
        · rw [wordsOf_words, hwords, append_assoc, ← hrest, cons_append,
            take_append_drop]
        · rw [if_neg (by simpa using hbad)]
          refine hsplit.trans ?_
          rw [reverse_cons, append_assoc, singleton_append, wordsOf_cons,
            length_cons, length_append]
          congr 2
          simp only [instructionOf] at hlength ⊢
          omega

theorem eq_of_words_append {i j : Instruction} {rest' : List UInt32} (hi : i.isEncodable = true)
    (hj : j.isEncodable = true) (h : i.words ++ rest = j.words ++ rest') :
    i = j ∧ rest = rest' := by
  obtain ⟨hheader, htail⟩ := cons_eq_cons.mp h
  have hcount : i.wordCount = j.wordCount := by
    rw [← header_shiftRight hi, ← header_shiftRight hj, hheader]
  obtain ⟨hoperands, hrest⟩ := append_inj htail (Nat.succ.inj hcount)
  have hcode : i.opcode.code = j.opcode.code := by
    rw [← header_toUInt16, ← header_toUInt16, hheader]
  obtain ⟨⟨code⟩, operands⟩ := i
  obtain ⟨⟨code'⟩, operands'⟩ := j
  obtain rfl : code = code' := hcode
  obtain rfl : operands = operands' := hoperands
  exact ⟨rfl, hrest⟩

theorem prefix_of_stuck {instructions others : List Instruction} {rest' : List UInt32}
    (hall : ∀ i ∈ instructions, i.isEncodable = true) (hothers : ∀ i ∈ others, i.isEncodable = true)
    (hstuck : Stuck rest) (h : wordsOf others ++ rest' = wordsOf instructions ++ rest) :
    others <+: instructions := by
  induction others generalizing instructions with
  | nil => exact nil_prefix
  | cons j others ih =>
    obtain ⟨hj, hothers⟩ := forall_mem_cons.mp hothers
    rw [wordsOf_words, append_assoc] at h
    cases instructions with
    | nil =>
      rw [show rest = j.words ++ (wordsOf others ++ rest') from h.symm] at hstuck
      exact absurd hstuck (not_stuck_words hj _)
    | cons i instructions =>
      obtain ⟨hi, hrest⟩ := forall_mem_cons.mp hall
      rw [wordsOf_words, append_assoc] at h
      obtain ⟨rfl, hmore⟩ := eq_of_words_append hj hi h
      exact (prefix_cons_inj j).mpr (ih hrest hothers hmore)

theorem longestFramed_of_stuck {instructions : List Instruction}
    (hall : ∀ i ∈ instructions, i.isEncodable = true) (hstuck : Stuck rest) :
    LongestFramed (wordsOf instructions) (wordsOf instructions ++ rest) := by
  refine ⟨prefix_append _ _, wellFramed_iff.mpr ⟨_, hall, rfl⟩, fun other hother hframed => ?_⟩
  obtain ⟨others, hothers, rfl⟩ := wellFramed_iff.mp hframed
  obtain ⟨rest', hwords⟩ := hother
  obtain ⟨more, rfl⟩ := prefix_of_stuck hall hothers hstuck hwords
  rw [wordsOf_append]
  exact prefix_append _ _

theorem LongestFramed.eq_of_wellFramed {framed words : List UInt32} (h : LongestFramed framed words)
    (hwords : WellFramed words) : framed = words :=
  IsPrefix.eq_of_length_le h.starts (h.longest words (prefix_refl _) hwords).length_le

end Runs

section Decoding

variable {data : Bytes}

/-- A text has the size of a binary and starts like one. -/
structure StartsBinary (data : Bytes) : Prop where
  length : 20 ≤ data.length
  aligned : 4 ∣ data.length
  magic : (wordsIn data).head? = some magic

theorem decode_of_starts (h : StartsBinary data) :
    ∃ header instructions rest, header.magic = magic ∧
      wordsIn data = header.words ++ (wordsOf instructions ++ rest) ∧
      (∀ i ∈ instructions, i.isEncodable = true) ∧ Stuck rest ∧
      decode data =
        ⟨header, instructions, failureAt (headerWords + (wordsOf instructions).length) rest⟩ := by
  have hlength : 5 ≤ (wordsIn data).length := by
    have hlong := h.length
    simp only [wordsIn, length_map, length_range]
    omega
  have hmagic := h.magic
  have hmultiple := Nat.mod_eq_zero_of_dvd h.aligned
  have hlong : ¬ data.length < headerWords * 4 := Nat.not_lt.mpr h.length
  unfold decode
  rw [if_neg hlong, if_neg (not_not_intro hmultiple), readWords_eq]
  match hwords : wordsIn data, hlength with
  | found :: version :: generator :: bound :: schema :: words, _ =>
    obtain rfl : found = magic := by
      rw [hwords] at hmagic
      exact Option.some.inj hmagic
    obtain ⟨instructions, rest, hrest, hall, hstuck, hsplit⟩ :=
      @splitWords_stuck (words.length + headerWords) (words.length + headerWords) headerWords []
        words (Nat.le_add_right _ _) (Nat.add_comm _ _)
    refine ⟨⟨magic, version, generator, bound, schema⟩, instructions, rest, rfl, ?_, hall, hstuck,
      ?_⟩
    · rw [← hrest]
      rfl
    · simp only [ne_eq, not_true_eq_false, if_false]
      rw [hsplit]
      rfl

theorem decode_of_not_starts (h : ¬ StartsBinary data) :
    ∃ e, (decode data).failure = some e ∧ ∀ count offset, e ≠ .badInstruction count offset := by
  unfold decode
  split
  · exact ⟨_, rfl, nofun⟩
  · next hlength =>
      split
      · exact ⟨_, rfl, nofun⟩
      · next haligned =>
          rw [readWords_eq]
          split
          · next found _ _ _ _ _ hwords =>
              have hmagic : found ≠ magic := by
                rintro rfl
                have hmultiple := Nat.dvd_of_mod_eq_zero (Decidable.not_not.mp haligned)
                refine h ⟨Nat.not_lt.mp hlength, hmultiple, ?_⟩
                rw [hwords]
                rfl
              rw [if_pos hmagic]
              exact ⟨_, rfl, nofun⟩
          · exact ⟨_, rfl, nofun⟩

theorem drop_headerWords {header : Header} {words : List UInt32}
    (h : wordsIn data = header.words ++ words) :
    (wordsIn data).take headerWords = header.words ∧ (wordsIn data).drop headerWords = words := by
  rw [h]
  exact ⟨take_left' rfl, drop_left' rfl⟩

theorem failureAt_eq_none {offset : Nat} : failureAt offset rest = none ↔ rest = [] := by
  cases rest <;> simp [failureAt]

theorem decode_accepts_iff (data : Bytes) :
    (decode data).failure = none ↔
      StartsBinary data ∧ WellFramed ((wordsIn data).drop headerWords) := by
  by_cases hstarts : StartsBinary data
  · obtain ⟨header, instructions, rest, -, hwords, hall, hstuck, hdecode⟩ :=
      decode_of_starts hstarts
    have hlongest := longestFramed_of_stuck hall hstuck
    rw [hdecode, failureAt_eq_none, (drop_headerWords hwords).2]
    constructor
    · rintro rfl
      rw [append_nil]
      exact ⟨hstarts, wellFramed_iff.mpr ⟨_, hall, rfl⟩⟩
    · rintro ⟨-, hframed⟩
      exact append_right_eq_self.mp (hlongest.eq_of_wellFramed hframed).symm
  · obtain ⟨e, hfailure, -⟩ := decode_of_not_starts hstarts
    rw [hfailure]
    exact ⟨nofun, fun h => absurd h.1 hstarts⟩

theorem bytesOfWords_decode (h : (decode data).failure = none) :
    (∀ i ∈ (decode data).instructions, i.isEncodable = true) ∧
      bytesOfWords ((decode data).header.words ++ wordsOf (decode data).instructions) = data := by
  have hstarts := ((decode_accepts_iff data).mp h).1
  obtain ⟨header, instructions, rest, -, hwords, hall, -, hdecode⟩ := decode_of_starts hstarts
  rw [hdecode] at h ⊢
  obtain rfl : rest = [] := failureAt_eq_none.mp h
  rw [append_nil] at hwords
  refine ⟨hall, ?_⟩
  rw [← hwords]
  exact bytesOfWords_wordsIn hstarts.aligned

theorem decode_badInstruction {count offset : Nat}
    (h : (decode data).failure = some (.badInstruction count offset)) :
    StartsBinary data ∧ (decode data).header.words = (wordsIn data).take headerWords ∧
      (∀ i ∈ (decode data).instructions, i.isEncodable = true) ∧
      LongestFramed (wordsOf (decode data).instructions) ((wordsIn data).drop headerWords) ∧
      offset = headerWords + (wordsOf (decode data).instructions).length ∧
      ((wordsIn data)[offset]?).map (fun first : UInt32 => (first >>> 16).toNat) = some count ∧
      (count = 0 ∨ (wordsIn data).length < offset + count) := by
  have hstarts : StartsBinary data := by
    refine Classical.byContradiction fun hstarts => ?_
    obtain ⟨e, hfailure, hother⟩ := decode_of_not_starts hstarts
    exact hother count offset (Option.some.inj (hfailure.symm.trans h))
  obtain ⟨header, instructions, rest, -, hwords, hall, hstuck, hdecode⟩ := decode_of_starts hstarts
  obtain ⟨htake, hdrop⟩ := drop_headerWords hwords
  rw [hdecode] at h ⊢
  cases rest with
  | nil => cases h
  | cons first rest =>
    cases h
    have hheader : header.words.length = headerWords := rfl
    refine ⟨hstarts, htake.symm, hall, ?_, rfl, ?_, ?_⟩
    · rw [hdrop]
      exact longestFramed_of_stuck hall hstuck
    · rw [hwords, ← hheader, getElem?_append_right (Nat.le_add_right _ _),
        Nat.add_sub_cancel_left, getElem?_append_right (Nat.le_refl _), Nat.sub_self]
      rfl
    · rw [hwords]
      simp only [length_append, length_cons, hheader]
      exact hstuck.imp_right fun hlong => by omega

/-- Decoding accepts exactly the texts whose words behind the header are cut into runs without a
rest, and it is the inverse of writing a header and instructions. Where a run tells a wrong number
of words, what was decoded is the longest start that can be cut. -/
theorem decode_exact (data : Bytes) :
    ((decode data).failure = none ↔
      StartsBinary data ∧ WellFramed ((wordsIn data).drop headerWords)) ∧
    ((decode data).failure = none →
      (∀ i ∈ (decode data).instructions, i.isEncodable = true) ∧
        bytesOfWords ((decode data).header.words ++ wordsOf (decode data).instructions) = data) ∧
    (∀ (header : Header) (instructions : List Instruction), header.magic = magic →
      (∀ i ∈ instructions, i.operands.length ≤ 65534) →
      decode (bytesOfWords (header.words ++ wordsOf instructions)) =
        ⟨header, instructions, none⟩) ∧
    ∀ count offset, (decode data).failure = some (.badInstruction count offset) →
      StartsBinary data ∧ (decode data).header.words = (wordsIn data).take headerWords ∧
        (∀ i ∈ (decode data).instructions, i.isEncodable = true) ∧
        LongestFramed (wordsOf (decode data).instructions) ((wordsIn data).drop headerWords) ∧
        offset = headerWords + (wordsOf (decode data).instructions).length ∧
        ((wordsIn data)[offset]?).map (fun first : UInt32 => (first >>> 16).toNat) = some count ∧
        (count = 0 ∨ (wordsIn data).length < offset + count) := by
  refine ⟨decode_accepts_iff data, bytesOfWords_decode, fun header instructions hmagic hshort => ?_,
    fun count offset => decode_badInstruction⟩
  refine decode_bytesOfWords hmagic fun i hi => decide_eq_true ?_
  have hoperands := hshort i hi
  rw [wordCount, maxInstructionWords]
  omega

end Decoding

/-- A header, an instruction of two words, and the start of one that would need three. -/
def truncatedWords : List UInt32 :=
  [magic, 0x00010000, 0, 5, 0, 0x00020011, 1, 0x00030047, 4]

/-- Decoding keeps the instruction before the truncated one; the words before that one are
accepted. -/
theorem decode_exact_truncated :
    (decode (bytesOfWords truncatedWords)).failure = some (.badInstruction 3 7) ∧
      LongestFramed [0x00020011, 1] [0x00020011, 1, 0x00030047, 4] ∧
      decode (bytesOfWords (truncatedWords.take 7)) =
        ⟨⟨magic, 0x00010000, 0, 5, 0⟩, [⟨.capability, [1]⟩], none⟩ := by
  have hfailure : (decode (bytesOfWords truncatedWords)).failure = some (.badInstruction 3 7) := by
    decide
  obtain ⟨-, -, -, hbad⟩ := decode_exact (bytesOfWords truncatedWords)
  obtain ⟨-, -, -, hlongest, -⟩ := hbad 3 7 hfailure
  obtain ⟨-, -, hwritten, -⟩ := decode_exact []
  exact ⟨hfailure, hlongest,
    hwritten ⟨magic, 0x00010000, 0, 5, 0⟩ [⟨.capability, [1]⟩] rfl (by decide)⟩

end Shading.Binary
