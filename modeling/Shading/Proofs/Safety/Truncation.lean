import Shading.Proofs.Safety.Diagnostics

/-!
Messages are cut between characters. Every byte of a character but its first
continues it, so the search back from the cut ends at the first byte of the
character there. The characters before that one are kept, and they are the most
that fit, since the next one reaches beyond the cut.
-/

namespace Shading

open List

variable {chars : List Char} {cut : Nat}

namespace Text

theorem isContinuation_iff {b : UInt8} :
    isContinuation b = true ↔ 0x80 ≤ b.toNat ∧ b.toNat < 0xC0 := by
  simp [isContinuation, UInt8.le_iff_toNat_le, UInt8.lt_iff_toNat_lt]

theorem isContinuation_ofNat (n : Nat) : isContinuation (.ofNat (n % 64 + 128)) = true := by
  rw [isContinuation_iff, UInt8.toNat_ofNat']
  omega

theorem startsCharacter_ofNat {n : Nat} (h : n < 0x80 ∨ 0xC0 ≤ n ∧ n < 0x100) :
    startsCharacter (.ofNat n) = true := by
  rw [startsCharacter, Bool.not_eq_true', ← Bool.not_eq_true, isContinuation_iff,
    UInt8.toNat_ofNat']
  omega

/-- A character has one to four bytes, and only the first of them starts it. -/
theorem utf8EncodeChar_starts (c : Char) :
    ∃ first others, String.utf8EncodeChar c = first :: others ∧ startsCharacter first = true ∧
      (∀ b ∈ others, isContinuation b = true) ∧ others.length < 4 := by
  rw [String.utf8EncodeChar]
  split
  · exact ⟨_, [], rfl, startsCharacter_ofNat (by omega), nofun, by decide⟩
  split
  · refine ⟨_, [_], rfl, startsCharacter_ofNat (by omega), ?_, by simp⟩
    simp only [mem_singleton, forall_eq, isContinuation_ofNat]
  split
  · refine ⟨_, [_, _], rfl, startsCharacter_ofNat (by omega), ?_, by simp⟩
    simp only [forall_mem_cons, mem_singleton, forall_eq, isContinuation_ofNat, and_self]
  · refine ⟨_, [_, _, _], rfl, startsCharacter_ofNat (by omega), ?_, by simp⟩
    simp only [forall_mem_cons, mem_singleton, forall_eq, isContinuation_ofNat, and_self]

def encode (chars : List Char) : Bytes := chars.flatMap String.utf8EncodeChar

theorem encode_cons (c : Char) (chars : List Char) :
    encode (c :: chars) = String.utf8EncodeChar c ++ encode chars := flatMap_cons

theorem encode_append (chars more : List Char) :
    encode (chars ++ more) = encode chars ++ encode more := flatMap_append

theorem utf8_eq_encode (s : String) : utf8 s = encode s.toList := by
  rw [utf8, String.toUTF8_eq_toByteArray, ← String.utf8Encode_toList, List.utf8Encode,
    List.toList_data_toByteArray, encode]

/-- Every byte of a text is part of one of its characters. -/
theorem exists_character_at (h : cut < (encode chars).length) :
    ∃ kept c dropped, chars = kept ++ c :: dropped ∧ (encode kept).length ≤ cut ∧
      cut < (encode kept).length + (String.utf8EncodeChar c).length := by
  induction chars generalizing cut with
  | nil => exact absurd h (Nat.not_lt_zero _)
  | cons c chars ih =>
    rw [encode_cons, length_append] at h
    by_cases hin : cut < (String.utf8EncodeChar c).length
    · exact ⟨[], c, chars, rfl, Nat.zero_le _, Nat.lt_add_left _ hin⟩
    · have hrest : cut - (String.utf8EncodeChar c).length < (encode chars).length := by omega
      obtain ⟨kept, d, dropped, rfl, hlow, hhigh⟩ := ih hrest
      refine ⟨c :: kept, d, dropped, rfl, ?_, ?_⟩ <;> rw [encode_cons, length_append] <;> omega

end Text

open Text

theorem characterBoundary_of_starts {text : Bytes} {b : UInt8} (h : text[cut]? = some b)
    (hb : startsCharacter b = true) : characterBoundary text cut = cut := by
  cases cut with
  | zero => rfl
  | succ cut => simp only [characterBoundary, h, hb, if_true]

/-- The search back from a byte of a character ends before that character. -/
theorem characterBoundary_append {first : UInt8} {others : Bytes} {back : Nat}
    (before after : Bytes) (hfirst : startsCharacter first = true)
    (hothers : ∀ b ∈ others, isContinuation b = true) (hback : back ≤ others.length) :
    characterBoundary (before ++ (first :: others ++ after)) (before.length + back) =
      before.length := by
  induction back with
  | zero => exact characterBoundary_of_starts (by simp) hfirst
  | succ back ih =>
    have hbyte : (before ++ (first :: others ++ after))[before.length + back + 1]? =
        some others[back] := by
      rw [Nat.add_assoc, getElem?_append_right (Nat.le_add_right _ _), Nat.add_sub_cancel_left,
        cons_append, getElem?_cons_succ, getElem?_append_left hback, getElem?_eq_getElem hback]
    rw [← Nat.add_assoc, characterBoundary, hbyte]
    simp only [startsCharacter, hothers _ (getElem_mem hback)]
    exact ih (Nat.le_of_succ_le hback)

theorem truncateMessage_encode (h : 512 < (encode chars).length) :
    ∃ kept c dropped, chars = kept ++ c :: dropped ∧
      truncateMessage (encode chars) = encode kept ∧ (encode kept).length ≤ 512 ∧
      512 < (encode kept).length + (String.utf8EncodeChar c).length := by
  obtain ⟨kept, c, dropped, rfl, hle, hlt⟩ := exists_character_at h
  obtain ⟨first, others, hc, hfirst, hothers, -⟩ := utf8EncodeChar_starts c
  refine ⟨kept, c, dropped, rfl, ?_, hle, hlt⟩
  have hboundary : characterBoundary (encode (kept ++ c :: dropped)) 512 =
      (encode kept).length := by
    rw [hc, length_cons] at hlt
    rw [encode_append, encode_cons, hc, ← Nat.add_sub_cancel' hle]
    exact characterBoundary_append _ _ hfirst hothers (by omega)
  rw [truncateMessage, maxMessageLength, if_neg (Nat.not_le_of_lt h), hboundary, encode_append,
    take_left]

/-- The most that fits of a text ends before the first character that reaches beyond the limit. -/
theorem length_encode_le {kept dropped other rest : List Char} {c : Char} {limit : Nat}
    (hsame : other ++ rest = kept ++ c :: dropped) (hother : (encode other).length ≤ limit)
    (hlimit : limit < (encode kept).length + (String.utf8EncodeChar c).length) :
    (encode other).length ≤ (encode kept).length := by
  obtain ⟨more, rfl, -⟩ | ⟨more, rfl, hmore⟩ := append_eq_append_iff.mp hsame
  · rw [encode_append, length_append]
    exact Nat.le_add_right _ _
  · cases more with
    | nil => rw [append_nil]
    | cons d more =>
      obtain ⟨rfl, -⟩ := cons.inj hmore
      rw [encode_append, encode_cons, length_append, length_append] at hother
      omega

/-- A message is cut to its longest beginning of at most 512 bytes that ends between two of its
characters. -/
theorem truncateMessage_longest (message : String) :
    ∃ kept dropped : String, message = kept ++ dropped ∧
      truncateMessage (utf8 message) = utf8 kept ∧ (utf8 kept).length ≤ 512 ∧
      (∀ other rest : String, message = other ++ rest → (utf8 other).length ≤ 512 →
        (utf8 other).length ≤ (utf8 kept).length) ∧
      ((utf8 message).length ≤ 512 → kept = message) ∧
      (512 < (utf8 message).length →
        509 ≤ (utf8 kept).length ∧ (utf8 kept).length ≤ 512) := by
  simp only [utf8_eq_encode]
  by_cases hshort : (encode message.toList).length ≤ 512
  · refine ⟨message, "", String.append_empty.symm, if_pos hshort, hshort, ?_, fun _ => rfl,
      fun hlong => absurd hshort (Nat.not_le_of_lt hlong)⟩
    rintro other rest rfl -
    rw [String.toList_append, encode_append, length_append]
    exact Nat.le_add_right _ _
  · obtain ⟨kept, c, dropped, hchars, hkept, hle, hlt⟩ :=
      truncateMessage_encode (Nat.lt_of_not_le hshort)
    obtain ⟨first, others, hc, -, -, hfour⟩ := utf8EncodeChar_starts c
    refine ⟨.ofList kept, .ofList (c :: dropped), ?_, ?_⟩
    · rw [← String.ofList_append, ← hchars, String.ofList_toList]
    rw [String.toList_ofList]
    refine ⟨hkept, hle, ?_, fun h => absurd h hshort, fun _ => ⟨?_, hle⟩⟩
    · rintro other rest rfl hother
      rw [String.toList_append] at hchars
      exact length_encode_le hchars hother hlt
    · rw [hc, length_cons] at hlt
      omega

-- The last of these characters has three bytes before the limit, and goes for its fourth.
example : (truncateMessage (utf8 (.ofList ('a' :: replicate 128 '😀')))).length = 509 := by
  decide +kernel

end Shading
