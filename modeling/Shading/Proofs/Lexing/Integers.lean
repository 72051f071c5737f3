import Shading.Proofs.Lexing.Forms

/-!
Integer literals. Digits are read to exactly the number that they spell, or refused if no word holds
it, and on the way no operation on words leaves the words. A point behind the digits changes nothing
of that.
-/

namespace Shading

open Text (byte)

namespace Number.Literal

/-- The operations on words that read a digit have the results that they have on numbers. -/
def ReadsExactly (word : Int64) (digit : Nat) : Prop :=
  (Int64.maxValue - Int64.ofNat digit).toInt = Int64.maxValue.toInt - digit ∧
  ((Int64.maxValue - Int64.ofNat digit) / 10).toInt = (Int64.maxValue.toInt - digit) / 10 ∧
  ∀ next, pushDigit word digit = some next →
    (word * 10).toInt = word.toInt * 10 ∧ next.toInt = word.toInt * 10 + digit

theorem readsExactly {value digit : Nat} (hvalue : value < 2 ^ 63) (hdigit : digit < 10) :
    ReadsExactly (Int64.ofNat value) digit := by
  refine ⟨by interval_cases digit <;> decide, by interval_cases digit <;> decide, ?_⟩
  intro next hnext
  rw [pushDigit_eq hvalue hdigit] at hnext
  split at hnext
  · next hroom =>
      cases hnext
      have hten : Int64.ofNat value * 10 = Int64.ofNat (value * 10) := (Int64.ofNat_mul ..).symm
      rw [hten, Int64.toInt_ofNat_of_lt (by omega), Int64.toInt_ofNat_of_lt hvalue,
        Int64.toInt_ofNat_of_lt hroom]
      constructor <;> omega
  · cases hnext

theorem exists_of_word? {digits : List Nat} {word : Int64} (hdigits : ∀ digit ∈ digits, digit < 10)
    (h : word? digits = some word) : ∃ value < 2 ^ 63, word = Int64.ofNat value := by
  have hzero : 0 < 2 ^ 63 := by decide
  have hfold := foldlM_pushDigit digits hzero hdigits
  rw [word?, show (0 : Int64) = Int64.ofNat 0 from rfl, hfold] at h
  split at h
  · next hroom => exact ⟨_, hroom, (Option.some.inj h).symm⟩
  · cases h

end Number.Literal

namespace Cursor

open Lexeme Lexeme.Form

variable {c : Cursor} {negative : Bool} {digits rest : Bytes} {part : Option Bytes}

theorem token_number (hvalid : (number negative digits part).Valid)
    (hrest : ∀ b ∈ rest.head?, isDigit b = false ∧ (part = none → b ≠ byte '.'))
    (htext : c.skipTrivia.rest = (number negative digits part).text ++ rest) :
    c.token = match (number negative digits part).lexeme? with
      | some lexeme => .ok (⟨lexeme, c.skipTrivia.pos⟩,
          c.skipTrivia.advance (number negative digits part).text.length)
      | none => .error ⟨c.skipTrivia.pos, .integerTooLarge⟩ := by
  obtain ⟨b, text, hcons⟩ : ∃ b text, c.skipTrivia.rest = b :: text := by
    apply List.exists_cons_of_ne_nil
    rw [htext]
    exact List.append_ne_nil_of_left_ne_nil (List.ne_nil_of_length_pos hvalid.length_pos) _
  have hlongest := longest_number hvalid hrest (hcons.symm.trans htext)
  simp only [token, hcons, hlongest, outcome]
  cases (number negative digits part).lexeme? <;> rfl

/-- Integer literals are read exactly or refused. Digits, behind a minus sign or not, that no digit
follows are the integer that they spell, if it is at most the greatest word, and else are refused at
the first byte of the literal. With a point behind them they are refused in the same case, and else
start a number. No operation on words leaves the words meanwhile. -/
theorem token_integer (hsome : digits ≠ []) (hdigits : ∀ b ∈ digits, isDigit b = true)
    (hrest : ∀ b ∈ rest.head?, isDigit b = false)
    (htext : c.skipTrivia.rest = (if negative then [byte '-'] else []) ++ digits ++ rest) :
    (rest.head? ≠ some (byte '.') →
      (decimal digits ≤ 2 ^ 63 - 1 → ∃ value : Int64,
        value.toInt = (if negative then -(decimal digits : Int) else decimal digits) ∧
        c.token = .ok (⟨.integer value, c.skipTrivia.pos⟩,
          c.skipTrivia.advance ((if negative then 1 else 0) + digits.length))) ∧
      (2 ^ 63 - 1 < decimal digits →
        c.token = .error ⟨c.skipTrivia.pos, .integerTooLarge⟩)) ∧
    (rest.head? = some (byte '.') →
      (decimal digits ≤ 2 ^ 63 - 1 →
        ∃ bits next, c.token = .ok (⟨.number bits, c.skipTrivia.pos⟩, next)) ∧
      (2 ^ 63 - 1 < decimal digits →
        c.token = .error ⟨c.skipTrivia.pos, .integerTooLarge⟩)) ∧
    (∀ before digit after word, digits.map digitValue = before ++ digit :: after →
      Number.Literal.word? before = some word → Number.Literal.ReadsExactly word digit) ∧
    (∀ word, Number.Literal.word? (digits.map digitValue) = some word →
      (-word).toInt = -word.toInt) ∧
    Diagnostic.message ⟨c.skipTrivia.pos, .integerTooLarge⟩ =
      Text.utf8 "integer literal is too large" := by
  have hvalues : ∀ digit ∈ digits.map digitValue, digit < 10 :=
    List.forall_mem_map.mpr fun b hb => digitValue_lt (hdigits b hb)
  have hmessage : truncateMessage Cause.integerTooLarge.wording =
      Text.utf8 "integer literal is too large" := by decide
  refine ⟨fun hpoint => ?_, fun hpoint => ?_, ?_, ?_, hmessage⟩
  · have hvalid : (number negative digits none).Valid := ⟨hsome, hdigits, by rintro _ ⟨⟩⟩
    have htoken := token_number hvalid (fun b hb => ⟨hrest b hb, fun _ heq => hpoint (heq ▸ hb)⟩)
      (by simpa [Form.text, fractionText] using htext)
    refine ⟨fun hsmall => ?_, fun hlarge => ?_⟩
    · have hword : decimal digits < 2 ^ 63 := by omega
      refine ⟨if negative then -Int64.ofNat (decimal digits) else Int64.ofNat (decimal digits),
        ?_, ?_⟩
      · cases negative
        · exact Int64.toInt_ofNat_of_lt hword
        · exact Int64.toInt_neg_ofNat_of_le (Nat.le_of_lt hword)
      · rw [htoken]
        simp only [lexeme?, if_pos hword, Form.text, fractionText]
        cases negative <;> simp [Nat.add_comm]
    · rw [htoken]
      simp only [lexeme?, if_neg (show ¬decimal digits < 2 ^ 63 by omega)]
  · obtain ⟨after, rfl⟩ := List.head?_eq_some_iff.mp hpoint
    have hstop : ∀ b ∈ (after.dropWhile isDigit).head?, isDigit b = false := by
      intro b hb
      have hfirst := List.head?_dropWhile_not isDigit after
      rwa [hb] at hfirst
    have hvalid : (number negative digits (some (after.takeWhile isDigit))).Valid :=
      ⟨hsome, hdigits, fun _ h => by cases h; exact List.all_eq_true.mp List.all_takeWhile⟩
    have htoken := token_number hvalid (fun b hb => ⟨hstop b hb, by rintro ⟨⟩⟩)
      (by simpa [Form.text, fractionText] using htext)
    refine ⟨fun hsmall => ?_, fun hlarge => ?_⟩
    · rw [htoken]
      simp only [lexeme?, if_pos (show decimal digits < 2 ^ 63 by omega)]
      exact ⟨_, _, rfl⟩
    · rw [htoken]
      simp only [lexeme?, if_neg (show ¬decimal digits < 2 ^ 63 by omega)]
  · intro before digit after word hsplit hword
    rw [hsplit] at hvalues
    obtain ⟨hbefore, hdigit⟩ := List.forall_mem_append.mp hvalues
    obtain ⟨value, hvalue, rfl⟩ := Number.Literal.exists_of_word? hbefore hword
    exact Number.Literal.readsExactly hvalue (hdigit digit List.mem_cons_self)
  · intro word hword
    obtain ⟨value, hvalue, rfl⟩ := Number.Literal.exists_of_word? hvalues hword
    rw [Int64.toInt_neg_ofNat_of_le (Nat.le_of_lt hvalue), Int64.toInt_ofNat_of_lt hvalue]

/-- With leading zeros and a minus sign, the greatest word is read behind a blank, and the number
after it is refused. -/
theorem greatest_integer :
    (∃ (value : Int64) (next : Cursor), value.toInt = -9223372036854775807 ∧
      (ofSource (Text.utf8 " -009223372036854775807;")).token =
        .ok (⟨.integer value, ⟨1, 2⟩⟩, next)) ∧
    (ofSource (Text.utf8 "9223372036854775808.5")).token = .error ⟨⟨1, 1⟩, .integerTooLarge⟩ := by
  constructor
  · have htext : (ofSource (Text.utf8 " -009223372036854775807;")).skipTrivia.rest =
        (if true then [byte '-'] else []) ++ Text.utf8 "009223372036854775807" ++
          Text.utf8 ";" := by decide
    have hread := token_integer (by decide +kernel) (by decide +kernel) (by decide +kernel) htext
    obtain ⟨value, hvalue, htoken⟩ := (hread.1 (by decide)).1 (by decide)
    exact ⟨value, _, hvalue, htoken⟩
  · have htext : (ofSource (Text.utf8 "9223372036854775808.5")).skipTrivia.rest =
        (if false then [byte '-'] else []) ++ Text.utf8 "9223372036854775808" ++
          Text.utf8 ".5" := by decide
    have hread := token_integer (by decide +kernel) (by decide +kernel) (by decide +kernel) htext
    exact (hread.2.1 (by decide)).2 (by decide)

end Cursor

end Shading
