import Mathlib.Tactic.IntervalCases
import Shading.Proofs.Incremental.Lexing

/-!
The forms of lexemes, told without a lexer: words, numbers with an optional
sign and an optional fraction, strings, and marks. Several forms can start at
one place, and the lexeme there is the longest of them.
-/

namespace Shading

open List

open Text (byte)

variable {after rest : Bytes} {part : Option Bytes} {lexeme : Lexeme} {b : UInt8}
  {negative : Bool} {m : Mark}

def Mark.spelling : Mark → Bytes
  | .period => [byte '.']
  | .assign => [byte ':', byte '=']
  | .equal => [byte '=']
  | .leftParen => [byte '(']
  | .rightParen => [byte ')']
  | .leftBrace => [byte '{']
  | .rightBrace => [byte '}']
  | .leftBracket => [byte '[']
  | .rightBracket => [byte ']']
  | .comma => [byte ',']
  | .plus => [byte '+']
  | .minus => [byte '-']
  | .star => [byte '*']
  | .slash => [byte '/']
  | .semicolon => [byte ';']
  | .colon => [byte ':']
  | .address => [byte '@']
  | .arrow => [byte '-', byte '>']
  | .less => [byte '<']
  | .greater => [byte '>']

namespace Number.Literal

theorem pushDigit_eq {value digit : Nat} (hvalue : value < 2 ^ 63) (hdigit : digit < 10) :
    pushDigit (Int64.ofNat value) digit =
      if 10 * value + digit < 2 ^ 63 then some (Int64.ofNat (10 * value + digit)) else none := by
  have hword : (Int64.ofNat value).toInt = value := Int64.toInt_ofNat_of_lt hvalue
  have hnext : Int64.ofNat value * 10 + Int64.ofNat digit = Int64.ofNat (10 * value + digit) := by
    rw [Int64.ofNat_add, Int64.ofNat_mul, Int64.mul_comm]
    rfl
  have hlimit : ((Int64.maxValue - Int64.ofNat digit) / 10).toInt =
      ((2 ^ 63 - 1 - digit) / 10 : Nat) := by
    interval_cases digit <;> decide
  have hexceeds : Int64.ofNat value > (Int64.maxValue - Int64.ofNat digit) / 10 ↔
      ¬ 10 * value + digit < 2 ^ 63 := by
    rw [gt_iff_lt, Int64.lt_iff_toInt_lt, hlimit, hword]
    omega
  unfold pushDigit
  by_cases hroom : 10 * value + digit < 2 ^ 63
  · rw [if_neg (fun h => hexceeds.mp h hroom), if_pos hroom, hnext]
  · rw [if_pos (hexceeds.mpr hroom), if_neg hroom]

theorem le_foldl_digits (value : Nat) (digits : List Nat) :
    value ≤ digits.foldl (fun value digit => 10 * value + digit) value := by
  induction digits generalizing value with
  | nil => exact Nat.le_refl _
  | cons digit rest ih => exact Nat.le_trans (by omega) (ih (10 * value + digit))

theorem foldlM_pushDigit (digits : List Nat) {value : Nat} (hvalue : value < 2 ^ 63)
    (hdigits : ∀ digit ∈ digits, digit < 10) :
    digits.foldlM pushDigit (Int64.ofNat value) =
      if digits.foldl (fun value digit => 10 * value + digit) value < 2 ^ 63 then
        some (Int64.ofNat (digits.foldl (fun value digit => 10 * value + digit) value))
      else none := by
  induction digits generalizing value with
  | nil => exact (if_pos hvalue).symm
  | cons digit rest ih =>
    obtain ⟨hdigit, hrest⟩ := forall_mem_cons.mp hdigits
    rw [foldlM_cons, foldl_cons, pushDigit_eq hvalue hdigit]
    by_cases hroom : 10 * value + digit < 2 ^ 63
    · rw [if_pos hroom]
      exact ih hroom hrest
    · have hle := le_foldl_digits (10 * value + digit) rest
      rw [if_neg hroom, if_neg (by omega)]
      rfl

end Number.Literal

namespace Lexeme

variable {whole : Bytes} {cause : Cause}

/-- The number that digits spell. -/
def decimal (digits : Bytes) : Nat := digits.foldl (fun value b => 10 * value + digitValue b) 0

/-- What a lexeme is written as. A number has a sign, an integer part and, behind a point, any
number of further digits. -/
inductive Form where
  | word (text : Bytes)
  | number (negative : Bool) (whole : Bytes) (part : Option Bytes)
  | string (body : Bytes)
  | mark (m : Mark)
  deriving DecidableEq, Repr

variable {f : Form}

namespace Form

def fractionText : Option Bytes → Bytes
  | none => []
  | some digits => byte '.' :: digits

def text : Form → Bytes
  | .word text => text
  | .number negative whole part =>
    (if negative then [byte '-'] else []) ++ (whole ++ fractionText part)
  | .string body => byte '"' :: (body ++ [byte '"'])
  | .mark m => m.spelling

def Valid : Form → Prop
  | .word text => (∃ b ∈ text.head?, startsWord b = true) ∧ ∀ b ∈ text, continuesWord b = true
  | .number _ whole part => whole ≠ [] ∧ (∀ b ∈ whole, isDigit b = true) ∧
    ∀ digits ∈ part, ∀ b ∈ digits, isDigit b = true
  | .string body => byte '"' ∉ body
  | .mark _ => True

def lexeme? : Form → Option Lexeme
  | .word text =>
    some (match Keyword.ofWord? text with
      | some k => .keyword k
      | none => .sym text)
  | .number negative whole part =>
    if decimal whole < 2 ^ 63 then
      let value := Int64.ofNat (decimal whole)
      some (match part with
        | none => .integer (if negative then -value else value)
        | some digits =>
          let bits := Number.Literal.fraction value (digits.map digitValue)
          .number (if negative then Number.Binary32.negate bits else bits))
    else none
  | .string body => some (.string body)
  | .mark m => some (.mark m)

theorem Valid.length_pos (h : f.Valid) : 0 < f.text.length := by
  cases f with
  | word text =>
    obtain ⟨⟨b, hb, -⟩, -⟩ := h
    obtain ⟨rest, rfl⟩ := head?_eq_some_iff.mp hb
    exact Nat.succ_pos _
  | number negative whole part =>
    have hwhole := length_pos_iff.mpr h.1
    simp only [text, length_append]
    omega
  | string body => exact Nat.succ_pos _
  | mark m => cases m <;> exact Nat.succ_pos _

theorem lexeme?_real (h : f.lexeme? = some lexeme) : lexeme ≠ .eof ∧ lexeme ≠ .error := by
  cases f with
  | word text =>
    rw [lexeme?] at h
    cases hkeyword : Keyword.ofWord? text <;> simp only [hkeyword, Option.some.injEq] at h <;>
      subst h <;> exact ⟨nofun, nofun⟩
  | number negative whole part =>
    rw [lexeme?] at h
    split at h
    · cases part <;> cases h <;> exact ⟨nofun, nofun⟩
    · cases h
  | string body =>
    cases h
    exact ⟨nofun, nofun⟩
  | mark m =>
    cases h
    exact ⟨nofun, nofun⟩

def Starts (f : Form) (text : Bytes) : Prop := f.Valid ∧ f.text <+: text

def Longest (f : Form) (text : Bytes) : Prop :=
  f.Starts text ∧ ∀ g : Form, g.Starts text → g.text.length ≤ f.text.length

def outcome (f : Form) : Except Cause Measured :=
  match f.lexeme? with
  | some lexeme => .ok (lexeme, f.text.length)
  | none => .error .integerTooLarge

end Form

theorem takeWhile_run {p : UInt8 → Bool} {body : Bytes} (hbody : ∀ b ∈ body, p b = true)
    (hafter : ∀ b ∈ after.head?, p b = false) : (body ++ after).takeWhile p = body := by
  rw [takeWhile_append_of_pos hbody]
  cases after with
  | nil => exact append_nil body
  | cons b rest =>
    rw [takeWhile_cons_of_neg (by simpa using hafter b rfl)]
    exact append_nil body

theorem digitValue_lt (h : isDigit b = true) : digitValue b < 10 := by
  simp only [isDigit, Bool.and_eq_true, decide_eq_true_eq, UInt8.le_iff_toNat_le] at h
  obtain ⟨hlow, hhigh⟩ := h
  have hfirst : (0x30 : UInt8).toNat = 48 := rfl
  have hlast : (0x39 : UInt8).toNat = 57 := rfl
  unfold digitValue
  omega

theorem word?_digits {digits : Bytes} (h : ∀ b ∈ digits, isDigit b = true) :
    Number.Literal.word? (digits.map digitValue) =
      if decimal digits < 2 ^ 63 then some (Int64.ofNat (decimal digits)) else none := by
  have hzero : 0 < 2 ^ 63 := by decide
  have hfold := Number.Literal.foldlM_pushDigit (digits.map digitValue) hzero
    (forall_mem_map.mpr fun b hb => digitValue_lt (h b hb))
  rw [foldl_map] at hfold
  exact hfold

theorem numeral_eq (hvalid : (Form.number negative whole part).Valid)
    (hafter : ∀ b ∈ after.head?, isDigit b = false ∧ (part = none → b ≠ byte '.')) :
    numeral negative (whole ++ (Form.fractionText part ++ after)) =
      match (Form.number negative whole part).lexeme? with
      | some lexeme => .ok (lexeme, (whole ++ Form.fractionText part).length)
      | none => .error .integerTooLarge := by
  obtain ⟨-, hwhole, hpart⟩ := hvalid
  have hstop : ∀ b ∈ (Form.fractionText part ++ after).head?, isDigit b = false := by
    cases part with
    | none => exact fun b hb => (hafter b hb).1
    | some digits =>
      intro b hb
      obtain rfl : byte '.' = b := Option.some.inj hb
      decide
  have hrun := takeWhile_run hwhole hstop
  simp only [numeral, hrun, word?_digits hwhole, Form.lexeme?, drop_left]
  by_cases hsmall : decimal whole < 2 ^ 63
  · simp only [if_pos hsmall]
    cases part with
    | none =>
      rw [Form.fractionText, nil_append, append_nil]
      cases after with
      | nil => rfl
      | cons b rest =>
        have hpoint : b ≠ 0x2E := (hafter b rfl).2 rfl
        simp [hpoint]
    | some digits =>
      have hdigits : (digits ++ after).takeWhile isDigit = digits :=
        takeWhile_run (hpart digits rfl) fun b hb => (hafter b hb).1
      have hpoint : byte '.' = 0x2E := by decide
      simp only [Form.fractionText, cons_append, hpoint, hdigits, length_append,
        length_cons]
      rw [Nat.add_assoc, Nat.add_comm 1]
  · simp only [if_neg hsmall]

theorem Form.Longest.boundary {g : Form} (h : f.Longest (f.text ++ after)) (hb : b ∈ after.head?)
    (hg : g.Valid) (htext : g.text = f.text ++ [b]) : False := by
  have hstarts : g.text <+: f.text ++ after := by
    obtain ⟨rest, rfl⟩ : ∃ rest, after = b :: rest := head?_eq_some_iff.mp hb
    rw [htext]
    exact ⟨rest, by simp⟩
  have hle := h.2 g ⟨hg, hstarts⟩
  rw [htext, length_append, length_singleton] at hle
  omega

theorem isDigit_iff (b : UInt8) : isDigit b = true ↔ 48 ≤ b.toNat ∧ b.toNat ≤ 57 := by
  simp only [isDigit, Bool.and_eq_true, decide_eq_true_eq, UInt8.le_iff_toNat_le]
  rfl

theorem startsWord_digit (h : isDigit b = true) : startsWord b = false := by
  obtain ⟨hlow, hhigh⟩ := (isDigit_iff b).mp h
  have hne : b ≠ byte '_' := by
    rintro rfl
    exact absurd hhigh (by decide)
  simp only [startsWord, isLetter, Bool.or_eq_false_iff, Bool.and_eq_false_iff,
    decide_eq_false_iff_not, UInt8.le_iff_toNat_le]
  refine ⟨⟨.inl ?_, .inl ?_⟩, hne⟩
  · exact Nat.not_le.mpr (Nat.lt_of_le_of_lt hhigh (by decide))
  · exact Nat.not_le.mpr (Nat.lt_of_le_of_lt hhigh (by decide))

theorem longest_word {first : UInt8} {others : Bytes}
    (h : (Form.word (first :: others)).Longest (first :: others ++ after)) :
    longest first (others ++ after) = (Form.word (first :: others)).outcome := by
  obtain ⟨⟨⟨_, hfirst, hstart⟩, hword⟩, -⟩ := h.1
  obtain rfl := Option.some.inj hfirst
  have hstop : ∀ b ∈ after.head?, continuesWord b = false := by
    intro b hb
    by_contra hgoes
    have hvalid : (Form.word (first :: others ++ [b])).Valid := by
      refine ⟨⟨first, rfl, hstart⟩, forall_mem_append.mpr ⟨hword, ?_⟩⟩
      exact forall_mem_singleton.mpr (by simpa using hgoes)
    exact h.boundary hb hvalid rfl
  have hrun := takeWhile_run hword hstop
  rw [cons_append] at hrun
  unfold longest
  rw [if_pos hstart, word, hrun]
  dsimp only [Form.outcome, Form.lexeme?, Form.text]
  cases Keyword.ofWord? (first :: others) <;> rfl

theorem number_stop {whole : Bytes}
    (h : (Form.number negative whole part).Longest
      ((Form.number negative whole part).text ++ after)) :
    ∀ b ∈ after.head?, isDigit b = false ∧ (part = none → b ≠ byte '.') := by
  obtain ⟨hsome, hwhole, hpart⟩ := h.1.1
  intro b hb
  constructor
  · by_contra hdigit
    have hdigit : ∀ c ∈ [b], isDigit c = true := forall_mem_singleton.mpr (by simpa using hdigit)
    cases part with
    | none =>
      refine h.boundary (g := .number negative (whole ++ [b]) none) hb
        ⟨by simp, forall_mem_append.mpr ⟨hwhole, hdigit⟩, nofun⟩ ?_
      simp [Form.text, Form.fractionText]
    | some digits =>
      refine h.boundary (g := .number negative whole (some (digits ++ [b]))) hb
        ⟨hsome, hwhole, ?_⟩ ?_
      · rintro _ ⟨⟩
        exact forall_mem_append.mpr ⟨hpart digits rfl, hdigit⟩
      · simp [Form.text, Form.fractionText]
  · rintro rfl rfl
    refine h.boundary (g := .number negative whole (some [])) hb ⟨hsome, hwhole, ?_⟩ ?_
    · rintro _ ⟨⟩
      nofun
    · simp [Form.text, Form.fractionText]

theorem longest_number (hvalid : (Form.number negative whole part).Valid)
    (hafter : ∀ b ∈ after.head?, isDigit b = false ∧ (part = none → b ≠ byte '.'))
    (htext : b :: rest = (Form.number negative whole part).text ++ after) :
    longest b rest = (Form.number negative whole part).outcome := by
  obtain ⟨first, others, rfl⟩ := exists_cons_of_ne_nil hvalid.1
  have hdigit : isDigit first = true := hvalid.2.1 first mem_cons_self
  have hnumeral := numeral_eq hvalid hafter
  rw [cons_append] at hnumeral
  cases negative with
  | false =>
    simp only [Form.text, Bool.false_eq_true, if_false, nil_append, cons_append,
      append_assoc] at htext
    obtain ⟨rfl, rfl⟩ := cons.inj htext
    unfold longest
    rw [startsWord_digit hdigit, if_neg Bool.false_ne_true, if_pos hdigit, hnumeral]
    rfl
  | true =>
    simp only [Form.text, if_true, cons_append, nil_append, append_assoc] at htext
    obtain ⟨rfl, rfl⟩ := cons.inj htext
    have hlongest : longest (byte '-') (first :: (others ++ (Form.fractionText part ++ after))) =
        if isDigit first then
          (numeral true (first :: (others ++ (Form.fractionText part ++ after)))).map
            fun m => (m.1, m.2 + 1)
        else if first = byte '>' then .ok (.mark .arrow, 2)
        else .ok (.mark .minus, 1) := rfl
    rw [hlongest, if_pos hdigit, hnumeral, Form.outcome]
    cases (Form.number true (first :: others) part).lexeme? with
    | none => rfl
    | some lexeme =>
      simp only [Except.map, Form.text]
      simp

theorem longest_string {body : Bytes} (h : byte '"' ∉ body) :
    longest (byte '"') (body ++ byte '"' :: after) = (Form.string body).outcome := by
  have hbody : ∀ b ∈ body, decide (b ≠ byte '"') = true := by
    intro b hb
    refine decide_eq_true fun heq => h ?_
    rwa [← heq]
  have hrun : (body ++ byte '"' :: after).takeWhile (· ≠ byte '"') = body :=
    takeWhile_run hbody fun b hb => by
      obtain rfl := Option.some.inj hb
      simp
  have hlongest : longest (byte '"') (body ++ byte '"' :: after) =
      quoted (body ++ byte '"' :: after) := rfl
  rw [hlongest, quoted, hrun, if_pos (by simp)]
  simp [Form.outcome, Form.lexeme?, Form.text]

theorem longest_mark (h : (Form.mark m).Longest (m.spelling ++ after))
    (htext : m.spelling ++ after = b :: rest) : longest b rest = (Form.mark m).outcome := by
  cases m with
  | colon =>
    obtain ⟨rfl, rfl⟩ := cons.inj htext
    change longest (byte ':') after = _
    cases after with
    | nil => rfl
    | cons c tail =>
      have hequal : c ≠ 0x3D := by
        rintro rfl
        exact h.boundary rfl (show (Form.mark .assign).Valid from trivial) rfl
      have hcolon : byte ':' = 0x3A := by decide
      unfold longest
      rw [hcolon, if_neg (by decide), if_neg (by decide), if_neg (by decide)]
      split
      · next hminus _ => exact absurd hminus (by decide)
      · next heq => exact absurd (cons.inj heq).1 hequal
      · rfl
  | minus =>
    obtain ⟨rfl, rfl⟩ := cons.inj htext
    change longest (byte '-') after = _
    cases after with
    | nil => rfl
    | cons c tail =>
      have hdigit : ¬ isDigit c = true := by
        intro hdigit
        have hvalid : (Form.number true [c] none).Valid :=
          ⟨by simp, forall_mem_singleton.mpr hdigit, nofun⟩
        exact h.boundary rfl hvalid rfl
      have harrow : c ≠ byte '>' := by
        rintro rfl
        exact h.boundary rfl (show (Form.mark .arrow).Valid from trivial) rfl
      change (if isDigit c then _ else if c = byte '>' then _ else _) = _
      rw [if_neg hdigit, if_neg harrow]
      rfl
  | _ =>
    obtain ⟨rfl, rfl⟩ := cons.inj htext
    rfl

theorem longest_of_longest (h : f.Longest (b :: rest)) : longest b rest = f.outcome := by
  obtain ⟨after, htext⟩ := h.1.2
  rw [← htext] at h
  cases f with
  | word text =>
    obtain ⟨⟨first, hfirst, -⟩, -⟩ := h.1.1
    obtain ⟨others, rfl⟩ := head?_eq_some_iff.mp hfirst
    have hlongest := longest_word h
    rw [Form.text, cons_append, cons.injEq] at htext
    rw [← htext.1, ← htext.2]
    exact hlongest
  | number negative whole part => exact longest_number h.1.1 (number_stop h) htext.symm
  | string body =>
    rw [Form.text, cons_append, append_assoc] at htext
    obtain ⟨rfl, rfl⟩ := cons.inj htext
    exact longest_string h.1.1
  | mark m => exact longest_mark h htext

theorem spelling_of_mark? (h : mark? b = some m) : m.spelling = [b] := by
  unfold mark? at h
  split at h <;> cases h <;> rfl

theorem quoted_open {text : Bytes} (h : byte '"' ∉ text) :
    quoted text = .error .unterminatedString := by
  have hrun : (text ++ []).takeWhile (· ≠ byte '"') = text := by
    refine takeWhile_run (fun b hb => decide_eq_true fun heq => h ?_) nofun
    rwa [← heq]
  rw [append_nil] at hrun
  rw [quoted, hrun, if_neg (Nat.lt_irrefl _)]

theorem not_mem_of_none (h : ∀ f : Form, ¬ f.Starts (byte '"' :: rest)) : byte '"' ∉ rest := by
  intro hmem
  obtain ⟨body, after, rfl, hbody⟩ := eq_append_cons_of_mem hmem
  exact h (.string body) ⟨hbody, after, by simp [Form.text]⟩

theorem longest_of_none (h : ∀ f : Form, ¬ f.Starts (b :: rest)) :
    longest b rest = .error (if b = byte '"' then .unterminatedString
      else if 0x80 ≤ b then .unexpectedByte b else .unexpectedCharacter b) := by
  have hword : ¬ startsWord b = true := by
    intro hstart
    refine h (.word [b]) ⟨⟨⟨b, rfl, hstart⟩, forall_mem_singleton.mpr ?_⟩, rest, rfl⟩
    rw [continuesWord, hstart]
    rfl
  have hdigit : ¬ isDigit b = true := fun hdigit =>
    h (.number false [b] none)
      ⟨⟨by simp, forall_mem_singleton.mpr hdigit, by rintro _ ⟨⟩⟩, rest, rfl⟩
  have hmark : mark? b = none := by
    cases hfound : mark? b with
    | none => rfl
    | some m =>
      refine absurd ⟨trivial, rest, ?_⟩ (h (.mark m))
      rw [Form.text, spelling_of_mark? hfound]
      rfl
  unfold longest
  rw [if_neg hword, if_neg hdigit]
  by_cases hquote : b = byte '"'
  · subst hquote
    rw [if_pos rfl, if_pos rfl, quoted_open (not_mem_of_none h)]
  · rw [if_neg hquote, if_neg hquote]
    split
    · cases hmark
    · cases hmark
    · rw [hmark]

theorem Form.exists_longest {text : Bytes} (h : f.Starts text) : ∃ g : Form, g.Longest text := by
  -- a form that is longer comes nearer to the length of the text
  induction hroom : text.length - f.text.length using Nat.strongRecOn generalizing f with
  | ind room ih =>
    by_cases hlongest : ∀ g : Form, g.Starts text → g.text.length ≤ f.text.length
    · exact ⟨f, h, hlongest⟩
    · obtain ⟨g, hg, hlonger⟩ : ∃ g : Form, g.Starts text ∧ f.text.length < g.text.length := by
        simpa using hlongest
      have hle := hg.2.length_le
      exact ih _ (by omega) hg rfl

inductive Refused : Cause → Bytes → Prop
  | nothing {b : UInt8} {rest : Bytes} : (∀ f : Form, ¬ f.Starts (b :: rest)) → b ≠ byte '"' →
      Refused (if 0x80 ≤ b then .unexpectedByte b else .unexpectedCharacter b) (b :: rest)
  | unclosed {rest : Bytes} : byte '"' ∉ rest → Refused .unterminatedString (byte '"' :: rest)
  | tooLarge {negative : Bool} {whole text : Bytes} {part : Option Bytes} :
      (Form.number negative whole part).Longest text → 2 ^ 63 ≤ decimal whole →
      Refused .integerTooLarge text

theorem Refused.exists_cons {text : Bytes} (h : Refused cause text) :
    ∃ b rest, text = b :: rest := by
  cases h with
  | nothing | unclosed => exact ⟨_, _, rfl⟩
  | tooLarge hlongest =>
    refine exists_cons_of_length_pos (Nat.lt_of_lt_of_le ?_ hlongest.1.2.length_le)
    exact hlongest.1.1.length_pos

theorem Form.outcome_error (h : f.outcome = .error cause) :
    cause = .integerTooLarge ∧
      ∃ negative whole part, f = .number negative whole part ∧ 2 ^ 63 ≤ decimal whole := by
  unfold outcome at h
  split at h
  · cases h
  · next hnone =>
      cases h
      refine ⟨rfl, ?_⟩
      cases f with
      | number negative whole part =>
        refine ⟨negative, whole, part, rfl, ?_⟩
        by_contra hsmall
        rw [lexeme?, if_pos (by omega)] at hnone
        cases hnone
      | word text => cases hnone
      | string body => cases hnone
      | mark m => cases hnone

theorem longest_error_iff :
    longest b rest = .error cause ↔ Refused cause (b :: rest) := by
  constructor
  · intro h
    by_cases hnone : ∀ f : Form, ¬ f.Starts (b :: rest)
    · rw [longest_of_none hnone] at h
      by_cases hquote : b = byte '"'
      · subst hquote
        rw [if_pos rfl] at h
        cases h
        exact .unclosed (not_mem_of_none hnone)
      · rw [if_neg hquote] at h
        cases h
        exact .nothing hnone hquote
    · obtain ⟨f, hf⟩ : ∃ f : Form, f.Starts (b :: rest) := by simpa using hnone
      obtain ⟨g, hg⟩ := Form.exists_longest hf
      rw [longest_of_longest hg] at h
      obtain ⟨rfl, negative, whole, part, rfl, hlarge⟩ := Form.outcome_error h
      exact .tooLarge hg hlarge
  · intro h
    generalize htext : b :: rest = text at h
    cases h with
    | nothing hnone hquote =>
      obtain ⟨rfl, rfl⟩ := cons.inj htext
      rw [longest_of_none hnone, if_neg hquote]
    | unclosed hopen =>
      obtain ⟨rfl, rfl⟩ := cons.inj htext
      exact quoted_open hopen
    | tooLarge hlongest hlarge =>
      subst htext
      rw [longest_of_longest hlongest, Form.outcome, Form.lexeme?, if_neg (by omega)]

theorem longest_ok_iff {length : Nat} :
    longest b rest = .ok (lexeme, length) ↔ ∃ f : Form, f.Longest (b :: rest) ∧
      f.lexeme? = some lexeme ∧ length = f.text.length := by
  constructor
  · intro h
    have hstarts : ∃ f : Form, f.Starts (b :: rest) := by
      by_contra hnone
      rw [longest_of_none (by simpa using hnone)] at h
      cases h
    obtain ⟨f, hf⟩ := hstarts
    obtain ⟨g, hg⟩ := Form.exists_longest hf
    rw [longest_of_longest hg, Form.outcome] at h
    cases hlexeme : g.lexeme? with
    | none =>
      rw [hlexeme] at h
      cases h
    | some found =>
      rw [hlexeme] at h
      cases h
      exact ⟨g, hg, hlexeme, rfl⟩
  · rintro ⟨f, hf, hlexeme, rfl⟩
    rw [longest_of_longest hf, Form.outcome, hlexeme]

end Lexeme

end Shading
