import Shading.Proofs.Lexing

/-!
Lexing a source that goes on after a line break. No lexeme but a string takes a
line break, and one ends every comment, so the tokens before it are read as if
nothing followed, and those after it as if nothing came before.
-/

namespace Shading

open List Lexeme

variable {m : Measured} {b : UInt8} {rest : Bytes} {count : Nat} {comment : Bool} {token : Token}
  {next : Cursor} {tokens : List Token} {last : Position}

def lineBreak : UInt8 := Text.byte '\n'

namespace Lexeme

variable {text more : Bytes}

theorem takeWhile_break {p : UInt8 → Bool} (hp : p lineBreak = false) (text more : Bytes) :
    (text ++ lineBreak :: more).takeWhile p = text.takeWhile p := by
  induction text with
  | nil => rw [nil_append, takeWhile_cons, hp, takeWhile_nil]; rfl
  | cons b rest ih =>
    rw [cons_append, takeWhile_cons, takeWhile_cons, ih]

theorem word_break (text more : Bytes) : word (text ++ lineBreak :: more) = word text := by
  rw [word, word, takeWhile_break (by decide)]

theorem drop_takeWhile_break {p : UInt8 → Bool} (text more : Bytes) :
    (text ++ lineBreak :: more).drop (text.takeWhile p).length =
      text.drop (text.takeWhile p).length ++ lineBreak :: more :=
  drop_append_of_le_length (takeWhile_sublist p).length_le

theorem numeral_break (negative : Bool) (text more : Bytes) :
    numeral negative (text ++ lineBreak :: more) = numeral negative text := by
  simp only [numeral, takeWhile_break (show isDigit lineBreak = false by decide),
    drop_takeWhile_break]
  cases Number.Literal.word? ((text.takeWhile isDigit).map digitValue) with
  | none => rfl
  | some value =>
    -- a point that follows is part of the number, and a line break is none
    cases text.drop (text.takeWhile isDigit).length with
    | nil => rfl
    | cons b rest =>
      by_cases hb : b = 0x2E
      · subst hb
        simp only [cons_append, takeWhile_break (show isDigit lineBreak = false by decide)]
      · simp [hb]

theorem quoted_break (h : quoted text = .ok m) (more : Bytes) :
    quoted (text ++ lineBreak :: more) = .ok m := by
  simp only [quoted] at h ⊢
  split at h
  · next hshort =>
      have hbody : (text ++ lineBreak :: more).takeWhile (· ≠ Text.byte '"') =
          text.takeWhile (· ≠ Text.byte '"') := by
        rw [takeWhile_append, if_neg (by omega)]
      rw [hbody, if_pos]
      · exact h
      · rw [length_append]
        omega
  · cases h

theorem longest_break (h : longest b rest = .ok m) (more : Bytes) :
    longest b (rest ++ lineBreak :: more) = .ok m := by
  unfold longest at h ⊢
  by_cases hword : startsWord b = true
  · rw [if_pos hword] at h ⊢
    rw [← cons_append, word_break]
    exact h
  rw [if_neg hword] at h ⊢
  by_cases hdigit : isDigit b = true
  · rw [if_pos hdigit] at h ⊢
    rw [← cons_append, numeral_break]
    exact h
  rw [if_neg hdigit] at h ⊢
  by_cases hquote : b = Text.byte '"'
  · rw [if_pos hquote] at h ⊢
    exact quoted_break h more
  rw [if_neg hquote] at h ⊢
  cases rest with
  | nil =>
    by_cases hminus : b = 0x2D
    · subst hminus
      exact h
    · by_cases hcolon : b = 0x3A
      · subst hcolon
        exact h
      · simpa [hminus, hcolon] using h
  | cons c rest =>
    by_cases hminus : b = 0x2D
    · subst hminus
      rw [cons_append]
      simp only [← cons_append, numeral_break]
      exact h
    · by_cases hcolon : b = 0x3A
      · subst hcolon
        by_cases hequal : c = 0x3D
        · subst hequal
          exact h
        · simpa [hequal] using h
      · simpa [hminus, hcolon] using h

theorem triviaFrom_slash (rest more : Bytes) :
    (b = Text.byte '/' && (rest ++ lineBreak :: more).head? = some (Text.byte '/')) =
      (b = Text.byte '/' && rest.head? = some (Text.byte '/') : Bool) := by
  cases rest with
  | nil => rfl
  | cons c rest => rfl

theorem triviaFrom_break (h : triviaFrom count comment text < count + text.length) (more : Bytes) :
    triviaFrom count comment (text ++ lineBreak :: more) = triviaFrom count comment text := by
  induction text generalizing count comment with
  | nil =>
    rw [triviaFrom] at h
    exact absurd h (Nat.lt_irrefl _)
  | cons b rest ih =>
    rw [length_cons] at h
    cases comment with
    | true =>
      rw [triviaFrom] at h
      rw [cons_append, triviaFrom, triviaFrom]
      exact ih (by omega)
    | false =>
      rw [triviaFrom] at h
      rw [cons_append, triviaFrom, triviaFrom, triviaFrom_slash]
      by_cases hblank : isBlank b = true
      · rw [if_pos hblank] at h
        rw [if_pos hblank, if_pos hblank]
        exact ih (by omega)
      · rw [if_neg hblank] at h
        rw [if_neg hblank, if_neg hblank]
        split
        · next hslash =>
            rw [if_pos hslash] at h
            exact ih (by omega)
        · rfl

theorem triviaFrom_over (h : triviaFrom count comment text = count + text.length) (more : Bytes) :
    triviaFrom count comment (text ++ lineBreak :: more) =
      triviaFrom (count + text.length + 1) false more := by
  induction text generalizing count comment with
  | nil => cases comment <;> rfl
  | cons b rest ih =>
    rw [length_cons] at h ⊢
    have hcount : count + (rest.length + 1) + 1 = count + 1 + rest.length + 1 := by omega
    rw [hcount]
    cases comment with
    | true =>
      rw [triviaFrom] at h
      rw [cons_append, triviaFrom]
      exact ih (by omega)
    | false =>
      rw [triviaFrom] at h
      rw [cons_append, triviaFrom, triviaFrom_slash]
      by_cases hblank : isBlank b = true
      · rw [if_pos hblank] at h ⊢
        exact ih (by omega)
      · rw [if_neg hblank] at h ⊢
        split
        · next hslash =>
            rw [if_pos hslash] at h
            exact ih (by omega)
        · next hslash =>
            rw [if_neg hslash] at h
            omega

theorem triviaFrom_le (count : Nat) (comment : Bool) (text : Bytes) :
    triviaFrom count comment text ≤ count + text.length := by
  induction text generalizing count comment with
  | nil => exact Nat.le_refl _
  | cons b rest ih =>
    have hmore := fun comment => ih (count + 1) comment
    rw [length_cons]
    cases comment with
    | true =>
      rw [triviaFrom]
      have := hmore (decide (b ≠ Text.byte '\n'))
      omega
    | false =>
      rw [triviaFrom]
      have hblank := hmore false
      have hcomment := hmore true
      split
      · omega
      · split <;> omega

theorem triviaFrom_add (count : Nat) (comment : Bool) (text : Bytes) :
    triviaFrom count comment text = count + triviaFrom 0 comment text := by
  induction text generalizing count comment with
  | nil => rfl
  | cons b rest ih =>
    cases comment with
    | true =>
      rw [triviaFrom, triviaFrom, ih (count + 1), ih (0 + 1)]
      omega
    | false =>
      rw [triviaFrom, triviaFrom, ih (count + 1) false, ih (count + 1) true, ih (0 + 1) false,
        ih (0 + 1) true]
      split
      · omega
      · split <;> omega

theorem triviaLength_le (text : Bytes) : triviaLength text ≤ text.length := by
  have hle := triviaFrom_le 0 false text
  rwa [Nat.zero_add] at hle

theorem takeWhile_le (p : UInt8 → Bool) (text : Bytes) :
    (text.takeWhile p).length ≤ text.length := (takeWhile_sublist p).length_le

theorem numeral_fits {negative : Bool} (h : numeral negative text = .ok m) :
    m.1 ≠ .eof ∧ m.2 ≤ text.length := by
  have hwhole := takeWhile_le isDigit text
  simp only [numeral] at h
  split at h
  · cases h
  · split at h
    · next rest hrest =>
        have hpart := takeWhile_le isDigit rest
        have hlength := congrArg length hrest
        rw [length_drop, length_cons] at hlength
        cases h
        refine ⟨nofun, ?_⟩
        dsimp only
        omega
    · cases h
      exact ⟨nofun, hwhole⟩

theorem longest_fits (h : longest b rest = .ok m) : m.1 ≠ .eof ∧ m.2 ≤ rest.length + 1 := by
  unfold longest at h
  split at h
  · cases h
    have hle := takeWhile_le continuesWord (b :: rest)
    simp only [word]
    split <;> exact ⟨nofun, hle⟩
  split at h
  · exact numeral_fits h
  split at h
  · simp only [quoted] at h
    split at h
    · cases h
      refine ⟨nofun, ?_⟩
      dsimp only
      omega
    · cases h
  split at h
  · next c rest _ _ _ =>
      split at h
      · cases hnumeral : numeral true (c :: rest) with
        | error cause =>
          rw [hnumeral] at h
          cases h
        | ok found =>
          rw [hnumeral] at h
          cases h
          obtain ⟨hne, hle⟩ := numeral_fits hnumeral
          exact ⟨hne, Nat.succ_le_succ hle⟩
      · split at h <;> cases h <;> simp
  · cases h
    simp
  · split at h
    · cases h
      simp
    · cases h

end Lexeme

namespace Cursor

def before (c : Cursor) (more : Bytes) : Cursor := ⟨c.rest ++ lineBreak :: more, c.pos⟩

variable {c : Cursor} {more : Bytes}

theorem advance_before (h : count ≤ c.rest.length) :
    (c.before more).advance count = (c.advance count).before more := by
  simp only [advance, before, drop_append_of_le_length h, take_append_of_le_length h]

theorem token_of_nil (h : c.skipTrivia.rest = []) :
    c.token = .ok (⟨.eof, c.skipTrivia.pos⟩, c.skipTrivia) := by
  simp only [token, h]

theorem rest_of_eof (h : c.token = .ok (token, next)) (hend : token.lexeme = .eof) :
    c.skipTrivia.rest = [] := by
  cases hrest : c.skipTrivia.rest with
  | nil => rfl
  | cons b rest =>
    simp only [Cursor.token, hrest] at h
    cases hlongest : longest b rest with
    | error cause =>
      rw [hlongest] at h
      cases h
    | ok m =>
      rw [hlongest] at h
      cases h
      exact absurd hend (longest_fits hlongest).1

theorem token_before (h : c.token = .ok (token, next)) (hne : token.lexeme ≠ .eof) :
    (c.before more).token = .ok (token, next.before more) := by
  cases hrest : c.skipTrivia.rest with
  | nil =>
    rw [token_of_nil hrest] at h
    cases h
    exact absurd rfl hne
  | cons b rest =>
    have hinside : triviaLength c.rest < c.rest.length := by
      have hlength := congrArg length hrest
      rw [skipTrivia, rest_advance, length_drop, length_cons] at hlength
      omega
    have htrivia : triviaLength (c.before more).rest = triviaLength c.rest := by
      refine triviaFrom_break ?_ more
      rw [Nat.zero_add]
      exact hinside
    have hskip : (c.before more).skipTrivia = c.skipTrivia.before more := by
      rw [skipTrivia, htrivia, advance_before (Nat.le_of_lt hinside), skipTrivia]
    have hbefore : (c.skipTrivia.before more).rest = b :: (rest ++ lineBreak :: more) := by
      rw [before, hrest, cons_append]
    simp only [Cursor.token, hrest] at h
    simp only [Cursor.token, hskip, hbefore]
    cases hlongest : longest b rest with
    | error cause =>
      rw [hlongest] at h
      cases h
    | ok m =>
      rw [hlongest] at h
      rw [longest_break hlongest]
      cases h
      have hle : m.2 ≤ c.skipTrivia.rest.length := by
        rw [hrest]
        exact (longest_fits hlongest).2
      simp only [advance_before hle]
      rfl

theorem token_over (h : c.skipTrivia.rest = []) (more : Bytes) :
    (c.before more).token = (⟨more, c.pos.past (c.rest ++ [lineBreak])⟩ : Cursor).token := by
  have hall : triviaFrom 0 false c.rest = 0 + c.rest.length := by
    have hlength := congrArg length h
    rw [skipTrivia, rest_advance, length_drop, length_nil] at hlength
    have hle := triviaLength_le c.rest
    change triviaLength c.rest = _
    omega
  have htrivia : triviaLength (c.before more).rest =
      (c.rest ++ [lineBreak]).length + triviaLength more := by
    refine (triviaFrom_over hall more).trans ?_
    rw [triviaFrom_add, length_append, length_singleton]
    simp only [triviaLength]
    omega
  have hrest : (c.before more).rest = (c.rest ++ [lineBreak]) ++ more := by
    rw [before, append_assoc]
    rfl
  have hskip : (c.before more).skipTrivia =
      (⟨more, c.pos.past (c.rest ++ [lineBreak])⟩ : Cursor).skipTrivia := by
    simp only [skipTrivia, htrivia]
    simp only [advance, hrest, drop_length_add_append, take_length_add_append,
      Position.past_append]
    rfl
  simp only [token, hskip]

end Cursor

namespace Tokens

theorem readFrom_behind (fuel : Nat) (read : List Token) (c : Cursor) :
    readFrom fuel read c =
      ⟨read.reverse ++ (readFrom fuel [] c).tokens, (readFrom fuel [] c).ending⟩ := by
  induction fuel generalizing read c with
  | zero => simp [readFrom]
  | succ fuel ih =>
    rw [readFrom, readFrom]
    cases c.token with
    | error why => simp
    | ok found =>
      obtain ⟨token, next⟩ := found
      by_cases hend : token.lexeme = .eof
      · simp [hend]
      · simp only [if_neg hend]
        rw [ih, ih [token]]
        simp

/-- The same lexemes, at other places. -/
structure Moved (t t' : Tokens) : Prop where
  lexemes : t'.tokens.map (·.lexeme) = t.tokens.map (·.lexeme)
  ending : t'.ending.isOk = t.ending.isOk

theorem readFrom_moved (fuel : Nat) {read read' : List Token} {c c' : Cursor}
    (hrest : c'.rest = c.rest) (hread : read'.map (·.lexeme) = read.map (·.lexeme)) :
    (readFrom fuel read c).Moved (readFrom fuel read' c') := by
  induction fuel generalizing read read' c c' with
  | zero => exact ⟨by simp [readFrom, hread], rfl⟩
  | succ fuel ih =>
    have hskip : c'.skipTrivia.rest = c.skipTrivia.rest := by
      simp only [Cursor.skipTrivia, Cursor.rest_advance, hrest]
    simp only [readFrom, Cursor.token, hskip]
    cases hnext : c.skipTrivia.rest with
    | nil => exact ⟨by simp [hread], rfl⟩
    | cons b rest =>
      simp only
      cases longest b rest with
      | error cause => exact ⟨by simp [hread], rfl⟩
      | ok m =>
        by_cases hend : m.1 = .eof
        · simp only [if_pos hend]
          exact ⟨by simp [hread], rfl⟩
        · simp only [if_neg hend]
          exact ih (by simp only [Cursor.rest_advance, hskip]) (by simp [hread])

theorem readFrom_before (fuel : Nat) {extra : Nat} {read : List Token} {c : Cursor} {more : Bytes}
    (h : readFrom fuel read c = ⟨tokens, .ok last⟩) (hfuel : c.rest.length < fuel)
    (hextra : more.length < extra) :
    ∃ pos left, more.length < left ∧
      readFrom (fuel + extra) read (c.before more) = readFrom left tokens.reverse ⟨more, pos⟩ := by
  induction fuel generalizing read c with
  | zero => exact absurd hfuel (Nat.not_lt_zero _)
  | succ fuel ih =>
    obtain ⟨hnone, htoken⟩ | ⟨lexeme, length, htoken, hlength, hrest⟩ | ⟨cause, htoken, -⟩ :=
      c.token_cases
    · rw [readFrom, htoken] at h
      obtain ⟨rfl, -⟩ := Tokens.mk.inj (h : (⟨read.reverse, _⟩ : Tokens) = _)
      refine ⟨c.pos.past (c.rest ++ [lineBreak]), fuel + extra + 1, by omega, ?_⟩
      rw [Nat.succ_add, reverse_reverse, readFrom, readFrom, Cursor.token_over hnone]
    · have hne : lexeme ≠ .eof := by
        intro hend
        rw [Cursor.rest_of_eof htoken hend] at hrest
        exact absurd hrest (Nat.lt_irrefl _)
      have hshorter := c.length_next hlength hrest
      rw [readFrom_next _ _ htoken hne] at h
      rw [Nat.succ_add, readFrom_next _ _ (Cursor.token_before htoken hne) hne]
      exact ih h (by omega)
    · rw [readFrom, htoken] at h
      cases h

theorem ofSource_before {source : Bytes} (more : Bytes) (h : ofSource source = ⟨tokens, .ok last⟩) :
    ∃ rest : Tokens, ofSource (source ++ lineBreak :: more) = ⟨tokens ++ rest.tokens, rest.ending⟩ ∧
      (ofSource more).Moved rest := by
  obtain ⟨pos, left, hleft, hread⟩ := readFrom_before _ h (Nat.lt_succ_self _)
    (Nat.lt_succ_self more.length)
  refine ⟨readFrom left [] ⟨more, pos⟩, ?_, ?_⟩
  · have hfuel : (source ++ lineBreak :: more).length + 1 =
        source.length + 1 + (more.length + 1) := by
      rw [length_append, length_cons]
      omega
    rw [ofSource, hfuel]
    refine hread.trans ?_
    rw [readFrom_behind, reverse_reverse]
  · obtain ⟨extra, rfl⟩ : ∃ extra, left = more.length + 1 + extra :=
      ⟨left - (more.length + 1), by omega⟩
    rw [readFrom_enough _ _ (Nat.lt_succ_self more.length)]
    exact readFrom_moved _ rfl rfl

end Tokens

end Shading
