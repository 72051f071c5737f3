import Shading.Proofs.Reading.Places

/-!
Where tokens stand. A lexer only moves forward over its source, so the place of
a token is that of an offset into it, and a place tells the lines and the bytes
of the last line before the offset. Every token takes a byte, which bounds the
number of tokens by that of the bytes, and names are words that are not
keywords.
-/

namespace Shading

open List

variable {c : Cursor} {cause : Cause} {source rest text : Bytes} {offset length : Nat}
  {b : UInt8} {negative : Bool} {read : List Token}

def Cause.isLexical : Cause → Bool
  | .unexpectedByte _ => true
  | .unexpectedCharacter _ => true
  | .integerTooLarge => true
  | .unterminatedString => true
  | _ => false

theorem Cause.isSyntactic_of_isLexical (h : cause.isLexical = true) : cause.isSyntactic = true := by
  cases cause with
  | unexpectedByte | unexpectedCharacter | integerTooLarge | unterminatedString => rfl
  | _ => cases h

namespace Position

/-- The place of an offset into a source: one more than the newlines before it, and one more than
the bytes since the last of them. -/
def ofOffset (source : Bytes) (offset : Nat) : Position :=
  let before := source.take offset
  ⟨1 + before.count (Text.byte '\n'),
    1 + (before.reverse.takeWhile (· ≠ Text.byte '\n')).length⟩

theorem start_past_reverse (text : Bytes) :
    start.past text.reverse =
      ⟨1 + text.count (Text.byte '\n'), 1 + (text.takeWhile (· ≠ Text.byte '\n')).length⟩ := by
  induction text with
  | nil => rfl
  | cons b rest ih =>
    rw [reverse_cons, past_append, ih, past_cons, past_nil, next]
    by_cases hb : b = Text.byte '\n'
    · subst hb
      simp only [if_true, count_cons_self, takeWhile_cons, ne_eq, not_true_eq_false,
        decide_false, Bool.false_eq_true, if_false, length_nil]
      congr 1
    · rw [if_neg hb, count_cons_of_ne hb, takeWhile_cons, if_pos (by simpa using hb),
        length_cons]
      congr 1

theorem ofOffset_eq (source : Bytes) (offset : Nat) :
    ofOffset source offset = start.past (source.take offset) := by
  rw [← reverse_reverse (source.take offset), start_past_reverse]
  rw [count_reverse]
  rfl

end Position

namespace Cursor

def At (source : Bytes) (offset : Nat) (c : Cursor) : Prop :=
  offset ≤ source.length ∧ c.rest = source.drop offset ∧ c.pos = .ofOffset source offset

theorem at_ofSource (source : Bytes) : (ofSource source).At source 0 := by
  refine ⟨Nat.zero_le _, rfl, ?_⟩
  rw [Position.ofOffset_eq]
  rfl

theorem At.advance (h : c.At source offset) (count : Nat) :
    (c.advance count).At source (min (offset + count) source.length) := by
  obtain ⟨hle, hrest, hpos⟩ := h
  have htake : source.take (min (offset + count) source.length) =
      source.take offset ++ (source.drop offset).take count := by
    rw [← take_add]
    exact take_eq_take_min.symm
  refine ⟨Nat.min_le_right _ _, ?_, ?_⟩
  · rw [rest_advance, hrest, drop_drop]
    by_cases hc : offset + count ≤ source.length
    · rw [Nat.min_eq_left hc]
    · rw [drop_eq_nil_of_le (by omega), drop_eq_nil_of_le (by omega)]
  · rw [pos_advance, hpos, hrest, Position.ofOffset_eq, Position.ofOffset_eq, htake,
      Position.past_append]

end Cursor

namespace Lexeme

variable {x : Except Cause Measured} {m : Measured}

theorem error_of_map {f : Measured → Measured} (h : x.map f = .error cause) : x = .error cause := by
  cases x with
  | ok m => cases h
  | error found =>
    cases h
    rfl

theorem ok_of_map {f : Measured → Measured} (h : x.map f = .ok m) : ∃ found, f found = m := by
  cases x with
  | ok found => exact ⟨found, Except.ok.inj h⟩
  | error cause => cases h

theorem takeWhile_pos {p : UInt8 → Bool} (h : p b = true) (rest : Bytes) :
    0 < ((b :: rest).takeWhile p).length := by
  rw [takeWhile_cons, if_pos h]
  exact Nat.succ_pos _

theorem word_pos (h : startsWord b = true) : 0 < (word (b :: rest)).2 := by
  have hlength : (word (b :: rest)).2 = ((b :: rest).takeWhile continuesWord).length := by
    unfold word
    dsimp only
    cases Keyword.ofWord? ((b :: rest).takeWhile continuesWord) <;> rfl
  rw [hlength]
  exact takeWhile_pos (by rw [continuesWord, h]; rfl) rest

theorem numeral_pos (hb : isDigit b = true) (h : numeral negative (b :: rest) = .ok m) :
    0 < m.2 := by
  have hwhole := takeWhile_pos hb rest
  unfold numeral at h
  dsimp only at h
  split at h
  · cases h
  · split at h <;> cases h
    · exact Nat.lt_of_lt_of_le hwhole (by omega)
    · exact hwhole

theorem numeral_error (h : numeral negative text = .error cause) : cause.isLexical = true := by
  unfold numeral at h
  dsimp only at h
  split at h
  · cases h
    rfl
  · split at h <;> cases h

theorem quoted_pos (h : quoted text = .ok m) : 0 < m.2 := by
  unfold quoted at h
  dsimp only at h
  split at h <;> cases h
  exact Nat.succ_pos _

theorem quoted_error (h : quoted text = .error cause) : cause.isLexical = true := by
  unfold quoted at h
  dsimp only at h
  split at h <;> cases h
  rfl

theorem longest_cases (b : UInt8) (rest : Bytes) :
    (∃ m, longest b rest = .ok m ∧ 0 < m.2) ∨
      ∃ cause, longest b rest = .error cause ∧ cause.isLexical = true := by
  cases h : longest b rest with
  | error cause =>
    refine .inr ⟨cause, rfl, ?_⟩
    unfold longest at h
    split at h
    · cases h
    split at h
    · exact numeral_error h
    split at h
    · exact quoted_error h
    split at h
    · split at h
      · exact numeral_error (error_of_map h)
      split at h <;> cases h
    · cases h
    · split at h
      · cases h
      · cases h
        split <;> rfl
  | ok m =>
    refine .inl ⟨m, rfl, ?_⟩
    unfold longest at h
    split at h
    · cases h
      exact word_pos ‹_›
    split at h
    · exact numeral_pos ‹_› h
    split at h
    · exact quoted_pos h
    split at h
    · split at h
      · obtain ⟨found, rfl⟩ := ok_of_map h
        exact Nat.succ_pos _
      split at h <;> cases h <;> exact Nat.succ_pos _
    · cases h
      exact Nat.succ_pos _
    · split at h <;> cases h
      exact Nat.succ_pos _

end Lexeme

namespace Cursor

theorem token_cases (c : Cursor) :
    (c.skipTrivia.rest = [] ∧ c.token = .ok (⟨.eof, c.skipTrivia.pos⟩, c.skipTrivia)) ∨
      (∃ lexeme length, c.token = .ok (⟨lexeme, c.skipTrivia.pos⟩, c.skipTrivia.advance length) ∧
        0 < length ∧ 0 < c.skipTrivia.rest.length) ∨
      ∃ cause, c.token = .error ⟨c.skipTrivia.pos, cause⟩ ∧ cause.isLexical = true := by
  unfold token
  dsimp only
  cases hrest : c.skipTrivia.rest with
  | nil => exact .inl ⟨rfl, rfl⟩
  | cons b rest =>
    refine .inr ?_
    obtain ⟨⟨lexeme, length⟩, hfound, hpos⟩ | ⟨cause, hfound, hcause⟩ :=
      Lexeme.longest_cases b rest
    · refine .inl ⟨lexeme, length, ?_, hpos, Nat.succ_pos _⟩
      simp only [hfound]
    · refine .inr ⟨cause, ?_, hcause⟩
      simp only [hfound]

theorem length_next (c : Cursor) (hlength : 0 < length) (hrest : 0 < c.skipTrivia.rest.length) :
    (c.skipTrivia.advance length).rest.length < c.rest.length := by
  have hskip : c.skipTrivia.rest.length ≤ c.rest.length := by
    rw [skipTrivia, rest_advance, length_drop]
    exact Nat.sub_le _ _
  rw [rest_advance, length_drop]
  omega

end Cursor

namespace Tokens

/-- The places of the tokens, and that of their end or of the failure that ends them. -/
def places (t : Tokens) : List Position :=
  t.tokens.map (·.pos) ++ [match t.ending with
    | .ok pos => pos
    | .error why => why.pos]

theorem readFrom_next {fuel : Nat} (token : Token) (next : Cursor) (h : c.token = .ok (token, next))
    (hne : token.lexeme ≠ .eof) :
    readFrom (fuel + 1) read c = readFrom fuel (token :: read) next := by
  rw [readFrom, h]
  exact if_neg hne

def Stand (source : Bytes) (t : Tokens) : Prop :=
  (∀ pos ∈ t.places, ∃ offset ≤ source.length, pos = .ofOffset source offset) ∧
    ∀ why, t.ending = .error why → why.cause.isLexical = true

theorem readFrom_stand (fuel : Nat) (hc : c.At source offset)
    (hread : ∀ token ∈ read, ∃ offset ≤ source.length, token.pos = .ofOffset source offset) :
    (readFrom fuel read c).Stand source := by
  -- what was read stands at offsets, so only the end has to be looked at
  have hended : ∀ {ending : Except Diagnostic Position} {last : List Token},
      (∀ token ∈ last, ∃ offset ≤ source.length, token.pos = .ofOffset source offset) →
      (∃ offset ≤ source.length, (match ending with
        | .ok pos => pos
        | .error why => why.pos) = .ofOffset source offset) →
      (∀ why, ending = .error why → why.cause.isLexical = true) →
      (⟨last.reverse, ending⟩ : Tokens).Stand source := by
    intro ending last hlast hplace hcause
    refine ⟨fun pos hpos => ?_, hcause⟩
    rcases mem_append.mp hpos with hpos | hpos
    · obtain ⟨token, htoken, rfl⟩ := mem_map.mp hpos
      exact hlast token (mem_reverse.mp htoken)
    · rw [mem_singleton.mp hpos]
      exact hplace
  induction fuel generalizing read c offset with
  | zero => exact hended hread ⟨offset, hc.1, hc.2.2⟩ (fun _ h => nomatch h)
  | succ fuel ih =>
    have hstart : c.skipTrivia.At source _ := hc.advance (Lexeme.triviaLength c.rest)
    rw [readFrom]
    obtain ⟨_, htoken⟩ | ⟨lexeme, length, htoken, _⟩ | ⟨cause, htoken, hcause⟩ := c.token_cases
    · rw [htoken]
      exact hended hread ⟨_, hstart.1, hstart.2.2⟩ (fun _ h => nomatch h)
    · rw [htoken]
      dsimp only
      split
      · exact hended hread ⟨_, hstart.1, hstart.2.2⟩ (fun _ h => nomatch h)
      · exact ih (hstart.advance length)
          (forall_mem_cons.mpr ⟨⟨_, hstart.1, hstart.2.2⟩, hread⟩)
    · rw [htoken]
      refine hended hread ⟨_, hstart.1, hstart.2.2⟩ fun why hwhy => ?_
      cases hwhy
      exact hcause

theorem ofSource_stand (source : Bytes) : (ofSource source).Stand source :=
  readFrom_stand _ (Cursor.at_ofSource source) (fun _ h => nomatch h)

theorem readFrom_enough (fuel more : Nat) (h : c.rest.length < fuel) :
    readFrom (fuel + more) read c = readFrom fuel read c := by
  induction fuel generalizing read c with
  | zero => exact absurd h (Nat.not_lt_zero _)
  | succ fuel ih =>
    rw [Nat.succ_add, readFrom, readFrom]
    obtain ⟨_, htoken⟩ | ⟨lexeme, length, htoken, hlength, hrest⟩ | ⟨cause, htoken, _⟩ :=
      c.token_cases
    · rw [htoken]
      rfl
    · rw [htoken]
      dsimp only
      split
      · rfl
      · have hless := c.length_next hlength hrest
        exact ih (by omega)
    · rw [htoken]

theorem length_readFrom (fuel : Nat) (read : List Token) (c : Cursor) :
    (readFrom fuel read c).tokens.length ≤ read.length + c.rest.length := by
  have hended : ∀ (read : List Token) (c : Cursor),
      read.reverse.length ≤ read.length + c.rest.length := by
    intro read c
    rw [length_reverse]
    exact Nat.le_add_right _ _
  induction fuel generalizing read c with
  | zero => exact hended read c
  | succ fuel ih =>
    rw [readFrom]
    obtain ⟨_, htoken⟩ | ⟨lexeme, length, htoken, hlength, hrest⟩ | ⟨cause, htoken, _⟩ :=
      c.token_cases
    · rw [htoken]
      exact hended read c
    · rw [htoken]
      dsimp only
      split
      · exact hended read c
      · have hless := c.length_next hlength hrest
        refine Nat.le_trans (ih _ _) ?_
        rw [length_cons]
        omega
    · rw [htoken]
      exact hended read c

theorem length_ofSource (source : Bytes) : (ofSource source).tokens.length ≤ source.length :=
  Nat.le_trans (length_readFrom _ [] (.ofSource source)) (Nat.le_of_eq (Nat.zero_add _))

end Tokens

namespace Lexeme

theorem word_sym (hb : startsWord b = true) (h : word (b :: rest) = (.sym text, length)) :
    isIdentifier text = true := by
  have htake : (b :: rest).takeWhile continuesWord = b :: rest.takeWhile continuesWord :=
    takeWhile_cons_of_pos (by rw [continuesWord, hb]; rfl)
  unfold word at h
  rw [htake] at h
  dsimp only at h
  cases hkeyword : Keyword.ofWord? (b :: rest.takeWhile continuesWord) with
  | some k =>
    rw [hkeyword] at h
    cases h
  | none =>
    rw [hkeyword] at h
    cases h
    rw [isIdentifier, hb, all_takeWhile, hkeyword]
    rfl

theorem numeral_sym {name : Bytes} (h : numeral negative text = .ok (.sym name, length)) :
    False := by
  unfold numeral at h
  dsimp only at h
  split at h
  · cases h
  · split at h <;> cases h

theorem sym_of_map {x : Except Cause Measured} {more : Nat} {name : Bytes}
    (h : x.map (fun m => (m.1, m.2 + more)) = .ok (.sym name, length)) :
    ∃ length, x = .ok (.sym name, length) := by
  cases x with
  | error cause => cases h
  | ok m =>
    obtain ⟨lexeme, found⟩ := m
    obtain ⟨rfl, -⟩ := Prod.mk.inj (Except.ok.inj h)
    exact ⟨found, rfl⟩

theorem longest_sym (h : longest b rest = .ok (.sym text, length)) : isIdentifier text = true := by
  unfold longest at h
  split at h
  · next hb => exact word_sym hb (Except.ok.inj h)
  split at h
  · exact (numeral_sym h).elim
  split at h
  · unfold quoted at h
    dsimp only at h
    split at h <;> cases h
  split at h
  · split at h
    · obtain ⟨_, hfound⟩ := sym_of_map h
      exact (numeral_sym hfound).elim
    split at h <;> cases h
  · cases h
  · split at h <;> cases h

end Lexeme

namespace Cursor

theorem longest_of_token {next : Cursor} {token : Token} (h : c.token = .ok (token, next))
    (hne : token.lexeme ≠ .eof) :
    ∃ b rest length, Lexeme.longest b rest = .ok (token.lexeme, length) := by
  unfold Cursor.token at h
  dsimp only at h
  split at h
  · cases h
    exact absurd rfl hne
  · next b rest _ =>
      split at h
      · next lexeme length hfound =>
          cases h
          exact ⟨b, rest, length, hfound⟩
      · cases h

end Cursor

namespace Tokens

theorem readFrom_names (fuel : Nat)
    (hread : ∀ token ∈ read, ∀ text, token.lexeme = .sym text → Lexeme.isIdentifier text = true) :
    ∀ token ∈ (readFrom fuel read c).tokens, ∀ text, token.lexeme = .sym text →
      Lexeme.isIdentifier text = true := by
  have hdone : ∀ token ∈ read.reverse, ∀ text, token.lexeme = .sym text →
      Lexeme.isIdentifier text = true := fun token htoken => hread token (mem_reverse.mp htoken)
  induction fuel generalizing read c with
  | zero => exact hdone
  | succ fuel ih =>
    rw [readFrom]
    cases htoken : c.token with
    | error d => exact hdone
    | ok found =>
      obtain ⟨token, next⟩ := found
      dsimp only
      split
      · exact hdone
      · next hne =>
          have hnames : ∀ other ∈ token :: read, ∀ text, other.lexeme = .sym text →
              Lexeme.isIdentifier text = true := by
            refine forall_mem_cons.mpr ⟨fun text htext => ?_, hread⟩
            obtain ⟨b, rest, length, hfound⟩ := Cursor.longest_of_token htoken hne
            rw [htext] at hfound
            exact Lexeme.longest_sym hfound
          exact ih hnames fun other hother => hnames other (mem_reverse.mp hother)

theorem names_ofSource (source : Bytes) : ∀ token ∈ (ofSource source).tokens, ∀ text,
    token.lexeme = .sym text → Lexeme.isIdentifier text = true :=
  readFrom_names _ fun _ h => nomatch h

end Tokens

end Shading
