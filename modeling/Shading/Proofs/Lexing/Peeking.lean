import Shading.Proofs.Lexing.Partition

/-!
Looking ahead changes nothing. A lexer has a cursor, perhaps a token that it
was asked to show, and perhaps a failure. All three together stand for the
tokens that are left, from which the answer to every call can be told: a call
that takes a token leaves one less, and one that looks at it leaves them all.
-/

namespace Shading

open List

variable {c : Cursor} {l : Lexer} {t : Tokens} {why : Diagnostic} {token : Token} {next : Cursor}

/-- What a lexer can be asked. -/
inductive LexerCall where
  | next
  | peek
  deriving DecidableEq, Repr

namespace Lexer

def answer (l : Lexer) : LexerCall → Token × Lexer
  | .next => l.next
  | .peek => l.peek

/-- The answers to some calls, in their order, and the lexer after them. -/
def answers : Lexer → List LexerCall → List Token × Lexer
  | l, [] => ([], l)
  | l, call :: rest =>
    let (token, after) := l.answer call
    let (tokens, last) := after.answers rest
    (token :: tokens, last)

end Lexer

namespace Tokens

def final (t : Tokens) : Token :=
  match t.ending with
  | .ok pos => ⟨.eof, pos⟩
  | .error why => ⟨.error, why.pos⟩

/-- The token that is read after `count` others. -/
def nth (t : Tokens) (count : Nat) : Token := t.toList[count]?.getD t.final

def drop (t : Tokens) (count : Nat) : Tokens := { t with tokens := t.tokens.drop count }

theorem nth_eq (t : Tokens) (count : Nat) : t.nth count = t.tokens[count]?.getD t.final := by
  obtain ⟨tokens, ending⟩ := t
  cases ending with
  | error why => rfl
  | ok pos =>
    change (tokens ++ [(⟨.eof, pos⟩ : Token)])[count]?.getD ⟨.eof, pos⟩ =
      tokens[count]?.getD ⟨.eof, pos⟩
    rw [getElem?_append]
    split
    · rfl
    · next hge =>
      rw [getElem?_eq_none (Nat.le_of_not_lt hge), getElem?_singleton]
      split <;> rfl

theorem nth_cons (token : Token) (rest : List Token) (ending : Except Diagnostic Position) :
    (⟨token :: rest, ending⟩ : Tokens).nth 0 = token := nth_eq _ _

theorem nth_drop (t : Tokens) (first count : Nat) :
    (t.drop first).nth count = t.nth (first + count) := by
  rw [nth_eq, nth_eq]
  exact congrArg (·.getD t.final) getElem?_drop

theorem drop_drop (t : Tokens) (first count : Nat) :
    (t.drop first).drop count = t.drop (first + count) := by
  simp only [drop, List.drop_drop]

end Tokens

namespace Cursor

def ahead (c : Cursor) : Tokens := .readFrom (c.rest.length + 1) [] c

theorem ahead_of_end (h : c.skipTrivia.rest = []) : c.ahead = ⟨[], .ok c.skipTrivia.pos⟩ := by
  rw [ahead, Tokens.readFrom, token_of_nil h]
  rfl

theorem ahead_of_error (h : c.token = .error why) : c.ahead = ⟨[], .error why⟩ := by
  rw [ahead, Tokens.readFrom, h]
  rfl

theorem ahead_of_token (h : c.token = .ok (token, next)) (hne : token.lexeme ≠ .eof) :
    c.ahead = ⟨token :: next.ahead.tokens, next.ahead.ending⟩ := by
  have hless : next.rest.length < c.rest.length := by
    obtain ⟨-, htoken⟩ | ⟨lexeme, length, htoken, hlength, hrest⟩ | ⟨cause, htoken, -⟩ :=
      c.token_cases
    · rw [h] at htoken
      cases htoken
      exact absurd rfl hne
    · rw [h] at htoken
      cases htoken
      exact c.length_next hlength hrest
    · rw [h] at htoken
      cases htoken
  obtain ⟨more, hmore⟩ := Nat.exists_eq_add_of_lt hless
  have hfuel : c.rest.length = next.rest.length + 1 + more := by omega
  rw [ahead, Tokens.readFrom_next token next h hne, Tokens.readFrom_behind, hfuel,
    Tokens.readFrom_enough _ more (Nat.lt_succ_self _)]
  rfl

theorem token_at_end (h : c.rest = []) : c.token = .ok (⟨.eof, c.pos⟩, c) := by
  obtain ⟨rest, pos⟩ := c
  cases h
  rfl

theorem token_ne_error (h : c.token = .ok (token, next)) : token.lexeme ≠ .error := by
  simp only [Cursor.token] at h
  split at h
  · cases h
    rintro ⟨⟩
  · split at h
    · next hlongest =>
      cases h
      obtain ⟨form, -, hlexeme, -⟩ := Lexeme.longest_ok_iff.mp hlongest
      exact (Lexeme.Form.lexeme?_real hlexeme).2
    · cases h

end Cursor

namespace Lexer

inductive Holds : Lexer → Tokens → Prop
  | read (c : Cursor) : Holds ⟨c, none, none⟩ c.ahead
  | shown {c : Cursor} {token : Token} (hreal : token.lexeme ≠ .eof ∧ token.lexeme ≠ .error) :
      Holds ⟨c, some token, none⟩ ⟨token :: c.ahead.tokens, c.ahead.ending⟩
  | ended {c : Cursor} (hrest : c.rest = []) :
      Holds ⟨c, some ⟨.eof, c.pos⟩, none⟩ ⟨[], .ok c.pos⟩
  | failed {c : Cursor} {ahead : Option Token} {why : Diagnostic}
      (hahead : ahead = none ∨ ahead = some ⟨.error, why.pos⟩) :
      Holds ⟨c, ahead, some why⟩ ⟨[], .error why⟩

theorem holds_end (h : c.rest = []) : Holds ⟨c, none, none⟩ ⟨[], .ok c.pos⟩ := by
  have hahead : c.ahead = ⟨[], .ok c.pos⟩ := by
    rw [Cursor.ahead, Tokens.readFrom, Cursor.token_at_end h]
    rfl
  rw [← hahead]
  exact .read c

theorem holds_ofSource (source : Bytes) : (ofSource source).Holds (.ofSource source) := .read _

theorem Holds.scan {failure : Option Diagnostic} (h : Holds ⟨c, none, failure⟩ t) :
    (scan ⟨c, none, failure⟩).1 = t.nth 0 ∧
      Holds (scan ⟨c, none, failure⟩).2 (t.drop 1) ∧
      Holds { (scan ⟨c, none, failure⟩).2 with ahead := some (scan ⟨c, none, failure⟩).1 } t ∧
      ((scan ⟨c, none, failure⟩).1.lexeme = .error ↔
        (scan ⟨c, none, failure⟩).2.failure.isSome = true) := by
  cases h with
  | failed _ => exact ⟨rfl, .failed (.inl rfl), .failed (.inr rfl), by simp [Lexer.scan]⟩
  | read =>
    cases htoken : c.token with
    | error why =>
      have hscan : Lexer.scan ⟨c, none, none⟩ = (⟨.error, why.pos⟩, ⟨c, none, some why⟩) := by
        simp only [Lexer.scan, htoken]
      rw [hscan, Cursor.ahead_of_error htoken]
      exact ⟨rfl, .failed (.inl rfl), .failed (.inr rfl), by simp⟩
    | ok found =>
      obtain ⟨token, next⟩ := found
      have hscan : Lexer.scan ⟨c, none, none⟩ = (token, ⟨next, none, none⟩) := by
        simp only [Lexer.scan, htoken]
      have hne := Cursor.token_ne_error htoken
      rw [hscan]
      by_cases hend : token.lexeme = .eof
      · have hrest := Cursor.rest_of_eof htoken hend
        rw [Cursor.token_of_nil hrest] at htoken
        cases htoken
        rw [Cursor.ahead_of_end hrest]
        -- the cursor stays at the end, where the end is read again
        exact ⟨rfl, holds_end hrest, .ended hrest, by simp⟩
      · rw [Cursor.ahead_of_token htoken hend]
        exact ⟨(Tokens.nth_cons _ _ _).symm, .read next, .shown ⟨hend, hne⟩, by simpa using hne⟩

end Lexer

def LexerCall.taken : LexerCall → Nat
  | .next => 1
  | .peek => 0

theorem LexerCall.count_cons (call : LexerCall) (rest : List LexerCall) :
    (call :: rest).count .next = call.taken + rest.count .next := by
  cases call with
  | next => rw [count_cons_self, Nat.add_comm, taken]
  | peek => rw [count_cons_of_ne (by decide), taken, Nat.zero_add]

namespace Lexer

theorem Holds.answer (h : l.Holds t) (call : LexerCall) :
    (l.answer call).1 = t.nth 0 ∧ (l.answer call).2.Holds (t.drop call.taken) ∧
      ((l.answer call).1.lexeme = .error ↔ (l.answer call).2.failure.isSome = true) := by
  have hread : ∀ {c failure t}, Holds ⟨c, none, failure⟩ t →
      ((⟨c, none, failure⟩ : Lexer).answer call).1 = t.nth 0 ∧
      ((⟨c, none, failure⟩ : Lexer).answer call).2.Holds (t.drop call.taken) ∧
      (((⟨c, none, failure⟩ : Lexer).answer call).1.lexeme = .error ↔
        ((⟨c, none, failure⟩ : Lexer).answer call).2.failure.isSome = true) := by
    intro c failure t hc
    obtain ⟨htoken, hnext, hpeek, herror⟩ := hc.scan
    cases call with
    | next => exact ⟨htoken, hnext, herror⟩
    | peek => exact ⟨htoken, hpeek, herror⟩
  cases h with
  | read c => exact hread (.read c)
  | shown hreal =>
    cases call with
    | next =>
      exact ⟨(Tokens.nth_cons _ _ _).symm, .read _,
        by simpa [Lexer.answer, Lexer.next] using hreal.2⟩
    | peek =>
      exact ⟨(Tokens.nth_cons _ _ _).symm, .shown hreal,
        by simpa [Lexer.answer, Lexer.peek] using hreal.2⟩
  | @ended c hrest =>
    cases call with
    | next => exact ⟨rfl, holds_end hrest, by simp [Lexer.answer, Lexer.next]⟩
    | peek => exact ⟨rfl, .ended hrest, by simp [Lexer.answer, Lexer.peek]⟩
  | @failed c ahead why hahead =>
    rcases hahead with rfl | rfl
    · exact hread (.failed (.inl rfl))
    · cases call with
      | next => exact ⟨rfl, .failed (.inl rfl), by simp [Lexer.answer, Lexer.next]⟩
      | peek => exact ⟨rfl, .failed (.inr rfl), by simp [Lexer.answer, Lexer.peek]⟩

theorem failure_answer (h : l.failure = some why) (call : LexerCall) :
    (l.answer call).2.failure = some why := by
  obtain ⟨c, ahead, failure⟩ := l
  cases h
  cases call <;> cases ahead <;> rfl

theorem answers_append (l : Lexer) (calls more : List LexerCall) :
    l.answers (calls ++ more) =
      ((l.answers calls).1 ++ ((l.answers calls).2.answers more).1,
        ((l.answers calls).2.answers more).2) := by
  induction calls generalizing l with
  | nil => rfl
  | cons call rest ih =>
    simp only [cons_append, answers, ih]

theorem failure_answers (h : l.failure = some why) (calls : List LexerCall) :
    (l.answers calls).2.failure = some why := by
  induction calls generalizing l with
  | nil => exact h
  | cons call rest ih => exact ih (failure_answer h call)

theorem Holds.answers (h : l.Holds t) (calls : List LexerCall) :
    (l.answers calls).2.Holds (t.drop (calls.count .next)) := by
  induction calls generalizing l t with
  | nil => exact h
  | cons call rest ih =>
    have hrest := ih (h.answer call).2.1
    rw [Tokens.drop_drop, ← LexerCall.count_cons] at hrest
    exact hrest

theorem Holds.getElem?_answers (h : l.Holds t) (calls : List LexerCall) (i : Nat) :
    (l.answers calls).1[i]? = calls[i]?.map fun _ => t.nth ((calls.take i).count .next) := by
  induction calls generalizing l t i with
  | nil => rfl
  | cons call rest ih =>
    obtain ⟨htoken, hafter, -⟩ := h.answer call
    cases i with
    | zero => exact congrArg some htoken
    | succ i =>
      change ((l.answer call).2.answers rest).1[i]? = rest[i]?.map _
      rw [ih hafter i, Tokens.nth_drop, take_succ_cons, LexerCall.count_cons]

theorem Holds.answer_behind (h : l.Holds t) (before : List LexerCall) (call : LexerCall)
    (after : List LexerCall) :
    (l.answers (before ++ call :: after)).1[before.length]? =
      some (t.nth (before.count .next)) := by
  rw [h.getElem?_answers]
  simp

theorem Holds.answers_peek (h : l.Holds t) (before : List LexerCall) (between : Nat)
    (after : List LexerCall) :
    (l.answers (before ++ .peek :: (List.replicate between .peek ++
      .next :: after))).1[before.length]? =
      (l.answers (before ++ .peek :: (List.replicate between .peek ++
        .next :: after))).1[before.length + 1 + between]? := by
  let peeks := before ++ LexerCall.peek :: replicate between .peek
  have hsame : before ++ .peek :: (replicate between .peek ++ .next :: after) =
      peeks ++ .next :: after := by
    rw [append_assoc, cons_append]
  have hlength : before.length + 1 + between = peeks.length := by
    rw [length_append, length_cons, length_replicate]
    omega
  have hcount : peeks.count .next = before.count .next := by
    simp [peeks, count_replicate]
  rw [h.answer_behind, hsame, hlength, h.answer_behind, hcount]

theorem Holds.taken_answers (h : l.Holds t) (calls : List LexerCall) :
    ((calls.zip (l.answers calls).1).filter (·.1 = .next)).map (·.2) =
      (List.range (calls.count .next)).map t.nth := by
  induction calls generalizing l t with
  | nil => rfl
  | cons call rest ih =>
    obtain ⟨htoken, hafter, -⟩ := h.answer call
    have hrest := ih hafter
    change map _ (filter _ ((call, (l.answer call).1) ::
      rest.zip ((l.answer call).2.answers rest).1)) = _
    cases call with
    | next =>
      rw [filter_cons_of_pos (by simp), map_cons, hrest, count_cons_self,
        range_succ_eq_map, map_cons, map_map, htoken]
      congr 1
      refine map_congr_left fun k _ => ?_
      rw [Tokens.nth_drop, Function.comp_apply, Nat.succ_eq_one_add]
      rfl
    | peek =>
      rw [filter_cons_of_neg (by simp), hrest, count_cons_of_ne (by decide)]
      rfl

theorem Holds.failure_iff (h : l.Holds t) (calls : List LexerCall) :
    (l.answers calls).2.failure.isSome = true ↔
      l.failure.isSome = true ∨ ∃ token ∈ (l.answers calls).1, token.lexeme = .error := by
  induction calls generalizing l t with
  | nil => simp [Lexer.answers]
  | cons call rest ih =>
    obtain ⟨-, hafter, herror⟩ := h.answer call
    have hkept : l.failure.isSome = true → (l.answer call).2.failure.isSome = true := by
      intro hsome
      obtain ⟨why, hwhy⟩ := Option.isSome_iff_exists.mp hsome
      rw [failure_answer hwhy call]
      rfl
    change ((l.answer call).2.answers rest).2.failure.isSome = true ↔ _ ∨
      ∃ token ∈ (l.answer call).1 :: ((l.answer call).2.answers rest).1, token.lexeme = .error
    simp only [mem_cons, exists_eq_or_imp, herror, ih hafter]
    constructor
    · rintro (hknown | htold)
      · exact .inr (.inl hknown)
      · exact .inr (.inr htold)
    · rintro (hbefore | hknown | htold)
      · exact .inl (hkept hbefore)
      · exact .inl hknown
      · exact .inr htold

theorem Holds.ending_of_failure (h : l.Holds t) (hwhy : l.failure = some why) :
    t.ending = .error why := by
  cases h with
  | failed _ =>
    cases hwhy
    rfl
  | _ => cases hwhy

/-- Whatever the calls, looking ahead is not noticed. The calls that take a token are answered with
the tokens of the source in order, and then with its end or its failure for good; a call that looks
ahead is answered like the next one that takes a token. A failure is known as soon as an answer
tells of it, is the one that ends the tokens, and never changes. -/
theorem answers_transparent (source : Bytes) (calls : List LexerCall) :
    let t := Tokens.ofSource source
    let answers := ((ofSource source).answers calls).1
    let failureAfter := fun calls => ((ofSource source).answers calls).2.failure
    ((calls.zip answers).filter (·.1 = .next)).map (·.2) =
      (range (calls.count .next)).map t.nth ∧
    (∀ i, answers[i]? = calls[i]?.map fun _ => t.nth ((calls.take i).count .next)) ∧
    (∀ before between after,
      calls = before ++ .peek :: (replicate between .peek ++ .next :: after) →
      answers[before.length]? = answers[before.length + 1 + between]?) ∧
    ((failureAfter calls).isSome = true ↔ ∃ token ∈ answers, token.lexeme = .error) ∧
    ∀ why, failureAfter calls = some why →
      t.ending = .error why ∧ ∀ more, failureAfter (calls ++ more) = some why := by
  intro t answers failureAfter
  have hholds := holds_ofSource source
  have hanswers := hholds.getElem?_answers calls
  refine ⟨hholds.taken_answers calls, hanswers, ?_, ?_, ?_⟩
  · rintro before between after rfl
    exact hholds.answers_peek before between after
  · refine (hholds.failure_iff calls).trans ?_
    rw [show (ofSource source).failure = none from rfl, Option.isSome_none]
    exact ⟨fun h => h.resolve_left Bool.false_ne_true, .inr⟩
  · intro why hwhy
    refine ⟨(hholds.answers calls).ending_of_failure hwhy, fun more => ?_⟩
    change ((ofSource source).answers (calls ++ more)).2.failure = _
    rw [answers_append]
    exact failure_answers hwhy more

end Lexer

end Shading
