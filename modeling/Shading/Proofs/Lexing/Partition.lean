import Shading.Proofs.Lexing.Forms

/-!
The tokens of a source and the blanks and comments between them partition it.
Every token takes the bytes of a form, which is the longest one where it
stands, and is told by it; what lies between is all the trivia there is. Where
no form can be read the tokens end, and this is told of any source by one
relation that no other sequence of tokens satisfies.
-/

namespace Shading

open List

open Text (byte)

variable {b : UInt8} {body gap after : Bytes}

namespace Lexeme

/-- Blanks and comments, where every comment ends in a line break. -/
inductive Trivia : Bytes → Prop
  | nil : Trivia []
  | blank {b : UInt8} {rest : Bytes} : isBlank b = true → Trivia rest → Trivia (b :: rest)
  | comment {body rest : Bytes} : lineBreak ∉ body → Trivia rest →
      Trivia (byte '/' :: byte '/' :: (body ++ lineBreak :: rest))

def startsTrivia : Bytes → Bool
  | [] => false
  | b :: rest => isBlank b || (b = byte '/' && rest.head? = some (byte '/'))

def Gap (gap after : Bytes) : Prop :=
  Trivia gap ∧ startsTrivia after = false ∨
    after = [] ∧ ∃ closed body, Trivia closed ∧ lineBreak ∉ body ∧
      gap = closed ++ byte '/' :: byte '/' :: body

theorem triviaLength_blank (hb : isBlank b = true) (rest : Bytes) :
    triviaLength (b :: rest) = triviaLength rest + 1 := by
  rw [triviaLength, triviaFrom, if_pos hb, triviaFrom_add, Nat.add_comm]
  rfl

theorem triviaFrom_comment (count : Nat) (hbody : lineBreak ∉ body) (rest : Bytes) :
    triviaFrom count true (body ++ rest) = triviaFrom (count + body.length) true rest := by
  induction body generalizing count with
  | nil => rfl
  | cons b body ih =>
    obtain ⟨hb, hbody⟩ := not_or.mp (mt mem_cons.mpr hbody)
    have hgoes : decide (b ≠ byte '\n') = true := decide_eq_true (Ne.symm hb)
    rw [cons_append, triviaFrom, hgoes, ih _ hbody, length_cons]
    congr 1
    omega

theorem triviaLength_comment (hbody : lineBreak ∉ body) (rest : Bytes) :
    triviaLength (byte '/' :: byte '/' :: (body ++ rest)) =
      triviaFrom (body.length + 2) true rest := by
  have hslashes : lineBreak ∉ byte '/' :: body :=
    mt mem_cons.mp (not_or.mpr ⟨by decide, hbody⟩)
  have hcomment := triviaFrom_comment 1 hslashes rest
  rw [length_cons] at hcomment
  have hstart : triviaLength (byte '/' :: byte '/' :: (body ++ rest)) =
      triviaFrom 1 true (byte '/' :: body ++ rest) := rfl
  rw [hstart, hcomment]
  congr 1
  omega

theorem Trivia.triviaLength_append (h : Trivia gap) (after : Bytes) :
    triviaLength (gap ++ after) = gap.length + triviaLength after := by
  induction h with
  | nil => exact (Nat.zero_add _).symm
  | blank hb _ ih =>
    rw [cons_append, triviaLength_blank hb, ih, length_cons]
    omega
  | comment hbody _ ih =>
    rename_i body rest _
    have htext : byte '/' :: byte '/' :: (body ++ lineBreak :: rest) ++ after =
        byte '/' :: byte '/' :: (body ++ lineBreak :: (rest ++ after)) := by simp
    have hbreak : triviaFrom (body.length + 2) true (lineBreak :: (rest ++ after)) =
        triviaFrom (body.length + 2 + 1) false (rest ++ after) := rfl
    rw [htext, triviaLength_comment hbody, hbreak, triviaFrom_add]
    have hrest : triviaFrom 0 false (rest ++ after) = rest.length + triviaLength after := ih
    rw [hrest]
    simp only [length_cons, length_append]
    omega

theorem triviaLength_of_stop (h : startsTrivia after = false) : triviaLength after = 0 := by
  cases after with
  | nil => rfl
  | cons b rest =>
    obtain ⟨hblank, hslash⟩ := Bool.or_eq_false_iff.mp h
    rw [triviaLength, triviaFrom, hblank, hslash]
    rfl

theorem Gap.triviaLength_append (h : Gap gap after) : triviaLength (gap ++ after) = gap.length := by
  obtain ⟨hgap, hstop⟩ | ⟨rfl, closed, body, hclosed, hbody, rfl⟩ := h
  · rw [hgap.triviaLength_append, triviaLength_of_stop hstop, Nat.add_zero]
  · have hcomment := triviaLength_comment hbody []
    rw [append_nil] at hcomment ⊢
    rw [hclosed.triviaLength_append, hcomment, length_append]
    rfl

theorem Gap.blank (hb : isBlank b = true) (h : Gap gap after) : Gap (b :: gap) after := by
  obtain ⟨hgap, hstop⟩ | ⟨hend, closed, body, hclosed, hbody, rfl⟩ := h
  · exact .inl ⟨.blank hb hgap, hstop⟩
  · exact .inr ⟨hend, b :: closed, body, .blank hb hclosed, hbody, rfl⟩

theorem Gap.comment (hbody : lineBreak ∉ body) (h : Gap gap after) :
    Gap (byte '/' :: byte '/' :: (body ++ lineBreak :: gap)) after := by
  obtain ⟨hgap, hstop⟩ | ⟨hend, closed, last, hclosed, hlast, rfl⟩ := h
  · exact .inl ⟨.comment hbody hgap, hstop⟩
  · exact .inr ⟨hend, _, last, .comment hbody hclosed, hlast, by simp⟩

theorem exists_gap (text : Bytes) : ∃ gap after, text = gap ++ after ∧ Gap gap after := by
  induction hlength : text.length using Nat.strongRecOn generalizing text with
  | ind length ih =>
    cases text with
    | nil => exact ⟨[], [], rfl, .inl ⟨.nil, rfl⟩⟩
    | cons b rest =>
      rw [length_cons] at hlength
      by_cases hblank : isBlank b = true
      · obtain ⟨gap, after, rfl, hgap⟩ := ih rest.length (by omega) rest rfl
        exact ⟨b :: gap, after, rfl, hgap.blank hblank⟩
      by_cases hslash : b = byte '/' ∧ rest.head? = some (byte '/')
      · obtain ⟨rfl, hsecond⟩ := hslash
        obtain ⟨rest, rfl⟩ := head?_eq_some_iff.mp hsecond
        by_cases hbreak : lineBreak ∈ rest
        · obtain ⟨body, others, rfl, hbody⟩ := eq_append_cons_of_mem hbreak
          simp only [length_cons, length_append] at hlength
          obtain ⟨gap, after, rfl, hgap⟩ := ih others.length (by omega) others rfl
          exact ⟨_, after, by simp, hgap.comment hbody⟩
        · exact ⟨byte '/' :: byte '/' :: rest, [], by simp, .inr ⟨rfl, [], rest, .nil, hbreak, rfl⟩⟩
      · refine ⟨[], b :: rest, rfl, .inl ⟨.nil, ?_⟩⟩
        simpa [startsTrivia, hblank] using hslash

end Lexeme

open Lexeme (Form Gap Refused)

/-- The bytes that a token takes: a form that starts at an offset. -/
structure Span where
  start : Nat
  form : Form
  deriving DecidableEq, Repr

variable {s : Span}

namespace Span

/-- The offset behind a span. -/
def stop (s : Span) : Nat := s.start + s.form.text.length

def token? (source : Bytes) (s : Span) : Option Token :=
  s.form.lexeme?.map fun lexeme => ⟨lexeme, .ofOffset source s.start⟩

/-- The bytes of a source from an offset up to another one. -/
def slice (source : Bytes) (first last : Nat) : Bytes := (source.drop first).take (last - first)

def Tile (source : Bytes) : Nat → List Span → Nat → Prop
  | first, [], place => first ≤ place ∧ place ≤ source.length ∧
      Gap (slice source first place) (source.drop place)
  | first, s :: rest, place => first ≤ s.start ∧
      Gap (slice source first s.start) (source.drop s.start) ∧
      s.form.Longest (source.drop s.start) ∧ Tile source s.stop rest place

end Span

def Tokens.Ends (source : Bytes) (place : Nat) : Except Diagnostic Position → Prop
  | .ok pos => place = source.length ∧ pos = .ofOffset source place
  | .error why => why.pos = .ofOffset source place ∧ Refused why.cause (source.drop place)

namespace Span

variable {source : Bytes} {first place : Nat}

theorem slice_append_drop (source : Bytes) (h : first ≤ place) :
    slice source first place ++ source.drop place = source.drop first := by
  have hdrop : source.drop place = (source.drop first).drop (place - first) := by
    rw [drop_drop, Nat.add_sub_cancel' h]
  rw [slice, hdrop, take_append_drop]

theorem length_slice (h : place ≤ source.length) :
    (slice source first place).length = place - first := by
  rw [slice, length_take, length_drop]
  omega

theorem stop_le (h : s.form.Longest (source.drop s.start)) :
    s.start < s.stop ∧ s.stop ≤ source.length := by
  have hpos := h.1.1.length_pos
  have hle := h.1.2.length_le
  rw [length_drop] at hle
  unfold stop
  omega

end Span

namespace Cursor

variable {source : Bytes} {first place : Nat} {c : Cursor}

theorem At.skipTrivia (h : c.At source first) (hle : first ≤ place) (hplace : place ≤ source.length)
    (hgap : Gap (Span.slice source first place) (source.drop place)) :
    c.skipTrivia.At source place := by
  have htrivia : Lexeme.triviaLength c.rest = place - first := by
    rw [h.2.1, ← Span.slice_append_drop source hle, hgap.triviaLength_append,
      Span.length_slice hplace]
  have hskip := h.advance (place - first)
  rw [Nat.add_sub_cancel' hle, Nat.min_eq_left hplace] at hskip
  rwa [Cursor.skipTrivia, htrivia]

theorem At.rest_pos (h : c.At source first) (hlt : first < source.length) :
    ∃ b rest, c.rest = b :: rest ∧ source.drop first = b :: rest := by
  obtain ⟨b, rest, hrest⟩ : ∃ b rest, source.drop first = b :: rest :=
    exists_cons_of_length_pos (by rw [length_drop]; omega)
  exact ⟨b, rest, h.2.1.trans hrest, hrest⟩

theorem At.token_span (h : c.At source first) {lexeme : Lexeme} (hle : first ≤ s.start)
    (hgap : Gap (Span.slice source first s.start) (source.drop s.start))
    (hlongest : s.form.Longest (source.drop s.start)) (hlexeme : s.form.lexeme? = some lexeme) :
    ∃ next, c.token = .ok (⟨lexeme, .ofOffset source s.start⟩, next) ∧ next.At source s.stop := by
  obtain ⟨hlt, hstop⟩ := Span.stop_le hlongest
  have hskip := h.skipTrivia hle (by omega) hgap
  obtain ⟨b, rest, hrest, htext⟩ := hskip.rest_pos (by omega)
  have hfound : Lexeme.longest b rest = .ok (lexeme, s.form.text.length) :=
    Lexeme.longest_ok_iff.mpr ⟨s.form, htext ▸ hlongest, hlexeme, rfl⟩
  refine ⟨c.skipTrivia.advance s.form.text.length, ?_, ?_⟩
  · simp only [Cursor.token, hrest, hfound, hskip.2.2]
  · have hnext : Cursor.At source (min s.stop source.length) _ :=
      hskip.advance s.form.text.length
    rwa [Nat.min_eq_left hstop] at hnext

theorem At.token_end (h : c.At source first) (hle : first ≤ source.length)
    (hgap : Gap (Span.slice source first source.length) (source.drop source.length)) :
    ∃ next, c.token = .ok (⟨.eof, .ofOffset source source.length⟩, next) := by
  have hskip := h.skipTrivia hle (Nat.le_refl _) hgap
  have hrest : c.skipTrivia.rest = [] := hskip.2.1.trans drop_length
  exact ⟨_, by rw [token_of_nil hrest, hskip.2.2]⟩

theorem At.token_refused (h : c.At source first) {cause : Cause} (hle : first ≤ place)
    (hplace : place ≤ source.length)
    (hgap : Gap (Span.slice source first place) (source.drop place))
    (hrefused : Refused cause (source.drop place)) :
    c.token = .error ⟨.ofOffset source place, cause⟩ := by
  have hskip := h.skipTrivia hle hplace hgap
  obtain ⟨b, rest, htext⟩ := hrefused.exists_cons
  have hfound : Lexeme.longest b rest = .error cause :=
    Lexeme.longest_error_iff.mpr (htext ▸ hrefused)
  simp only [Cursor.token, hskip.2.1, htext, hfound, hskip.2.2]

end Cursor

/-- The tokens from an offset on are those of spans that make up the source up to a place, where
they end. -/
structure Tokens.Partition (source : Bytes) (first : Nat) (spans : List Span) (place : Nat)
    (t : Tokens) : Prop where
  tile : Span.Tile source first spans place
  tokens : spans.map (Span.token? source) = t.tokens.map some
  ending : Tokens.Ends source place t.ending

namespace Tokens

variable {source : Bytes} {first place : Nat} {spans : List Span} {t : Tokens}

theorem readFrom_partition (fuel : Nat) {c : Cursor} (hc : c.At source first)
    (h : t.Partition source first spans place) (hfuel : c.rest.length < fuel) :
    readFrom fuel [] c = t := by
  obtain ⟨htile, htokens, hends⟩ := h
  obtain ⟨tokens, ending⟩ := t
  dsimp only at htokens hends
  induction spans generalizing first c fuel tokens with
  | nil =>
    obtain ⟨hle, hplace, hgap⟩ := htile
    obtain rfl : tokens = [] := by simpa using htokens.symm
    obtain ⟨fuel, rfl⟩ : ∃ more, fuel = more + 1 := ⟨fuel - 1, by omega⟩
    cases ending with
    | ok pos =>
      obtain ⟨rfl, rfl⟩ := hends
      obtain ⟨next, htoken⟩ := hc.token_end hle hgap
      rw [readFrom, htoken]
      rfl
    | error why =>
      obtain ⟨hpos, hrefused⟩ := hends
      rw [readFrom, hc.token_refused hle hplace hgap hrefused, ← hpos]
      rfl
  | cons s rest ih =>
    obtain ⟨hle, hgap, hlongest, hrest⟩ := htile
    cases tokens with
    | nil => cases htokens
    | cons token tokens =>
      obtain ⟨htoken, hothers⟩ := cons.inj htokens
      obtain ⟨lexeme, hlexeme, rfl⟩ := Option.map_eq_some_iff.mp htoken
      obtain ⟨next, hread, hnext⟩ := hc.token_span hle hgap hlongest hlexeme
      obtain ⟨fuel, rfl⟩ : ∃ more, fuel = more + 1 := ⟨fuel - 1, by omega⟩
      have hless : next.rest.length < fuel := by
        obtain ⟨hlt, hstop⟩ := Span.stop_le hlongest
        rw [hc.2.1, length_drop] at hfuel
        rw [hnext.2.1, length_drop]
        omega
      rw [readFrom_next _ next hread (Form.lexeme?_real hlexeme).1, readFrom_behind,
        ih fuel hnext hless hrest tokens hothers]
      rfl

theorem exists_partition (hfirst : first ≤ source.length) :
    ∃ (spans : List Span) (place : Nat) (t : Tokens), t.Partition source first spans place := by
  induction hleft : source.length - first using Nat.strongRecOn generalizing first with
  | ind left ih =>
    obtain ⟨gap, after, htext, hgap⟩ := Lexeme.exists_gap (source.drop first)
    have hlength : source.length - first = gap.length + after.length := by
      rw [← length_drop, htext, length_append]
    have hafter : source.drop (first + gap.length) = after := by
      rw [← drop_drop, htext, drop_left]
    have hslice : Span.slice source first (first + gap.length) = gap := by
      rw [Span.slice, htext, Nat.add_sub_cancel_left, take_left]
    rw [← hslice, ← hafter] at hgap
    cases after with
    | nil =>
      have hplace : first + gap.length = source.length := by
        rw [length_nil] at hlength
        omega
      exact ⟨[], _, ⟨[], .ok (.ofOffset source (first + gap.length))⟩,
        ⟨Nat.le_add_right _ _, Nat.le_of_eq hplace, hgap⟩, rfl, hplace, rfl⟩
    | cons b rest =>
      rw [length_cons] at hlength
      cases hfound : Lexeme.longest b rest with
      | error cause =>
        refine ⟨[], _, ⟨[], .error ⟨.ofOffset source (first + gap.length), cause⟩⟩,
          ⟨Nat.le_add_right _ _, by omega, hgap⟩, rfl, rfl, ?_⟩
        rw [hafter]
        exact Lexeme.longest_error_iff.mp hfound
      | ok found =>
        obtain ⟨lexeme, length⟩ := found
        obtain ⟨f, hf, hlexeme, -⟩ := Lexeme.longest_ok_iff.mp hfound
        have hlongest : f.Longest (source.drop (first + gap.length)) := by rwa [hafter]
        obtain ⟨hlt, hstop⟩ := Span.stop_le (s := ⟨first + gap.length, f⟩) hlongest
        change first + gap.length < _ at hlt
        obtain ⟨spans, place, t, htile, htokens, hends⟩ := ih _ (by omega) hstop rfl
        refine ⟨⟨first + gap.length, f⟩ :: spans, place,
          ⟨⟨lexeme, .ofOffset source (first + gap.length)⟩ :: t.tokens, t.ending⟩,
          ⟨Nat.le_add_right _ _, hgap, hlongest, htile⟩, ?_, hends⟩
        rw [map_cons, map_cons, htokens, Span.token?, hlexeme]
        rfl

end Tokens

theorem Span.Tile.ordered {source : Bytes} {first place : Nat} {spans : List Span}
    (h : Span.Tile source first spans place) : first ≤ place ∧ place ≤ source.length ∧
      (∀ s ∈ spans, first ≤ s.start ∧ s.start < s.stop ∧ s.stop ≤ place) ∧
      spans.Pairwise fun s t => s.stop ≤ t.start := by
  induction spans generalizing first with
  | nil => exact ⟨h.1, h.2.1, nofun, .nil⟩
  | cons s rest ih =>
    obtain ⟨hle, -, hlongest, hrest⟩ := h
    obtain ⟨hlt, -⟩ := stop_le hlongest
    obtain ⟨hstop, hplace, hinside, hordered⟩ := ih hrest
    refine ⟨by omega, hplace, forall_mem_cons.mpr ⟨⟨hle, hlt, hstop⟩, fun t ht => ?_⟩,
      pairwise_cons.mpr ⟨fun t ht => (hinside t ht).1, hordered⟩⟩
    obtain ⟨hstart, hrest⟩ := hinside t ht
    exact ⟨by omega, hrest⟩

namespace Tokens

theorem ofSource_of_partition {source : Bytes} {spans : List Span} {place : Nat} {t : Tokens}
    (h : t.Partition source 0 spans place) : ofSource source = t :=
  readFrom_partition _ (Cursor.at_ofSource source) h (Nat.lt_succ_self _)

theorem ofSource_partition (source : Bytes) :
    ∃ spans place, (ofSource source).Partition source 0 spans place := by
  obtain ⟨spans, place, t, h⟩ := exists_partition (Nat.zero_le source.length)
  exact ⟨spans, place, ofSource_of_partition h ▸ h⟩

/-- The tokens of a source are exactly those of spans that make it up. The spans are not empty, in
order and apart; what lies before and between them is all the blanks and comments there are; each
holds the longest form that starts where it starts, and its token has the lexeme of that form and
the line and column of its first byte. Behind the last one either the source ends or no lexeme can
be read, because no form starts there, a string is not closed, or an integer part is 2⁶³ or more;
the failure names that place. -/
theorem eq_ofSource_iff_partition (source : Bytes) (t : Tokens) :
    t = ofSource source ↔ ∃ spans place, t.Partition source 0 spans place ∧
      (∀ s ∈ spans, s.start < s.stop ∧ s.stop ≤ place) ∧
      spans.Pairwise fun s t => s.stop ≤ t.start := by
  constructor
  · rintro rfl
    obtain ⟨spans, place, h⟩ := ofSource_partition source
    obtain ⟨-, -, hinside, hordered⟩ := h.tile.ordered
    exact ⟨spans, place, h, fun s hs => (hinside s hs).2, hordered⟩
  · rintro ⟨spans, place, h, -⟩
    exact (ofSource_of_partition h).symm

end Tokens

end Shading
