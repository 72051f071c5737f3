import Shading.Proofs.Lexing.Partition

/-!
Sources that differ in their blanks and comments only. A form that a blank
follows is the longest one wherever it stands, so the forms of a source can be
set apart by other blanks and comments and are read as the same lexemes.
-/

namespace Shading

open List

open Text (byte)

variable {source : Bytes} {spans : List Span}

namespace Lexeme

/-- Blanks and comments that start with a blank. -/
def Spacing (gap : Bytes) : Prop := Trivia gap ∧ ∃ b ∈ gap.head?, isBlank b = true

/-- Forms, each with the bytes that follow it. -/
def weave (pieces : List (Form × Bytes)) : Bytes :=
  pieces.flatMap fun piece => piece.1.text ++ piece.2

theorem isBlank_iff (b : UInt8) : isBlank b = true ↔ b ∈ [0x20, 0x09, 0x0A, 0x0D, 0x0B, 0x0C] := by
  simp [isBlank, or_assoc]

theorem continuesWord_blank {b : UInt8} (h : isBlank b = true) : continuesWord b = false := by
  have hall : ∀ b ∈ ([0x20, 0x09, 0x0A, 0x0D, 0x0B, 0x0C] : Bytes), continuesWord b = false := by
    decide +kernel
  exact hall b ((isBlank_iff b).mp h)

namespace Form

variable {f g : Form} {b : UInt8}

theorem Valid.head (hf : f.Valid) : ∃ b rest, f.text = b :: rest ∧ isBlank b = false ∧
    (b = byte '/' → rest = []) ∧ (b = byte '"' → ∃ body, f = .string body) := by
  have hword {b : UInt8} (hb : continuesWord b = true) :
      isBlank b = false ∧ b ≠ byte '/' ∧ b ≠ byte '"' := by
    refine ⟨?_, ?_, ?_⟩
    · by_contra hblank
      rw [continuesWord_blank (by simpa using hblank)] at hb
      cases hb
    · rintro rfl
      exact absurd hb (by decide)
    · rintro rfl
      exact absurd hb (by decide)
  cases f with
  | word text =>
    obtain ⟨⟨b, hb, -⟩, hall⟩ := hf
    obtain ⟨rest, rfl⟩ := head?_eq_some_iff.mp hb
    obtain ⟨hblank, hslash, hquote⟩ := hword (hall b mem_cons_self)
    exact ⟨b, rest, rfl, hblank, fun h => absurd h hslash, fun h => absurd h hquote⟩
  | number negative whole part =>
    obtain ⟨b, rest, rfl⟩ := exists_cons_of_ne_nil hf.1
    cases negative with
    | false =>
      have hdigit : continuesWord b = true := by
        rw [continuesWord, hf.2.1 b mem_cons_self, Bool.or_true]
      obtain ⟨hblank, hslash, hquote⟩ := hword hdigit
      exact ⟨b, rest ++ fractionText part, by simp [text], hblank, fun h => absurd h hslash,
        fun h => absurd h hquote⟩
    | true =>
      exact ⟨byte '-', b :: (rest ++ fractionText part), by simp [text], by decide,
        fun h => absurd h (by decide), fun h => absurd h (by decide)⟩
  | string body => exact ⟨byte '"', _, rfl, by decide, fun h => absurd h (by decide),
      fun _ => ⟨body, rfl⟩⟩
  | mark m =>
    cases m with
    | slash => exact ⟨_, _, rfl, by decide, fun _ => rfl, fun h => absurd h (by decide)⟩
    | _ => exact ⟨_, _, rfl, by decide, fun h => absurd h (by decide),
        fun h => absurd h (by decide)⟩

theorem Valid.string_of_blank (hf : f.Valid) (hmem : b ∈ f.text) (hb : isBlank b = true) :
    ∃ body, f = .string body := by
  have hnone := continuesWord_blank hb
  have hdigit : isDigit b = false := (Bool.or_eq_false_iff.mp hnone).2
  cases f with
  | word text =>
    rw [hf.2 b hmem] at hnone
    cases hnone
  | number negative whole part =>
    obtain ⟨-, hwhole, hpart⟩ := hf
    simp only [text, mem_append] at hmem
    rcases hmem with hsign | hmem | hmem
    · cases negative with
      | false => cases hsign
      | true =>
        rw [mem_singleton.mp hsign] at hb
        cases hb
    · rw [hwhole b hmem] at hdigit
      cases hdigit
    · cases part with
      | none => cases hmem
      | some digits =>
        rcases mem_cons.mp hmem with rfl | hmem
        · cases hb
        · rw [hpart digits rfl b hmem] at hdigit
          cases hdigit
  | string body => exact ⟨body, rfl⟩
  | mark m =>
    have hmarks : ∀ m : Mark, ∀ b ∈ m.spelling, isBlank b = false := by
      intro m
      cases m <;> decide +kernel
    rw [hmarks m b hmem] at hb
    cases hb

theorem Valid.longest_of_blank (hf : f.Valid) (hb : isBlank b = true) (after : Bytes) :
    f.Longest (f.text ++ b :: after) := by
  refine ⟨⟨hf, prefix_append _ _⟩, fun g hg => ?_⟩
  by_contra hlonger
  have hblank : f.text ++ [b] <+: g.text := by
    refine prefix_of_prefix_length_le ⟨after, by simp⟩ hg.2 ?_
    rw [length_append, length_singleton]
    omega
  obtain ⟨body, rfl⟩ := hg.1.string_of_blank (hblank.subset (by simp)) hb
  obtain ⟨first, rest, hfirst, -, -, hquote⟩ := hf.head
  rw [hfirst, cons_append, text, cons_prefix_cons] at hblank
  obtain ⟨rfl, htail⟩ := hblank
  obtain ⟨inner, rfl⟩ := hquote rfl
  obtain rfl : inner ++ [byte '"'] = rest := (cons.inj hfirst).2
  have hinside : inner ++ [byte '"'] <+: body := by
    have hlength := htail.length_le
    simp only [length_append, length_singleton] at hlength
    refine prefix_of_prefix_length_le ((prefix_append _ _).trans htail)
      (prefix_append _ _) ?_
    rw [length_append, length_singleton]
    omega
  exact hg.1 (hinside.subset (by simp))

theorem Valid.not_startsTrivia (hf : f.Valid) (hb : isBlank b = true) (after : Bytes) :
    startsTrivia (f.text ++ b :: after) = false := by
  obtain ⟨first, rest, hfirst, hblank, hslash, -⟩ := hf.head
  rw [hfirst, cons_append, startsTrivia, hblank, Bool.false_or]
  by_cases hfirst : first = byte '/'
  · have hne : b ≠ byte '/' := by
      rintro rfl
      cases hb
    simp [hslash hfirst, hne]
  · simp [hfirst]

end Form

end Lexeme

open Lexeme (Form Trivia Spacing weave)

namespace Span

theorem drop_gap (before gap after : Bytes) :
    (before ++ (gap ++ after)).drop (before.length + gap.length) = after := by
  rw [← append_assoc, ← length_append, drop_left]

theorem slice_gap (before gap after : Bytes) :
    slice (before ++ (gap ++ after)) before.length (before.length + gap.length) = gap := by
  rw [slice, drop_left, Nat.add_sub_cancel_left, take_left]

/-- Where the first of spans starts, or the place behind them all. -/
def opening (place : Nat) : List Span → Nat
  | [] => place
  | s :: _ => s.start

/-- The form of every span, with the bytes between it and the next one. -/
def pieces (source : Bytes) (place : Nat) : List Span → List (Form × Bytes)
  | [] => []
  | s :: rest => (s.form, slice source s.stop (opening place rest)) :: pieces source place rest

theorem Tile.weave_pieces {first : Nat} (h : Tile source first spans source.length) :
    slice source first (opening source.length spans) ++ weave (pieces source source.length spans) =
      source.drop first := by
  induction spans generalizing first with
  | nil =>
    have hwhole := slice_append_drop source h.1
    rwa [drop_length] at hwhole
  | cons s rest ih =>
    obtain ⟨hle, -, hlongest, hrest⟩ := h
    have hform : s.form.text ++ source.drop s.stop = source.drop s.start := by
      obtain ⟨after, hafter⟩ := hlongest.1.2
      rw [stop, ← drop_drop, ← hafter, drop_left]
    rw [pieces, weave, flatMap_cons, ← weave, append_assoc, ih hrest, hform]
    exact slice_append_drop source hle

theorem Tile.valid {first place : Nat} (h : Tile source first spans place) :
    ∀ s ∈ spans, s.form.Valid := by
  induction spans generalizing first with
  | nil => exact nofun
  | cons s rest ih => exact forall_mem_cons.mpr ⟨h.2.2.1.1.1, ih h.2.2.2⟩

theorem map_lexeme? {tokens : List Token} (h : spans.map (token? source) = tokens.map some) :
    spans.map (·.form.lexeme?) = (tokens.map (·.lexeme)).map some := by
  have hlexemes := congrArg (map (Option.map Token.lexeme)) h
  simp only [map_map] at hlexemes ⊢
  refine Eq.trans (map_congr_left fun s _ => ?_) hlexemes
  simp [token?, Function.comp_def]

end Span

namespace Tokens

theorem exists_partition_weave (before : Bytes) {gap : Bytes} {pieces : List (Form × Bytes)}
    {lexemes : List Lexeme} (hgap : Trivia gap)
    (hpieces : ∀ piece ∈ pieces, piece.1.Valid ∧ Spacing piece.2)
    (hlexemes : pieces.map (·.1.lexeme?) = lexemes.map some) :
    ∃ (spans : List Span) (place : Nat) (t : Tokens),
      t.Partition (before ++ (gap ++ weave pieces)) before.length spans place ∧
      t.tokens.map (·.lexeme) = lexemes ∧ ∃ last, t.ending = .ok last := by
  induction pieces generalizing before gap lexemes with
  | nil =>
    obtain rfl : lexemes = [] := by simpa using hlexemes.symm
    have hplace : before.length + gap.length = (before ++ (gap ++ weave [])).length := by
      simp [weave]
    refine ⟨[], before.length + gap.length, ⟨[], .ok (.ofOffset _ (before.length + gap.length))⟩,
      ⟨⟨Nat.le_add_right _ _, Nat.le_of_eq hplace, ?_⟩, rfl, hplace, rfl⟩, rfl, _, rfl⟩
    rw [Span.slice_gap, Span.drop_gap]
    exact .inl ⟨hgap, rfl⟩
  | cons piece rest ih =>
    obtain ⟨f, next⟩ := piece
    obtain ⟨⟨hvalid, hnext, b, hb, hblank⟩, hrest⟩ := forall_mem_cons.mp hpieces
    obtain ⟨behind, hbehind⟩ := head?_eq_some_iff.mp hb
    cases lexemes with
    | nil => cases hlexemes
    | cons lexeme lexemes =>
      obtain ⟨hlexeme, hothers⟩ : f.lexeme? = some lexeme ∧ _ := cons.inj hlexemes
      obtain ⟨spans, place, t, ⟨htile, htokens, hends⟩, hread, hended⟩ :=
        ih (before ++ (gap ++ f.text)) hnext hrest hothers
      have hafter : weave ((f, next) :: rest) = f.text ++ b :: (behind ++ weave rest) := by
        dsimp only at hbehind
        simp [weave, hbehind]
      have hsource : before ++ (gap ++ f.text) ++ (next ++ weave rest) =
          before ++ (gap ++ weave ((f, next) :: rest)) := by simp [weave]
      have hlength : (before ++ (gap ++ f.text)).length =
          Span.stop ⟨before.length + gap.length, f⟩ := by
        simp [Span.stop, Nat.add_assoc]
      rw [hsource] at htile htokens hends
      rw [hlength] at htile
      let found : Token :=
        ⟨lexeme, .ofOffset (before ++ (gap ++ weave ((f, next) :: rest)))
          (before.length + gap.length)⟩
      refine ⟨⟨before.length + gap.length, f⟩ :: spans, place, ⟨found :: t.tokens, t.ending⟩,
        ⟨⟨Nat.le_add_right _ _, ?_, ?_, htile⟩, ?_, hends⟩, ?_, hended⟩
      · rw [Span.slice_gap, Span.drop_gap, hafter]
        exact .inl ⟨hgap, hvalid.not_startsTrivia hblank _⟩
      · rw [Span.drop_gap, hafter]
        exact hvalid.longest_of_blank hblank _
      · rw [map_cons, map_cons, htokens, Span.token?, hlexeme]
        rfl
      · rw [map_cons, hread]

/-- Blanks and comments are interchangeable. A source whose tokens end at its end is made of the
forms of its spans and the gaps before, between and behind them. With any blanks and comments, or
none, before the first form, and any that start with a blank behind every form, the same lexemes are
read, again up to the end. -/
theorem ofSource_respaced {source : Bytes} {last : Position}
    (h : (ofSource source).ending = .ok last) :
    ∃ spans, (ofSource source).Partition source 0 spans source.length ∧
      Span.slice source 0 (Span.opening source.length spans) ++
        weave (Span.pieces source source.length spans) = source ∧
      ∀ (lead : Bytes) (gaps : List Bytes), Trivia lead → gaps.length = spans.length →
        (∀ gap ∈ gaps, Spacing gap) →
        let respaced := ofSource (lead ++ weave ((spans.map (·.form)).zip gaps))
        respaced.tokens.map (·.lexeme) = (ofSource source).tokens.map (·.lexeme) ∧
          ∃ last, respaced.ending = .ok last := by
  obtain ⟨spans, place, hpartition⟩ := ofSource_partition source
  obtain ⟨rfl, -⟩ : place = source.length ∧ last = .ofOffset source place := by
    have hends := hpartition.ending
    rwa [h] at hends
  refine ⟨spans, hpartition, hpartition.tile.weave_pieces, fun lead gaps hlead hlength hgaps => ?_⟩
  have hforms : ((spans.map (·.form)).zip gaps).map (·.1) = spans.map (·.form) :=
    map_fst_zip (by simp [hlength])
  have hlexemes : ((spans.map (·.form)).zip gaps).map (·.1.lexeme?) =
      ((ofSource source).tokens.map (·.lexeme)).map some := by
    rw [← Span.map_lexeme? hpartition.tokens, ← Function.comp_def Form.lexeme?, ← map_map, hforms,
      map_map, Function.comp_def]
  have hpieces : ∀ piece ∈ (spans.map (·.form)).zip gaps, piece.1.Valid ∧ Spacing piece.2 := by
    intro piece hpiece
    obtain ⟨hform, hgap⟩ := of_mem_zip hpiece
    obtain ⟨s, hs, hform⟩ := mem_map.mp hform
    exact ⟨hform ▸ hpartition.tile.valid s hs, hgaps _ hgap⟩
  obtain ⟨_, _, t, hwoven, hread, hended⟩ := exists_partition_weave [] hlead hpieces hlexemes
  rw [nil_append] at hwoven
  rw [ofSource_of_partition hwoven]
  exact ⟨hread, hended⟩

def tightSource : Bytes := Text.utf8 "a:=-1//b"

theorem tightSource_respaced : ∃ spans, (ofSource tightSource).Partition tightSource 0 spans 8 ∧
    spans.length = 3 ∧ ∀ (lead : Bytes) (gaps : List Bytes), Trivia lead → gaps.length = 3 →
      (∀ gap ∈ gaps, Spacing gap) →
      (ofSource (lead ++ weave ((spans.map (·.form)).zip gaps))).tokens.map (·.lexeme) =
        [.sym (Text.utf8 "a"), .mark .assign, .integer (-1)] := by
  have hending : (ofSource tightSource).ending = .ok ⟨1, 9⟩ := by rfl
  have hlexemes : (ofSource tightSource).tokens.map (·.lexeme) =
      [.sym (Text.utf8 "a"), .mark .assign, .integer (-1)] := by decide
  obtain ⟨spans, hspans, -, hrespaced⟩ := ofSource_respaced hending
  have hlength : spans.length = 3 := by
    have hcount := congrArg length hspans.tokens
    rw [length_map, length_map] at hcount
    rw [hcount]
    decide
  refine ⟨spans, hspans, hlength, fun lead gaps hlead hgaps hspacing => ?_⟩
  rw [(hrespaced lead gaps hlead (hgaps.trans hlength.symm) hspacing).1, hlexemes]

end Tokens

end Shading
