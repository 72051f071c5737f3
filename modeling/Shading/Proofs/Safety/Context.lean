import Mathlib.Data.List.DropRight
import Shading.Proofs.Lexing.Partition
import Shading.Proofs.Safety.Diagnostics

/-!
A report points at its place. The line and the column of a place are counted
over the bytes of a source, and a report cuts that line out of the source again,
takes the carriage returns off its end and puts a caret below. A place is never
before a blank, so the byte it stands at is always shown. Only the end of a
source can lie behind carriage returns that are not shown, and there a report
names the column behind the last byte it shows.
-/

namespace Shading

open Text List

/-! Messages are within a line, so the lines of a report are its own. -/

theorem Text.oneLine_signed (n : Int) : OneLine (signed n) := by
  intro hmem
  rcases toNat_of_mem_signed hmem with heq | hdigit
  · exact absurd heq (by decide)
  · exact absurd hdigit.1 (by decide)

theorem Kind.oneLine_name (kind : Kind) : OneLine (utf8 kind.name) := by
  cases kind with
  | keyword k => cases k <;> decide
  | mark m => cases m <;> decide
  | _ => decide

theorem Verb.oneLine_word (verb : Verb) : OneLine (utf8 verb.word) := by
  cases verb <;> decide

theorem Pool.IsOwn.oneLine {pool : Pool} (h : pool.IsOwn) : OneLine pool.what := by
  cases pool with
  | named what => exact absurd rfl (h what)
  | _ => decide

namespace Cause

variable {cause : Cause}

theorem Grammatical.oneLine (h : cause.Grammatical) : OneLine cause.wording := by
  cases cause with
  | expected wanted found =>
    simp +decide only [wording, oneLine_append, Kind.oneLine_name, and_self]
  | unknownAttribute | unknownStage | unknownBuiltin =>
    simp +decide only [wording, oneLine_append, Lexeme.oneLine_identifier h, and_self]
  | expectedTopLevel | expectedExpression | expectedStatement | expectedMemberAttribute => decide
  | _ => exact h.elim

theorem Semantic.oneLine {limits : Limits} (h : cause.Semantic limits) : OneLine cause.wording := by
  cases cause with
  | limit e =>
    have hpool := h.1.oneLine
    simp +decide only [wording, Exhausted.message, oneLine_append, hpool, oneLine_signed, and_self]
  | indexOverflow pool =>
    have hpool := Pool.IsOwn.oneLine h
    simp +decide only [wording, Pool.overflowMessage, oneLine_append, hpool, and_self]
  | componentNotScalar text | unknownType text | voidVariable text | globalRedeclared text
  | typeReserved text | typeRedeclared text | procedureRedeclared text | returnFromVoid text
  | assignmentToInput text | unknownVariable text | elementType text =>
    have htext : OneLine text := h
    simp +decide only [wording, oneLine_append, htext, and_self]
  | operandType verb text =>
    have htext : OneLine text := h
    simp +decide only [wording, oneLine_append, verb.oneLine_word, htext, and_self]
  | memberRedeclared text other | entryPointReturns text other | returnNeedsValue text other =>
    simp +decide only [wording, oneLine_append, h.1, h.2, and_self]
  | initializerType name declared given =>
    simp +decide only [wording, oneLine_append, h.1, h.2.1.1, h.2.1.2, and_self]
  | returnType given declared =>
    simp +decide only [wording, oneLine_append, h.1.1, h.1.2, and_self]
  | operandsDiffer verb =>
    simp +decide only [wording, oneLine_append, verb.oneLine_word, and_self]
  | locationOutOfRange value => simp +decide only [wording, oneLine_append, oneLine_signed,
      and_self]
  | literalSize count => simp +decide only [wording, oneLine_append, oneLine_decimal, and_self]
  | unexpectedByte | unexpectedCharacter | expected | unknownAttribute | unknownStage
  | unknownBuiltin => cases h
  | _ => decide

end Cause

theorem oneLine_truncateMessage {text : Bytes} (h : OneLine text) :
    OneLine (truncateMessage text) := by
  unfold truncateMessage
  split
  · exact h
  · exact fun hmem => h (mem_of_mem_take hmem)

/-! Places are never before a blank. -/

namespace Lexeme

def isSolid (text : Bytes) : Bool := text.head?.all fun b => !isBlank b

theorem Gap.isSolid {gap after : Bytes} (h : Gap gap after) : isSolid after = true := by
  rcases h with ⟨-, hstarts⟩ | ⟨rfl, -⟩
  · cases after with
    | nil => rfl
    | cons b rest => simpa [Lexeme.isSolid] using (Bool.or_eq_false_iff.mp hstarts).1
  · rfl

theorem Refused.oneLine {cause : Cause} {text : Bytes} (h : Refused cause text)
    (hsolid : isSolid text = true) : OneLine cause.wording := by
  cases h with
  | nothing =>
    split
    · have hdigits : ∀ n, OneLine (hexDigits upperDigit 2 n) := oneLine_hexDigits (by decide) 2
      simp +decide only [Cause.wording, oneLine_append, hdigits, and_self]
    · next b rest _ _ _ =>
      have hbyte : newline ≠ b := by
        rintro rfl
        cases hsolid
      simp +decide only [Cause.wording, oneLine_append, oneLine_cons, ne_eq, hbyte,
        not_false_eq_true, and_self]
  | unclosed | tooLarge => decide

end Lexeme

theorem Span.Tile.isSolid {source : Bytes} {first place : Nat} {spans : List Span}
    (h : Span.Tile source first spans place) :
    (∀ s ∈ spans, Lexeme.isSolid (source.drop s.start) = true) ∧
      Lexeme.isSolid (source.drop place) = true := by
  induction spans generalizing first with
  | nil => exact ⟨forall_mem_nil _, h.2.2.isSolid⟩
  | cons s rest ih =>
    obtain ⟨-, hgap, -, hrest⟩ := h
    obtain ⟨hspans, hplace⟩ := ih hrest
    exact ⟨forall_mem_cons.mpr ⟨hgap.isSolid, hspans⟩, hplace⟩

def Position.IsSolid (source : Bytes) (pos : Position) : Prop :=
  ∃ offset ≤ source.length, pos = ofOffset source offset ∧
    Lexeme.isSolid (source.drop offset) = true

theorem Tokens.isSolid_places {source : Bytes} {pos : Position}
    (h : pos ∈ (ofSource source).places) : pos.IsSolid source := by
  obtain ⟨spans, place, htile, htokens, hends⟩ := ofSource_partition source
  obtain ⟨-, hplace, hinside, -⟩ := htile.ordered
  obtain ⟨hspans, hlast⟩ := htile.isSolid
  rcases mem_append.mp h with hmem | hmem
  · obtain ⟨token, htoken, rfl⟩ := mem_map.mp hmem
    have hmem : some token ∈ spans.map (Span.token? source) :=
      htokens ▸ mem_map_of_mem htoken
    obtain ⟨span, hspan, heq⟩ := mem_map.mp hmem
    obtain ⟨lexeme, -, rfl⟩ := Option.map_eq_some_iff.mp heq
    obtain ⟨-, hstart, hstop⟩ := hinside span hspan
    exact ⟨span.start, by omega, rfl, hspans span hspan⟩
  · rw [mem_singleton.mp hmem]
    cases hending : (ofSource source).ending with
    | ok last =>
      rw [hending] at hends
      exact ⟨place, hplace, hends.2, hlast⟩
    | error why =>
      rw [hending] at hends
      exact ⟨place, hplace, hends.1, hlast⟩

def Marks.told (source : Bytes) : Marks where
  place pos := pos ∈ (Tokens.ofSource source).places
  hole why := why.pos ∈ (Tokens.ofSource source).places ∧ OneLine why.cause.wording
  size := source.length

theorem SourceTree.marked_told (source : Bytes) : (Marks.told source).tree (.ofSource source) := by
  refine SourceTree.marked (Marks.tokens_of_places (fun _ hpos => hpos)
    (fun why hwhy hpos => ⟨hpos, ?_⟩) (Nat.le_refl _))
    fun _ _ hplace hcause => ⟨hplace, hcause.oneLine⟩
  obtain ⟨spans, place, htile, -, hends⟩ := Tokens.ofSource_partition source
  rw [hwhy] at hends
  exact hends.2.oneLine htile.isSolid.2

/-! Where a place stands in the lines of its source. -/

namespace Text

theorem oneLine_takeWhile (text : Bytes) : OneLine (text.takeWhile (· ≠ newline)) := by
  intro hmem
  have hne := mem_takeWhile_imp hmem
  exact absurd rfl (of_decide_eq_true hne)

theorem dropWhile_line (text : Bytes) : text.dropWhile (· ≠ newline) = [] ∨
    (text.dropWhile (· ≠ newline)).head? = some newline := by
  have hhead := head?_dropWhile_not (· ≠ newline) text
  cases hrest : text.dropWhile (· ≠ newline) with
  | nil => exact .inl rfl
  | cons b rest =>
    rw [hrest] at hhead
    exact .inr (congrArg some (not_not.mp (of_decide_eq_false hhead)))

theorem lt_length_trimEnd (drop : UInt8 → Bool) {b : UInt8} (hb : drop b = false)
    (text rest : Bytes) : text.length < (trimEnd drop (text ++ b :: rest)).length := by
  rw [trimEnd, length_reverse, reverse_append, reverse_cons, append_assoc,
    dropWhile_append]
  split
  · simp [hb]
  · simp only [length_append, length_singleton, length_reverse]
    omega

theorem length_trimEnd_lt_iff (drop : UInt8 → Bool) (text : Bytes) :
    (trimEnd drop text).length < text.length ↔ ∃ b, text.getLast? = some b ∧ drop b = true := by
  rcases eq_nil_or_concat' text with rfl | ⟨front, b, rfl⟩
  · simp [trimEnd]
  · have hshort : (trimEnd drop front).length ≤ front.length :=
      (List.rdropWhile_prefix drop front).length_le
    have hconcat : trimEnd drop (front ++ [b]) =
        if drop b then trimEnd drop front else front ++ [b] := rdropWhile_concat drop front b
    rw [hconcat, getLast?_concat, length_append, length_singleton]
    cases hb : drop b with
    | false => simp [hb]
    | true => simpa [hb] using Nat.lt_succ_of_le hshort

theorem oneLine_trimEnd {drop : UInt8 → Bool} {text : Bytes} (h : OneLine text) :
    OneLine (trimEnd drop text) :=
  fun hmem => h ((List.rdropWhile_prefix drop text).subset hmem)

end Text

/-- A place parts a source: whole lines above it, its own line before and after it, and what follows
that line. -/
structure Position.Parts (source : Bytes) (pos : Position) (above before after below : Bytes) :
    Prop where
  whole : source = above ++ (before ++ after) ++ below
  lines : above = [] ∨ above.getLast? = some newline
  rest : below = [] ∨ below.head? = some newline
  oneLine : OneLine (before ++ after)
  line : pos.line = (above.count newline + 1 : Nat)
  column : pos.column = (before.length + 1 : Nat)

theorem Position.exists_parts (source : Bytes) (offset : Nat) :
    ∃ above before after below, (ofOffset source offset).Parts source above before after below ∧
      source.drop offset = after ++ below := by
  let front := (source.take offset).reverse
  let back := source.drop offset
  have hback : back = back.takeWhile (· ≠ newline) ++ back.dropWhile (· ≠ newline) :=
    takeWhile_append_dropWhile.symm
  have hfront : source.take offset =
      (front.dropWhile (· ≠ newline)).reverse ++ (front.takeWhile (· ≠ newline)).reverse := by
    rw [← reverse_append, takeWhile_append_dropWhile, reverse_reverse]
  have hline : OneLine (front.takeWhile (· ≠ newline)).reverse := fun hmem =>
    oneLine_takeWhile front (mem_reverse.mp hmem)
  refine ⟨(front.dropWhile (· ≠ newline)).reverse, (front.takeWhile (· ≠ newline)).reverse,
    back.takeWhile (· ≠ newline), back.dropWhile (· ≠ newline), ⟨?_, ?_, dropWhile_line back,
    oneLine_append.mpr ⟨hline, oneLine_takeWhile back⟩, ?_, ?_⟩, hback⟩
  · rw [← append_assoc, ← hfront, append_assoc, ← hback, take_append_drop]
  · rw [reverse_eq_nil_iff, getLast?_reverse]
    exact dropWhile_line front
  · have hcount : (source.take offset).count newline =
        (front.dropWhile (· ≠ newline)).reverse.count newline := by
      rw [hfront, count_append, count_eq_zero.mpr hline, Nat.add_zero]
    rw [← hcount, Nat.add_comm]
    rfl
  · rw [length_reverse, Nat.add_comm]
    rfl

namespace Report

/-- A line as a report shows it: with blanks for tabs, and without carriage returns at its end. -/
def shownLine (line : Bytes) : Bytes := showTabs (trimEnd (· = byte '\r') line)

/-- The lines of a report that shows a line with a caret below one of its columns. The place is told
by a line and by a column that need not be the one of the caret. -/
def caretForm (message : Bytes) (line told : Nat) (shown : Bytes) (column : Nat) : List Bytes :=
  [utf8 "error: " ++ message,
    utf8 "  --> line " ++ decimal line ++ utf8 ":" ++ decimal told,
    utf8 "   |",
    padLeft 3 (byte ' ') (decimal line) ++ utf8 "| " ++ shown,
    utf8 "   | " ++ blanks (cells (shown.take (column - 1))) ++ utf8 "^",
    []]

theorem oneLine_shownLine {line : Bytes} (h : OneLine line) : OneLine (shownLine line) := by
  intro hmem
  obtain ⟨b, hb, heq⟩ := mem_map.mp hmem
  split at heq
  · exact absurd heq (by decide)
  · exact oneLine_trimEnd h (heq ▸ hb)

variable {message source above before after below : Bytes} {pos : Position}

theorem lineAt?_parts (h : pos.Parts source above before after below) :
    lineAt? source pos.line = some (trimEnd (· = byte '\r') (before ++ after)) := by
  have hline : (splitAt newline source)[above.count newline]? = some (before ++ after) := by
    rw [h.whole]
    exact getElem?_splitAt h.lines h.oneLine h.rest
  have hfirst : ¬ ((above.count newline + 1 : Nat) : Int) < 1 := by omega
  rw [lineAt?, h.line, if_neg hfirst, Int.toNat_natCast, Nat.add_sub_cancel]
  exact congrArg (Option.map _) hline

theorem context_eq_join (hsource : source ≠ []) (h : pos.Parts source above before after below) :
    context ⟨message, pos, source⟩ = join [newline] (caretForm message (above.count newline + 1)
      (min (before.length + 1) ((shownLine (before ++ after)).length + 1))
      (shownLine (before ++ after)) (before.length + 1)) := by
  have hplace : ¬ (decide (source = []) || decide (pos.line = 0)) = true := by
    have hne : ¬ pos.line = 0 := by
      rw [h.line]
      omega
    simp [hsource, hne]
  have hlength : (shownLine (before ++ after)).length =
      (trimEnd (· = byte '\r') (before ++ after)).length := length_map _
  have hclamp : clampColumn (trimEnd (· = byte '\r') (before ++ after)) pos.column =
      min (before.length + 1) ((shownLine (before ++ after)).length + 1) := by
    rw [clampColumn, h.column, hlength]
    omega
  have hcaret : caretIndent (trimEnd (· = byte '\r') (before ++ after))
      (min (before.length + 1) ((shownLine (before ++ after)).length + 1)) =
        cells ((shownLine (before ++ after)).take before.length) := by
    rw [caretIndent, Nat.add_min_add_right, Nat.add_sub_cancel, hlength, ← take_eq_take_min]
    exact congrArg cells map_take
  rw [context, if_neg hplace, lineAt?_parts h]
  have hline : signed pos.line = decimal (above.count newline + 1) := by
    rw [h.line]
    rfl
  have hbreak : utf8 "\n" = [newline] := by decide
  have hbar : utf8 "   |\n" = utf8 "   |" ++ [newline] := by decide
  have hmark : utf8 "^\n" = utf8 "^" ++ [newline] := by decide
  simp only [hclamp, hcaret, hline, hbreak, hbar, hmark, caretForm, join,
    intercalate_cons_cons, intercalate_singleton, append_assoc, append_nil,
    Nat.add_sub_cancel]
  rfl

theorem splitAt_context (hmessage : OneLine message) (hsource : source ≠ [])
    (h : pos.Parts source above before after below) :
    splitAt newline (context ⟨message, pos, source⟩) =
      caretForm message (above.count newline + 1)
        (min (before.length + 1) ((shownLine (before ++ after)).length + 1))
        (shownLine (before ++ after)) (before.length + 1) := by
  have hlines : OneLines (caretForm message (above.count newline + 1)
      (min (before.length + 1) ((shownLine (before ++ after)).length + 1))
      (shownLine (before ++ after)) (before.length + 1)) := by
    have hpad : OneLine (padLeft 3 (byte ' ') (decimal (above.count newline + 1))) :=
      oneLine_append.mpr ⟨oneLine_replicate _ (by decide), oneLine_decimal _⟩
    have hblanks : ∀ count, OneLine (blanks count) := fun count =>
      oneLine_replicate count (by decide)
    simp +decide only [caretForm, oneLines_cons, oneLine_append, hmessage, oneLine_decimal, hpad,
      oneLine_shownLine h.oneLine, hblanks, oneLines_nil, and_self]
  rw [context_eq_join hsource h]
  exact splitAt_join (cons_ne_nil _ _) hlines

theorem text_parts (h : pos.Parts source above before after below) :
    text ⟨message, pos, source⟩ = decimal (above.count newline + 1) ++ utf8 ":" ++
      decimal (before.length + 1) ++ utf8 ": " ++ message := by
  have hne : ¬ pos.line = 0 := by
    rw [h.line]
    omega
  rw [text, if_neg hne, h.line, h.column]
  rfl

theorem told_ne_column_iff (h : pos.Parts source above before after below)
    (hsolid : Lexeme.isSolid (after ++ below) = true) :
    min (before.length + 1) ((shownLine (before ++ after)).length + 1) ≠ before.length + 1 ↔
      after = [] ∧ below = [] ∧ before.getLast? = some (byte '\r') := by
  have hlength : (shownLine (before ++ after)).length =
      (trimEnd (· = byte '\r') (before ++ after)).length := length_map _
  rw [hlength]
  cases after with
  | nil =>
    have hbelow : below = [] := by
      refine h.rest.resolve_right fun hhead => ?_
      obtain ⟨rest, rfl⟩ := head?_eq_some_iff.mp hhead
      cases hsolid
    rw [append_nil]
    have hshort := length_trimEnd_lt_iff (· = byte '\r') before
    simp only [decide_eq_true_eq, exists_eq_right] at hshort
    simp only [hbelow, true_and, ← hshort]
    omega
  | cons b rest =>
    have hb : decide (b = byte '\r') = false := by
      refine decide_eq_false ?_
      rintro rfl
      cases hsolid
    have hshown := lt_length_trimEnd (· = byte '\r') hb before rest
    simp only [cons_ne_nil, false_and, iff_false, not_not]
    omega

end Report

namespace Program

theorem ofSource_nil (limits : Limits) (why : Diagnostic) :
    ofSource [] limits ≠ .error (.refused why) := by
  unfold ofSource
  rw [new_eq]
  intro h
  cases hroom : fits 2 limits.withDefaults.types with
  | false =>
    rw [hroom] at h
    cases h
  | true =>
    rw [hroom] at h
    cases h

/-- The report about a refused source points at the place of the failure. It is a caret form: the
message; the line and the column of the place, as in the report on one line; the line of the source
that the place is on, with blanks for tabs and without the carriage returns at its end; and a caret
behind as many blanks as the bytes of that line before the column are wide. The column is told
otherwise only if the place is the end of the source and a carriage return stands right before it:
then it is the one behind the last byte that is shown. -/
theorem context_points {source : Bytes} {limits : Limits} {why : Diagnostic}
    (h : ofSource source limits = .error (.refused why)) :
    ∃ above before after below told, why.pos.Parts source above before after below ∧
      (why.report source).text = decimal (above.count newline + 1) ++ utf8 ":" ++
        decimal (before.length + 1) ++ utf8 ": " ++ why.message ∧
      splitAt newline (why.report source).context =
        Report.caretForm why.message (above.count newline + 1) told
          (Report.shownLine (before ++ after)) (before.length + 1) ∧
      (told ≠ before.length + 1 ↔
        after = [] ∧ below = [] ∧ before.getLast? = some (byte '\r')) ∧
      (told ≠ before.length + 1 → told = (Report.shownLine (before ++ after)).length + 1) := by
  have hallowed := ofSource_allowed limits (SourceTree.marked_told source)
  rw [h] at hallowed
  have hplace : why.pos ∈ (Tokens.ofSource source).places := hallowed.elim (·.1) (·.1)
  have hmessage : OneLine why.message :=
    oneLine_truncateMessage (hallowed.elim (·.2) (·.2.oneLine))
  have hsource : source ≠ [] := by
    rintro rfl
    exact ofSource_nil limits why h
  obtain ⟨offset, -, hpos, hsolid⟩ := Tokens.isSolid_places hplace
  obtain ⟨above, before, after, below, hparts, hrest⟩ := Position.exists_parts source offset
  rw [← hpos] at hparts
  rw [hrest] at hsolid
  refine ⟨above, before, after, below, _, hparts, Report.text_parts hparts,
    Report.splitAt_context hmessage hsource hparts, Report.told_ne_column_iff hparts hsolid, ?_⟩
  intro htold
  omega

def endedSource : Bytes := utf8 "in a: f32;\n\t[ // 日"

theorem endedSource_points :
    ∃ why, ofSource endedSource {} = .error (.refused why) ∧ why.pos = ⟨2, 10⟩ ∧
      ∃ above before after below, why.pos.Parts endedSource above before after below ∧
        splitAt newline (why.report endedSource).context =
          Report.caretForm why.message 2 10 (Report.shownLine (before ++ after)) 10 := by
  have hcheck : (ofSource endedSource {}).map (fun _ => ()) =
      .error (.refused ⟨⟨2, 10⟩, .expected .sym .eof⟩) := by decide +kernel
  have hreturn : byte '\r' ∉ endedSource := by decide
  cases h : ofSource endedSource {} with
  | ok p =>
    rw [h] at hcheck
    cases hcheck
  | error e =>
    rw [h] at hcheck
    cases hcheck
    obtain ⟨above, before, after, below, told, hparts, -, hlines, htold, -⟩ := context_points h
    have hline : above.count newline + 1 = 2 := Int.ofNat.inj hparts.line.symm
    have hcolumn : before.length + 1 = 10 := Int.ofNat.inj hparts.column.symm
    have hsame : told = before.length + 1 := by
      by_contra hne
      have hlast := mem_of_getLast? (htold.mp hne).2.2
      refine hreturn ?_
      rw [hparts.whole]
      exact mem_append_left _ (mem_append_right _ (mem_append_left _ hlast))
    rw [hsame, hline, hcolumn] at hlines
    exact ⟨_, rfl, rfl, above, before, after, below, hparts, hlines⟩

def returnedSource : Bytes := utf8 "[\r"

/-- At the end of a source behind a carriage return a report shows another column than the one that
the failure has. -/
theorem returnedSource_misplaced :
    ∃ why, ofSource returnedSource {} = .error (.refused why) ∧ why.pos = ⟨1, 3⟩ ∧
      (why.report returnedSource).text = utf8 "1:3: expected 'Sym', not 'EOF'" ∧
      (splitAt newline (why.report returnedSource).context)[1]? = some (utf8 "  --> line 1:2") := by
  have hcheck : (ofSource returnedSource {}).map (fun _ => ()) =
      .error (.refused ⟨⟨1, 3⟩, .expected .sym .eof⟩) := by decide +kernel
  cases h : ofSource returnedSource {} with
  | ok p =>
    rw [h] at hcheck
    cases hcheck
  | error e =>
    rw [h] at hcheck
    cases hcheck
    exact ⟨_, rfl, rfl, by decide +kernel, by decide +kernel⟩

end Program

end Shading
