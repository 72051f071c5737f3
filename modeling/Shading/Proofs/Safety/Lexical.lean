import Shading.Proofs.Incremental.Compiling
import Shading.Proofs.Lexing.Partition
import Shading.Proofs.Safety.Diagnostics
import Shading.Proofs.Safety.Overlong

/-!
Failures to read a token come first. Where no token can be read, nothing that
lies behind is looked at: such a source is never accepted, and what it is
refused for is that failure or stands at a token before it. A tree names the
failure where a part is missing, and elaboration gives up at the first missing
part that it meets, so it never blames the place of the failure for something
else.
-/

namespace Shading

variable {source : Bytes} {why : Diagnostic}

namespace Position

/-- On an earlier line, or further left on the same one. -/
def Before (p q : Position) : Prop := p.line < q.line ∨ p.line = q.line ∧ p.column < q.column

instance (p q : Position) : Decidable (p.Before q) := inferInstanceAs (Decidable (_ ∨ _))

theorem Before.trans {p q r : Position} (hpq : p.Before q) (hqr : q.Before r) : p.Before r := by
  unfold Before at *
  omega

theorem before_next (p : Position) (b : UInt8) : p.Before (p.next b) := by
  unfold next
  split
  · exact .inl (Int.lt_succ p.line)
  · exact .inr ⟨rfl, Int.lt_succ p.column⟩

theorem before_past (p : Position) {text : Bytes} (h : text ≠ []) : p.Before (p.past text) := by
  induction text generalizing p with
  | nil => exact absurd rfl h
  | cons b rest ih =>
    cases rest with
    | nil => exact p.before_next b
    | cons c rest => exact (p.before_next b).trans (ih (p.next b) (List.cons_ne_nil c rest))

theorem before_ofOffset {first last : Nat} (h : first < last) (hlast : last ≤ source.length) :
    (ofOffset source first).Before (ofOffset source last) := by
  have hsplit : source.take last = source.take first ++ (source.take last).drop first := by
    have htake : (source.take last).take first = source.take first := by
      rw [List.take_take, Nat.min_eq_left (Nat.le_of_lt h)]
    rw [← htake, List.take_append_drop]
  have hlength : 0 < ((source.take last).drop first).length := by
    rw [List.length_drop, List.length_take]
    omega
  rw [ofOffset_eq, ofOffset_eq, hsplit, past_append]
  exact before_past _ (List.ne_nil_of_length_pos hlength)

end Position

theorem Tokens.before_ending (h : (ofSource source).ending = .error why) :
    ∀ token ∈ (ofSource source).tokens, token.pos.Before why.pos := by
  intro token htoken
  obtain ⟨spans, place, htile, htokens, hends⟩ := ofSource_partition source
  obtain ⟨-, hplace, hinside, -⟩ := htile.ordered
  rw [h] at hends
  have hmem : some token ∈ spans.map (Span.token? source) :=
    htokens ▸ List.mem_map_of_mem htoken
  obtain ⟨span, hspan, heq⟩ := List.mem_map.mp hmem
  obtain ⟨lexeme, -, rfl⟩ := Option.map_eq_some_iff.mp heq
  obtain ⟨-, hstart, hstop⟩ := hinside span hspan
  rw [hends.1]
  exact Position.before_ofOffset (Nat.lt_of_lt_of_le hstart hstop) hplace

def Marks.before (source : Bytes) (why : Diagnostic) : Marks where
  place pos := ∃ token ∈ (Tokens.ofSource source).tokens, token.pos = pos
  hole found := found = why ∨ ∃ token ∈ (Tokens.ofSource source).tokens, token.pos = found.pos
  size := source.length

theorem SourceTree.marked_before (h : (Tokens.ofSource source).ending = .error why) :
    (Marks.before source why).tree (.ofSource source) := by
  refine SourceTree.marked ⟨⟨?_, Tokens.length_ofSource source⟩, ?_⟩ fun _ _ hplace _ => .inr hplace
  · exact fun token htoken => ⟨⟨token, htoken, rfl⟩, Tokens.names_ofSource source token htoken⟩
  · rw [h]
    exact .inl rfl

theorem Tokens.ending_of_tree {last : Position}
    (h : (SourceTree.ofSource source).ending = .ok last) : (ofSource source).ending = .ok last :=
  SourceTree.ending_ofTokens h

namespace Program

/-- A source that has a failure to read a token is refused for that failure or at a token before it,
on an earlier line or further left. Elaboration runs into a fault instead only if the source has 2³⁰
bytes or more and its limits allow a literal of more than 2³⁰ elements. -/
theorem lexical_failure_first (source : Bytes) (limits : Limits) {why : Diagnostic}
    (htypes : 2 ≤ limits.withDefaults.types.toInt)
    (h : (Tokens.ofSource source).ending = .error why) :
    (∃ found, ofSource source limits = .error (.refused found) ∧
      (found = why ∨ found.pos.Before why.pos ∧
        ∃ token ∈ (Tokens.ofSource source).tokens, token.pos = found.pos)) ∨
    ofSource source limits = .error (.fault (.oversized .compositeConstruct)) ∧
      (Room.ofSource source limits).AllowsOverlong := by
  have hallowed := ofSource_allowed limits (SourceTree.marked_before h)
  have hbefore : ∀ pos, (Marks.before source why).place pos → pos.Before why.pos := by
    rintro _ ⟨token, htoken, rfl⟩
    exact Tokens.before_ending h token htoken
  cases hrun : ofSource source limits with
  | ok p =>
    obtain ⟨last, hlast⟩ := (ofSource_built hrun).ending
    rw [Tokens.ending_of_tree hlast] at h
    cases h
  | error e =>
    rw [hrun] at hallowed
    cases e with
    | limit e => exact absurd htypes (Int.not_le.mpr hallowed.2)
    | assembly e | listing e => exact hallowed.elim
    | fault f =>
      obtain ⟨rfl, hlimits⟩ := hallowed
      exact .inr ⟨rfl, hlimits⟩
    | refused found =>
      refine .inl ⟨found, rfl, ?_⟩
      rcases hallowed with (hsame | hplace) | ⟨hplace, -⟩
      · exact .inl hsame
      · exact .inr ⟨hbefore _ hplace, hplace⟩
      · exact .inr ⟨hbefore _ hplace, hplace⟩

/-- A byte that starts no token, behind a literal that is too long: elaboration runs into a fault
before it comes to that byte. -/
theorem longLiteral_hides_failure : ∃ why, 2 ≤ LongLiteral.limits.withDefaults.types.toInt ∧
    (Tokens.ofSource (longLiteral (2 ^ 30) ++ lineBreak :: Text.utf8 "var $")).ending = .error why ∧
    ofSource (longLiteral (2 ^ 30) ++ lineBreak :: Text.utf8 "var $") LongLiteral.limits =
      .error (.fault (.oversized .compositeConstruct)) := by
  obtain ⟨_, _, _, last, htree⟩ := LongLiteral.tree (2 ^ 30)
  have hlast : (SourceTree.ofSource (longLiteral (2 ^ 30))).ending = .ok last := by rw [htree]
  obtain ⟨rest, htokens, hmoved⟩ :=
    Tokens.ofSource_before (Text.utf8 "var $") (SourceTree.ending_ofSource hlast)
  have hmore : ∃ token ∈ (Tokens.ofSource (Text.utf8 "var $")).toList.head?,
      token.kind ∈ topLevelKinds := ⟨⟨.keyword .declare, ⟨1, 1⟩⟩, rfl, by decide⟩
  obtain ⟨_, -, hitems⟩ := SourceTree.items_ofSource hlast hmore
  have hbad : rest.ending.isOk = false := hmoved.ending.trans (by rfl)
  cases hending : rest.ending with
  | ok last =>
    rw [hending] at hbad
    cases hbad
  | error why =>
    refine ⟨why, by decide, by rw [htokens, hending], ?_⟩
    exact ofSource_overlong (by decide) (by decide) (by decide) (congrArg (·.items) hitems)

def misspeltSource : Bytes := Text.utf8 "in a: flot\nin b: $"

theorem misspeltSource_failure :
    2 ≤ ({} : Limits).withDefaults.types.toInt ∧
    (Tokens.ofSource misspeltSource).ending =
      .error ⟨⟨2, 7⟩, .unexpectedCharacter (Text.byte '$')⟩ ∧
    ∃ found, ofSource misspeltSource {} = .error (.refused found) ∧ found.pos.Before ⟨2, 7⟩ := by
  have htypes : 2 ≤ ({} : Limits).withDefaults.types.toInt := by decide
  have hending : (Tokens.ofSource misspeltSource).ending =
      .error ⟨⟨2, 7⟩, .unexpectedCharacter (Text.byte '$')⟩ := by decide +kernel
  have hcheck : (ofSource misspeltSource {}).map (fun _ => ()) =
      .error (.refused ⟨⟨1, 7⟩, .unknownType (Text.utf8 "flot")⟩) := by
    decide +kernel
  refine ⟨htypes, hending, ?_⟩
  obtain ⟨found, hrun, hfound⟩ | ⟨hfault, -⟩ :=
    lexical_failure_first misspeltSource {} htypes hending
  · rw [hrun] at hcheck
    cases hcheck
    obtain hsame | ⟨hbefore, -⟩ := hfound
    · cases hsame
    · exact ⟨_, hrun, hbefore⟩
  · rw [hfault] at hcheck
    cases hcheck

end Program

end Shading
