import Shading.Proofs.Incremental.Lexing
import Shading.Proofs.Limits.Usage
import Shading.Proofs.Reading.Completeness

/-!
Compilation is incremental. A source that goes on behind another one is read as
the items of the first and then those of the rest, and they are elaborated in
that order, so what the first part declares stands in the program of both as it
stands in its own.
-/

namespace Shading

open SourceTree

open Binary (idsFrom)

variable {limits : Limits} {p : Program} {q : Program}

/-- The kinds of tokens that an item can start with, and the one behind all items. -/
def topLevelKinds : List Kind :=
  [.eof, .mark .leftBracket, .keyword .procedure, .keyword .record, .keyword .input,
    .keyword .output, .keyword .declare]

namespace Tokens

theorem apart_of_starts {t rest : Tokens}
    (h : ∃ token ∈ t.toList.head?, token.kind ∈ topLevelKinds) (hrest : t.Moved rest) :
    Reading.Apart rest := by
  obtain ⟨found, hfound, hkind⟩ := h
  obtain ⟨tokens, ending⟩ := t
  obtain ⟨tokens', ending'⟩ := rest
  obtain ⟨hlexemes, hending⟩ := hrest
  cases tokens' with
  | nil =>
    obtain rfl : tokens = [] := List.map_eq_nil_iff.mp hlexemes.symm
    cases ending with
    | error why => cases hfound
    | ok last =>
      cases ending' with
      | error why => cases hending
      | ok last' => exact ⟨_, rfl, nofun, nofun⟩
  | cons first others =>
    cases tokens with
    | nil => cases hlexemes
    | cons token tail =>
      obtain ⟨hlexeme, -⟩ : first.lexeme = token.lexeme ∧ _ := List.cons.inj hlexemes
      obtain rfl : token = found := by cases ending <;> exact Option.some.inj hfound
      refine ⟨first, rfl, fun hbad => ?_, fun hbad => ?_⟩ <;>
        simp [Token.kind, ← hlexeme, hbad, Lexeme.kind, topLevelKinds] at hkind

end Tokens

namespace SourceTree

variable {source more : Bytes}

theorem ending_ofSource {last : Position} (h : (ofSource source).ending = .ok last) :
    Tokens.ofSource source = ⟨(Tokens.ofSource source).tokens, .ok last⟩ := by
  rw [← ending_ofTokens h]

theorem items_ofSource {last : Position} (hfirst : (ofSource source).ending = .ok last)
    (hmore : ∃ token ∈ (Tokens.ofSource more).toList.head?, token.kind ∈ topLevelKinds) :
    ∃ rest, (Tokens.ofSource more).Moved rest ∧ ofSource (source ++ lineBreak :: more) =
      ⟨(ofSource source).items ++ (ofTokens rest).items, (ofTokens rest).ending⟩ := by
  obtain ⟨rest, htokens, hmoved⟩ := Tokens.ofSource_before more (ending_ofSource hfirst)
  have hread := Reading.reads_file (Grammar.file_ofSource hfirst)
    (Tokens.apart_of_starts hmore hmoved) (ofTokens_reads rest)
  refine ⟨rest, hmoved, ?_⟩
  rw [ofSource, htokens, ← eq_ofTokens hread]

end SourceTree

theorem Elaborate.forM_append_ok {before after : List Item} {s t : Elaboration}
    (h : (before ++ after).forM item s = .ok ((), t)) :
    ∃ mid, before.forM item s = .ok ((), mid) ∧ after.forM item mid = .ok ((), t) := by
  induction before generalizing s with
  | nil => exact ⟨s, rfl, h⟩
  | cons first rest ih =>
    obtain ⟨_, s₁, hfirst, hrest⟩ := bind_ok.mp h
    obtain ⟨mid, hmid, hafter⟩ := ih hrest
    exact ⟨mid, bind_ok.mpr ⟨_, s₁, hfirst, hmid⟩, hafter⟩

namespace Program

theorem ofSource_run {source : Bytes} (h : ofSource source limits = .ok p) :
    ∃ start t last, new limits = .ok start ∧
      (SourceTree.ofSource source).items.forM Elaborate.item (.ofProgram start) = .ok ((), t) ∧
      (SourceTree.ofSource source).ending = .ok last ∧ t.program = p := by
  obtain ⟨start, t, hstart, hrun, rfl⟩ := ofSource_elaborates h
  obtain ⟨hitems, ⟨last, hlast⟩, -⟩ := Elaborate.sourceTree_ok hrun
  exact ⟨start, t, last, hstart, hitems, hlast, rfl⟩

theorem shows_ofSource {source : Bytes} (h : ofSource source limits = .ok p) :
    p.Shows (itemsGauge (SourceTree.ofSource source).items .start) := by
  obtain ⟨demands, outcome, hcourse⟩ := exists_course source
  obtain ⟨-, q, hq, rfl⟩ := hcourse.of_ok h
  exact (hcourse.counts q hq).1.under _

theorem Built.nextId_eq {tree : SourceTree} (h : p.Built tree) :
    p.nextId = .ofNat (p.resultIds.length + 1) := by
  obtain ⟨count, hnext, hperm⟩ := h.ids
  rw [hperm.length_eq, Binary.length_idsFrom, hnext, Nat.add_comm, UInt32.ofNat_add]
  rfl

theorem tally_le (h : p.procedures.toList <+: q.procedures.toList) (f : Procedure → Nat) :
    p.tally f ≤ q.tally f := by
  obtain ⟨more, hmore⟩ := h
  rw [tally, tally, ← hmore, List.map_append, List.sum_append]
  omega

theorem words_le {source source' : Bytes} (hp : ofSource source limits = .ok p)
    (hq : ofSource source' limits = .ok q) (h : p.procedures.toList <+: q.procedures.toList) :
    p.words.used ≤ q.words.used := by
  have hshows := shows_ofSource hp
  have hshows' := shows_ofSource hq
  have hused := usage_eq_count (ofSource_built hp) hshows .words
  have hused' := usage_eq_count (ofSource_built hq) hshows' .words
  have hlabels := labels_items (SourceTree.ofSource source).items .start
  have hlabels' := labels_items (SourceTree.ofSource source').items .start
  have hcode := tally_le h Procedure.words
  have hsize : p.procedures.size ≤ q.procedures.size := by
    simpa only [Arena.length_toList] using h.length_le
  rw [hshows.procedures, hshows'.procedures] at hsize
  simp only [usage, count, Gauge.start] at hused hused' hlabels hlabels' hsize
  rw [Int64.le_iff_toInt_le]
  omega

/-- `q` has all that `p` has, entry for entry and in the same order, and maybe more behind it. Ids
are counted in 32 bits: a bound is the number of ids given out and one more, cut to that size, so it
falls only if more ids than that were given out. -/
structure Precedes (p q : Program) : Prop where
  types : p.types.toList <+: q.types.toList
  globals : p.globals.toList <+: q.globals.toList
  constants : p.constants.toList <+: q.constants.toList
  expressions : p.expressions.toList <+: q.expressions.toList
  procedures : p.procedures.toList <+: q.procedures.toList
  entryPoints : p.entryPoints.toList <+: q.entryPoints.toList
  ids : p.resultIds.length ≤ q.resultIds.length
  counted : p.nextId = .ofNat (p.resultIds.length + 1) ∧ q.nextId = .ofNat (q.resultIds.length + 1)
  bound : q.resultIds.length + 1 < UInt32.size → p.nextId ≤ q.nextId
  words : p.words.used ≤ q.words.used

/-- What a source declares stands, unchanged and in front, in the program of every source that goes
on with more items behind a line break. -/
theorem ofSource_precedes {source more : Bytes} {limits : Limits} {p q : Program}
    (hfirst : ofSource source limits = .ok p)
    (hboth : ofSource (source ++ Text.utf8 "\n" ++ more) limits = .ok q)
    (hmore : ∃ token ∈ (Tokens.ofSource more).toList.head?, token.kind ∈ topLevelKinds) :
    p.Precedes q := by
  have hjoin : source ++ Text.utf8 "\n" ++ more = source ++ lineBreak :: more :=
    List.append_assoc _ _ _
  rw [hjoin] at hboth
  obtain ⟨start, mid, last, hstart, hitems, hlast, rfl⟩ := ofSource_run hfirst
  obtain ⟨start', t, -, hstart', hall, -, rfl⟩ := ofSource_run hboth
  obtain rfl : start = start' := by
    rw [hstart] at hstart'
    exact Except.ok.inj hstart'
  -- The items of the first part are elaborated as they were alone; then come the new ones.
  obtain ⟨rest, -, hnew⟩ := items_ofSource hlast hmore
  rw [hnew] at hall
  obtain ⟨mid', hmid', hrest⟩ := Elaborate.forM_append_ok hall
  obtain rfl : mid = mid' := by
    rw [hitems] at hmid'
    exact (Prod.mk.inj (Except.ok.inj hmid')).2
  have hsized := sized_ofSource (source ++ lineBreak :: more)
  rw [hnew] at hsized
  simp only [List.flatMap_append, List.mem_append] at hsized
  have hbetween := (Elaborate.items_ok _ hitems (new_ok hstart).between fun written hmem =>
    hsized written (.inl hmem)).between
  have hsteps := Elaborate.items_ok _ hrest hbetween fun written hmem => hsized written (.inr hmem)
  obtain ⟨_, procedures, -, hprocedures, -⟩ := hsteps.declared
  have hprefix : mid.program.procedures.toList <+: t.program.procedures.toList :=
    ⟨procedures, hprocedures.symm⟩
  obtain ⟨count, -, hperm⟩ := hsteps.grows.ids
  have hids : mid.program.resultIds.length ≤ t.program.resultIds.length := by
    rw [hperm.length_eq, List.length_append]
    omega
  have hnext := (ofSource_built hfirst).nextId_eq
  have hnext' := (ofSource_built hboth).nextId_eq
  refine ⟨hsteps.grows.types, hsteps.grows.globals, hsteps.grows.constants,
    hsteps.grows.expressions, hprefix, hsteps.grows.entryPoints, hids, ⟨hnext, hnext'⟩,
    fun hbound => ?_, words_le hfirst hboth hprefix⟩
  rw [UInt32.le_iff_toNat_le, hnext, hnext', UInt32.toNat_ofNat_of_lt' (by omega),
    UInt32.toNat_ofNat_of_lt' hbound]
  omega

def firstSource : Bytes :=
  Text.utf8 "in a: f32 at 0; out o: f32 at 0;
    [entry_point(vertex)] procedure first() -> void o := a + 2.0; end // a place"

def laterSource : Bytes :=
  Text.utf8 "var k: vec2<f32>
    [entry_point(fragment)] procedure second() -> void k := {a, 2.0}; o := a + 3.0; end"

theorem firstSource_precedes : ∃ p q, ofSource firstSource {} = .ok p ∧
    ofSource (firstSource ++ Text.utf8 "\n" ++ laterSource) {} = .ok q ∧
    (∃ token ∈ (Tokens.ofSource laterSource).toList.head?, token.kind ∈ topLevelKinds) ∧
    p.Precedes q ∧ p.nextId < q.nextId ∧
    p.procedures.toList.length = 1 ∧ q.procedures.toList.length = 2 := by
  have hcheck : ((ofSource firstSource {}).toOption.bind fun p =>
      (ofSource (firstSource ++ Text.utf8 "\n" ++ laterSource) {}).toOption.map fun q =>
        (p.nextId, q.nextId, p.procedures.toList.length, q.procedures.toList.length)) =
      some (14, 24, 1, 2) := by
    decide +kernel
  have hkind : (Tokens.ofSource laterSource).toList.head?.map (·.kind) =
      some (.keyword .declare) := by
    decide +kernel
  simp only [Option.bind_eq_some_iff, Option.map_eq_some_iff, Prod.mk.injEq,
    toOption_eq_some] at hcheck hkind
  obtain ⟨p, hp, q, hq, hnext, hnext', hcount, hcount'⟩ := hcheck
  obtain ⟨token, htoken, hdeclare⟩ := hkind
  have hmore : ∃ token ∈ (Tokens.ofSource laterSource).toList.head?, token.kind ∈ topLevelKinds :=
    ⟨token, htoken, by rw [hdeclare]; decide⟩
  refine ⟨p, q, hp, hq, hmore, ofSource_precedes hp hq hmore, ?_, hcount, hcount'⟩
  rw [hnext, hnext']
  decide

end Program

end Shading
