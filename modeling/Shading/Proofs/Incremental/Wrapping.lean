import Shading.Proofs.Incremental.Compiling
import Shading.Proofs.Safety.Overlong

/-!
Ids that come round. They are counted in 32 bits, so a declaration that takes
as many as there are leaves a bound below the one it found. One that does is a
procedure with a load in every statement.
-/

namespace Shading

open Text List Elaborate Build Program LongLiteral

/-- The last lines of a procedure: a load in each, and the end. -/
def loadLines (count : Nat) : Bytes := (replicate count (utf8 "v;\n")).flatten ++ utf8 "end"

/-- A procedure that loads `v` in every line. -/
def loadProcedure (count : Nat) : Bytes :=
  utf8 "procedure p() -> void" ++ lineBreak :: loadLines count

namespace LoadProcedure

section Tree

open Grammar

variable {count : Nat}

def header : List Lexeme :=
  [.keyword .procedure, .sym (utf8 "p"), .mark .leftParen, .mark .rightParen, .mark .arrow,
    .sym (utf8 "void")]

def loadLexemes (count : Nat) : List Lexeme :=
  (replicate count [.sym (utf8 "v"), .mark .semicolon]).flatten

/-- The source has these lexemes and ends behind them. -/
def Spells (source : Bytes) (lexemes : List Lexeme) : Prop :=
  (Tokens.ofSource source).tokens.map (·.lexeme) = lexemes ∧
    (Tokens.ofSource source).ending.isOk = true

theorem Spells.line {first more : Bytes} {lexemes lexemes' : List Lexeme} (h : Spells first lexemes)
    (hmore : Spells more lexemes') : Spells (first ++ lineBreak :: more) (lexemes ++ lexemes') := by
  obtain ⟨rfl, hok⟩ := h
  obtain ⟨rfl, hok'⟩ := hmore
  cases htokens : Tokens.ofSource first with
  | mk tokens ending =>
    cases ending with
    | error why =>
      rw [htokens] at hok
      cases hok
    | ok last =>
      obtain ⟨rest, hboth, hmoved⟩ := Tokens.ofSource_before more htokens
      unfold Spells
      rw [hboth, map_append, hmoved.lexemes]
      exact ⟨rfl, hmoved.ending.trans hok'⟩

theorem spells_lines (count : Nat) :
    Spells (loadLines count) (loadLexemes count ++ [.keyword .close]) := by
  induction count with
  | zero => exact ⟨rfl, rfl⟩
  | succ count ih =>
    have hline : Spells (utf8 "v;") [.sym (utf8 "v"), .mark .semicolon] := ⟨rfl, rfl⟩
    exact hline.line ih

theorem spells_procedure (count : Nat) :
    Spells (loadProcedure count) (header ++ (loadLexemes count ++ [.keyword .close])) :=
  .line ⟨rfl, rfl⟩ (spells_lines count)

def IsLoad (stmt : Stmt) : Prop :=
  ∃ pos close, stmt = .evaluate (.var ⟨utf8 "v", pos⟩) (.ok close)

theorem statements_of_lexemes {tokens : List Token}
    (h : tokens.map (·.lexeme) = loadLexemes count) :
    ∃ body, Statements tokens body ∧ body.length = count ∧ ∀ stmt ∈ body, IsLoad stmt := by
  induction count generalizing tokens with
  | zero =>
    obtain rfl := map_eq_nil_iff.mp h
    exact ⟨[], .done, rfl, nofun⟩
  | succ count ih =>
    simp only [loadLexemes, replicate_succ, flatten_cons, cons_append, nil_append,
      map_eq_cons_iff] at h
    obtain ⟨⟨_, pos⟩, _, rfl, rfl, ⟨_, close⟩, _, rfl, rfl, h⟩ := h
    obtain ⟨body, hbody, rfl, hloads⟩ := ih h
    exact ⟨_ :: body, .next (.evaluate (.term (.factor .var))) hbody, rfl,
      forall_mem_cons.mpr ⟨⟨pos, close, rfl⟩, hloads⟩⟩

theorem tree_of_lexemes {rest : Tokens} (h : (Tokens.ofSource (loadProcedure count)).Moved rest) :
    ∃ pos name result body close final, SourceTree.ofTokens rest =
      ⟨[procedureItem pos name result body close], .ok final⟩ ∧ body.length = count ∧
        ∀ stmt ∈ body, IsLoad stmt := by
  obtain ⟨hlexemes, hok⟩ := spells_procedure count
  obtain ⟨tokens, ending⟩ := rest
  have htokens := h.lexemes.trans hlexemes
  have hending := h.ending.trans hok
  cases ending with
  | error why => cases hending
  | ok final =>
    simp only [header, cons_append, nil_append, map_eq_cons_iff, map_eq_append_iff,
      map_eq_nil_iff] at htokens
    obtain ⟨⟨_, pos⟩, _, rfl, rfl, ⟨_, name⟩, _, rfl, rfl, ⟨_, paren⟩, _, rfl, rfl, ⟨_, unparen⟩, _,
      rfl, rfl, ⟨_, arrow⟩, _, rfl, rfl, ⟨_, result⟩, _, rfl, rfl, used, _, rfl, hused,
      ⟨_, close⟩, _, rfl, rfl, rfl⟩ := htokens
    obtain ⟨body, hbody, hlength, hloads⟩ := statements_of_lexemes hused
    refine ⟨pos, name, result, body, close, final, SourceTree.ofTokens_file ?_ final, hlength,
      hloads⟩
    have hfile := File.next
      (procedureItem_tokens hbody pos name paren unparen arrow result close) .done
    rwa [append_nil] at hfile

end Tree

section Elaboration

variable {count : Nat} {s : Elaboration}

/-- A state behind `count` statements of the procedure. -/
structure Loading (count : Nat) (s : Elaboration) : Prop where
  emitting : Emitting (loads count) count s.program
  nextId : s.program.nextId = 10 + .ofNat count
  scopes : s.scopes = opened.scopes
  stage : s.stage = none
  builtin : s.builtin = none

namespace Loading

theorem statement (hs : Loading count s) (h : count < 2 ^ 32) {stmt : Stmt} (hstmt : IsLoad stmt) :
    ∃ t, Elaborate.statement 0 stmt s = .ok ((), t) ∧ Loading (count + 1) t := by
  obtain ⟨pos, close, rfl⟩ := hstmt
  obtain ⟨found, hfound, -⟩ := hs.emitting.procedure
  have hp : Emitting (loads (count + 1)) count
      { s.program with expressions := loads (count + 1) } :=
    ⟨rfl, hs.emitting.types, hs.emitting.globals, hs.emitting.procedure, hs.emitting.words⟩
  obtain ⟨q, hload, hid, hq⟩ := hp.load (Nat.le_of_lt h) (get?_loads count.lt_succ_self) (count + 1)
  have hbuild : Build.expression 0 count { s.program with expressions := loads (count + 1) } =
      .ok s.program.nextId q := by
    refine Build.bind_ok.mpr
      ⟨(), _, Build.discard_ok.mpr ⟨found, procedure_ok.mpr ⟨hfound, rfl⟩⟩, ?_⟩
    refine (Build.bind_of_ok (Build.get_ok.mpr ⟨rfl, rfl⟩)).trans ?_
    rw [size_loads]
    exact hload
  refine ⟨{ s with program := q }, ?_, hq, ?_, hs.scopes, hs.stage, hs.builtin⟩
  · rw [Elaborate.statement]
    refine (Elaborate.bind_of_ok (expr_load hs.scopes hs.emitting.expressions h pos)).trans ?_
    refine (Elaborate.bind_of_ok (a := close) rfl).trans ?_
    exact Elaborate.discard_ok.mpr ⟨_, build_ok.mpr ⟨q, hbuild, rfl⟩⟩
  · rw [hid, hs.nextId, UInt32.ofNat_add, ← UInt32.add_assoc]
    rfl

theorem block {body : List Stmt} (hs : Loading count s) (hbody : ∀ stmt ∈ body, IsLoad stmt)
    (h : count + body.length ≤ 2 ^ 32) :
    ∃ t, Elaborate.block 0 body s = .ok ((), t) ∧ Loading (count + body.length) t := by
  induction body generalizing count s with
  | nil => exact ⟨s, rfl, hs⟩
  | cons stmt rest ih =>
    obtain ⟨hstmt, hrest⟩ := forall_mem_cons.mp hbody
    rw [length_cons] at h ⊢
    obtain ⟨found, hfound, hreturned⟩ := hs.emitting.procedure
    obtain ⟨mid, hrun, hmid⟩ := hs.statement (by omega) hstmt
    obtain ⟨t, hblock, ht⟩ := ih hmid hrest (by omega)
    refine ⟨t, ?_, by rwa [Nat.add_comm rest.length, ← Nat.add_assoc]⟩
    rw [Elaborate.block]
    refine (Elaborate.bind_of_ok (view_ok.mpr ⟨procedureAt_ok.mpr hfound, rfl⟩)).trans ?_
    rw [if_neg (by rw [hreturned]; exact Bool.false_ne_true)]
    exact (Elaborate.bind_of_ok hrun).trans hblock

theorem finish (hs : Loading count s) (h : count ≤ 2 ^ 32) (close : Position) :
    ∃ t, LongLiteral.finish close s = .ok ((), t) ∧ t.program.nextId = 10 + .ofNat count ∧
      t.stage = none ∧ t.builtin = none := by
  obtain ⟨found, hfound, hreturned⟩ := hs.emitting.procedure
  have hreserve := reserve_room hs.emitting.words 1 (by omega)
  have hcharge : charge ⟨.exit, []⟩ s.program = .ok () _ := Build.bind_of_ok hreserve
  have hexit : ∃ q, Build.exit 0 s.program = .ok () q ∧ q.nextId = s.program.nextId :=
    ⟨_, Build.bind_ok.mpr ⟨(), _, Build.discard_ok.mpr ⟨found, procedure_ok.mpr ⟨hfound, rfl⟩⟩,
      Build.bind_of_ok hcharge⟩, rfl⟩
  obtain ⟨q, hexit, hid⟩ := hexit
  have hpop : s.scopes.pop = .ok declared.scopes := by
    rw [hs.scopes]
    with_unfolding_all rfl
  refine ⟨{ s with program := q, scopes := declared.scopes }, ?_, hid.trans hs.nextId, hs.stage,
    hs.builtin⟩
  refine (Elaborate.bind_of_ok (view_ok.mpr ⟨procedureAt_ok.mpr hfound, rfl⟩)).trans ?_
  rw [if_neg (by rw [hreturned]; exact Bool.false_ne_true)]
  refine (Elaborate.bind_of_ok (build_ok.mpr ⟨q, hexit, rfl⟩)).trans ?_
  exact Elaborate.bind_of_ok (a := ()) (scope_ok.mpr ⟨_, hpop, rfl⟩)

end Loading

end Elaboration

end LoadProcedure

theorem Elaborate.noneWaits_none {α : Type} {waiting : Elaboration → Option (α × Position)}
    {s : Elaboration} (h : waiting s = none) (cause : Cause) :
    noneWaits waiting cause s = .ok ((), s) := by
  refine (Elaborate.bind_of_ok (a := s) (t := s) rfl).trans ?_
  rw [h]
  rfl

namespace Program

theorem ofSource_loads {source : Bytes} {pos name result close last : Position} {body : List Stmt}
    (htree : SourceTree.ofSource source =
      ⟨[vectorItem, procedureItem pos name result body close], .ok last⟩)
    (hbody : ∀ stmt ∈ body, LoadProcedure.IsLoad stmt) (h : body.length ≤ 2 ^ 32) :
    ∃ p, ofSource source LongLiteral.limits = .ok p ∧ p.nextId = 10 + .ofNat body.length := by
  have hstart : LoadProcedure.Loading 0 opened :=
    ⟨⟨rfl, rfl, rfl, ⟨_, rfl, rfl⟩, rfl⟩, rfl, rfl, rfl, rfl⟩
  obtain ⟨mid, hblock, hmid⟩ := hstart.block hbody (by omega)
  rw [Nat.zero_add] at hmid
  obtain ⟨t, hfinish, hid, hstage, hbuiltin⟩ := hmid.finish h close
  have hitem := (item_procedure pos name result body close).trans
    ((Elaborate.bind_of_ok hblock).trans hfinish)
  refine ⟨t.program, ?_, hid⟩
  rw [ofSource_roomy, htree, sourceTree]
  have hitems : [vectorItem, procedureItem pos name result body close].forM Elaborate.item
      (.ofProgram (.seeded LongLiteral.limits.withDefaults)) = .ok ((), t) :=
    (Elaborate.bind_of_ok item_vector).trans (Elaborate.bind_of_ok hitem)
  rw [Elaborate.bind_of_ok hitems, Elaborate.bind_of_ok (a := ()) (t := t) rfl,
    Elaborate.bind_of_ok (noneWaits_none hstage _), noneWaits_none hbuiltin]
  rfl

theorem nextId_loads (count : Nat) (h : count ≤ 2 ^ 32) : ∃ p q,
    ofSource (utf8 "var v: vec4<f32>") LongLiteral.limits = .ok p ∧
    ofSource (utf8 "var v: vec4<f32>" ++ utf8 "\n" ++ loadProcedure count) LongLiteral.limits =
      .ok q ∧
    (∃ token ∈ (Tokens.ofSource (loadProcedure count)).toList.head?, token.kind ∈ topLevelKinds) ∧
    p.nextId = 7 ∧ q.nextId = 10 + .ofNat count := by
  have hsource : SourceTree.ofSource (utf8 "var v: vec4<f32>") = ⟨[vectorItem], .ok ⟨1, 17⟩⟩ := by
    rfl
  have hmore : ∃ token ∈ (Tokens.ofSource (loadProcedure count)).toList.head?,
      token.kind ∈ topLevelKinds := by
    obtain ⟨token, tail, htokens, hlexeme, -⟩ :=
      map_eq_cons_iff.mp (LoadProcedure.spells_procedure count).1
    refine ⟨token, ?_, by rw [Token.kind, hlexeme]; decide⟩
    rw [Tokens.toList, htokens]
    split <;> rfl
  obtain ⟨rest, hmoved, htree⟩ := SourceTree.items_ofSource (congrArg (·.ending) hsource) hmore
  obtain ⟨pos, name, result, body, close, last, hitems, rfl, hloads⟩ :=
    LoadProcedure.tree_of_lexemes hmoved
  rw [hsource, hitems] at htree
  obtain ⟨q, hq, hid⟩ := ofSource_loads htree hloads h
  refine ⟨declared.program, q, ?_, ?_, hmore, rfl, hid⟩
  · have hitem : [vectorItem].forM Elaborate.item
        (.ofProgram (.seeded LongLiteral.limits.withDefaults)) = .ok ((), declared) :=
      Elaborate.bind_of_ok item_vector
    rw [ofSource_roomy, hsource, sourceTree, Elaborate.bind_of_ok hitem]
    rfl
  · exact hq

/-- A source and one that goes on behind it are accepted, and the second has the lower bound. -/
theorem bound_comes_round : ∃ p q,
    ofSource (utf8 "var v: vec4<f32>") LongLiteral.limits = .ok p ∧
    ofSource (utf8 "var v: vec4<f32>" ++ utf8 "\n" ++ loadProcedure (2 ^ 32 - 10))
      LongLiteral.limits = .ok q ∧
    (∃ token ∈ (Tokens.ofSource (loadProcedure (2 ^ 32 - 10))).toList.head?,
      token.kind ∈ topLevelKinds) ∧
    q.nextId < p.nextId := by
  obtain ⟨p, q, hp, hq, hmore, hid, hid'⟩ := nextId_loads (2 ^ 32 - 10) (by decide)
  refine ⟨p, q, hp, hq, hmore, ?_⟩
  rw [hid, hid']
  decide

end Program

end Shading
