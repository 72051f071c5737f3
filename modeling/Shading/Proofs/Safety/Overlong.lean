import Mathlib.Algebra.Ring.Int.Defs
import Mathlib.Algebra.Ring.Nat
import Shading.Compile
import Shading.Proofs.Emission
import Shading.Proofs.Lexing
import Shading.Proofs.Limits.Start
import Shading.Proofs.Reading.Completeness

/-!
A literal that is too long. The components of a vector literal are counted in
32 bits, so with one element of four components more than a multiple of 2³⁰
the count comes round to four. The literal then passes for a vector of four
components, all its elements are loaded, and the instruction that joins them
has more words than its first word can tell.
-/

namespace Shading

open Text Tokens List Elaborate Build Program

variable {value : Expr} {ref : Nat}

/-- A source with a literal that lists a vector of four components `count + 1` times. -/
def longLiteral (count : Nat) : Bytes :=
  utf8 "var v: vec4<f32> procedure p() -> void \x7b" ++
    (utf8 "\nv" ++ ((List.replicate count (utf8 ",v")).flatten ++ utf8 "\x7d; end"))

namespace LongLiteral

section Tree

open Grammar

def head : List Token :=
  [⟨.keyword .declare, ⟨1, 1⟩⟩, ⟨.sym (utf8 "v"), ⟨1, 5⟩⟩, ⟨.mark .colon, ⟨1, 6⟩⟩,
    ⟨.sym (utf8 "vec4"), ⟨1, 8⟩⟩, ⟨.mark .less, ⟨1, 12⟩⟩, ⟨.sym (utf8 "f32"), ⟨1, 13⟩⟩,
    ⟨.mark .greater, ⟨1, 16⟩⟩, ⟨.keyword .procedure, ⟨1, 18⟩⟩, ⟨.sym (utf8 "p"), ⟨1, 28⟩⟩,
    ⟨.mark .leftParen, ⟨1, 29⟩⟩, ⟨.mark .rightParen, ⟨1, 30⟩⟩, ⟨.mark .arrow, ⟨1, 32⟩⟩,
    ⟨.sym (utf8 "void"), ⟨1, 35⟩⟩, ⟨.mark .leftBrace, ⟨1, 40⟩⟩]

def nameAt (column : Int) : Name := ⟨utf8 "v", ⟨2, column⟩⟩

def elementsFrom : Nat → Int → List (Position × List Token × Expr)
  | 0, _ => []
  | more + 1, column =>
    (⟨2, column⟩, [⟨.sym (utf8 "v"), ⟨2, column + 1⟩⟩], .var (nameAt (column + 1))) ::
      elementsFrom more (column + 2)

def foot (column : Int) : List Token :=
  [⟨.mark .rightBrace, ⟨2, column⟩⟩, ⟨.mark .semicolon, ⟨2, column + 1⟩⟩,
    ⟨.keyword .close, ⟨2, column + 3⟩⟩]

-- One token at a time, with what is left written out: unfolding the whole run at once would carry
-- every cursor along unevaluated.
theorem readFrom_head (fuel : Nat) (tail : Bytes) :
    Tokens.readFrom (fuel + 14) []
        ⟨utf8 "var v: vec4<f32> procedure p() -> void \x7b" ++ tail, .start⟩ =
      Tokens.readFrom fuel head.reverse ⟨tail, ⟨1, 41⟩⟩ := by
  refine (readFrom_next ⟨.keyword .declare, ⟨1, 1⟩⟩
    ⟨utf8 " v: vec4<f32> procedure p() -> void \x7b" ++ tail, ⟨1, 4⟩⟩ rfl nofun).trans ?_
  refine (readFrom_next ⟨.sym (utf8 "v"), ⟨1, 5⟩⟩
    ⟨utf8 ": vec4<f32> procedure p() -> void \x7b" ++ tail, ⟨1, 6⟩⟩ rfl nofun).trans ?_
  refine (readFrom_next ⟨.mark .colon, ⟨1, 6⟩⟩
    ⟨utf8 " vec4<f32> procedure p() -> void \x7b" ++ tail, ⟨1, 7⟩⟩ rfl nofun).trans ?_
  refine (readFrom_next ⟨.sym (utf8 "vec4"), ⟨1, 8⟩⟩
    ⟨utf8 "<f32> procedure p() -> void \x7b" ++ tail, ⟨1, 12⟩⟩ rfl nofun).trans ?_
  refine (readFrom_next ⟨.mark .less, ⟨1, 12⟩⟩
    ⟨utf8 "f32> procedure p() -> void \x7b" ++ tail, ⟨1, 13⟩⟩ rfl nofun).trans ?_
  refine (readFrom_next ⟨.sym (utf8 "f32"), ⟨1, 13⟩⟩
    ⟨utf8 "> procedure p() -> void \x7b" ++ tail, ⟨1, 16⟩⟩ rfl nofun).trans ?_
  refine (readFrom_next ⟨.mark .greater, ⟨1, 16⟩⟩
    ⟨utf8 " procedure p() -> void \x7b" ++ tail, ⟨1, 17⟩⟩ rfl nofun).trans ?_
  refine (readFrom_next ⟨.keyword .procedure, ⟨1, 18⟩⟩
    ⟨utf8 " p() -> void \x7b" ++ tail, ⟨1, 27⟩⟩ rfl nofun).trans ?_
  refine (readFrom_next ⟨.sym (utf8 "p"), ⟨1, 28⟩⟩
    ⟨utf8 "() -> void \x7b" ++ tail, ⟨1, 29⟩⟩ rfl nofun).trans ?_
  refine (readFrom_next ⟨.mark .leftParen, ⟨1, 29⟩⟩
    ⟨utf8 ") -> void \x7b" ++ tail, ⟨1, 30⟩⟩ rfl nofun).trans ?_
  refine (readFrom_next ⟨.mark .rightParen, ⟨1, 30⟩⟩
    ⟨utf8 " -> void \x7b" ++ tail, ⟨1, 31⟩⟩ rfl nofun).trans ?_
  refine (readFrom_next ⟨.mark .arrow, ⟨1, 32⟩⟩
    ⟨utf8 " void \x7b" ++ tail, ⟨1, 34⟩⟩ rfl nofun).trans ?_
  refine (readFrom_next ⟨.sym (utf8 "void"), ⟨1, 35⟩⟩
    ⟨utf8 " \x7b" ++ tail, ⟨1, 39⟩⟩ rfl nofun).trans ?_
  exact readFrom_next ⟨.mark .leftBrace, ⟨1, 40⟩⟩ ⟨tail, ⟨1, 41⟩⟩ rfl nofun

theorem readFrom_line (fuel : Nat) (read : List Token) (tail : Bytes) :
    Tokens.readFrom (fuel + 1) read ⟨utf8 "\nv" ++ tail, ⟨1, 41⟩⟩ =
      Tokens.readFrom (fuel + 1) read ⟨utf8 "v" ++ tail, ⟨2, 1⟩⟩ := by
  rw [readFrom, readFrom]
  rfl

theorem readFrom_foot (fuel : Nat) (read : List Token) (column : Int) :
    Tokens.readFrom (fuel + 5) read ⟨utf8 "v\x7d; end", ⟨2, column⟩⟩ =
      ⟨read.reverse ++ ⟨.sym (utf8 "v"), ⟨2, column⟩⟩ :: foot (column + 1),
        .ok ⟨2, column + 7⟩⟩ := by
  refine (readFrom_next ⟨.sym (utf8 "v"), ⟨2, column⟩⟩
    ⟨utf8 "\x7d; end", ⟨2, column + 1⟩⟩ rfl nofun).trans ?_
  refine (readFrom_next ⟨.mark .rightBrace, ⟨2, column + 1⟩⟩
    ⟨utf8 "; end", ⟨2, column + 1 + 1⟩⟩ rfl nofun).trans ?_
  refine (readFrom_next ⟨.mark .semicolon, ⟨2, column + 1 + 1⟩⟩
    ⟨utf8 " end", ⟨2, column + 1 + 1 + 1⟩⟩ rfl nofun).trans ?_
  refine (readFrom_next ⟨.keyword .close, ⟨2, column + 1 + 1 + 1 + 1⟩⟩
    ⟨[], ⟨2, column + 1 + 1 + 1 + 1 + 1 + 1 + 1⟩⟩ rfl nofun).trans ?_
  change mk _ (.ok ⟨2, column + 1 + 1 + 1 + 1 + 1 + 1 + 1⟩) = _
  simp [foot, Int.add_assoc]

theorem readFrom_elements (fuel count : Nat) (read : List Token) (column : Int) :
    Tokens.readFrom (fuel + 2 * count + 5) read
        ⟨utf8 "v" ++ ((List.replicate count (utf8 ",v")).flatten ++ utf8 "\x7d; end"),
          ⟨2, column⟩⟩ =
      ⟨read.reverse ++ ⟨.sym (utf8 "v"), ⟨2, column⟩⟩ ::
          (Reading.elementTokens (elementsFrom count (column + 1)) ++
            foot (column + 2 * count + 1)),
        .ok ⟨2, column + 2 * count + 7⟩⟩ := by
  induction count generalizing read column with
  | zero =>
    rw [Int.natCast_zero, Int.mul_zero, Int.add_zero]
    exact readFrom_foot fuel read column
  | succ count ih =>
    refine (readFrom_next ⟨.sym (utf8 "v"), ⟨2, column⟩⟩
      ⟨utf8 "," ++ (utf8 "v" ++ ((replicate count (utf8 ",v")).flatten ++ utf8 "\x7d; end")),
        ⟨2, column + 1⟩⟩ rfl nofun).trans ?_
    refine (readFrom_next ⟨.mark .comma, ⟨2, column + 1⟩⟩
      ⟨utf8 "v" ++ ((replicate count (utf8 ",v")).flatten ++ utf8 "\x7d; end"),
        ⟨2, column + 1 + 1⟩⟩ rfl nofun).trans ?_
    refine (ih _ _).trans ?_
    have hcolumn : column + 1 + 1 + 2 * (count : Int) = column + 2 * (count + 1 : Nat) := by
      omega
    simp only [hcolumn, elementsFrom, Reading.elementTokens, flatMap_cons]
    simp [Int.add_assoc]

theorem tokens (count : Nat) :
    Tokens.ofSource (longLiteral count) =
      ⟨head ++ ⟨.sym (utf8 "v"), ⟨2, 1⟩⟩ ::
          (Reading.elementTokens (elementsFrom count 2) ++ foot (1 + 2 * count + 1)),
        .ok ⟨2, 1 + 2 * count + 7⟩⟩ := by
  have hlength : (longLiteral count).length + 1 = 30 + 2 * count + 5 + 14 := by
    simp only [longLiteral, length_append, length_flatten, map_replicate,
      sum_replicate_nat]
    change 40 + (2 + (count * 2 + 6)) + 1 = _
    omega
  rw [Tokens.ofSource, hlength]
  refine (readFrom_head _ _).trans ((readFrom_line _ _ _).trans ?_)
  refine (readFrom_elements 30 count head.reverse 1).trans ?_
  rw [reverse_reverse]
  rfl

def vectorItem : Item :=
  .global ⟨1, 1⟩ .internal (.ok ⟨utf8 "v", ⟨1, 5⟩⟩)
    (.vector ⟨1, 8⟩ 4 (.named ⟨utf8 "f32", ⟨1, 13⟩⟩) (.ok ⟨1, 16⟩)) (.ok none)

def literal (count : Nat) (close : Position) : Expr :=
  .vector ⟨1, 40⟩ (.var (nameAt 1)) ((elementsFrom count 2).map (·.2.2)) (.ok close)

def procedureItem (pos name result : Position) (body : List Stmt) (close : Position) : Item :=
  .procedure pos (.ok ⟨utf8 "p", name⟩) (.named ⟨utf8 "void", result⟩) body (.ok close)

theorem vectorItem_tokens : TopLevel (head.take 7) vectorItem :=
  .global rfl (.vector rfl (.named rfl)) .absent (.inl rfl)

theorem elementsFrom_tokens (count : Nat) (column : Int) :
    ∀ element ∈ elementsFrom count column, Expression .sum element.2.1 element.2.2 := by
  induction count generalizing column with
  | zero => exact fun _ h => nomatch h
  | succ count ih => exact forall_mem_cons.mpr ⟨.term (.factor .var), ih _⟩

theorem literal_tokens (count : Nat) (close : Position) :
    Expression .sum
      (⟨.mark .leftBrace, ⟨1, 40⟩⟩ :: ⟨.sym (utf8 "v"), ⟨2, 1⟩⟩ ::
        (Reading.elementTokens (elementsFrom count 2) ++ [⟨.mark .rightBrace, close⟩]))
      (literal count close) :=
  .term (.factor (.vector (.term (.factor .var)) (elementsFrom_tokens count 2)))

theorem procedureItem_tokens {used : List Token} {body : List Stmt} (h : Statements used body)
    (pos name paren unparen arrow result close : Position) :
    TopLevel ([⟨.keyword .procedure, pos⟩, ⟨.sym (utf8 "p"), name⟩, ⟨.mark .leftParen, paren⟩,
        ⟨.mark .rightParen, unparen⟩, ⟨.mark .arrow, arrow⟩, ⟨.sym (utf8 "void"), result⟩] ++
        (used ++ [⟨.keyword .close, close⟩]))
      (procedureItem pos name result body close) :=
  .procedure (.named rfl) h

theorem tree (count : Nat) :
    ∃ brace semicolon close final, SourceTree.ofSource (longLiteral count) =
      ⟨[vectorItem, procedureItem ⟨1, 18⟩ ⟨1, 28⟩ ⟨1, 35⟩
        [.evaluate (literal count brace) (.ok semicolon)] close], .ok final⟩ := by
  refine ⟨⟨2, 1 + 2 * count + 1⟩, ⟨2, 1 + 2 * count + 1 + 1⟩, ⟨2, 1 + 2 * count + 1 + 3⟩,
    ⟨2, 1 + 2 * count + 7⟩, ?_⟩
  rw [SourceTree.ofSource, tokens]
  refine SourceTree.ofTokens_file ?_ _
  have hfile := File.next vectorItem_tokens
    (.next (procedureItem_tokens
      (@Statements.evaluate ⟨2, 1 + 2 * count + 1 + 1⟩ _ _
        (literal_tokens count ⟨2, 1 + 2 * count + 1⟩))
      ⟨1, 18⟩ ⟨1, 28⟩ ⟨1, 29⟩ ⟨1, 30⟩ ⟨1, 32⟩ ⟨1, 35⟩ ⟨2, 1 + 2 * count + 1 + 3⟩) .done)
  simpa [head, foot] using hfile

end Tree

/-- Limits that leave room for as many elements as there are indices. -/
def limits : Limits where
  expressions := 8589934592
  words := 1099511627776
  vectorElements := 8589934592

section Elaboration

variable {count : Nat}

def place : Local := ⟨utf8 "v", 2, 3, 4, some 0⟩

def declared : Elaboration :=
  { Elaboration.ofProgram (.seeded limits.withDefaults) with
    program := { Program.seeded limits.withDefaults with
      nextId := 7
      types := ⟨#[⟨utf8 "void", 2, .void⟩, ⟨utf8 "f32", 3, .scalar .f32⟩, ⟨[], 5, .vector 1 4⟩,
        ⟨[], 6, .pointer 2 .internal⟩], .types, 256⟩
      globals := ⟨#[⟨utf8 "v", .internal, none, .absent, 2, 3, 4⟩], .globals, 32⟩ }
    scopes := ⟨⟨#[place], .locals, 128⟩, [], 16⟩ }

def added (label : UInt32) : Arena Procedure :=
  ⟨#[⟨utf8 "p", 7, 4, 0, label, #[], #[], false, #[]⟩], .procedures, 32⟩

def entered : Elaboration :=
  { declared with
    program := { declared.program with
      nextId := 9
      types := declared.program.types.add ⟨[], 8, .procedure 0⟩
      procedures := added 0 } }

def opened : Elaboration :=
  { entered with
    program := { entered.program with
      nextId := 10
      procedures := added 9
      words := ⟨2, 1099511627776⟩ }
    scopes := { declared.scopes with marks := [1] } }

/-- A pool of loads. -/
def loads (count : Nat) : Arena ExprEntry :=
  ⟨Array.replicate count ⟨.load place, 2⟩, .expressions, 8589934592⟩

def loaded (count : Nat) : Elaboration :=
  { opened with program := { opened.program with expressions := loads count } }

def joined (count : Nat) : Elaboration :=
  { loaded count with
    program := { (loaded count).program with
      expressions := (loads count).add ⟨.vector (List.range' 0 count), 2⟩ }
    vectorElements := count }

theorem item_vector :
    Elaborate.item vectorItem (.ofProgram (.seeded limits.withDefaults)) = .ok ((), declared) := by
  with_unfolding_all rfl

/-- What is left to do in the procedure behind its statements. -/
def finish (close : Position) : Elaborate Unit := do
  unless (← procedure 0).returned do
    build close (Build.exit 0)
  closeProcedure close (utf8 "p") none 0

theorem item_procedure (pos name result : Position) (body : List Stmt) (close : Position) :
    Elaborate.item (procedureItem pos name result body close) declared =
      (Elaborate.block 0 body >>= fun _ => finish close) opened := by
  refine (bind_of_ok (a := ()) (t := declared) rfl).trans ?_
  refine (bind_of_ok (a := none) (t := declared) rfl).trans ?_
  refine (bind_of_ok (a := ⟨utf8 "p", name⟩) (t := declared) rfl).trans ?_
  refine (bind_of_ok (a := declared) (t := declared) rfl).trans ?_
  have hnew : ¬(declared.program.procedures.items.any fun p => p.name = utf8 "p") = true := by
    decide +kernel
  rw [if_neg hnew]
  have hnamed : Build.namedType (utf8 "void") declared.program = .ok (some 0) declared.program := by
    with_unfolding_all rfl
  have hadd : addProcedure (utf8 "p") 0 declared.program = .ok 0 entered.program := by
    with_unfolding_all rfl
  have hopen : openBlock 0 entered.program = .ok () opened.program := by with_unfolding_all rfl
  refine (bind_of_ok (a := 0) (t := declared)
    (Elaborate.bind_of_ok (build_ok.mpr ⟨_, hnamed, rfl⟩))).trans ?_
  refine (bind_of_ok (build_ok.mpr ⟨_, hadd, rfl⟩)).trans ?_
  refine (bind_of_ok (a := ()) (t := { entered with scopes := opened.scopes })
    (by with_unfolding_all rfl)).trans ?_
  exact Elaborate.bind_of_ok (t := opened) (build_ok.mpr ⟨_, hopen, rfl⟩)

theorem size_loads (count : Nat) : (loads count).size = count := by simp [loads, Arena.size]

theorem loads_succ (count : Nat) : (loads count).add ⟨.load place, 2⟩ = loads (count + 1) := by
  simp [loads, Arena.add, Array.replicate_succ]

theorem get?_loads (h : ref < count) :
    (loads count).get? ref = some ⟨.load place, 2⟩ := by
  simp [loads, Arena.get?, h]

theorem addExpression_loads {p : Program} (hp : p.expressions = loads count) (h : count < 2 ^ 32)
    (kind : ExprKind) :
    Build.addExpression kind 2 p =
      .ok count { p with expressions := (loads count).add ⟨kind, 2⟩ } := by
  refine push_ok.mpr ⟨⟨?_, ?_⟩, by rw [hp, size_loads], by rw [hp]⟩
  · rw [hp, Arena.hasRoom, size_loads]
    exact decide_eq_true (show ((count + 1 : Nat) : Int) ≤ 8589934592 by omega)
  · rw [hp, Arena.hasIndex, size_loads]
    exact decide_eq_true h

theorem expr_load {s : Elaboration} (hscopes : s.scopes = opened.scopes)
    (hp : s.program.expressions = loads count) (h : count < 2 ^ 32) (pos : Position) :
    Elaborate.expr (.var ⟨utf8 "v", pos⟩) s =
      .ok (count, { s with program := { s.program with expressions := loads (count + 1) } }) := by
  have hlookup : s.scopes.lookup (utf8 "v") = some place := by
    rw [hscopes]
    rfl
  rw [expr]
  refine (bind_of_ok (a := s) (t := s) rfl).trans ?_
  rw [hlookup]
  refine build_ok.mpr ⟨_, addExpression_loads hp h (.load place), ?_⟩
  rw [loads_succ]

theorem elementSize_loaded (h : ref < count) (pos : Position) :
    Elaborate.elementSize 1 ref pos (loaded count) = .ok (4, loaded count) := by
  have hentry : (loaded count).program.expressionAt ref = .ok ⟨.load place, 2⟩ := by
    exact expressionAt_ok.mpr (get?_loads h)
  have htype : typeOf ref (loaded count) = .ok (2, loaded count) :=
    view_ok.mpr ⟨by rw [hentry]; rfl, rfl⟩
  refine (bind_of_ok htype).trans ?_
  exact bind_of_ok (a := some (1, 4)) (t := loaded count) rfl

theorem elements_loaded (rest : Nat) (h : count + rest ≤ 2 ^ 32) (column : Int) :
    Elaborate.elements 1 (.ofNat (4 * count)) ((elementsFrom rest column).map (·.2.2))
        (loaded count) =
      .ok ((List.range' count rest, .ofNat (4 * (count + rest))), loaded (count + rest)) := by
  induction rest generalizing count column with
  | zero => rfl
  | succ rest ih =>
    have hfour : UInt32.ofNat (4 * count) + 4 = .ofNat (4 * (count + 1)) := by
      rw [Nat.mul_succ, UInt32.ofNat_add]
      rfl
    rw [elementsFrom, map_cons, elements]
    refine (Elaborate.bind_of_ok (expr_load (s := loaded count) rfl rfl (by omega) _)).trans ?_
    refine (bind_of_ok (elementSize_loaded (Nat.lt_succ_self count) _)).trans ?_
    rw [hfour]
    refine (Elaborate.bind_of_ok (ih (by omega) _)).trans ?_
    rw [Nat.add_right_comm, Nat.add_assoc count rest 1]
    rfl

theorem vectorLiteral_loaded (h : count < 2 ^ 32) (pos close : Position) :
    Elaborate.vectorLiteral pos close 1 4 (List.range' 0 count) (loaded count) =
      .ok (count, joined count) := by
  have hlength : 0 + (range' 0 count).length = count := by simp
  have hfits : fits count 8589934592 = true :=
    decide_eq_true (show (count : Int) ≤ 8589934592 by omega)
  have htype : vectorType 1 4 (loaded count).program = .ok 2 (loaded count).program := by
    with_unfolding_all rfl
  refine (bind_of_ok (a := loaded count) (t := loaded count) rfl).trans ?_
  change (if fits (0 + (range' 0 count).length) 8589934592 = true then
    (set { loaded count with vectorElements := 0 + (range' 0 count).length } >>= _) else _ :
      Elaborate ExprRef) _ = _
  rw [hlength, if_pos hfits]
  refine (bind_of_ok (a := ()) (t := { loaded count with vectorElements := count })
    rfl).trans ?_
  exact build_ok.mpr
    ⟨_, (bind_of_ok htype).trans (addExpression_loads rfl h _), rfl⟩

theorem expr_literal (h : count + 1 < 2 ^ 32) (hround : UInt32.ofNat (4 * (count + 1)) = 4)
    (close : Position) :
    Elaborate.expr (literal count close) opened = .ok (count + 1, joined (count + 1)) := by
  have hstart : opened = loaded 0 := by with_unfolding_all rfl
  have hrest := elements_loaded count (show 1 + count ≤ 2 ^ 32 by omega) 2
  rw [Nat.add_comm 1 count, hround] at hrest
  rw [literal, expr, hstart]
  refine (bind_of_ok (expr_load (s := loaded 0) rfl rfl (Nat.two_pow_pos 32) _)).trans ?_
  refine (bind_of_ok (a := (1, 4)) (t := loaded 1) rfl).trans ?_
  refine (bind_of_ok hrest).trans ?_
  refine (bind_of_ok (a := close) (t := loaded (count + 1)) rfl).trans ?_
  exact vectorLiteral_loaded h _ _

end Elaboration

section Emission

variable {pool : Arena ExprEntry} {count emitted : Nat} {p : Program}

/-- A program in which `emitted` loads have been emitted, from a pool of expressions. -/
structure Emitting (pool : Arena ExprEntry) (emitted : Nat) (p : Program) : Prop where
  expressions : p.expressions = pool
  types : p.types = opened.program.types
  globals : p.globals = opened.program.globals
  procedure : ∃ found, p.procedures.get? 0 = some found ∧ found.returned = false
  words : p.words = ⟨.ofNat (2 + 4 * emitted), 1099511627776⟩

theorem reserve_room {used : Nat} (hp : p.words = ⟨.ofNat used, 1099511627776⟩) (words : Nat)
    (h : used + words ≤ 1099511627776) :
    Build.reserve (.ofNat words) p =
      .ok () { p with words := ⟨.ofNat (used + words), 1099511627776⟩ } := by
  have hsum : Int64.ofNat used + .ofNat words = .ofNat (used + words) := (Int64.ofNat_add ..).symm
  have hle : ¬Int64.ofNat (used + words) > 1099511627776 := by
    rw [gt_iff_lt, Int64.lt_iff_toInt_lt, Int64.toInt_ofNat_of_lt (by omega)]
    change ¬(1099511627776 : Int) < _
    omega
  have hreserve : p.words.reserve (.ofNat words) = .ok ⟨.ofNat (used + words), 1099511627776⟩ := by
    rw [hp, WordBudget.reserve, hsum, if_neg hle]
  rw [Build.reserve, Build.bind_of_ok (Build.get_ok.mpr ⟨rfl, rfl⟩), hreserve]
  rfl

namespace Emitting

theorem start (count : Nat) :
    Emitting (joined count).program.expressions 0 (joined count).program :=
  ⟨rfl, rfl, rfl, ⟨_, rfl, rfl⟩, rfl⟩

theorem freshId (hp : Emitting pool emitted p) :
    Emitting pool emitted { p with nextId := p.nextId + 1 } :=
  ⟨hp.expressions, hp.types, hp.globals, hp.procedure, hp.words⟩

theorem typeId (hp : Emitting pool emitted p) : p.typeId 2 = .ok 5 := by
  rw [Program.typeId, Program.typeAt, hp.types]
  rfl

theorem emit (hp : Emitting pool emitted p) (h : emitted ≤ 2 ^ 32) (id : UInt32) :
    ∃ q, Build.emit 0 .load [5, id, 4] p = .ok () q ∧ q.nextId = p.nextId ∧
      Emitting pool (emitted + 1) q := by
  obtain ⟨found, hfound, hreturned⟩ := hp.procedure
  have hreserve := reserve_room hp.words 4 (by omega)
  have hcharge : charge ⟨.load, [5, id, 4]⟩ p = .ok () _ := bind_of_ok hreserve
  exact ⟨_, bind_of_ok hcharge, rfl, hp.expressions, hp.types, hp.globals,
    ⟨_, Arena.get?_modify_eq _ hfound, hreturned⟩, rfl⟩

theorem registerInterface (hp : Emitting pool emitted p) :
    Build.registerInterface 0 place p = .ok () p := by
  obtain ⟨found, hfound, -⟩ := hp.procedure
  have hglobal : p.globalAt 0 = .ok ⟨utf8 "v", .internal, none, .absent, 2, 3, 4⟩ := by
    rw [globalAt, hp.globals]
    rfl
  refine (Build.bind_of_ok (Build.view_ok.mpr ⟨hglobal, rfl⟩)).trans ?_
  exact Build.bind_of_ok (Build.procedure_ok.mpr ⟨hfound, rfl⟩)

theorem load (hp : Emitting pool emitted p) (h : emitted ≤ 2 ^ 32)
    (href : pool.get? ref = some ⟨.load place, 2⟩) (fuel : Nat) :
    ∃ q, Build.expressionWithin 0 (fuel + 1) ref p = .ok p.nextId q ∧
      q.nextId = p.nextId + 1 ∧ Emitting pool (emitted + 1) q := by
  obtain ⟨q, hemit, hid, hq⟩ := hp.freshId.emit h p.nextId
  refine ⟨q, ?_, hid, hq⟩
  rw [expressionWithin]
  refine (Build.bind_of_ok (Build.view_ok.mpr
    ⟨expressionAt_ok.mpr (hp.expressions ▸ href), rfl⟩)).trans ?_
  change (Build.freshId >>= _) p = _
  refine (bind_of_ok (freshId_ok.mpr ⟨rfl, rfl⟩)).trans ?_
  refine (Build.bind_of_ok (Build.view_ok.mpr ⟨hp.freshId.typeId, rfl⟩)).trans ?_
  refine (Build.bind_of_ok hemit).trans ?_
  exact bind_of_ok hq.registerInterface

theorem elements (refs : List ExprRef) (fuel : Nat) (hp : Emitting pool emitted p)
    (hrefs : ∀ ref ∈ refs, pool.get? ref = some ⟨.load place, 2⟩)
    (h : emitted + refs.length ≤ 2 ^ 32) :
    ∃ ids q, refs.mapM (Build.expressionWithin 0 (fuel + 1)) p = .ok ids q ∧
      ids.length = refs.length ∧ Emitting pool (emitted + refs.length) q := by
  induction refs generalizing emitted p with
  | nil => exact ⟨[], p, rfl, rfl, hp⟩
  | cons ref refs ih =>
    rw [length_cons] at h
    obtain ⟨href, hrefs⟩ := forall_mem_cons.mp hrefs
    obtain ⟨mid, hid, -, hmid⟩ := hp.load (by omega) href fuel
    obtain ⟨ids, q, hids, hlength, hq⟩ := ih hmid hrefs (by omega)
    refine ⟨p.nextId :: ids, q, ?_, by simp [hlength], ?_⟩
    · rw [mapM_cons]
      refine (bind_of_ok hid).trans ?_
      exact bind_of_ok hids
    · rw [length_cons, Nat.add_comm refs.length 1, ← Nat.add_assoc]
      exact hq

theorem charge_long (hp : Emitting pool emitted p) (h : emitted ≤ 2 ^ 32) {values : List UInt32}
    (hlong : 65533 ≤ values.length) (hfew : values.length ≤ 2 ^ 32) (type id : UInt32) :
    ∃ q, Build.charge ⟨.compositeConstruct, type :: id :: values⟩ p =
      .error (.oversized .compositeConstruct) q := by
  let i : Binary.Instruction := ⟨.compositeConstruct, type :: id :: values⟩
  have hcount : i.wordCount = values.length + 3 := by simp [i, Binary.Instruction.wordCount]
  have hencodable : i.isEncodable = false :=
    decide_eq_false (show ¬i.wordCount ≤ 65535 by omega)
  have hreserve := reserve_room hp.words i.wordCount (by omega)
  refine ⟨{ p with words := ⟨.ofNat (2 + 4 * emitted + i.wordCount), 1099511627776⟩ },
    (bind_of_ok hreserve).trans ?_⟩
  change (if i.isEncodable = true then _ else throw _ : Build Unit) _ = _
  rw [hencodable]
  rfl

end Emitting

theorem expression_joined (hlong : 65533 ≤ count) (hfew : count < 2 ^ 32) :
    ∃ q, Build.expression 0 count (joined count).program =
      .error (.oversized .compositeConstruct) q := by
  have hlast := Arena.get?_add_size (loads count) ⟨.vector (range' 0 count), 2⟩
  have hsize := Arena.size_add (loads count) ⟨.vector (range' 0 count), 2⟩
  rw [size_loads] at hlast hsize
  have hrefs : ∀ ref ∈ range' 0 count,
      (joined count).program.expressions.get? ref = some ⟨.load place, 2⟩ := by
    intro ref href
    have hlt : ref < count := by simpa using href
    exact Arena.get?_mono (Arena.prefix_add _ _) (get?_loads hlt)
  obtain ⟨values, mid, hvalues, hlength, hmid⟩ :=
    (Emitting.start count).elements (range' 0 count) count hrefs (by simp; omega)
  rw [length_range'] at hlength hmid
  obtain ⟨q, hcharge⟩ := hmid.freshId.charge_long (by omega) (hlength ▸ hlong)
    (by omega) 5 mid.nextId
  refine ⟨q, ?_⟩
  refine (bind_of_ok (x := discard (procedure 0)) (a := ())
    (q := (joined count).program) rfl).trans ?_
  refine (Build.bind_of_ok (Build.get_ok.mpr ⟨rfl, rfl⟩)).trans ?_
  rw [show (joined count).program.expressions.size = count + 1 from hsize, Build.expressionWithin]
  refine (Build.bind_of_ok (Build.view_ok.mpr ⟨expressionAt_ok.mpr hlast, rfl⟩)).trans ?_
  refine (Build.bind_of_ok hvalues).trans ?_
  refine (Build.bind_of_ok (Build.freshId_ok.mpr ⟨rfl, rfl⟩)).trans ?_
  refine (Build.bind_of_ok (Build.view_ok.mpr ⟨hmid.freshId.typeId, rfl⟩)).trans ?_
  exact Build.bind_of_error (Build.bind_of_error hcharge)

theorem block_literal (hlong : 65533 ≤ count + 1) (hfew : count + 1 < 2 ^ 32)
    (hround : UInt32.ofNat (4 * (count + 1)) = 4) (brace semicolon : Position) :
    Elaborate.block 0 [.evaluate (literal count brace) (.ok semicolon)] opened =
      .error (.fault (.oversized .compositeConstruct)) := by
  obtain ⟨q, hq⟩ := expression_joined hlong hfew
  have hbuild : build semicolon (expression 0 (count + 1)) (joined (count + 1)) =
      .error (.fault (.oversized .compositeConstruct)) := by
    rw [Elaborate.build_eq, Build.ending, hq]
    rfl
  rw [block]
  refine (bind_of_ok (t := opened) rfl).trans ?_
  change (statement 0 (.evaluate (literal count brace) (.ok semicolon)) >>= _) opened = _
  refine bind_of_error ?_
  rw [statement]
  refine (bind_of_ok (expr_literal hfew hround brace)).trans ?_
  refine (bind_of_ok (a := semicolon) (t := joined (count + 1)) rfl).trans ?_
  exact discard_of_error hbuild

end Emission

end LongLiteral

theorem Program.ofSource_roomy (source : Bytes) :
    ofSource source LongLiteral.limits = ofOutcome
      (sourceTree (.ofSource source) (.ofProgram (.seeded LongLiteral.limits.withDefaults))) := by
  have hnew : new LongLiteral.limits = .ok (.seeded LongLiteral.limits.withDefaults) := by
    rw [new_eq]
    rfl
  rw [ofSource, hnew]
  rfl

/-- Whatever stands behind the literal, it is not reached. -/
theorem Program.ofSource_overlong {source : Bytes} {count : Nat} (hround : count % 2 ^ 30 = 0)
    (hpos : 0 < count) (hfew : count + 1 < 2 ^ 32) {rest : List Item}
    (h : (SourceTree.ofSource source).items =
      (SourceTree.ofSource (longLiteral count)).items ++ rest) :
    ofSource source LongLiteral.limits = .error (.fault (.oversized .compositeConstruct)) := by
  have hfour : UInt32.ofNat (4 * (count + 1)) = 4 := by
    rw [← UInt32.toNat_inj, UInt32.toNat_ofNat']
    change 4 * (count + 1) % 2 ^ 32 = 4
    omega
  obtain ⟨brace, semicolon, close, final, htree⟩ := LongLiteral.tree count
  have hrun : sourceTree (.ofSource source)
      (.ofProgram (.seeded LongLiteral.limits.withDefaults)) =
        .error (.fault (.oversized .compositeConstruct)) := by
    rw [sourceTree, h, htree]
    refine bind_of_error ((bind_of_ok LongLiteral.item_vector).trans ?_)
    refine bind_of_error ((LongLiteral.item_procedure ..).trans ?_)
    exact bind_of_error (LongLiteral.block_literal (by omega) hfew hfour brace semicolon)
  rw [ofSource_roomy, hrun]
  rfl

theorem Program.ofSource_longLiteral : ofSource (longLiteral (2 ^ 30)) LongLiteral.limits =
    .error (.fault (.oversized .compositeConstruct)) :=
  ofSource_overlong (by decide) (by decide) (by decide) (List.append_nil _).symm

/-- The shortest of these sources has just over 2³¹ bytes. -/
theorem longLiteral_faults :
    compile (longLiteral (2 ^ 30)) LongLiteral.limits =
      .error (.fault (.oversized .compositeConstruct)) := by
  rw [compile, Program.ofSource_longLiteral]
  rfl

end Shading
