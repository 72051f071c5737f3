import Shading.Proofs.Compilation
import Shading.Proofs.Limits.Elaborating

/-!
How long the code of a source can be. Every written operand and operator adds
one expression to the program and a bounded number of words to the code, so
the words of a program are bounded by its expressions and procedures, and the
budget never counts past what a signed 64-bit number can hold.
-/

namespace Shading

open List

open Binary (Instruction)

variable {scope : List Local} {code : List Instruction}

namespace Gauge

structure Within (g h : Gauge) : Prop where
  procedures : h.procedures = g.procedures
  labels : h.labels = g.labels
  expressions : g.expressions ≤ h.expressions

namespace Within

variable {g h k : Gauge}

theorem refl (g : Gauge) : g.Within g := ⟨rfl, rfl, Nat.le_refl _⟩

theorem trans (hgh : g.Within h) (hhk : h.Within k) : g.Within k :=
  ⟨hhk.1.trans hgh.1, hhk.2.trans hgh.2, Nat.le_trans hgh.3 hhk.3⟩

end Within

theorem within_express (g : Gauge) : g.Within g.express := ⟨rfl, rfl, Nat.le_succ _⟩

theorem within_closeScope (g : Gauge) : g.Within g.closeScope := by
  unfold closeScope
  cases g.marks with
  | nil => exact .refl g
  | cons mark marks => exact ⟨rfl, rfl, Nat.le_refl _⟩

theorem expressions_closeScope (g : Gauge) : g.closeScope.expressions = g.expressions := by
  unfold closeScope
  cases g.marks <;> rfl

end Gauge

mutual

theorem Expr.within (x : Expr) (g : Gauge) : g.Within (x.gauge g) := by
  cases x with
  | missing why => exact .refl g
  | stopped operand why => exact operand.within g
  | var name => exact g.within_express
  | number bits pos => exact g.within_express
  | paren pos inner close => exact inner.within g
  | sum op opPos left right =>
    exact ((left.within g).trans (right.within _)).trans (Gauge.within_express _)
  | scale op opPos left right =>
    exact ((left.within g).trans (right.within _)).trans (Gauge.within_express _)
  | vector pos first rest close =>
    have hadd : (elementsGauge rest (first.gauge g)).Within
        ((elementsGauge rest (first.gauge g)).addElements (rest.length + 1)) :=
      ⟨rfl, rfl, Nat.le_refl _⟩
    have hall := (first.within g).trans (elements_within rest _)
    exact (hall.trans hadd).trans (Gauge.within_express _)

theorem elements_within (xs : List Expr) (g : Gauge) : g.Within (elementsGauge xs g) := by
  cases xs with
  | nil => exact .refl g
  | cons x rest => exact (x.within g).trans (elements_within rest _)

end

mutual

theorem Stmt.within (stmt : Stmt) (g : Gauge) : g.Within (stmt.gauge g) := by
  cases stmt with
  | declare pos name type equal value close =>
    have hdeclare : (value.gauge g).Within (value.gauge g).declare := ⟨rfl, rfl, Nat.le_refl _⟩
    exact (value.within g).trans hdeclare
  | leave pos close => exact .refl g
  | giveBack pos value close => exact value.within g
  | group pos body close =>
    have hopen : g.Within g.openScope := ⟨rfl, rfl, Nat.le_refl _⟩
    exact (hopen.trans (block_within body _)).trans (Gauge.within_closeScope _)
  | evaluate value close => exact value.within g
  | assign target opPos value close => exact (target.within g).trans (value.within _)

theorem block_within (stmts : List Stmt) (g : Gauge) : g.Within (blockGauge stmts g) := by
  cases stmts with
  | nil => exact .refl g
  | cons stmt rest => exact (stmt.within g).trans (block_within rest _)

end

theorem labels_items (items : List Item) (g : Gauge) :
    (itemsGauge items g).labels + 2 * g.procedures =
      g.labels + 2 * (itemsGauge items g).procedures := by
  induction items generalizing g with
  | nil => rfl
  | cons item rest ih =>
    have hrest := ih (item.gauge g)
    have hitem : (item.gauge g).labels + 2 * g.procedures =
        g.labels + 2 * (item.gauge g).procedures := by
      cases item with
      | procedure pos name result body close =>
        have hbody := (block_within body g.procedure.openScope.label).trans
          (Gauge.within_closeScope _)
        have hlabels : (Item.gauge (.procedure pos name result body close) g).labels =
            g.labels + 2 := hbody.labels
        have hprocedures : (Item.gauge (.procedure pos name result body close) g).procedures =
            g.procedures + 1 := hbody.procedures
        omega
      | stage pos stage close => rfl
      | builtin pos builtin close => rfl
      | global pos direction name type placement => rfl
      | record pos name members close => rfl
    change (itemsGauge rest (item.gauge g)).labels + _ =
      _ + 2 * (itemsGauge rest (item.gauge g)).procedures
    omega

def Expr.Covers (x : Expr) (words : Nat) : Prop :=
  ∀ g, words + 1 + 12 * g.expressions ≤ 12 * (x.gauge g).expressions

namespace Program

variable {p : Program}

theorem elements_words {parts : List ((TypeRef × Nat) × (List Instruction × UInt32))}
    (xs : List Expr) (hlength : xs.length = parts.length)
    (h : ∀ pair ∈ xs.zip parts, pair.1.Covers (codeWords pair.2.2.1)) (g : Gauge) :
    codeWords (parts.flatMap (·.2.1)) + parts.length + 12 * g.expressions ≤
      12 * (elementsGauge xs g).expressions := by
  induction xs generalizing parts g with
  | nil =>
    obtain rfl : parts = [] := length_eq_zero_iff.mp hlength.symm
    exact Nat.le_of_eq (Nat.zero_add _)
  | cons x rest ih =>
    cases parts with
    | nil => cases hlength
    | cons part parts =>
      have hfirst : codeWords part.2.1 + 1 + 12 * g.expressions ≤
          12 * (x.gauge g).expressions := h (x, part) mem_cons_self g
      have hrest := ih (Nat.succ.inj hlength) (fun pair hpair => h pair (.tail _ hpair))
        (x.gauge g)
      simp only [flatMap_cons, codeWords_append, length_cons, elementsGauge]
      omega

theorem Beside.words_le {scalarFirst : Bool} {scalar vector left right : Expr}
    (h : Beside scalarFirst scalar vector left right) {before after : Nat}
    (hscalar : scalar.Covers before) (hvector : vector.Covers after) (g : Gauge) :
    before + after + 2 + 12 * g.expressions ≤ 12 * (right.gauge (left.gauge g)).expressions := by
  cases scalarFirst with
  | true =>
    obtain ⟨rfl, rfl⟩ := h
    have hfirst := hscalar g
    have hsecond := hvector (left.gauge g)
    omega
  | false =>
    obtain ⟨rfl, rfl⟩ := h
    have hfirst := hvector g
    have hsecond := hscalar (left.gauge g)
    omega

theorem Translates.words_le (hp : p.Sound) {x : Expr} {type : TypeRef} {id : UInt32}
    (h : p.Translates scope x type code id) : x.Covers (codeWords code) := by
  induction h with
  | var _ _ =>
    intro g
    simp only [codeWords_cons, codeWords_nil, Instruction.wordCount, length_cons,
      length_nil, Expr.gauge, Gauge.express]
    omega
  | number _ _ =>
    intro g
    simp only [codeWords_nil, Expr.gauge, Gauge.express]
    omega
  | paren _ ih => exact ih
  | @vector pos first rest close type component size typeId id parts _ _ hlength _ _ _ ih =>
    intro g
    have helements := elements_words (first :: rest) hlength ih g
    simp only [elementsGauge] at helements
    simp only [length_cons] at hlength
    simp only [codeWords_append, codeWords_cons, codeWords_nil, Instruction.wordCount,
      length_cons, length_map, Expr.gauge, Gauge.express, Gauge.addElements]
    omega
  | @sum op opPos left right type kind count typeId id l r before after _ _ _ _ _ ihl ihr =>
    intro g
    have hleft := ihl g
    have hright := ihr (left.gauge g)
    simp only [codeWords_append, codeWords_cons, codeWords_nil, Instruction.wordCount,
      length_cons, length_nil, Expr.gauge, Gauge.express]
    omega
  | scaled hbeside _ _ _ _ _ _ ihs ihv =>
    intro g
    have hoperands := hbeside.words_le ihs ihv g
    simp only [codeWords_append, codeWords_cons, codeWords_nil, Instruction.wordCount,
      length_cons, length_nil, Expr.gauge, Gauge.express]
    omega
  | @spread op opPos left right scalar vector scalarFirst type component size kind typeId spread id
      s v before after hbeside hshape _ _ _ _ _ _ ihs ihv =>
      intro g
      have hoperands := hbeside.words_le ihs ihv g
      have hsize : size.toNat ≤ 4 := by
        obtain ⟨-, -, rfl | rfl | rfl⟩ := hp.shape hshape <;> decide
      have hlast : (if scalarFirst then [spread, v] else [v, spread]).length = 2 := by
        cases scalarFirst <;> rfl
      simp only [codeWords_append, codeWords_cons, codeWords_nil, Instruction.wordCount,
        length_cons, length_replicate, hlast, Expr.gauge, Gauge.express]
      omega

theorem Lowered.words_le (hp : p.Sound) {result : TypeRef} {scope' : List Local} {stmts : List Stmt}
    {vars : List Instruction} {returned : Bool}
    (h : p.Lowered result scope stmts scope' vars code returned) (g : Gauge) :
    codeWords vars + codeWords code + 18 * g.expressions ≤
      18 * (blockGauge stmts g).expressions + (if returned then 2 else 0) := by
  induction h generalizing g with
  | done => exact Nat.le_of_eq (Nat.zero_add _)
  | @next scope mid final stmt rest vars vars' code code' returned _ _ ihstmt ihrest =>
    have hstmt := ihstmt g
    have hrest := ihrest (stmt.gauge g)
    simp only [blockGauge, Bool.false_eq_true, if_false] at hstmt
    simp only [blockGauge, codeWords_append]
    omega
  | declare _ _ _ hvalue =>
    have hwords := hvalue.words_le hp g
    simp only [codeWords_append, codeWords_cons, codeWords_nil, Instruction.wordCount,
      length_cons, length_nil, blockGauge, Stmt.gauge, Gauge.declare,
      Bool.false_eq_true, if_false]
    omega
  | leave _ =>
    simp only [codeWords_cons, codeWords_nil, Instruction.wordCount, length_nil, blockGauge,
      Stmt.gauge, if_true]
    omega
  | giveBack _ hvalue =>
    have hwords := hvalue.words_le hp g
    simp only [codeWords_append, codeWords_cons, codeWords_nil, Instruction.wordCount,
      length_cons, length_nil, blockGauge, Stmt.gauge, if_true]
    omega
  | group _ ih =>
    have hbody := ih g.openScope
    simp only [blockGauge, Stmt.gauge, Gauge.expressions_closeScope]
    exact hbody
  | evaluate hvalue =>
    have hwords := hvalue.words_le hp g
    simp only [codeWords_nil, blockGauge, Stmt.gauge, Bool.false_eq_true, if_false]
    omega
  | @assign scope target value opPos close name place code id _ _ _ hvalue =>
    have hwords := hvalue.words_le hp (target.gauge g)
    have htarget := (target.within g).expressions
    simp only [codeWords_append, codeWords_cons, codeWords_nil, Instruction.wordCount,
      length_cons, length_nil, blockGauge, Stmt.gauge, Bool.false_eq_true, if_false]
    omega

theorem Compiled.words_le (hp : p.Sound) {body : List Stmt} {procedure : Procedure}
    (h : p.Compiled scope body procedure) (g : Gauge) :
    procedure.words + 18 * g.expressions ≤ 18 * (blockGauge body g).expressions + 2 := by
  obtain ⟨scope', code, returned, hlowered, hbody, -⟩ := h.body
  have hwords := hlowered.words_le hp g
  rw [Procedure.words, hbody]
  cases returned with
  | true =>
    simp only [if_true, append_nil] at hwords ⊢
    omega
  | false =>
    simp only [Bool.false_eq_true, if_false, codeWords_append, codeWords_cons, codeWords_nil,
      Instruction.wordCount, length_nil] at hwords ⊢
    omega

theorem DeclaredAll.words_le (hp : p.Sound) {before globals : List Global} {items : List Item}
    {procedures : List Procedure} (h : p.DeclaredAll before items globals procedures) (g : Gauge) :
    (procedures.map Procedure.words).sum + 18 * g.expressions ≤
      18 * (itemsGauge items g).expressions + 2 * procedures.length := by
  induction h generalizing g with
  | done => exact Nat.le_of_eq (Nat.zero_add _)
  | @next before globals globals' item rest procedures procedures' hitem _ ih =>
    have hrest := ih (item.gauge g)
    have hfirst : (procedures.map Procedure.words).sum + 18 * g.expressions ≤
        18 * (item.gauge g).expressions + 2 * procedures.length := by
      cases item with
      | procedure pos name result body close =>
        obtain ⟨-, procedure, found, rfl, -, -, -, hcompiled⟩ := hitem
        have hbody := hcompiled.words_le hp g.procedure.openScope.label
        have hopen : g.procedure.openScope.label.expressions = g.expressions := rfl
        simp only [map_cons, map_nil, sum_cons, sum_nil, length_cons,
          length_nil, Item.gauge, Gauge.expressions_closeScope]
        omega
      | global pos direction name type placement =>
        obtain ⟨rfl, -⟩ := hitem
        exact Nat.le_of_eq (Nat.zero_add _)
      | stage pos stage close =>
        obtain ⟨-, rfl⟩ := hitem
        exact Nat.le_of_eq (Nat.zero_add _)
      | builtin pos builtin close =>
        obtain ⟨-, rfl⟩ := hitem
        exact Nat.le_of_eq (Nat.zero_add _)
      | record pos name members close =>
        obtain ⟨-, rfl⟩ := hitem
        exact Nat.le_of_eq (Nat.zero_add _)
    simp only [map_append, sum_append, length_append, itemsGauge]
    omega

end Program

end Shading
