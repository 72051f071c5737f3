import Shading.Proofs.Types

/-!
Expressions of a program. `Represents` ties a written expression to the entry
that elaboration made of it: operators group as they were read, and a name
stands for the latest variable of the scope with that name. `Typed` is the
typing of entries. `NewTree` says that an entry unfolds to a tree of entries
that were not there before, none of which occurs twice. Elaboration establishes
all three.
-/

namespace Shading

open List

variable {e : ExprRef} {type : TypeRef} {scope : List Local} {bits : UInt32} {ref : ConstantRef}

def lookupIn (scope : List Local) (name : Bytes) : Option Local :=
  scope.reverse.find? fun place => place.name = name

theorem lookupIn_mem {name : Bytes} {place : Local} (h : lookupIn scope name = some place) :
    place ∈ scope :=
  List.mem_reverse.mp (List.mem_of_find?_eq_some h)

def total (counts : List Nat) : Nat := counts.foldr (· + ·) 0

@[simp] theorem total_nil : total [] = 0 := rfl

@[simp] theorem total_cons (count : Nat) (rest : List Nat) :
    total (count :: rest) = count + total rest := rfl

/-- The operands of an expression. -/
def ExprKind.operands : ExprKind → List ExprRef
  | .vector elements => elements
  | .sum _ left right => [left, right]
  | .scale _ scalar scaled _ => [scalar, scaled]
  | .unknown => []
  | .constant _ => []
  | .load _ => []

theorem mem_zip_of_mem_left {α β : Type} {xs : List α} {ys : List β} {x : α}
    (hlength : xs.length = ys.length) (hx : x ∈ xs) : ∃ y, (x, y) ∈ xs.zip ys := by
  rw [← map_fst_zip (Nat.le_of_eq hlength)] at hx
  obtain ⟨⟨found, y⟩, hmem, rfl⟩ := mem_map.mp hx
  exact ⟨y, hmem⟩

namespace Program

variable {p q : Program} {kept : Region → Prop} {names : List Bytes}

def Width (p : Program) (component type : TypeRef) (count : Nat) : Prop :=
  (type = component ∧ count = 1) ∨
    ∃ size, p.shapeAt type = some (.vector component size) ∧ count = size.toNat

inductive Typed (p : Program) (places : Local → Prop) : ExprRef → TypeRef → Prop
  | constant {e : ExprRef} {ref : ConstantRef} {constant : Constant} :
      p.expressions.get? e = some ⟨.constant ref, f32Type⟩ →
      p.constants.get? ref = some constant →
      Typed p places e f32Type
  | load {e : ExprRef} {place : Local} :
      p.expressions.get? e = some ⟨.load place, place.type⟩ → places place →
      Typed p places e place.type
  | vector {e : ExprRef} {elements : List ExprRef} {type component : TypeRef} {size : UInt32}
      {parts : List (TypeRef × Nat)} :
      p.expressions.get? e = some ⟨.vector elements, type⟩ →
      p.shapeAt type = some (.vector component size) →
      elements.length = parts.length →
      (∀ pair ∈ elements.zip parts, Typed p places pair.1 pair.2.1) →
      (∀ part ∈ parts, p.Width component part.1 part.2) →
      UInt32.ofNat (total (parts.map (·.2))) = size →
      Typed p places e type
  | sum {e left right : ExprRef} {op : SumOperator} {type : TypeRef} {kind : ScalarKind}
      {count : Nat} :
      p.expressions.get? e = some ⟨.sum op left right, type⟩ →
      p.Components type kind count → kind ≠ .bool →
      Typed p places left type → Typed p places right type →
      Typed p places e type
  | scale {e scalar vector : ExprRef} {op : ScaleOperator} {scalarFirst : Bool}
      {type component : TypeRef} {size : UInt32} {kind : ScalarKind} :
      p.expressions.get? e = some ⟨.scale op scalar vector scalarFirst, type⟩ →
      p.shapeAt type = some (.vector component size) →
      p.shapeAt component = some (.scalar kind) → kind ≠ .bool →
      Typed p places scalar component → Typed p places vector type →
      Typed p places e type

/-- Entry `e` of the expressions is a written expression whose names are those of `scope`. -/
inductive Represents (p : Program) (scope : List Local) : Expr → ExprRef → Prop
  | var {name : Name} {place : Local} {e : ExprRef} :
      lookupIn scope name.text = some place →
      p.expressions.get? e = some ⟨.load place, place.type⟩ →
      Represents p scope (.var name) e
  | number {bits : UInt32} {pos : Position} {e : ExprRef} {ref : ConstantRef}
      {constant : Constant} :
      p.expressions.get? e = some ⟨.constant ref, f32Type⟩ →
      p.constants.get? ref = some constant → constant.bits = bits →
      Represents p scope (.number bits pos) e
  | paren {pos : Position} {inner : Expr} {close : Part Position} {e : ExprRef} :
      Represents p scope inner e → Represents p scope (.paren pos inner close) e
  | vector {pos : Position} {first : Expr} {rest : List Expr} {close : Part Position}
      {e : ExprRef} {elements : List ExprRef} {type : TypeRef} :
      p.expressions.get? e = some ⟨.vector elements, type⟩ →
      (first :: rest).length = elements.length →
      (∀ pair ∈ (first :: rest).zip elements, Represents p scope pair.1 pair.2) →
      Represents p scope (.vector pos first rest close) e
  | sum {op : SumOperator} {opPos : Position} {left right : Expr} {e l r : ExprRef}
      {type : TypeRef} :
      p.expressions.get? e = some ⟨.sum op l r, type⟩ →
      Represents p scope left l → Represents p scope right r →
      Represents p scope (.sum op opPos left right) e
  | scalarLast {op : ScaleOperator} {opPos : Position} {left right : Expr} {e l r : ExprRef}
      {type : TypeRef} :
      p.expressions.get? e = some ⟨.scale op r l false, type⟩ →
      Represents p scope left l → Represents p scope right r →
      Represents p scope (.scale op opPos left right) e
  | scalarFirst {op : ScaleOperator} {opPos : Position} {left right : Expr} {e l r : ExprRef}
      {type : TypeRef} :
      p.expressions.get? e = some ⟨.scale op l r true, type⟩ →
      Represents p scope left l → Represents p scope right r →
      Represents p scope (.scale op opPos left right) e

theorem Width.mono (h : Extends kept names p q) {component : TypeRef} {count : Nat}
    (hw : p.Width component type count) : q.Width component type count := by
  rcases hw with hscalar | ⟨size, hshape, hcount⟩
  · exact .inl hscalar
  · exact .inr ⟨size, h.shapeAt hshape, hcount⟩

theorem Typed.mono (h : Extends kept names p q) {places places' : Local → Prop}
    (hplaces : ∀ place, places place → places' place) (ht : p.Typed places e type) :
    q.Typed places' e type := by
  induction ht with
  | constant hentry hconstant => exact .constant (h.expression hentry) (h.constant hconstant)
  | load hentry hplace => exact .load (h.expression hentry) (hplaces _ hplace)
  | vector hentry hshape hlength _ hwidth htotal ih =>
    exact .vector (h.expression hentry) (h.shapeAt hshape) hlength ih
      (fun part hpart => (hwidth part hpart).mono h) htotal
  | sum hentry hcomponents hkind _ _ ihl ihr =>
    exact .sum (h.expression hentry) (hcomponents.mono h) hkind ihl ihr
  | scale hentry hshape hscalar hkind _ _ ihs ihv =>
    exact .scale (h.expression hentry) (h.shapeAt hshape) (h.shapeAt hscalar) hkind ihs ihv

theorem Represents.mono (h : Extends kept names p q) {x : Expr} (hr : p.Represents scope x e) :
    q.Represents scope x e := by
  induction hr with
  | var hlookup hentry => exact .var hlookup (h.expression hentry)
  | number hentry hconstant hbits =>
    exact .number (h.expression hentry) (h.constant hconstant) hbits
  | paren _ ih => exact .paren ih
  | vector hentry hlength _ ih => exact .vector (h.expression hentry) hlength ih
  | sum hentry _ _ ihl ihr => exact .sum (h.expression hentry) ihl ihr
  | scalarLast hentry _ _ ihl ihr => exact .scalarLast (h.expression hentry) ihl ihr
  | scalarFirst hentry _ _ ihl ihr => exact .scalarFirst (h.expression hentry) ihl ihr

theorem Typed.entry {places : Local → Prop} (ht : p.Typed places e type) :
    ∃ kind, p.expressions.get? e = some ⟨kind, type⟩ := by
  cases ht with
  | constant hentry _ => exact ⟨_, hentry⟩
  | load hentry _ => exact ⟨_, hentry⟩
  | vector hentry _ _ _ _ _ => exact ⟨_, hentry⟩
  | sum hentry _ _ _ _ => exact ⟨_, hentry⟩
  | scale hentry _ _ _ _ _ => exact ⟨_, hentry⟩

def withExpression (p : Program) (entry : ExprEntry) : Program :=
  { p with expressions := p.expressions.add entry }

def withConstant (p : Program) (bits : UInt32) : Program :=
  { p with constants := p.constants.add ⟨f32Type, p.nextId, bits⟩, nextId := p.nextId + 1 }

theorem grows_withExpression (p : Program) (entry : ExprEntry) :
    p.Grows [] (p.withExpression entry) :=
  ⟨rfl, List.prefix_refl _, List.prefix_refl _, List.prefix_refl _, Arena.prefix_add _ _,
    List.prefix_refl _, fun _ => rfl, fun _ => rfl, fun _ => rfl, fun _ _ => rfl, fun _ h => .inl h,
    0, by simp [withExpression], by simp [withExpression, resultIds]⟩

theorem Sound.withExpression (h : p.Sound) (entry : ExprEntry) : (p.withExpression entry).Sound :=
  h.congr rfl rfl

theorem grows_withConstant (p : Program) (bits : UInt32) : p.Grows [] (p.withConstant bits) := by
  have happends : p.Appends (p.withConstant bits)
      { constants := [⟨f32Type, p.nextId, bits⟩] } := by
    constructor <;> simp [withConstant]
  refine happends.extends 1 rfl ?_ nofun (fun _ => nofun) (fun _ => rfl) (fun _ _ => .inr rfl)
  simp [Added.resultIds]

theorem Sound.withConstant (h : p.Sound) (bits : UInt32) : (p.withConstant bits).Sound := by
  refine ⟨h.void, h.f32, h.shapes, ?_⟩
  intro c hc
  simp only [Program.withConstant, Arena.toList_add, List.mem_append, List.mem_singleton] at hc
  rcases hc with hold | rfl
  · exact h.constants c hold
  · rfl

section Trees

variable {r : Program} {handles : List ExprRef}

/-- The entries that an entry is made of, each as often as it is used: those of its operands, which
come before it, and then itself. -/
inductive Unfolds (p : Program) : ExprRef → List ExprRef → Prop
  | entry {e : ExprRef} {entry : ExprEntry} {parts : List (List ExprRef)} :
      p.expressions.get? e = some entry →
      (∀ x ∈ entry.kind.operands, x < e) →
      entry.kind.operands.length = parts.length →
      (∀ pair ∈ entry.kind.operands.zip parts, Unfolds p pair.1 pair.2) →
      Unfolds p e (parts.flatten ++ [e])

theorem Unfolds.mono (hpq : p.expressions.toList <+: q.expressions.toList)
    (h : p.Unfolds e handles) : q.Unfolds e handles := by
  induction h with
  | entry hentry hbefore hlength _ ih =>
    exact .entry (Arena.get?_mono hpq hentry) hbefore hlength ih

theorem Unfolds.lt_size (h : p.Unfolds e handles) : e < p.expressions.size := by
  cases h with
  | entry hentry => exact Arena.get?_lt hentry

def added (p q : Program) : List ExprRef :=
  List.range' p.expressions.size (q.expressions.size - p.expressions.size)

theorem added_self (p : Program) : added p p = [] := by
  simp [added]

theorem mem_added {i : Nat} : i ∈ added p q ↔ p.expressions.size ≤ i ∧ i < q.expressions.size := by
  rw [added, mem_range'_1]
  omega

theorem added_append (hpq : p.expressions.size ≤ q.expressions.size)
    (hqr : q.expressions.size ≤ r.expressions.size) : added p q ++ added q r = added p r := by
  have hmiddle : p.expressions.size + (q.expressions.size - p.expressions.size) =
      q.expressions.size := by omega
  have hcount : q.expressions.size - p.expressions.size +
      (r.expressions.size - q.expressions.size) =
        r.expressions.size - p.expressions.size := by omega
  have happend := @List.range'_append_1 p.expressions.size
    (q.expressions.size - p.expressions.size) (r.expressions.size - q.expressions.size)
  rw [hmiddle, hcount] at happend
  exact happend

structure Adds (p : Program) (kind : ExprKind) (e : ExprRef) (q : Program) : Prop where
  room : p.expressions.hasRoom = true
  index : e = p.expressions.size
  expressions : ∃ type, q.expressions = p.expressions.add ⟨kind, type⟩

structure NewTree (p q : Program) (e : ExprRef) (handles : List ExprRef) : Prop where
  grows : p.expressions.toList <+: q.expressions.toList
  limit : q.expressions.limit = p.expressions.limit
  fits : (q.expressions.size : Int) ≤ q.expressions.limit.toInt
  unfolds : q.Unfolds e handles
  fresh : handles.Perm (added p q)

structure NewTrees (p q : Program) (es : List ExprRef) (parts : List (List ExprRef)) : Prop where
  grows : p.expressions.toList <+: q.expressions.toList
  limit : q.expressions.limit = p.expressions.limit
  length : es.length = parts.length
  unfolds : ∀ pair ∈ es.zip parts, q.Unfolds pair.1 pair.2
  fresh : parts.flatten.Perm (added p q)

theorem size_le_of_grown (h : p.expressions.toList <+: q.expressions.toList) :
    p.expressions.size ≤ q.expressions.size := by
  simpa using h.length_le

namespace NewTrees

variable {es : List ExprRef} {parts : List (List ExprRef)}

theorem nil (p : Program) : NewTrees p p [] [] :=
  ⟨prefix_refl _, rfl, rfl, fun _ h => (not_mem_nil h).elim, by
    rw [added_self]
    exact .refl _⟩

theorem cons (h : NewTree p q e handles) (hrest : NewTrees q r es parts) :
    NewTrees p r (e :: es) (handles :: parts) where
  grows := h.grows.trans hrest.grows
  limit := hrest.limit.trans h.limit
  length := congrArg (· + 1) hrest.length
  unfolds := by
    rw [zip_cons_cons]
    exact forall_mem_cons.mpr ⟨h.unfolds.mono hrest.grows, hrest.unfolds⟩
  fresh := by
    rw [flatten_cons,
      ← added_append (size_le_of_grown h.grows) (size_le_of_grown hrest.grows)]
    exact h.fresh.append hrest.fresh

theorem swap {l m : ExprRef} {ls ms : List ExprRef} (h : NewTrees p q [l, m] [ls, ms]) :
    NewTrees p q [m, l] [ms, ls] where
  grows := h.grows
  limit := h.limit
  length := rfl
  unfolds := by
    have hunfolds := h.unfolds
    simp only [zip_cons_cons, zip_nil_right, forall_mem_cons] at hunfolds ⊢
    exact ⟨hunfolds.2.1, hunfolds.1, hunfolds.2.2⟩
  fresh := by
    have hfresh := h.fresh
    simp only [flatten_cons, flatten_nil, append_nil] at hfresh ⊢
    exact perm_append_comm.trans hfresh

theorem node (h : NewTrees p q es parts) {kind : ExprKind} (hadds : q.Adds kind e r)
    (hoperands : kind.operands = es) : NewTree p r e (parts.flatten ++ [e]) := by
  obtain ⟨type, hexpressions⟩ := hadds.expressions
  have hnext : q.expressions.toList <+: r.expressions.toList := by
    rw [hexpressions]
    exact Arena.prefix_add _ _
  have hsize : r.expressions.size = q.expressions.size + 1 := by
    rw [hexpressions, Arena.size_add]
  have hlimit : r.expressions.limit = q.expressions.limit := by
    rw [hexpressions]
    rfl
  refine ⟨h.grows.trans hnext, hlimit.trans h.limit, ?_, ?_, ?_⟩
  · have hroom := of_decide_eq_true hadds.room
    rw [hlimit, hsize]
    exact hroom
  · have hentry : r.expressions.get? e = some ⟨kind, type⟩ := by
      rw [hexpressions, hadds.index]
      exact Arena.get?_add_size _ _
    refine .entry hentry (fun x hx => ?_) ?_ fun pair hpair => ?_
    · rw [hadds.index]
      change x ∈ kind.operands at hx
      rw [hoperands] at hx
      obtain ⟨part, hpair⟩ := mem_zip_of_mem_left h.length hx
      exact (h.unfolds _ hpair).lt_size
    · exact (congrArg List.length hoperands).trans h.length
    · change pair ∈ kind.operands.zip parts at hpair
      rw [hoperands] at hpair
      exact (h.unfolds pair hpair).mono hnext
  · have hlast : added q r = [e] := by
      rw [added, hsize, hadds.index, Nat.add_sub_cancel_left]
      rfl
    rw [← added_append (size_le_of_grown h.grows) (size_le_of_grown hnext), hlast]
    exact h.fresh.append (.refl _)

end NewTrees

theorem Adds.newTree {kind : ExprKind} (h : p.Adds kind e q) (hoperands : kind.operands = []) :
    NewTree p q e [e] :=
  (NewTrees.nil p).node h hoperands

end Trees

end Program

namespace Build

variable {p q : Program}

theorem addExpression_ok {kind : ExprKind} (h : addExpression kind type p = .ok e q) :
    e = p.expressions.size ∧ q = p.withExpression ⟨kind, type⟩ := by
  simp only [addExpression, push_ok] at h
  obtain ⟨-, rfl, rfl⟩ := h
  exact ⟨rfl, rfl⟩

theorem addExpression_adds {r : Program} {kind : ExprKind}
    (h : addExpression kind type q = .ok e r) (hsame : q.expressions = p.expressions) :
    p.Adds kind e r := by
  simp only [addExpression, push_ok] at h
  obtain ⟨⟨hroom, -⟩, rfl, rfl⟩ := h
  rw [hsame] at hroom
  exact ⟨hroom, congrArg Arena.size hsame, type, congrArg (Arena.add · _) hsame⟩

theorem floatConstant_ok (h : floatConstant bits p = .ok ref q) :
    (∃ c, q.constants.get? ref = some c ∧ c.bits = bits) ∧ (q = p ∨ q = p.withConstant bits) := by
  simp only [floatConstant, bind_ok, get_ok] at h
  obtain ⟨_, _, ⟨rfl, rfl⟩, h⟩ := h
  cases hfind : Array.findIdx? (fun c : Constant => decide (c.type = f32Type ∧ c.bits = bits))
      p.constants.items with
  | some found =>
    rw [hfind] at h
    obtain ⟨rfl, rfl⟩ := pure_ok.mp h
    obtain ⟨hlt, hentry, -⟩ := Array.findIdx?_eq_some_iff_getElem.mp hfind
    exact ⟨⟨_, Array.getElem?_eq_getElem hlt, (of_decide_eq_true hentry).2⟩, .inl rfl⟩
  | none =>
    rw [hfind] at h
    simp only [bind_ok, get_ok, push_ok, discard_ok, freshId_ok, pure_ok] at h
    obtain ⟨_, _, ⟨rfl, rfl⟩, _, _, ⟨-, rfl, rfl⟩, _, _, ⟨_, rfl, rfl⟩, rfl, rfl⟩ := h
    exact ⟨⟨_, Arena.get?_add_size _ _, rfl⟩, .inr rfl⟩

theorem floatConstant_grows (h : floatConstant bits p = .ok ref q) : p.Grows [] q := by
  rcases (floatConstant_ok h).2 with rfl | rfl
  · exact .refl _
  · exact Program.grows_withConstant _ _

theorem floatConstant_sound (h : floatConstant bits p = .ok ref q) (hp : p.Sound) : q.Sound := by
  rcases (floatConstant_ok h).2 with rfl | rfl
  · exact hp
  · exact hp.withConstant bits

end Build

end Shading
