import Mathlib.Algebra.Ring.Int.Defs
import Shading.Proofs.Compilation
import Shading.Proofs.Evaluation
import Shading.Proofs.Grammar.Productions

/-!
The trees that expressions become. The entry that an expression is elaborated
to stands for a tree: no entry is reached twice from it, and the entries that
it is made of are well typed. With the expression read as the grammar groups
it, the tree is the one that was written.
-/

namespace Shading

open List

variable {x : ExprRef} {pos : Position}

theorem length_le_flatten {α : Type} {parts : List (List α)}
    (h : ∀ part ∈ parts, 0 < part.length) : parts.length ≤ parts.flatten.length := by
  induction parts with
  | nil => exact Nat.le_refl _
  | cons part parts ih =>
    obtain ⟨hfirst, hrest⟩ := forall_mem_cons.mp h
    have hle := ih hrest
    rw [flatten_cons, length_append, length_cons]
    omega

namespace Program

variable {p q r : Program} {e : ExprRef} {handles : List ExprRef}

namespace Unfolds

theorem length_pos (h : p.Unfolds e handles) : 0 < handles.length := by
  cases h with
  | entry => simp

theorem operand (h : p.Unfolds e handles) {entry : ExprEntry}
    (hentry : p.expressions.get? e = some entry) (hx : x ∈ entry.kind.operands) :
    x < e ∧ ∃ part, p.Unfolds x part ∧ part.length ≤ handles.length := by
  cases h with
  | @entry _ found parts hfound hbefore hlength hparts =>
    obtain rfl : found = entry := Option.some.inj (hfound.symm.trans hentry)
    refine ⟨hbefore x hx, ?_⟩
    obtain ⟨part, hpair⟩ := mem_zip_of_mem_left hlength hx
    have hlength := (sublist_flatten_of_mem (of_mem_zip hpair).2).length_le
    exact ⟨part, hparts _ hpair, by rw [length_append]; omega⟩

theorem operands_length (h : p.Unfolds e handles) {entry : ExprEntry}
    (hentry : p.expressions.get? e = some entry) : entry.kind.operands.length < handles.length := by
  cases h with
  | @entry _ found parts hfound _ hlength hparts =>
    obtain rfl : found = entry := Option.some.inj (hfound.symm.trans hentry)
    have hle : parts.length ≤ parts.flatten.length := by
      refine length_le_flatten fun part hpart => ?_
      obtain ⟨x, hpair⟩ := mem_zip_of_mem_right hlength hpart
      exact (hparts _ hpair).length_pos
    rw [length_append, length_singleton]
    omega

theorem madeOf (h : p.Unfolds e handles) (hx : p.MadeOf e x) :
    ∃ part, p.Unfolds x part ∧ part.length ≤ handles.length := by
  induction hx with
  | self => exact ⟨handles, h, Nat.le_refl _⟩
  | operand _ hentry hy ih =>
    obtain ⟨part, hpart, hle⟩ := ih
    obtain ⟨-, inner, hinner, hle'⟩ := hpart.operand hentry hy
    exact ⟨inner, hinner, Nat.le_trans hle' hle⟩

end Unfolds

section Types

variable {places : Local → Prop} {type : TypeRef}

theorem Typed.typeOf?_eq (h : p.Typed places e type) : p.typeOf? e = some type := by
  obtain ⟨kind, hentry⟩ := h.entry
  rw [typeOf?, hentry]
  rfl

theorem Width.widthOf? {component : TypeRef} {kind : ScalarKind} {count : Nat}
    (hwidth : p.Width component type count) (htype : p.typeOf? e = some type)
    (hscalar : p.shapeAt component = some (.scalar kind)) :
    p.widthOf? component e = some count := by
  rw [Program.widthOf?, htype]
  rcases hwidth with ⟨rfl, rfl⟩ | ⟨size, hshape, rfl⟩
  · simp
  · have hne : type ≠ component := by
      rintro rfl
      rw [hshape] at hscalar
      cases hscalar
    simp [hne, hshape]

theorem widthOf?_mapM {component : TypeRef} {kind : ScalarKind} {elements : List ExprRef}
    {parts : List (TypeRef × Nat)} (hscalar : p.shapeAt component = some (.scalar kind))
    (hlength : elements.length = parts.length)
    (htyped : ∀ pair ∈ elements.zip parts, p.Typed places pair.1 pair.2.1)
    (hwidth : ∀ part ∈ parts, p.Width component part.1 part.2) :
    elements.mapM (p.widthOf? component) = some (parts.map (·.2)) := by
  induction elements generalizing parts with
  | nil =>
    obtain rfl : parts = [] := length_eq_zero_iff.mp hlength.symm
    rfl
  | cons x elements ih =>
    cases parts with
    | nil => cases hlength
    | cons part parts =>
      rw [zip_cons_cons] at htyped
      obtain ⟨hx, hrest⟩ := forall_mem_cons.mp htyped
      obtain ⟨hpart, hparts⟩ := forall_mem_cons.mp hwidth
      rw [mapM_cons, hpart.widthOf? hx.typeOf?_eq hscalar,
        ih (Nat.succ.inj hlength) hrest hparts]
      rfl

theorem Typed.nodeTyped (hp : p.Sound) (h : p.Typed places e type) {entry : ExprEntry}
    (hentry : p.expressions.get? e = some entry)
    (hshort : 4 * entry.kind.operands.length < UInt32.size) :
    p.NodeTyped entry ∧ ∀ x ∈ entry.kind.operands, ∃ type, p.Typed places x type := by
  cases h with
  | constant h hconstant =>
    obtain rfl := Option.some.inj (h.symm.trans hentry)
    exact ⟨⟨Option.isSome_of_mem hconstant, hp.f32⟩, fun _ hx => (not_mem_nil hx).elim⟩
  | load h _ =>
    obtain rfl := Option.some.inj (h.symm.trans hentry)
    exact ⟨rfl, fun _ hx => (not_mem_nil hx).elim⟩
  | vector h hshape hlength htyped hwidth hcount =>
    obtain rfl := Option.some.inj (h.symm.trans hentry)
    obtain ⟨-, ⟨kind, hscalar⟩, -⟩ := hp.shape hshape
    refine ⟨⟨_, _, kind, _, hshape, hp.size_ne_zero hshape, hscalar,
      widthOf?_mapM hscalar hlength htyped hwidth,
      total_eq_size hp hwidth hcount (hlength ▸ hshort)⟩, fun x hx => ?_⟩
    obtain ⟨part, hpair⟩ := mem_zip_of_mem_left hlength hx
    exact ⟨_, htyped _ hpair⟩
  | sum h hcomponents hkind hleft hright =>
    obtain rfl := Option.some.inj (h.symm.trans hentry)
    refine ⟨⟨_, _, hcomponents, hkind, hleft.typeOf?_eq, hright.typeOf?_eq⟩, fun x hx => ?_⟩
    simp only [ExprKind.operands, mem_cons, not_mem_nil, or_false] at hx
    rcases hx with rfl | rfl
    · exact ⟨_, hleft⟩
    · exact ⟨_, hright⟩
  | scale h hshape hscalar hkind hs hv =>
    obtain rfl := Option.some.inj (h.symm.trans hentry)
    refine ⟨⟨_, _, _, hshape, hp.size_ne_zero hshape, hscalar, hkind, hs.typeOf?_eq, hv.typeOf?_eq⟩,
      fun x hx => ?_⟩
    simp only [ExprKind.operands, mem_cons, not_mem_nil, or_false] at hx
    rcases hx with rfl | rfl
    · exact ⟨_, hs⟩
    · exact ⟨_, hv⟩

theorem Typed.wellTypedGraph (hp : p.Sound) (h : p.Typed places e type)
    (hunfolds : p.Unfolds e handles) (hshort : 4 * handles.length < UInt32.size) :
    p.WellTypedGraph e := by
  have hfew : ∀ {x entry}, p.MadeOf e x → p.expressions.get? x = some entry →
      4 * entry.kind.operands.length < UInt32.size := by
    intro x entry hx hentry
    obtain ⟨part, hpart, hle⟩ := hunfolds.madeOf hx
    have hlt := hpart.operands_length hentry
    omega
  have htyped : ∀ {x}, p.MadeOf e x → ∃ type, p.Typed places x type := by
    intro x hx
    induction hx with
    | self => exact ⟨type, h⟩
    | operand hmade hentry hy ih =>
      obtain ⟨type, ht⟩ := ih
      exact (ht.nodeTyped hp hentry (hfew hmade hentry)).2 _ hy
  intro x hx
  obtain ⟨type, ht⟩ := htyped hx
  obtain ⟨kind, hentry⟩ := ht.entry
  obtain ⟨part, hpart, -⟩ := hunfolds.madeOf hx
  exact ⟨_, hentry, fun y hy => (hpart.operand hentry hy).1,
    (ht.nodeTyped hp hentry (hfew hx hentry)).1⟩

end Types

theorem NewTree.nodup (h : NewTree p q e handles) : handles.Nodup :=
  h.fresh.nodup_iff.mpr nodup_range'

theorem NewTree.length_le (h : NewTree p q e handles) : handles.length ≤ q.expressions.size := by
  rw [h.fresh.length_eq, added, length_range']
  omega

end Program

namespace Elaborate

variable {s t : Elaboration} {e l r : ExprRef}

/-- An expression that is read from some tokens and elaborated was written with the tokens that were
taken, in no other way, and no operator follows them. The entry that it became represents it, with
the types that its operators ask for and the components of every literal counted exactly, and is
made of the new entries, of which none occurs twice. -/
theorem expression_becomes_tree {n : Nat} {left right : Tokens} {x : Expr} {s t : Elaboration}
    {e : ExprRef} (hread : Reading.expression n left = (x, right)) (hn : left.tokens.length ≤ n)
    (h : expr x s = .ok (e, t)) (hs : s.program.Sound)
    (hlimit : s.program.expressions.limit.toInt < 2 ^ 30) :
    ∃ used handles,
      Reading.Takes left right used ∧ Reading.Sees Reading.operatorKinds n right ∧
      Grammar.Derives (.symbol .expression) used ∧
      (∀ y, Grammar.Expression .sum used y ↔ y = x) ∧
      t.program.Represents s.scopes.locals.toList x e ∧ t.program.WellTypedGraph e ∧
      t.program.Unfolds e handles ∧ handles.Nodup ∧
      ∀ y, y ∈ handles ↔ s.program.expressions.size ≤ y ∧ y < t.program.expressions.size := by
  obtain ⟨type, hexpressed⟩ := expr_ok x h hs
  obtain ⟨handles, htree⟩ := hexpressed.tree
  obtain ⟨used, htakes, hwritten, hsees⟩ := Reading.expression_whole hread hexpressed.whole hn
  have hshort : 4 * handles.length < UInt32.size := by
    have hle := htree.length_le
    have hfits := htree.fits
    rw [htree.limit] at hfits
    change _ < 4294967296
    omega
  refine ⟨used, handles, htakes, hsees, hwritten.derives, fun y =>
    ⟨fun hy => hy.unique hwritten, ?_⟩,
    hexpressed.represents, hexpressed.typed.wellTypedGraph hexpressed.sound htree.unfolds hshort,
    htree.unfolds, htree.nodup, fun y => ?_⟩
  · rintro rfl
    exact hwritten
  · rw [htree.fresh.mem_iff, Program.mem_added]

/-- The two types that every program has, room for a few entries, and a number in scope. -/
def numberInScope : Elaboration where
  program :=
    { limits := { vectorElements := 10 }
      nextId := 4
      types := ⟨#[⟨Text.utf8 "void", 2, .void⟩, ⟨Text.utf8 "f32", 3, .scalar .f32⟩], .types, 10⟩
      globals := .empty .globals 10
      constants := .empty .constants 10
      expressions := .empty .expressions 20
      procedures := .empty .procedures 10
      entryPoints := .empty .entryPoints 10
      words := ⟨0, 1000⟩
      interfacesUsed := 0 }
  scopes := ⟨⟨#[⟨Text.utf8 "k", f32Type, 2, 4, none⟩], .locals, 10⟩, [0], 10⟩
  stage := none
  builtin := none
  recordMembers := 0
  vectorElements := 0

/-- A product less a quotient, after which the source goes wrong. -/
def mixedTokens : Tokens := .ofSource (Text.utf8 "(k * {1.0, k}) - {k, 2.0} / k; $")

/-- Eighteen tokens of which seventeen are taken, and eleven entries: the operands of a product and
of a quotient are told with the scalar first, wherever it was written. -/
theorem mixedTokens_become_tree :
    ∃ (x : Expr) (right : Tokens) (t : Elaboration) (used : List Token) (handles : List ExprRef),
      Reading.expression 18 mixedTokens = (x, right) ∧ expr x numberInScope = .ok (10, t) ∧
      Reading.Takes mixedTokens right used ∧ used.length = 17 ∧
      t.program.Represents numberInScope.scopes.locals.toList x 10 ∧
      t.program.expressions.toList.map (·.kind.operands) =
        [[], [], [], [1, 2], [0, 3], [], [], [5, 6], [], [8, 7], [4, 9]] ∧
      t.program.Unfolds 10 handles ∧ handles.Nodup ∧ ∀ y, y ∈ handles ↔ y < 11 := by
  have hsound : numberInScope.program.Sound :=
    Program.Fresh.sound ⟨rfl, rfl, rfl, rfl, rfl, rfl⟩
  have hleft : (Reading.expression 18 mixedTokens).2.tokens.length = 1 := by decide +kernel
  have hresult : (expr (Reading.expression 18 mixedTokens).1 numberInScope).toOption.map
      (fun found => (found.1, found.2.program.expressions.toList.map (·.kind.operands))) =
        some (10, [[], [], [], [1, 2], [0, 3], [], [], [5, 6], [], [8, 7], [4, 9]]) := by
    decide +kernel
  obtain ⟨⟨x, right⟩, hread⟩ : ∃ read, Reading.expression 18 mixedTokens = read := ⟨_, rfl⟩
  rw [hread] at hleft hresult
  cases h : expr x numberInScope with
  | error why =>
    rw [h] at hresult
    cases hresult
  | ok found =>
    obtain ⟨e, t⟩ := found
    rw [h] at hresult
    obtain ⟨rfl, hoperands⟩ := Prod.mk.inj (Option.some.inj hresult)
    obtain ⟨used, handles, htakes, -, -, -, hrepresents, -, hunfolds, hnodup, hmem⟩ :=
      expression_becomes_tree hread (by decide +kernel) h hsound (by decide)
    have hused : used.length = 17 := by
      have htokens : mixedTokens.tokens.length = 18 := by decide +kernel
      have hlength := htakes.length_eq
      simp only at hleft
      omega
    have hsize : t.program.expressions.size = 11 := by
      have hlength := congrArg length hoperands
      rwa [length_map, Arena.length_toList] at hlength
    refine ⟨x, right, t, used, handles, hread, h, htakes, hused, hrepresents, hoperands, hunfolds,
      hnodup, fun y => ?_⟩
    rw [hmem, hsize]
    exact ⟨fun hy => hy.2, fun hy => ⟨Nat.zero_le _, hy⟩⟩

end Elaborate

end Shading
