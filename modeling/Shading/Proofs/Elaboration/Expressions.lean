import Shading.Proofs.Expressions
import Shading.Proofs.Grammar

/-!
Elaborating an expression leaves an entry that represents it and has a type.
It adds one entry for each operator, name, number and literal and takes no old
entry as an operand, so what it leaves unfolds to a tree of new entries.
Nothing else of the elaboration changes but the pools of types, constants and
expressions. The number of components of a vector literal is added up in 32
bits; with fewer than 2³⁰ expressions it cannot run over.
-/

namespace Shading

open Program UInt32

variable {e : ExprRef} {pos : Position} {rightType : TypeRef}

structure Elaboration.Grows (s t : Elaboration) : Prop where
  program : s.program.Grows [] t.program
  scopes : t.scopes = s.scopes
  stage : t.stage = s.stage
  builtin : t.builtin = s.builtin

namespace Elaboration.Grows

variable {s t u : Elaboration}

theorem refl (s : Elaboration) : s.Grows s := ⟨.refl _, rfl, rfl, rfl⟩

theorem trans (hst : s.Grows t) (htu : t.Grows u) : s.Grows u :=
  ⟨hst.program.trans htu.program, htu.scopes.trans hst.scopes, htu.stage.trans hst.stage,
    htu.builtin.trans hst.builtin⟩

end Elaboration.Grows

namespace Elaborate

variable {s t : Elaboration} {places : Local → Prop} {component leftType type : TypeRef}
  {l r : ExprRef}

structure Expressed (s t : Elaboration) (x : Expr) (e : ExprRef) (type : TypeRef) : Prop where
  grows : s.Grows t
  sound : t.program.Sound
  represents : t.program.Represents s.scopes.locals.toList x e
  typed : t.program.Typed (· ∈ s.scopes.locals.toList) e type
  whole : x.Whole
  tree : ∃ handles, s.program.NewTree t.program e handles

theorem typeOf_ok :
    typeOf e s = .ok (type, t) ↔
      (∃ kind, s.program.expressions.get? e = some ⟨kind, type⟩) ∧ s = t := by
  unfold typeOf
  rw [view_ok]
  cases hentry : s.program.expressions.get? e with
  | none => simp [expressionAt, hentry, Except.map]
  | some entry =>
    obtain ⟨kind, found⟩ := entry
    simp [expressionAt, hentry, Except.map]

theorem typeOf_typed {type found : TypeRef} (h : typeOf e s = .ok (found, t))
    (ht : s.program.Typed places e type) :
    found = type ∧ s = t := by
  obtain ⟨⟨kind, hfound⟩, rfl⟩ := typeOf_ok.mp h
  obtain ⟨kind', hentry⟩ := ht.entry
  rw [hfound] at hentry
  cases hentry
  exact ⟨rfl, rfl⟩

theorem isNumeric_ok {answer : Bool} (h : isNumeric type s = .ok (answer, t)) :
    s = t ∧ (answer = true →
      ∃ kind count, s.program.Components type kind count ∧ kind ≠ .bool) := by
  simp only [isNumeric, bind_ok, view_ok] at h
  obtain ⟨found, _, ⟨hfound, rfl⟩, h⟩ := h
  cases found with
  | none =>
    obtain ⟨rfl, rfl⟩ := pure_ok.mp h
    exact ⟨rfl, fun hno => (Bool.false_ne_true hno).elim⟩
  | some kind =>
    obtain ⟨rfl, rfl⟩ := pure_ok.mp h
    refine ⟨rfl, fun hkind => ?_⟩
    obtain ⟨count, hcount⟩ := componentKind?_some.mp hfound
    exact ⟨kind, count, hcount, by simpa using hkind⟩

theorem isVectorOf_ok {type component : TypeRef} {answer : Bool}
    (h : isVectorOf type component s = .ok (answer, t)) :
    s = t ∧ (answer = true → ∃ size, s.program.shapeAt type = some (.vector component size)) := by
  simp only [isVectorOf, bind_ok, view_ok, pure_ok] at h
  obtain ⟨found, _, ⟨hfound, rfl⟩, rfl, rfl⟩ := h
  refine ⟨rfl, fun hvector => ?_⟩
  obtain ⟨⟨inner, size⟩, rfl, rfl⟩ := Option.map_eq_some_iff.mp (of_decide_eq_true hvector)
  exact ⟨size, vector?_some.mp hfound⟩

theorem addExpression_grows {kind : ExprKind}
    (h : build pos (Build.addExpression kind type) s = .ok (e, t)) (hs : s.program.Sound) :
    s.Grows t ∧ t.program.Sound ∧ t.program.expressions.get? e = some ⟨kind, type⟩ ∧
      s.program.Adds kind e t.program := by
  obtain ⟨q, hadd, rfl⟩ := build_ok.mp h
  have hadds := Build.addExpression_adds hadd rfl
  obtain ⟨rfl, rfl⟩ := Build.addExpression_ok hadd
  exact ⟨⟨grows_withExpression _ _, rfl, rfl, rfl⟩, hs.withExpression _,
    Arena.get?_add_size _ _, hadds⟩

theorem sum_ok {op : SumOperator} {opPos last : Position} (h : sum op opPos last l r s = .ok (e, t))
    (hs : s.program.Sound) (hl : s.program.Typed places l leftType)
    (hr : s.program.Typed places r rightType) :
    s.Grows t ∧ t.program.Sound ∧ t.program.expressions.get? e = some ⟨.sum op l r, leftType⟩ ∧
      t.program.Typed places e leftType ∧ s.program.Adds (.sum op l r) e t.program := by
  simp only [sum, bind_ok, ite_ok, refuse_ok, false_and, and_false, exists_false, false_or,
    or_false] at h
  obtain ⟨type, _, htype, type', _, htype', hsame, answer, _, hnumeric, hyes, hadd⟩ := h
  obtain ⟨rfl, rfl⟩ := typeOf_typed htype hl
  obtain ⟨rfl, rfl⟩ := typeOf_typed htype' hr
  obtain ⟨rfl, hcomponents⟩ := isNumeric_ok hnumeric
  obtain ⟨kind, count, hcount, hkind⟩ := hcomponents hyes
  obtain rfl : type = type' := Decidable.not_not.mp hsame
  obtain ⟨hgrows, hsound, hentry, hadds⟩ := addExpression_grows hadd hs
  have ht : t.program.Typed places e type :=
    .sum hentry (hcount.mono hgrows.program) hkind (hl.mono hgrows.program fun _ h => h)
      (hr.mono hgrows.program fun _ h => h)
  exact ⟨hgrows, hsound, hentry, ht, hadds⟩

theorem scale_ok {op : ScaleOperator} {opPos last : Position}
    (h : scale op opPos last l r s = .ok (e, t)) (hs : s.program.Sound)
    (hl : s.program.Typed places l leftType) (hr : s.program.Typed places r rightType) :
    s.Grows t ∧ t.program.Sound ∧
      ((t.program.expressions.get? e = some ⟨.scale op r l false, leftType⟩ ∧
          t.program.Typed places e leftType ∧
          s.program.Adds (.scale op r l false) e t.program) ∨
        (t.program.expressions.get? e = some ⟨.scale op l r true, rightType⟩ ∧
          t.program.Typed places e rightType ∧
          s.program.Adds (.scale op l r true) e t.program)) := by
  simp only [scale, bind_ok, ite_ok, refuse_ok, false_and, and_false, exists_false, or_false] at h
  obtain ⟨type, _, htype, type', _, htype', answer, _, hvector, h⟩ := h
  obtain ⟨rfl, rfl⟩ := typeOf_typed htype hl
  obtain ⟨rfl, rfl⟩ := typeOf_typed htype' hr
  obtain ⟨rfl, hleft⟩ := isVectorOf_ok hvector
  -- A scalar on the right is looked for first, then one on the left.
  rcases h with ⟨hyes, answer', _, hnumeric, hyes', hadd⟩ |
    ⟨-, answer', _, hvector', hyes, answer'', _, hnumeric, hyes', hadd⟩
  · obtain ⟨rfl, hcomponents⟩ := isNumeric_ok hnumeric
    obtain ⟨kind, count, hcount, hkind⟩ := hcomponents hyes'
    obtain ⟨size, hshape⟩ := hleft hyes
    obtain ⟨hgrows, hsound, hentry, hadds⟩ := addExpression_grows hadd hs
    have hscalar := hcount.component hshape
    exact ⟨hgrows, hsound, .inl ⟨hentry,
      .scale hentry (hgrows.program.shapeAt hshape) (hgrows.program.shapeAt hscalar) hkind
        (hr.mono hgrows.program fun _ h => h) (hl.mono hgrows.program fun _ h => h), hadds⟩⟩
  · obtain ⟨rfl, hright⟩ := isVectorOf_ok hvector'
    obtain ⟨rfl, hcomponents⟩ := isNumeric_ok hnumeric
    obtain ⟨kind, count, hcount, hkind⟩ := hcomponents hyes'
    obtain ⟨size, hshape⟩ := hright hyes
    obtain ⟨hgrows, hsound, hentry, hadds⟩ := addExpression_grows hadd hs
    have hscalar := hcount.component hshape
    exact ⟨hgrows, hsound, .inr ⟨hentry,
      .scale hentry (hgrows.program.shapeAt hshape) (hgrows.program.shapeAt hscalar) hkind
        (hl.mono hgrows.program fun _ h => h) (hr.mono hgrows.program fun _ h => h), hadds⟩⟩

theorem firstElement_ok {count : UInt32} (h : firstElement e pos s = .ok ((component, count), t))
    (ht : s.program.Typed places e type) :
    s = t ∧ (∃ kind, s.program.shapeAt component = some (.scalar kind)) ∧
      s.program.Width component type count.toNat := by
  simp only [firstElement, bind_ok, view_ok] at h
  obtain ⟨found, _, hfound, shape, _, ⟨hshape, rfl⟩, h⟩ := h
  obtain ⟨rfl, rfl⟩ := typeOf_typed hfound ht
  simp only [bind_ok, ite_ok, refuse_ok, pure_ok, false_and, and_false, exists_false,
    false_or] at h
  obtain ⟨kind, _, ⟨hkind, rfl⟩, hscalar, hpair, rfl⟩ := h
  obtain ⟨kind, rfl⟩ := Option.ne_none_iff_exists'.mp (by simpa using hscalar)
  obtain ⟨hcomponent, hcount⟩ := Prod.mk.inj hpair
  rw [hcomponent] at hkind
  refine ⟨rfl, ⟨kind, scalarKind?_some.mp hkind⟩, ?_⟩
  cases shape with
  | none =>
    obtain rfl : found = component := hcomponent
    obtain rfl : 1 = count := hcount
    exact .inl ⟨rfl, rfl⟩
  | some vector =>
    obtain rfl : vector = (component, count) := Prod.ext hcomponent hcount
    exact .inr ⟨count, vector?_some.mp hshape, rfl⟩

theorem elementSize_ok {size : UInt32} (h : elementSize component e pos s = .ok (size, t))
    (ht : s.program.Typed places e type) :
    s = t ∧ s.program.Width component type size.toNat := by
  simp only [elementSize, bind_ok, view_ok] at h
  obtain ⟨found, _, hfound, shape, _, ⟨hshape, rfl⟩, h⟩ := h
  obtain ⟨rfl, rfl⟩ := typeOf_typed hfound ht
  cases shape with
  | none =>
    simp only [ite_ok, pure_ok, refuse_ok, and_false, or_false] at h
    obtain ⟨rfl, rfl, rfl⟩ := h
    exact ⟨rfl, .inl ⟨rfl, rfl⟩⟩
  | some vector =>
    obtain ⟨inner, width⟩ := vector
    simp only [ite_ok, pure_ok, refuse_ok, and_false, or_false] at h
    rcases h with ⟨rfl, rfl, rfl⟩ | ⟨-, rfl, rfl, rfl⟩
    · exact ⟨rfl, .inr ⟨_, vector?_some.mp hshape, rfl⟩⟩
    · exact ⟨rfl, .inl ⟨rfl, rfl⟩⟩

theorem vectorLiteral_ok {opened closed : Position} {component : TypeRef} {count : UInt32}
    {elements : List ExprRef} {kind : ScalarKind}
    (h : vectorLiteral opened closed component count elements s = .ok (e, t)) (hs : s.program.Sound)
    (hscalar : s.program.shapeAt component = some (.scalar kind)) :
    s.Grows t ∧ t.program.Sound ∧
      s.program.Adds (.vector elements) e t.program ∧
      ∃ type, t.program.expressions.get? e = some ⟨.vector elements, type⟩ ∧
        t.program.shapeAt type = some (.vector component count) := by
  simp only [vectorLiteral, bind_ok, ite_ok, refuse_ok, get_ok, set_ok, build_ok, false_and,
    and_false, exists_false, false_or, or_false] at h
  obtain ⟨hsize, _, _, ⟨rfl, rfl⟩, -, _, _, rfl, q, hbuild, rfl⟩ := h
  obtain ⟨type, r, htype, hadd⟩ := Build.bind_ok.mp hbuild
  have hcount : count = 2 ∨ count = 3 ∨ count = 4 := by
    simp only [Bool.or_eq_true, decide_eq_true_eq, not_or, UInt32.not_lt] at hsize
    have hlow : 2 ≤ count.toNat := UInt32.le_iff_toNat_le.mp hsize.1
    have hhigh : count.toNat ≤ 4 := le_iff_toNat_le.mp hsize.2
    have hcases : count.toNat = 2 ∨ count.toNat = 3 ∨ count.toNat = 4 := by omega
    rcases hcases with hn | hn | hn
    · exact .inl (UInt32.toNat_inj.mp hn)
    · exact .inr (.inl (UInt32.toNat_inj.mp hn))
    · exact .inr (.inr (UInt32.toNat_inj.mp hn))
  have hgrows : s.program.Grows [] r := Build.typeOfShape_grows htype (by simp)
  have hr : r.Sound :=
    Build.typeOfShape_sound htype hs ⟨shapeAt_lt hscalar, ⟨kind, hscalar⟩, hcount⟩ rfl
  have hsame : r.expressions = s.program.expressions := by
    rcases (Build.typeOfShape_ok htype).2 with rfl | rfl
    · rfl
    · rfl
  have hadds := Build.addExpression_adds hadd hsame
  obtain ⟨rfl, rfl⟩ := Build.addExpression_ok hadd
  have hadd := grows_withExpression r ⟨.vector elements, type⟩
  exact ⟨⟨hgrows.trans hadd, rfl, rfl, rfl⟩, hr.withExpression _, hadds, type,
    Arena.get?_add_size _ _, hadd.shapeAt (Build.typeOfShape_ok htype).1⟩

structure Joined (s t : Elaboration) (component : TypeRef) (xs : List Expr) (es : List ExprRef)
    (parts : List (TypeRef × Nat)) : Prop where
  grows : s.Grows t
  sound : t.program.Sound
  represented : xs.length = es.length ∧
    ∀ pair ∈ xs.zip es, t.program.Represents s.scopes.locals.toList pair.1 pair.2
  typed : es.length = parts.length ∧
    ∀ pair ∈ es.zip parts, t.program.Typed (· ∈ s.scopes.locals.toList) pair.1 pair.2.1
  widths : ∀ part ∈ parts, t.program.Width component part.1 part.2
  whole : ∀ x ∈ xs, x.Whole
  trees : ∃ handles, s.program.NewTrees t.program es handles

theorem Joined.cons {u : Elaboration} {x : Expr} {xs : List Expr} {es : List ExprRef} {width : Nat}
    {parts : List (TypeRef × Nat)} (hx : Expressed s t x e type)
    (hwidth : t.program.Width component type width) (hrest : Joined t u component xs es parts) :
    Joined s u component (x :: xs) (e :: es) ((type, width) :: parts) := by
  have hscopes := hx.grows.scopes
  obtain ⟨handles, htree⟩ := hx.tree
  obtain ⟨others, htrees⟩ := hrest.trees
  refine ⟨hx.grows.trans hrest.grows, hrest.sound, ⟨?_, ?_⟩, ⟨?_, ?_⟩, ?_,
    List.forall_mem_cons.mpr ⟨hx.whole, hrest.whole⟩, _, .cons htree htrees⟩
  · simpa using hrest.represented.1
  · intro pair hpair
    rw [List.zip_cons_cons, List.mem_cons] at hpair
    rcases hpair with rfl | hpair
    · exact hx.represents.mono hrest.grows.program
    · rw [← hscopes]
      exact hrest.represented.2 pair hpair
  · simpa using hrest.typed.1
  · intro pair hpair
    rw [List.zip_cons_cons, List.mem_cons] at hpair
    rcases hpair with rfl | hpair
    · exact hx.typed.mono hrest.grows.program fun _ h => h
    · have htyped := hrest.typed.2 pair hpair
      rw [hscopes] at htyped
      exact htyped
  · intro part hpart
    rcases List.mem_cons.mp hpart with rfl | hpart
    · exact hwidth.mono hrest.grows.program
    · exact hrest.widths part hpart

theorem Expressed.pair {u : Elaboration} {left right : Expr} (hl : Expressed s t left l leftType)
    (hr : Expressed t u right r rightType) :
    s.Grows u ∧ u.program.Represents s.scopes.locals.toList left l ∧
      u.program.Represents s.scopes.locals.toList right r ∧
      u.program.Typed (· ∈ s.scopes.locals.toList) l leftType ∧
      u.program.Typed (· ∈ s.scopes.locals.toList) r rightType ∧
      ∃ ls rs, s.program.NewTrees u.program [l, r] [ls, rs] := by
  obtain ⟨ls, hls⟩ := hl.tree
  obtain ⟨rs, hrs⟩ := hr.tree
  have hrepresents := hr.represents
  have htyped := hr.typed
  rw [hl.grows.scopes] at hrepresents htyped
  exact ⟨hl.grows.trans hr.grows, hl.represents.mono hr.grows.program, hrepresents,
    hl.typed.mono hr.grows.program fun _ h => h, htyped, ls, rs, .cons hls (.cons hrs (.nil _))⟩

mutual

theorem expr_ok {s t : Elaboration} {e : ExprRef} (x : Expr) (h : expr x s = .ok (e, t))
    (hs : s.program.Sound) : ∃ type, Expressed s t x e type := by
  cases x with
  | missing why => exact (throw_ok.mp h).elim
  | stopped operand why =>
    simp only [expr, bind_ok, throw_ok, and_false, exists_false] at h
  | var name =>
    simp only [expr, bind_ok, get_ok] at h
    obtain ⟨_, _, ⟨rfl, rfl⟩, h⟩ := h
    cases hlookup : s.scopes.lookup name.text with
    | none =>
      rw [hlookup] at h
      exact (refuse_ok.mp h).elim
    | some place =>
      rw [hlookup] at h
      obtain ⟨hgrows, hsound, hentry, hadds⟩ := addExpression_grows h hs
      have hmem : place ∈ s.scopes.locals.toList := lookupIn_mem hlookup
      exact ⟨place.type, hgrows, hsound, .var hlookup hentry, .load hentry hmem, .var, _,
        hadds.newTree rfl⟩
  | number bits pos =>
    simp only [expr, build_ok] at h
    obtain ⟨q, hbuild, rfl⟩ := h
    obtain ⟨ref, r, hconstant, hadd⟩ := Build.bind_ok.mp hbuild
    have hgrows := Build.floatConstant_grows hconstant
    have hr := Build.floatConstant_sound hconstant hs
    obtain ⟨⟨c, hc, hbits⟩, hpool⟩ := Build.floatConstant_ok hconstant
    have hsame : r.expressions = s.program.expressions := by
      rcases hpool with rfl | rfl
      · rfl
      · rfl
    have hadds := Build.addExpression_adds hadd hsame
    obtain ⟨rfl, rfl⟩ := Build.addExpression_ok hadd
    have hnew := grows_withExpression r ⟨.constant ref, f32Type⟩
    have hentry : (r.withExpression ⟨.constant ref, f32Type⟩).expressions.get?
        r.expressions.size = some ⟨.constant ref, f32Type⟩ := Arena.get?_add_size _ _
    exact ⟨f32Type, ⟨hgrows.trans hnew, rfl, rfl, rfl⟩, hr.withExpression _,
      .number hentry (hnew.constant hc) hbits, .constant hentry (hnew.constant hc), .number, _,
      hadds.newTree rfl⟩
  | paren pos inner close =>
    simp only [expr, bind_ok, discard_ok, part_ok, pure_ok] at h
    obtain ⟨e, r, hinner, _, _, ⟨_, rfl, rfl⟩, rfl, rfl⟩ := h
    obtain ⟨type, hx⟩ := expr_ok inner hinner hs
    exact ⟨type, hx.grows, hx.sound, .paren hx.represents, hx.typed, .paren hx.whole, hx.tree⟩
  | sum op opPos left right =>
    simp only [expr, bind_ok] at h
    obtain ⟨l, u, hleft, r, v, hright, hsum⟩ := h
    obtain ⟨leftType, hl⟩ := expr_ok left hleft hs
    obtain ⟨rightType, hr⟩ := expr_ok right hright hl.sound
    obtain ⟨hgrows, hxl, hxr, htl, htr, ls, rs, htrees⟩ := hl.pair hr
    obtain ⟨hadded, hsound, hentry, htyped, hadds⟩ := sum_ok hsum hr.sound htl htr
    exact ⟨leftType, hgrows.trans hadded, hsound,
      .sum hentry (hxl.mono hadded.program) (hxr.mono hadded.program), htyped,
      .sum hl.whole hr.whole, _, htrees.node hadds rfl⟩
  | scale op opPos left right =>
    simp only [expr, bind_ok] at h
    obtain ⟨l, u, hleft, r, v, hright, hscale⟩ := h
    obtain ⟨leftType, hl⟩ := expr_ok left hleft hs
    obtain ⟨rightType, hr⟩ := expr_ok right hright hl.sound
    obtain ⟨hgrows, hxl, hxr, htl, htr, ls, rs, htrees⟩ := hl.pair hr
    -- The scalar is the first operand of the entry, whichever side it was written on.
    obtain ⟨hadded, hsound, hlast | hfirst⟩ := scale_ok hscale hr.sound htl htr
    · obtain ⟨hentry, htyped, hadds⟩ := hlast
      exact ⟨leftType, hgrows.trans hadded, hsound,
        .scalarLast hentry (hxl.mono hadded.program) (hxr.mono hadded.program), htyped,
        .scale hl.whole hr.whole, _, htrees.swap.node hadds rfl⟩
    · obtain ⟨hentry, htyped, hadds⟩ := hfirst
      exact ⟨rightType, hgrows.trans hadded, hsound,
        .scalarFirst hentry (hxl.mono hadded.program) (hxr.mono hadded.program), htyped,
        .scale hl.whole hr.whole, _, htrees.node hadds rfl⟩
  | vector pos first rest close =>
    simp only [expr, bind_ok, part_ok] at h
    obtain ⟨e, u, hfirst, ⟨component, count⟩, u', hdecide, ⟨others, count'⟩, v, hrest, _, _,
      ⟨rfl, rfl⟩, hliteral⟩ := h
    obtain ⟨type, hx⟩ := expr_ok first hfirst hs
    obtain ⟨rfl, ⟨kind, hscalar⟩, hwidth⟩ := firstElement_ok hdecide hx.typed
    obtain ⟨parts, hjoined, hcount⟩ := elements_ok rest hrest hx.sound
    -- The first element decides the component type; it is then one element like the others.
    have hall := Joined.cons hx hwidth hjoined
    obtain ⟨hadded, hsound, hadds, vectorType, hentry, hshape⟩ :=
      vectorLiteral_ok hliteral hjoined.sound (hjoined.grows.program.shapeAt hscalar)
    obtain ⟨handles, htrees⟩ := hall.trees
    refine ⟨vectorType, hall.grows.trans hadded, hsound, ?_, ?_, .vector hx.whole hjoined.whole, _,
      htrees.node hadds rfl⟩
    · refine .vector hentry hall.represented.1 fun pair hpair => ?_
      exact (hall.represented.2 pair hpair).mono hadded.program
    · refine .vector hentry hshape hall.typed.1 (fun pair hpair => ?_) (fun part hpart => ?_) ?_
      · exact (hall.typed.2 pair hpair).mono hadded.program fun _ h => h
      · exact (hall.widths part hpart).mono hadded.program
      · rw [hcount, List.map_cons, total_cons, UInt32.ofNat_add, UInt32.ofNat_toNat]

theorem elements_ok {s t : Elaboration} {component : TypeRef} {count count' : UInt32}
    {es : List ExprRef} (xs : List Expr) (h : elements component count xs s = .ok ((es, count'), t))
    (hs : s.program.Sound) :
    ∃ parts, Joined s t component xs es parts ∧
      count' = count + UInt32.ofNat (total (parts.map (·.2))) := by
  cases xs with
  | nil =>
    simp only [elements, pure_ok, Prod.mk.injEq] at h
    obtain ⟨⟨rfl, rfl⟩, rfl⟩ := h
    exact ⟨[], ⟨.refl _, hs, ⟨rfl, nofun⟩, ⟨rfl, nofun⟩, nofun, nofun, [], .nil _⟩,
      (UInt32.add_zero _).symm⟩
  | cons x xs =>
    simp only [elements, bind_ok, pure_ok, Prod.mk.injEq] at h
    obtain ⟨e, u, hx, size, _, hsize, ⟨others, final⟩, v, hrest, ⟨rfl, rfl⟩, rfl⟩ := h
    obtain ⟨type, hx⟩ := expr_ok x hx hs
    obtain ⟨rfl, hwidth⟩ := elementSize_ok hsize hx.typed
    obtain ⟨parts, hjoined, hcount⟩ := elements_ok xs hrest hx.sound
    refine ⟨(type, size.toNat) :: parts, .cons hx hwidth hjoined, ?_⟩
    rw [hcount, List.map_cons, total_cons, UInt32.ofNat_add, UInt32.ofNat_toNat,
      UInt32.add_assoc]

end

end Elaborate

end Shading
