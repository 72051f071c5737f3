import Shading.Proofs.Binary.RoundTrip
import Shading.Proofs.Simulation

/-!
The code of an entry of the expressions computes the value of the entry. The
entries are a graph: an operand comes before what it is an operand of, but may
be shared, and then its code is emitted once for every use. The value of an
entry is found along its operands, and the words that are appended for it give
that value to the id that is returned, provided the entries it is made of are
well typed.
-/

namespace Shading

open List Binary Program

open Binary (Instruction Opcode idsFrom results)

variable {u : Unit} {id : UInt32} {x : ExprRef}

namespace Build

variable {p q : Program} {ref : ProcedureRef}

structure Appended (ref : ProcedureRef) (code : List Instruction) (p q : Program) : Prop where
  procedure : ∃ old new, p.procedures.get? ref = some old ∧ q.procedures.get? ref = some new ∧
    new.body.toList = old.body.toList ++ code
  nextId : q.nextId = p.nextId + UInt32.ofNat code.length
  ids : results code = idsFrom p.nextId code.length
  encodable : ∀ i ∈ code, i.isEncodable = true

theorem expression_appended {e : ExprRef} (h : expression ref e p = .ok id q) :
    ∃ code, Appended ref code p q ∧ p.Writes ref [] [] code false q ∧ q.Computes e code id := by
  obtain ⟨code, hemitted, hcomputes⟩ := expression_emitted h
  obtain ⟨old, new, hold, hnew, hcontinues⟩ := hemitted.procedure
  exact ⟨code, ⟨⟨old, new, hold, hnew, hcontinues.body⟩, hemitted.nextId, hemitted.ids,
    hemitted.encodable⟩, hemitted.toWrites, hcomputes⟩

end Build

namespace Program

variable {p : Program} {e : ExprRef}

def typeOf? (p : Program) (e : ExprRef) : Option TypeRef := (p.expressions.get? e).map (·.type)

def widthOf? (p : Program) (component : TypeRef) (e : ExprRef) : Option Nat := do
  let type ← p.typeOf? e
  if type = component then some 1
  else
    match p.shapeAt type with
    | some (.vector found size) => if found = component then some size.toNat else none
    | _ => none

def NodeTyped (p : Program) (entry : ExprEntry) : Prop :=
  match entry.kind with
  | .unknown => True
  | .constant ref => (p.constants.get? ref).isSome ∧ p.shapeAt entry.type = some (.scalar .f32)
  | .load place => entry.type = place.type
  | .vector elements => ∃ component size kind counts,
      p.shapeAt entry.type = some (.vector component size) ∧ size ≠ 0 ∧
      p.shapeAt component = some (.scalar kind) ∧
      elements.mapM (p.widthOf? component) = some counts ∧ total counts = size.toNat
  | .sum _ left right => ∃ kind count,
      p.Components entry.type kind count ∧ kind ≠ .bool ∧
      p.typeOf? left = some entry.type ∧ p.typeOf? right = some entry.type
  | .scale _ scalar vector _ => ∃ component size kind,
      p.shapeAt entry.type = some (.vector component size) ∧ size ≠ 0 ∧
      p.shapeAt component = some (.scalar kind) ∧ kind ≠ .bool ∧
      p.typeOf? scalar = some component ∧ p.typeOf? vector = some entry.type

inductive MadeOf (p : Program) (e : ExprRef) : ExprRef → Prop
  | self : MadeOf p e e
  | operand {x y : ExprRef} {entry : ExprEntry} : MadeOf p e x →
      p.expressions.get? x = some entry → y ∈ entry.kind.operands → MadeOf p e y

/-- An entry is made of entries that are well typed and come after their operands. -/
def WellTypedGraph (p : Program) (e : ExprRef) : Prop :=
  ∀ x, p.MadeOf e x → ∃ entry, p.expressions.get? x = some entry ∧
    (∀ y ∈ entry.kind.operands, y < x) ∧ p.NodeTyped entry

theorem wellTypedGraph_of_entries
    (hall : ∀ x entry, p.expressions.get? x = some entry → (∀ y ∈ entry.kind.operands, y < x) ∧
      p.NodeTyped entry)
    (he : e < p.expressions.size) : p.WellTypedGraph e := by
  intro x hx
  have hsize : x < p.expressions.size := by
    induction hx with
    | self => exact he
    | operand _ hentry hy ih => exact Nat.lt_trans ((hall _ _ hentry).1 _ hy) ih
  obtain ⟨entry, hentry⟩ : ∃ entry, p.expressions.get? x = some entry :=
    ⟨_, Array.getElem?_eq_getElem hsize⟩
  exact ⟨entry, hentry, hall x entry hentry⟩

theorem WellTypedGraph.entry {q : Program} {kept : Region → Prop} {names : List Bytes}
    {entry : ExprEntry} (hgraph : p.WellTypedGraph e) (h : Extends kept names p q)
    (hx : p.MadeOf e x) (hentry : q.expressions.get? x = some entry) :
    p.expressions.get? x = some entry ∧ (∀ y ∈ entry.kind.operands, y < x) ∧ p.NodeTyped entry := by
  obtain ⟨found, hfound, hbefore, htyped⟩ := hgraph x hx
  obtain rfl : found = entry := Option.some.inj ((h.expression hfound).symm.trans hentry)
  exact ⟨hfound, hbefore, htyped⟩

theorem typeOf?_eq {entry : ExprEntry} {type : TypeRef} (hentry : p.expressions.get? e = some entry)
    (htype : p.typeOf? e = some type) :
    type = entry.type := by
  rw [typeOf?, hentry] at htype
  exact (Option.some.inj htype).symm

theorem Components.componentKind? {q : Program} {kept : Region → Prop} {names : List Bytes}
    {ref : TypeRef} {kind : ScalarKind} {count : Nat} {found : Option ScalarKind}
    (hc : p.Components ref kind count) (h : Extends kept names p q)
    (hfound : q.componentKind? ref = .ok found) : found = some kind := by
  rw [componentKind?_some.mpr ⟨count, hc.mono h⟩] at hfound
  exact (Except.ok.inj hfound).symm

theorem widthOf?_some {component : TypeRef} {e : ExprRef} {count : Nat}
    (h : p.widthOf? component e = some count) :
    ∃ type, p.typeOf? e = some type ∧ p.Width component type count := by
  unfold widthOf? at h
  cases htype : p.typeOf? e with
  | none =>
    rw [htype] at h
    cases h
  | some type =>
    rw [htype] at h
    refine ⟨type, rfl, ?_⟩
    simp only [bind, Option.bind_some] at h
    split at h
    · next heq =>
        cases h
        exact .inl ⟨heq, rfl⟩
    · split at h
      · next found size hshape =>
          split at h
          · next heq =>
              cases h
              exact .inr ⟨size, heq ▸ hshape, rfl⟩
          · cases h
      · cases h

end Program

namespace Semantics

variable {σ : Type} {arithmetic : Arithmetic σ} {p q : Program} {m m' : Machine σ}
  {memory : UInt32 → Option (Option (Value σ))} {e : ExprRef} {type : TypeRef}
  {code : List Instruction}

/-- The value of an entry of the expressions: a constant has its bits, a variable its contents, and
all else is computed from operands, which come before it. -/
def valueOf (arithmetic : Arithmetic σ) (p : Program)
    (memory : UInt32 → Option (Option (Value σ))) (e : ExprRef) : Option (Value σ) :=
  match p.expressions.get? e with
  | none => none
  | some ⟨.unknown, _⟩ => none
  | some ⟨.constant ref, _⟩ =>
    (p.constants.get? ref).map fun c => .numbers .f32 [arithmetic.literal c.bits]
  | some ⟨.load place, _⟩ => (memory place.id).join
  | some ⟨.vector elements, _⟩ => do
    let values ← elements.mapM fun x =>
      if x < e then valueOf arithmetic p memory x else none
    Value.join values
  | some ⟨.sum op left right, _⟩ => do
    let left ← if left < e then valueOf arithmetic p memory left else none
    let right ← if right < e then valueOf arithmetic p memory right else none
    left.combine (arithmetic.sum op) right
  | some ⟨.scale op scalar vector scalarFirst, _⟩ => do
    let scalar ← if scalar < e then valueOf arithmetic p memory scalar else none
    let vector ← if vector < e then valueOf arithmetic p memory vector else none
    if scalarFirst then scalar.scale (arithmetic.scale op) vector
    else vector.scale (arithmetic.scale op) scalar
termination_by e
decreasing_by all_goals assumption

section Values

theorem mapM_guarded {elements : List ExprRef} {f : ExprRef → Option (Value σ)}
    (h : ∀ x ∈ elements, x < e) :
    elements.mapM (fun x => if x < e then f x else none) = elements.mapM f := by
  induction elements with
  | nil => rfl
  | cons x rest ih =>
    obtain ⟨hx, hrest⟩ := forall_mem_cons.mp h
    rw [mapM_cons, mapM_cons, if_pos hx, ih hrest]

theorem valueOf_vector {elements : List ExprRef}
    (hentry : p.expressions.get? e = some ⟨.vector elements, type⟩)
    (hbefore : ∀ x ∈ elements, x < e) :
    valueOf arithmetic p memory e =
      (elements.mapM (valueOf arithmetic p memory)).bind Value.join := by
  rw [valueOf, hentry]
  simp only [mapM_guarded hbefore]
  rfl

theorem valueOf_sum {op : SumOperator} {left right : ExprRef} {u v : Value σ}
    (hentry : p.expressions.get? e = some ⟨.sum op left right, type⟩)
    (hbefore : ∀ x ∈ [left, right], x < e)
    (hleft : valueOf arithmetic p memory left = some u)
    (hright : valueOf arithmetic p memory right = some v) :
    valueOf arithmetic p memory e = u.combine (arithmetic.sum op) v := by
  have hoperands : left < e ∧ right < e := ⟨hbefore left (by simp), hbefore right (by simp)⟩
  rw [valueOf, hentry]
  simp [hoperands, hleft, hright]

theorem valueOf_scale {op : ScaleOperator} {scalar vector : ExprRef} {scalarFirst : Bool}
    {kind : ScalarKind} {x : σ} {ys : List σ}
    (hentry : p.expressions.get? e = some ⟨.scale op scalar vector scalarFirst, type⟩)
    (hbefore : ∀ x ∈ [scalar, vector], x < e)
    (hscalar : valueOf arithmetic p memory scalar = some (.numbers kind [x]))
    (hvector : valueOf arithmetic p memory vector = some (.numbers kind ys)) :
    valueOf arithmetic p memory e =
      some (.numbers kind (arithmetic.scaleAll op scalarFirst kind x ys)) := by
  have hoperands : scalar < e ∧ vector < e := ⟨hbefore scalar (by simp), hbefore vector (by simp)⟩
  rw [valueOf, hentry]
  cases scalarFirst with
  | true => simp [hoperands, hscalar, hvector, Value.scale_first, Arithmetic.scaleAll]
  | false => simp [hoperands, hscalar, hvector, Value.scale_last, Arithmetic.scaleAll]

end Values

/-- A machine has the values of the constants, and every variable that an entry reads has contents
of its type. -/
structure Ready (arithmetic : Arithmetic σ) (p : Program) (e : ExprRef) (m : Machine σ) :
    Prop where
  constants : ∀ c ∈ p.constants.toList,
    m.values c.id = some (.numbers .f32 [arithmetic.literal c.bits])
  loads : ∀ x place type, p.MadeOf e x → p.expressions.get? x = some ⟨.load place, type⟩ →
    ∃ value, m.memory place.id = some (some value) ∧ p.Fits place.type value

theorem Ready.of_run (h : Ready arithmetic p e m) (hd : Distinct p code)
    (hrun : run arithmetic m code = some (.goes m')) (hmemory : m'.memory = m.memory) :
    Ready arithmetic p e m' := by
  refine ⟨fun c hc => ?_, ?_⟩
  · rw [run_values hrun (hd.constants c hc)]
    exact h.constants c hc
  · rw [hmemory]
    exact h.loads

theorem Ready.persists :
    Persists arithmetic p fun m => Ready arithmetic p e m ∧ m.memory = memory := by
  refine ⟨fun h => h.1.constants, ?_⟩
  rintro m m' code ⟨hready, rfl⟩ hd hrun hmemory
  exact ⟨hready.of_run hd hrun hmemory, hmemory⟩

theorem delivers_elements {start : Machine σ → Prop} {kind : ScalarKind} {component : TypeRef}
    (hstart : Persists arithmetic p start) (hkind : p.shapeAt component = some (.scalar kind))
    (elements : List ExprRef) {parts : List (List Instruction × UInt32)} {counts : List Nat}
    (hlength : elements.length = parts.length)
    (hparts : ∀ pair ∈ elements.zip parts, ∀ type, p.typeOf? pair.1 = some type →
      Delivers arithmetic p start (valueOf arithmetic p memory pair.1) type pair.2.1 pair.2.2)
    (hcounts : elements.mapM (p.widthOf? component) = some counts) :
    DeliversAll arithmetic p start kind (elements.mapM (valueOf arithmetic p memory)) counts
      (parts.flatMap (·.1)) (parts.map (·.2)) := by
  induction elements generalizing parts counts with
  | nil =>
    obtain rfl : parts = [] := eq_nil_of_length_eq_zero hlength.symm
    cases hcounts
    exact .nil
  | cons x rest ih =>
    cases parts with
    | nil => cases hlength
    | cons part others =>
      rw [mapM_cons] at hcounts
      simp only [bind, Option.bind_eq_some_iff, pure, Option.some.injEq] at hcounts
      obtain ⟨count, hcount, counts, hwidths, rfl⟩ := hcounts
      obtain ⟨type, htype, hwidth⟩ := widthOf?_some hcount
      obtain ⟨hx, hrest⟩ := forall_mem_cons.mp hparts
      rw [mapM_cons]
      exact .cons hstart (hx type htype) (hwidth.components hkind)
        (ih (Nat.succ.inj hlength) hrest hwidths)

theorem delivers_of_computes {kept : Program.Region → Prop} {names : List Bytes}
    (h : Program.Extends kept names p q) (hc : q.Computes x code id) (hgraph : p.WellTypedGraph e)
    (hx : p.MadeOf e x) (htype : p.typeOf? x = some type) :
    Delivers arithmetic p (fun m => Ready arithmetic p e m ∧ m.memory = memory)
      (valueOf arithmetic p memory x) type code id := by
  have hstart := @Ready.persists σ arithmetic p memory e
  induction hc generalizing type with
  | constant hentry hconstant =>
    obtain ⟨hp, -, hsome, hshape⟩ := hgraph.entry h hx hentry
    obtain ⟨found, hfound⟩ := Option.isSome_iff_exists.mp hsome
    obtain rfl := Option.some.inj ((h.constant hfound).symm.trans hconstant)
    obtain rfl := typeOf?_eq hp htype
    rw [valueOf, hp]
    simp only [hfound, Option.map_some]
    rw [Arena.get?_eq] at hfound
    exact .constant hstart (mem_of_getElem? hfound) hshape
  | @load _ place found _ _ hentry _ =>
    obtain ⟨hp, -, hplace⟩ := hgraph.entry h hx hentry
    obtain rfl : found = place.type := hplace
    obtain rfl := typeOf?_eq hp htype
    refine .load fun hm => ?_
    obtain ⟨hready, rfl⟩ := hm
    obtain ⟨value, hmemory, hfits⟩ := hready.loads _ _ _ hx hp
    refine ⟨value, ?_, hfits, hmemory⟩
    rw [valueOf, hp]
    simp [hmemory]
  | vector hentry hlength _ _ _ ih =>
    obtain ⟨hp, hbefore, component, size, kind, counts, hshape, hsize, hkind, hcounts, htotal⟩ :=
      hgraph.entry h hx hentry
    obtain rfl := typeOf?_eq hp htype
    have hparts := delivers_elements hstart hkind _ hlength
      (fun pair hpair _ => ih pair hpair (.operand hx hp (of_mem_zip hpair).1)) hcounts
    rw [valueOf_vector hp hbefore]
    exact hparts.vector hshape hsize hkind htotal
  | sum hentry _ _ hfound _ ihl ihr =>
    obtain ⟨hp, hbefore, kind, count, hcomponents, hkind, hleft, hright⟩ :=
      hgraph.entry h hx hentry
    obtain rfl := hcomponents.componentKind? h hfound
    obtain rfl := typeOf?_eq hp htype
    have hl := ihl (.operand hx hp (by simp [ExprKind.operands])) hleft
    have hr := ihr (.operand hx hp (by simp [ExprKind.operands])) hright
    exact .sum hstart hl hr hcomponents hkind fun _ _ => valueOf_sum hp hbefore
  | scaled hentry _ _ hfound _ hop hfloat ihs ihv =>
    subst hop
    obtain ⟨hp, hbefore, component, size, kind, hshape, -, hscalar, -, hsType, hvType⟩ :=
      hgraph.entry h hx hentry
    have hcomponents : p.Components _ kind size.toNat :=
      .inr ⟨component, size, hshape, hscalar, rfl⟩
    obtain rfl := hcomponents.componentKind? h hfound
    obtain rfl := typeOf?_eq hp htype
    have hs := ihs (.operand hx hp (by simp [ExprKind.operands])) hsType
    have hv := ihv (.operand hx hp (by simp [ExprKind.operands])) hvType
    exact .scaled hstart hs hv hshape hscalar hfloat fun _ _ => valueOf_scale hp hbefore
  | @spread _ _ _ _ _ _ _ _ _ _ _ _ shape _ _ hentry _ _ hfound hvector _ hop ihs ihv =>
    obtain ⟨hp, hbefore, component, size, kind, hshape, hsize, hscalar, hkind, hsType, hvType⟩ :=
      hgraph.entry h hx hentry
    have hcomponents : p.Components _ kind size.toNat :=
      .inr ⟨component, size, hshape, hscalar, rfl⟩
    obtain rfl := hcomponents.componentKind? h hfound
    obtain rfl : shape = some (component, size) := by
      rw [vector?_some.mpr (h.shapeAt hshape)] at hvector
      exact (Except.ok.inj hvector).symm
    obtain rfl := typeOf?_eq hp htype
    have hs := ihs (.operand hx hp (by simp [ExprKind.operands])) hsType
    have hv := ihv (.operand hx hp (by simp [ExprKind.operands])) hvType
    exact .spread hstart hs hv hshape hscalar hsize hkind hop fun _ _ => valueOf_scale hp hbefore

/-- Runs the instructions that words encode. -/
def runWords (arithmetic : Arithmetic σ) (m : Machine σ) (words : List UInt32) :
    Option (Progress σ) :=
  match Binary.splitWords words.length words.length 0 [] words with
  | (instructions, none) => run arithmetic m instructions
  | (_, some _) => none

theorem runWords_wordsOf (h : ∀ i ∈ code, i.isEncodable = true) (arithmetic : Arithmetic σ)
    (m : Machine σ) :
    runWords arithmetic m (Binary.wordsOf code) = run arithmetic m code := by
  unfold runWords
  rw [splitWords_wordsOf _ [] h (length_wordsOf_le code) (Nat.zero_add _)]
  rfl

theorem distinct_of_ids {next : UInt32} (hids : results code = idsFrom next code.length)
    (hroom : next.toNat + code.length ≤ UInt32.size) :
    (results code).Nodup ∧ ∀ id < next, id ∉ results code := by
  rw [hids]
  refine ⟨nodup_idsFrom next (by omega), fun id hid hmem => ?_⟩
  obtain ⟨k, hk, rfl⟩ := mem_map.mp hmem
  have hk : k < code.length := mem_range.mp hk
  have hsize : UInt32.size = 2 ^ 32 := rfl
  have hnat : (next + UInt32.ofNat k).toNat = next.toNat + k := by
    rw [UInt32.toNat_add, UInt32.toNat_ofNat']
    rw [Nat.mod_eq_of_lt (a := k) (by omega), Nat.mod_eq_of_lt (by omega)]
  have hlt := UInt32.lt_iff_toNat_lt.mp hid
  omega

/-- **Code generation computes the expression.** The code that is appended to a procedure for an
entry of the expressions, whose operands come before it and may be shared, runs as the words it is
written in from every machine in which the ids in use include those of the constants and the
variables that are read have contents of their types. It leaves all variables and all ids in use
alone, and the id that is returned gets the value of the entry. -/
theorem expression_computes (arithmetic : Arithmetic σ) {ref : ProcedureRef} {id : UInt32}
    (h : Build.expression ref e p = .ok id q) (hgraph : p.WellTypedGraph e)
    (hconstants : ∀ c ∈ p.constants.toList, c.id < p.nextId) :
    ∃ (old new : Procedure) (code : List Instruction),
      p.procedures.get? ref = some old ∧ q.procedures.get? ref = some new ∧
      new.body.toList = old.body.toList ++ code ∧
      q.nextId = p.nextId + UInt32.ofNat code.length ∧
      ∀ m : Machine σ, p.nextId.toNat + code.length ≤ UInt32.size → Ready arithmetic p e m →
        ∃ value m', valueOf arithmetic p m.memory e = some value ∧
          runWords arithmetic m (Binary.wordsOf code) = some (.goes m') ∧ m'.memory = m.memory ∧
          (∀ found < p.nextId, m'.values found = m.values found) ∧ m'.values id = some value := by
  obtain ⟨code, happended, hwrites, hcomputes⟩ := Build.expression_appended h
  obtain ⟨old, new, hold, hnew, hbody⟩ := happended.procedure
  obtain ⟨entry, hentry, -⟩ := hgraph e .self
  refine ⟨old, new, code, hold, hnew, hbody, happended.nextId, fun m hroom hready => ?_⟩
  obtain ⟨hnodup, hfresh⟩ := distinct_of_ids happended.ids hroom
  have hd : Distinct p code := ⟨hnodup, fun c hc => hfresh c.id (hconstants c hc)⟩
  obtain ⟨value, m', hvalue, -, hrun, hid, hmemory⟩ :=
    (delivers_of_computes hwrites.grows hcomputes hgraph .self
      (congrArg (Option.map _) hentry)).runs ⟨hready, rfl⟩ hd
  refine ⟨value, m', hvalue, ?_, hmemory, fun found hfound => ?_, hid⟩
  · rw [runWords_wordsOf happended.encodable, hrun]
  · exact run_values hrun (hfresh found hfound)

/-- A variable, the vector of it twice, the variable divided by that vector, and the sum of the
quotient and the vector: all operands but the quotient are shared. -/
def sharingProgram : Program where
  limits := {}
  nextId := 8
  types := ⟨#[⟨Text.utf8 "void", 2, .void⟩, ⟨Text.utf8 "f32", 3, .scalar .f32⟩,
    ⟨Text.utf8 "i32", 4, .scalar .i32⟩, ⟨[], 5, .vector 2 2⟩], .types, 10⟩
  globals := .empty .globals 10
  constants := .empty .constants 10
  expressions := ⟨#[⟨.load ⟨Text.utf8 "n", 2, 6, 6, none⟩, 2⟩, ⟨.vector [0, 0], 3⟩,
    ⟨.scale .divide 0 1 true, 3⟩, ⟨.sum .add 2 1, 3⟩], .expressions, 10⟩
  procedures := ⟨#[⟨[], 7, 0, 0, 1, #[], #[], false, #[]⟩], .procedures, 10⟩
  entryPoints := .empty .entryPoints 10
  words := ⟨0, 1000⟩
  interfacesUsed := 0

theorem sharingProgram_wellTyped : sharingProgram.WellTypedGraph 3 := by
  apply wellTypedGraph_of_entries
  · intro x entry hentry
    match x with
    | 0 =>
      cases hentry
      exact ⟨by decide, rfl⟩
    | 1 =>
      cases hentry
      exact ⟨by decide, 2, 2, .i32, [1, 1], rfl, by decide, rfl, rfl, rfl⟩
    | 2 =>
      cases hentry
      exact ⟨by decide, 2, 2, .i32, rfl, by decide, rfl, by decide, rfl, rfl⟩
    | 3 =>
      cases hentry
      exact ⟨by decide, .i32, 2, .inr ⟨2, 2, rfl, rfl, rfl⟩, by decide, rfl, rfl⟩
    | x + 4 => cases hentry
  · decide

/-- A machine with 6 in every variable. -/
def sixes : Machine Int := ⟨fun _ => none, fun _ => some (some (.numbers .i32 [6]))⟩

theorem sixes_ready : Ready integers sharingProgram 3 sixes := by
  refine ⟨fun c hc => (not_mem_nil hc).elim, fun x place type _ hentry => ?_⟩
  match x with
  | 0 =>
    cases hentry
    exact ⟨_, rfl, .scalar rfl⟩
  | 1 => cases hentry
  | 2 => cases hentry
  | 3 => cases hentry
  | x + 4 => cases hentry

theorem sharingProgram_value :
    valueOf integers sharingProgram sixes.memory 3 = some (.numbers .i32 [7, 7]) := by
  have hvariable : valueOf integers sharingProgram sixes.memory 0 = some (.numbers .i32 [6]) := by
    rw [valueOf]
    rfl
  have hvector : valueOf integers sharingProgram sixes.memory 1 =
      some (.numbers .i32 [6, 6]) := by
    rw [valueOf_vector rfl (by decide)]
    simp only [mapM_cons, mapM_nil, hvariable]
    rfl
  have hquotient : valueOf integers sharingProgram sixes.memory 2 = _ :=
    valueOf_scale rfl (by decide) hvariable hvector
  rw [valueOf_sum rfl (by decide) hquotient hvector]
  rfl

/-- With 6 in the variable, every component is 6 / 6 + 6. -/
theorem sharingProgram_computes :
    ∃ (id : UInt32) (q : Program) (new : Procedure) (m' : Machine Int),
      Build.expression 0 3 sharingProgram = .ok id q ∧ q.procedures.get? 0 = some new ∧
      runWords integers sixes (Binary.wordsOf new.body.toList) = some (.goes m') ∧
      m'.values id = some (.numbers .i32 [7, 7]) := by
  have hlength : (match Build.expression 0 3 sharingProgram with
      | .ok _ q => (q.procedures.get? 0).map fun new => new.body.size
      | .error _ _ => none) = some 10 := by decide +kernel
  cases h : Build.expression 0 3 sharingProgram with
  | error e q =>
    rw [h] at hlength
    cases hlength
  | ok id q =>
    obtain ⟨old, new, code, hold, hnew, hbody, -, hruns⟩ :=
      expression_computes integers h sharingProgram_wellTyped (by decide)
    cases hold
    have hcode : new.body.toList = code := hbody
    simp only [h, hnew, Option.map_some, Option.some.injEq] at hlength
    have hroom : sharingProgram.nextId.toNat + code.length ≤ UInt32.size := by
      rw [← hcode, Array.length_toList, hlength]
      decide
    obtain ⟨value, m', hvalue, hrun, -, -, hid⟩ := hruns sixes hroom sixes_ready
    rw [sharingProgram_value] at hvalue
    cases hvalue
    exact ⟨id, q, new, m', rfl, hnew, hcode ▸ hrun, hid⟩

end Semantics

end Shading
