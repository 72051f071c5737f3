import Shading.Proofs.Binary.Typing
import Shading.Proofs.Emission

/-!
The translation of statements into instructions, as a relation between what is
written and what is emitted. It speaks of the types, constants and globals of
a program, but not of the order in which ids were taken or of how elaboration
went about it. Everything that is proved about the code of a procedure is
proved by induction on this relation.
-/

namespace Shading

open List

open Binary (Instruction results)

variable {scope : List Local} {x : Expr} {α β : Type} {kind : ScalarKind} {op : ScaleOperator}
  {result component : TypeRef} {scope' : List Local} {stmts : List Stmt}
  {returned scalarFirst : Bool} {procedures : List Procedure} {γ : Type} {place : Local}
  {xs : List α}

def Expr.variable? : Expr → Option Name
  | .var name => some name
  | .paren _ inner _ => inner.variable?
  | _ => none

theorem worksOn_sum (op : SumOperator) (h : kind ≠ .bool) :
    (Build.sumOpcode op kind.isFloat).worksOn kind = true := by
  cases op <;> cases kind <;> first | exact absurd rfl h | rfl

theorem worksOn_scale (h : kind ≠ .bool) (hop : ¬(op = .multiply ∧ kind.isFloat = true)) :
    (Build.scaleOpcode op (some kind)).worksOn kind = true := by
  cases op <;> cases kind <;>
    first | exact absurd rfl h | exact absurd ⟨rfl, rfl⟩ hop | rfl

namespace Program

variable {p q : Program} {kept : Region → Prop} {names : List Bytes} {vars code : List Instruction}

def Beside (scalarFirst : Bool) (scalar vector left right : Expr) : Prop :=
  match scalarFirst with
  | true => left = scalar ∧ right = vector
  | false => left = vector ∧ right = scalar

inductive Translates (p : Program) (scope : List Local) :
    Expr → TypeRef → List Instruction → UInt32 → Prop
  | var {name : Name} {place : Local} {typeId id : UInt32} :
      lookupIn scope name.text = some place → p.typeId place.type = .ok typeId →
      Translates p scope (.var name) place.type [⟨.load, [typeId, id, place.id]⟩] id
  | number {bits : UInt32} {pos : Position} {constant : Constant} :
      constant ∈ p.constants.toList → constant.bits = bits →
      Translates p scope (.number bits pos) f32Type [] constant.id
  | paren {pos : Position} {inner : Expr} {close : Part Position} {type : TypeRef}
      {code : List Instruction} {id : UInt32} :
      Translates p scope inner type code id →
      Translates p scope (.paren pos inner close) type code id
  | vector {pos : Position} {first : Expr} {rest : List Expr} {close : Part Position}
      {type component : TypeRef} {size typeId id : UInt32}
      {parts : List ((TypeRef × Nat) × (List Instruction × UInt32))} :
      p.shapeAt type = some (.vector component size) → p.typeId type = .ok typeId →
      (first :: rest).length = parts.length →
      (∀ pair ∈ (first :: rest).zip parts,
        Translates p scope pair.1 pair.2.1.1 pair.2.2.1 pair.2.2.2) →
      (∀ part ∈ parts, p.Width component part.1.1 part.1.2) →
      total (parts.map (·.1.2)) = size.toNat →
      Translates p scope (.vector pos first rest close) type
        (parts.flatMap (·.2.1) ++ [⟨.compositeConstruct, typeId :: id :: parts.map (·.2.2)⟩]) id
  | sum {op : SumOperator} {opPos : Position} {left right : Expr} {type : TypeRef}
      {kind : ScalarKind} {count : Nat} {typeId id l r : UInt32}
      {before after : List Instruction} :
      p.Components type kind count → kind ≠ .bool → p.typeId type = .ok typeId →
      Translates p scope left type before l → Translates p scope right type after r →
      Translates p scope (.sum op opPos left right) type
        (before ++ after ++ [⟨Build.sumOpcode op kind.isFloat, [typeId, id, l, r]⟩]) id
  | scaled {opPos : Position} {left right scalar vector : Expr} {scalarFirst : Bool}
      {type component : TypeRef} {size : UInt32} {kind : ScalarKind} {typeId id s v : UInt32}
      {before after : List Instruction} :
      Beside scalarFirst scalar vector left right →
      p.shapeAt type = some (.vector component size) →
      p.shapeAt component = some (.scalar kind) → kind.isFloat = true →
      p.typeId type = .ok typeId →
      Translates p scope scalar component before s → Translates p scope vector type after v →
      Translates p scope (.scale .multiply opPos left right) type
        (before ++ after ++ [⟨.vectorTimesScalar, [typeId, id, v, s]⟩]) id
  | spread {op : ScaleOperator} {opPos : Position} {left right scalar vector : Expr}
      {scalarFirst : Bool} {type component : TypeRef} {size : UInt32} {kind : ScalarKind}
      {typeId spread id s v : UInt32} {before after : List Instruction} :
      Beside scalarFirst scalar vector left right →
      p.shapeAt type = some (.vector component size) →
      p.shapeAt component = some (.scalar kind) → kind ≠ .bool →
      ¬(op = .multiply ∧ kind.isFloat = true) →
      p.typeId type = .ok typeId →
      Translates p scope scalar component before s → Translates p scope vector type after v →
      Translates p scope (.scale op opPos left right) type
        (before ++ after ++
          [⟨.compositeConstruct, typeId :: spread :: List.replicate size.toNat s⟩,
            ⟨Build.scaleOpcode op (some kind),
              typeId :: id :: if scalarFirst then [spread, v] else [v, spread]⟩]) id

inductive Lowered (p : Program) (result : TypeRef) :
    List Local → List Stmt → List Local → List Instruction → List Instruction → Bool → Prop
  | done {scope : List Local} : Lowered p result scope [] scope [] [] false
  | next {scope mid final : List Local} {stmt : Stmt} {rest : List Stmt}
      {vars vars' code code' : List Instruction} {returned : Bool} :
      Lowered p result scope [stmt] mid vars code false →
      Lowered p result mid rest final vars' code' returned →
      Lowered p result scope (stmt :: rest) final (vars ++ vars') (code ++ code') returned
  | declare {scope : List Local} {pos : Position} {name : Name} {written : TypeSyntax}
      {equal close : Part Position} {value : Expr} {type pointer : TypeRef}
      {pointerId place id : UInt32} {code : List Instruction} :
      p.IsValueType type → p.shapeAt pointer = some (.pointer type .function) →
      p.typeId pointer = .ok pointerId → p.Translates scope value type code id →
      Lowered p result scope [.declare pos (.ok name) written equal value close]
        (scope ++ [⟨name.text, type, pointer, place, none⟩])
        [⟨.var, [pointerId, place, Build.functionStorage]⟩]
        (code ++ [⟨.store, [place, id]⟩]) false
  | leave {scope : List Local} {pos close : Position} :
      result = voidType →
      Lowered p result scope [.leave pos close] scope [] [⟨.exit, []⟩] true
  | giveBack {scope : List Local} {pos : Position} {value : Expr} {close : Part Position}
      {code : List Instruction} {id : UInt32} :
      result ≠ voidType → p.Translates scope value result code id →
      Lowered p result scope [.giveBack pos value close] scope []
        (code ++ [⟨.exitValue, [id]⟩]) true
  | group {scope inner : List Local} {pos : Position} {body : List Stmt} {close : Part Position}
      {vars code : List Instruction} {returned : Bool} :
      Lowered p result scope body inner vars code returned →
      Lowered p result scope [.group pos body close] scope vars code returned
  | evaluate {scope : List Local} {value : Expr} {close : Part Position} {type : TypeRef}
      {code : List Instruction} {id : UInt32} :
      p.Translates scope value type code id →
      Lowered p result scope [.evaluate value close] scope [] code false
  | assign {scope : List Local} {target value : Expr} {opPos : Position} {close : Part Position}
      {name : Name} {place : Local} {code : List Instruction} {id : UInt32} :
      target.variable? = some name → lookupIn scope name.text = some place →
      (∀ ref, place.global = some ref →
        ∃ g, p.globals.get? ref = some g ∧ g.direction ≠ .input) →
      p.Translates scope value place.type code id →
      Lowered p result scope [.assign target opPos value close] scope []
        (code ++ [⟨.store, [place.id, id]⟩]) false

theorem Translates.mono (h : Extends kept names p q) {type : TypeRef} {code : List Instruction}
    {id : UInt32} (ht : p.Translates scope x type code id) : q.Translates scope x type code id := by
  induction ht with
  | var hlookup htype => exact .var hlookup (h.typeId htype)
  | number hconstant hbits => exact .number (h.constants.subset hconstant) hbits
  | paren _ ih => exact .paren ih
  | vector hshape htype hlength _ hwidth htotal ih =>
    exact .vector (h.shapeAt hshape) (h.typeId htype) hlength ih
      (fun part hpart => (hwidth part hpart).mono h) htotal
  | sum hcomponents hkind htype _ _ ihl ihr =>
    exact .sum (hcomponents.mono h) hkind (h.typeId htype) ihl ihr
  | scaled hbeside hshape hscalar hfloat htype _ _ ihs ihv =>
    exact .scaled hbeside (h.shapeAt hshape) (h.shapeAt hscalar) hfloat (h.typeId htype) ihs ihv
  | spread hbeside hshape hscalar hkind hop htype _ _ ihs ihv =>
    exact .spread hbeside (h.shapeAt hshape) (h.shapeAt hscalar) hkind hop (h.typeId htype) ihs ihv

theorem Lowered.mono (h : Extends kept names p q)
    (hl : p.Lowered result scope stmts scope' vars code returned) :
    q.Lowered result scope stmts scope' vars code returned := by
  induction hl with
  | done => exact .done
  | next _ _ ihstmt ihrest => exact .next ihstmt ihrest
  | declare hvalue hpointer hid htranslates =>
    exact .declare (hvalue.mono h) (h.shapeAt hpointer) (h.typeId hid) (htranslates.mono h)
  | leave hresult => exact .leave hresult
  | giveBack hresult htranslates => exact .giveBack hresult (htranslates.mono h)
  | group _ ih => exact .group ih
  | evaluate htranslates => exact .evaluate (htranslates.mono h)
  | assign htarget hlookup hinput htranslates =>
    refine .assign htarget hlookup ?_ (htranslates.mono h)
    intro ref href
    obtain ⟨g, hg, hdirection⟩ := hinput ref href
    exact ⟨g, h.global hg, hdirection⟩

theorem Lowered.scope_prefix_scope (hl : p.Lowered result scope stmts scope' vars code returned) :
    scope <+: scope' := by
  induction hl with
  | done => exact prefix_refl _
  | next _ _ ihstmt ihrest => exact ihstmt.trans ihrest
  | declare _ _ _ _ => exact prefix_append _ _
  | leave _ => exact prefix_refl _
  | giveBack _ _ => exact prefix_refl _
  | group _ _ => exact prefix_refl _
  | evaluate _ => exact prefix_refl _
  | assign _ _ _ _ => exact prefix_refl _

theorem Lowered.variables (hl : p.Lowered result scope stmts scope' vars code returned) :
    ∀ i ∈ vars, ∃ type id, i = ⟨.var, [type, id, Build.functionStorage]⟩ := by
  induction hl with
  | next _ _ ihstmt ihrest => exact forall_mem_append.mpr ⟨ihstmt, ihrest⟩
  | declare _ _ _ _ => exact forall_mem_singleton.mpr ⟨_, _, rfl⟩
  | group _ ih => exact ih
  | _ => exact fun _ hi => (not_mem_nil hi).elim

end Program

def Global.alias (g : Global) (ref : GlobalRef) : Local :=
  ⟨g.name, g.type, g.pointer, g.id, some ref⟩

/-- The scope in which nothing but some global variables is visible. -/
def aliases (globals : List Global) : List Local :=
  globals.zipIdx.map fun (g, ref) => g.alias ref

theorem aliases_concat (globals : List Global) (g : Global) :
    aliases (globals ++ [g]) = aliases globals ++ [g.alias globals.length] := by
  simp [aliases, zipIdx_append]

/-- A procedure as it is written: the global variables before it, its name, the type of its result
and its statements. -/
structure Routine where
  globals : List Bytes
  name : Bytes
  result : TypeSyntax
  body : List Stmt

/-- The procedures of items, behind some global variables. -/
def routines (globals : List Bytes) : List Item → List Routine
  | [] => []
  | .global _ _ (.ok name) _ _ :: rest => routines (globals ++ [name.text]) rest
  | .procedure _ (.ok name) result body _ :: rest =>
    ⟨globals, name.text, result, body⟩ :: routines globals rest
  | _ :: rest => routines globals rest

namespace Program

variable {p q : Program} {kept : Region → Prop} {names : List Bytes}

structure GlobalSound (p : Program) (g : Global) : Prop where
  value : p.IsValueType g.type
  pointer : p.shapeAt g.pointer = some (.pointer g.type g.direction.storageClass)

structure Compiled (p : Program) (scope : List Local) (body : List Stmt) (procedure : Procedure) :
    Prop where
  type : p.shapeAt procedure.type = some (.procedure procedure.result)
  result : procedure.result = voidType ∨ p.IsValueType procedure.result
  body : ∃ scope' code returned,
    p.Lowered procedure.result scope body scope' procedure.locals.toList code returned ∧
    procedure.body.toList = code ++ (if returned then [] else [⟨.exit, []⟩]) ∧
    (returned = false → procedure.result = voidType)

def Declared (p : Program) (before globals : List Global) (procedures : List Procedure) :
    Item → Prop
  | .global _ direction name _ _ => procedures = [] ∧ ∃ g found, globals = [g] ∧
      name = .ok found ∧ g.name = found.text ∧ g.direction = direction
  | .procedure _ name result body _ => globals = [] ∧ ∃ procedure found, procedures = [procedure] ∧
      name = .ok found ∧ procedure.name = found.text ∧
      (procedure.result = voidType ↔ result.isVoid = true) ∧
      p.Compiled (aliases before) body procedure
  | _ => globals = [] ∧ procedures = []

inductive DeclaredAll (p : Program) : List Global → List Item → List Global → List Procedure → Prop
  | done {before : List Global} : DeclaredAll p before [] [] []
  | next {before globals globals' : List Global} {item : Item} {rest : List Item}
      {procedures procedures' : List Procedure} :
      p.Declared before globals procedures item →
      DeclaredAll p (before ++ globals) rest globals' procedures' →
      DeclaredAll p before (item :: rest) (globals ++ globals') (procedures ++ procedures')

theorem GlobalSound.mono (h : Extends kept names p q) {g : Global} (hg : p.GlobalSound g) :
    q.GlobalSound g :=
  ⟨hg.value.mono h, h.shapeAt hg.pointer⟩

theorem Compiled.mono (h : Extends kept names p q) {body : List Stmt} {procedure : Procedure}
    (hc : p.Compiled scope body procedure) : q.Compiled scope body procedure := by
  obtain ⟨scope', code, returned, hlowered, hcode, hvoid⟩ := hc.body
  exact ⟨h.shapeAt hc.type, hc.result.imp_right (·.mono h), scope', code, returned,
    hlowered.mono h, hcode, hvoid⟩

theorem Declared.mono (h : Extends kept names p q) {before globals : List Global} {item : Item}
    (hd : p.Declared before globals procedures item) :
    q.Declared before globals procedures item := by
  cases item with
  | procedure pos name result body close =>
    obtain ⟨hglobals, procedure, found, hprocedures, hname, htext, hvoid, hcompiled⟩ := hd
    exact ⟨hglobals, procedure, found, hprocedures, hname, htext, hvoid, hcompiled.mono h⟩
  | global pos direction name type placement => exact hd
  | stage pos stage close => exact hd
  | builtin pos builtin close => exact hd
  | record pos name members close => exact hd

theorem DeclaredAll.routines {before globals all : List Global} {items : List Item}
    (h : p.DeclaredAll before items globals procedures) (hall : before ++ globals <+: all) :
    (Shading.routines (before.map (·.name)) items).length = procedures.length ∧
      ∀ pair ∈ (Shading.routines (before.map (·.name)) items).zip procedures,
        pair.1.name = pair.2.name ∧ (pair.2.result = voidType ↔ pair.1.result.isVoid = true) ∧
        ∃ visible, visible <+: all ∧ pair.1.globals = visible.map (·.name) ∧
          p.Compiled (aliases visible) pair.1.body pair.2 := by
  induction h with
  | done => exact ⟨rfl, nofun⟩
  | @next before globals globals' item rest procedures procedures' hitem _ ih =>
    rw [← append_assoc] at hall
    obtain ⟨hlength, hrest⟩ := ih hall
    cases item with
    | global pos direction name type placement =>
      obtain ⟨rfl, g, found, rfl, rfl, hname, -⟩ := hitem
      rw [map_append, map_singleton, hname] at hlength hrest
      exact ⟨hlength, hrest⟩
    | procedure pos name result body close =>
      obtain ⟨rfl, procedure, found, rfl, rfl, hname, hvoid, hcompiled⟩ := hitem
      rw [append_nil] at hlength hrest hall
      refine ⟨by simpa [Shading.routines] using hlength, ?_⟩
      intro pair hpair
      rcases mem_cons.mp hpair with rfl | hpair
      · exact ⟨hname.symm, hvoid, before, (prefix_append _ _).trans hall, rfl, hcompiled⟩
      · exact hrest pair hpair
    | _ =>
      obtain ⟨rfl, rfl⟩ := hitem
      rw [append_nil] at hlength hrest
      exact ⟨hlength, hrest⟩

end Program

/-- The entry points that items declare: a stage waits for the next procedure. -/
def stagedProcedures : Option Stage → List Item → List (Stage × Bytes)
  | _, [] => []
  | _, .stage _ stage _ :: rest => stagedProcedures (some stage) rest
  | some stage, .procedure _ (.ok name) _ _ _ :: rest =>
    (stage, name.text) :: stagedProcedures none rest
  | none, .procedure _ _ _ _ _ :: rest => stagedProcedures none rest
  | waiting, _ :: rest => stagedProcedures waiting rest

theorem mem_zip_zip {as : List β} {bs : List γ} {x : α} {a : β} {b : γ}
    (h : (x, (a, b)) ∈ xs.zip (as.zip bs)) : (x, a) ∈ xs.zip as ∧ (x, b) ∈ xs.zip bs := by
  induction xs generalizing as bs with
  | nil => simp at h
  | cons y ys ih =>
    cases as with
    | nil => simp at h
    | cons c cs =>
      cases bs with
      | nil => simp at h
      | cons d ds =>
        simp only [zip_cons_cons, mem_cons, Prod.mk.injEq] at h ⊢
        rcases h with ⟨rfl, rfl, rfl⟩ | h
        · exact ⟨.inl ⟨rfl, rfl⟩, .inl ⟨rfl, rfl⟩⟩
        · exact ⟨.inr (ih h).1, .inr (ih h).2⟩

theorem mem_zip_of_mem_right {ys : List β} {y : β} (hlength : xs.length = ys.length) (hy : y ∈ ys) :
    ∃ x, (x, y) ∈ xs.zip ys := by
  rw [← map_snd_zip (Nat.le_of_eq hlength.symm)] at hy
  obtain ⟨⟨x, found⟩, hmem, rfl⟩ := mem_map.mp hy
  exact ⟨x, hmem⟩

theorem mem_zip_of_zip {es : List β} {ps : List γ} {x : α} {c : γ} (hlength : xs.length = es.length)
    (h : (x, c) ∈ xs.zip ps) :
    ∃ e, (x, e) ∈ xs.zip es ∧ (e, c) ∈ es.zip ps := by
  induction xs generalizing es ps with
  | nil => simp at h
  | cons y ys ih =>
    cases es with
    | nil => simp at hlength
    | cons e es =>
      cases ps with
      | nil => simp at h
      | cons d ds =>
        simp only [zip_cons_cons, mem_cons, Prod.mk.injEq] at h ⊢
        rcases h with ⟨rfl, rfl⟩ | h
        · exact ⟨e, .inl ⟨rfl, rfl⟩, .inl ⟨rfl, rfl⟩⟩
        · obtain ⟨e', hx, he⟩ := ih (by simpa using hlength) h
          exact ⟨e', .inr hx, .inr he⟩

namespace Program

variable {p : Program} {places : Local → Prop} {e : ExprRef} {type found : TypeRef}
  {code : List Instruction} {id : UInt32}

theorem Typed.loaded (hentry : p.expressions.get? e = some ⟨.load place, found⟩)
    (ht : p.Typed places e type) : type = place.type := by
  cases ht with
  | load h _ =>
    rw [hentry] at h
    cases h
    rfl
  | _ => simp_all

theorem Typed.elements {elements : List ExprRef}
    (hentry : p.expressions.get? e = some ⟨.vector elements, found⟩)
    (ht : p.Typed places e type) :
    found = type ∧ ∃ component size, ∃ parts : List (TypeRef × Nat),
      p.shapeAt type = some (.vector component size) ∧ elements.length = parts.length ∧
      (∀ pair ∈ elements.zip parts, p.Typed places pair.1 pair.2.1) ∧
      (∀ part ∈ parts, p.Width component part.1 part.2) ∧
      UInt32.ofNat (total (parts.map (·.2))) = size := by
  cases ht with
  | vector h hshape hlength hparts hwidth htotal =>
    rw [hentry] at h
    cases h
    exact ⟨rfl, _, _, _, hshape, hlength, hparts, hwidth, htotal⟩
  | _ => simp_all

theorem Typed.summands {op : SumOperator} {l r : ExprRef}
    (hentry : p.expressions.get? e = some ⟨.sum op l r, found⟩) (ht : p.Typed places e type) :
    found = type ∧ p.Typed places l type ∧ p.Typed places r type ∧
      ∃ kind count, p.Components type kind count ∧ kind ≠ .bool := by
  cases ht with
  | sum h hcomponents hkind hl hr =>
    rw [hentry] at h
    cases h
    exact ⟨rfl, hl, hr, _, _, hcomponents, hkind⟩
  | _ => simp_all

theorem Typed.factors {scalar vector : ExprRef}
    (hentry : p.expressions.get? e = some ⟨.scale op scalar vector scalarFirst, found⟩)
    (ht : p.Typed places e type) :
    found = type ∧ ∃ component size kind, p.shapeAt type = some (.vector component size) ∧
      p.shapeAt component = some (.scalar kind) ∧ kind ≠ .bool ∧
      p.Typed places scalar component ∧ p.Typed places vector type := by
  cases ht with
  | scale h hshape hscalar hkind hs hv =>
    rw [hentry] at h
    cases h
    exact ⟨rfl, _, _, _, hshape, hscalar, hkind, hs, hv⟩
  | _ => simp_all

theorem translates_scale {opPos : Position} {left right scalar vector : Expr} {s v : ExprRef}
    (hbeside : Beside scalarFirst scalar vector left right)
    (hentry : p.expressions.get? e = some ⟨.scale op s v scalarFirst, found⟩)
    (ht : p.Typed places e type) (hc : p.Computes e code id)
    (hs : ∀ {type code id}, p.Typed places s type → p.Computes s code id →
      p.Translates scope scalar type code id)
    (hv : ∀ {type code id}, p.Typed places v type → p.Computes v code id →
      p.Translates scope vector type code id) :
    p.Translates scope (.scale op opPos left right) type code id := by
  obtain ⟨rfl, component, size, kind, hshape, hscalar, hkind, hts, htv⟩ := ht.factors hentry
  have hcomponent : p.componentKind? found = .ok (some kind) :=
    componentKind?_some.mpr ⟨_, .inr ⟨component, size, hshape, hscalar, rfl⟩⟩
  cases hc with
  | scaled h hcs hcv hfound htypeId hop hfloat =>
    rw [hentry] at h
    cases h
    rw [hcomponent] at hfound
    cases hfound
    subst hop
    exact .scaled hbeside hshape hscalar hfloat htypeId (hs hts hcs) (hv htv hcv)
  | spread h hcs hcv hfound hvector htypeId hop =>
    rw [hentry] at h
    cases h
    rw [hcomponent] at hfound
    cases hfound
    rw [vector?_some.mpr hshape] at hvector
    cases hvector
    exact .spread hbeside hshape hscalar hkind hop htypeId (hs hts hcs) (hv htv hcv)
  | _ => simp_all

theorem total_le_four {counts : List Nat} (h : ∀ count ∈ counts, count ≤ 4) :
    total counts ≤ 4 * counts.length := by
  induction counts with
  | nil => exact Nat.le_refl _
  | cons count rest ih =>
    have hfirst := h count mem_cons_self
    have hrest := ih fun other hother => h other (mem_cons_of_mem _ hother)
    rw [total_cons, length_cons]
    omega

theorem Width.le_four (hp : p.Sound) {count : Nat} (h : p.Width component type count) :
    count ≤ 4 := by
  rcases h with ⟨-, rfl⟩ | ⟨size, hshape, rfl⟩
  · decide
  · obtain ⟨-, -, hsize⟩ := hp.shape hshape
    rcases hsize with rfl | rfl | rfl <;> decide

theorem total_eq_size (hp : p.Sound) {size : UInt32} {parts : List (TypeRef × Nat)}
    (hwidth : ∀ part ∈ parts, p.Width component part.1 part.2)
    (hcount : UInt32.ofNat (total (parts.map (·.2))) = size)
    (hshort : 4 * parts.length < UInt32.size) : total (parts.map (·.2)) = size.toNat := by
  have hle : total (parts.map (·.2)) ≤ 4 * (parts.map (·.2)).length := by
    refine total_le_four fun count hcount => ?_
    obtain ⟨part, hpart, rfl⟩ := mem_map.mp hcount
    exact (hwidth part hpart).le_four hp
  have hfits : total (parts.map (·.2)) < UInt32.size := by
    rw [length_map] at hle
    omega
  rw [← hcount]
  exact (UInt32.toNat_ofNat_of_lt' hfits).symm

theorem Represents.translates (hp : p.Sound) (hr : p.Represents scope x e)
    (ht : p.Typed places e type) (hc : p.Computes e code id) :
    p.Translates scope x type code id := by
  induction hr generalizing type code id with
  | var hlookup hentry =>
    cases hc with
    | load h htypeId =>
      rw [hentry] at h
      cases h
      obtain ⟨kind, hkind⟩ := ht.entry
      rw [hentry] at hkind
      cases hkind
      exact .var hlookup htypeId
    | _ => simp_all
  | number hentry hconstant hbits =>
    cases hc with
    | constant h hfound =>
      rw [hentry] at h
      cases h
      rw [hconstant] at hfound
      cases hfound
      obtain ⟨kind, hkind⟩ := ht.entry
      rw [hentry] at hkind
      cases hkind
      exact .number (Arena.mem_of_get? hconstant) hbits
    | _ => simp_all
  | paren _ ih => exact .paren (ih ht hc)
  | vector hentry hlength _ ih =>
    obtain ⟨rfl, component, size, widths, hshape, hwidths, htyped, hwidth, hcount⟩ :=
      ht.elements hentry
    cases hc with
    | @vector _ _ _ _ _ codes h hcodes hcomputes htypeId hshort =>
      rw [hentry] at h
      cases h
      -- Components are counted in 32 bits, which the words of one instruction do not exceed.
      have hmax : 4 * Binary.maxInstructionWords < UInt32.size := by decide
      have htotal := total_eq_size hp hwidth hcount (by omega)
      have hboth : widths.length = codes.length := hwidths.symm.trans hcodes
      have htypes : (widths.zip codes).map Prod.fst = widths :=
        map_fst_zip (Nat.le_of_eq hboth)
      have hinstructions : (widths.zip codes).map Prod.snd = codes :=
        map_snd_zip (Nat.le_of_eq hboth.symm)
      have hflat : codes.flatMap (·.1) = (widths.zip codes).flatMap (·.2.1) := by
        rw [← hinstructions, flatMap_map, hinstructions]
      have hids : codes.map (·.2) = (widths.zip codes).map (·.2.2) := by
        rw [← hinstructions, map_map, hinstructions]
        rfl
      rw [hflat, hids]
      refine .vector hshape htypeId ?_ ?_ ?_ ?_
      · rw [length_zip, ← hboth, Nat.min_self]
        exact hlength.trans hwidths
      · rintro ⟨x, width, code⟩ hpair
        obtain ⟨e, hx, he⟩ := mem_zip_of_zip hlength hpair
        obtain ⟨hewidth, hecode⟩ := mem_zip_zip he
        exact ih _ hx (htyped _ hewidth) (hcomputes _ hecode)
      · intro part hpart
        exact hwidth part.1 (htypes ▸ mem_map_of_mem hpart)
      · rw [← htotal, ← htypes, map_map, htypes]
        rfl
    | _ => simp_all
  | sum hentry _ _ ihl ihr =>
    obtain ⟨rfl, htl, htr, kind, count, hcomponents, hkind⟩ := ht.summands hentry
    cases hc with
    | sum h hcl hcr hfound htypeId =>
      rw [hentry] at h
      cases h
      rw [componentKind?_some.mpr ⟨count, hcomponents⟩] at hfound
      cases hfound
      exact .sum hcomponents hkind htypeId (ihl htl hcl) (ihr htr hcr)
    | _ => simp_all
  | scalarLast hentry _ _ ihl ihr =>
    exact translates_scale (show Beside false _ _ _ _ from ⟨rfl, rfl⟩) hentry ht hc ihr ihl
  | scalarFirst hentry _ _ ihl ihr =>
    exact translates_scale (show Beside true _ _ _ _ from ⟨rfl, rfl⟩) hentry ht hc ihl ihr

theorem Represents.variable (hr : p.Represents scope x e)
    (hentry : p.expressions.get? e = some ⟨.load place, type⟩) :
    ∃ name, x.variable? = some name ∧ lookupIn scope name.text = some place := by
  induction hr with
  | var hlookup h =>
    rw [hentry] at h
    cases h
    exact ⟨_, rfl, hlookup⟩
  | paren _ ih => exact ih hentry
  | _ => simp_all

end Program

end Shading
