import Shading.Proofs.Elaboration.Items
import Shading.Proofs.Renaming.Reading
import Shading.Proofs.Renaming.Walking

/-!
One walk over the elaboration. `Walk` relates an elaboration to the elaboration
of the same syntax under other names: it has a case for every primitive
operation, and it says what the operation adds to the gauge of a program. Every
function is walked once here. What is true of whole elaborations is then shown
of the primitive operations only.
-/

namespace Shading

namespace Gauge

def addElements (n : Nat) (g : Gauge) : Gauge := { g with elements := g.elements + n }

def addMembers (n : Nat) (g : Gauge) : Gauge := { g with members := g.members + n }

def declare (g : Gauge) : Gauge :=
  { g with live := g.live + 1, peakLive := max g.peakLive (g.live + 1) }

def openScope (g : Gauge) : Gauge :=
  { g with marks := g.live :: g.marks, peakDepth := max g.peakDepth (g.marks.length + 1) }

def closeScope (g : Gauge) : Gauge :=
  match g.marks with
  | [] => g
  | mark :: marks => { g with live := mark, marks }

end Gauge

mutual

def Expr.gauge : Expr → Gauge → Gauge
  | .missing _, g => g
  | .stopped operand _, g => operand.gauge g
  | .var _, g => g.express
  | .number _ _, g => g.express
  | .paren _ inner _, g => inner.gauge g
  | .sum _ _ left right, g => (right.gauge (left.gauge g)).express
  | .scale _ _ left right, g => (right.gauge (left.gauge g)).express
  | .vector _ first rest _, g =>
    ((elementsGauge rest (first.gauge g)).addElements (rest.length + 1)).express

def elementsGauge : List Expr → Gauge → Gauge
  | [], g => g
  | x :: rest, g => elementsGauge rest (x.gauge g)

end

mutual

def Stmt.gauge : Stmt → Gauge → Gauge
  | .declare _ _ _ _ value _, g => (value.gauge g).declare
  | .leave _ _, g => g
  | .giveBack _ value _, g => value.gauge g
  | .group _ body _, g => (blockGauge body g.openScope).closeScope
  | .evaluate value _, g => value.gauge g
  | .assign target _ value _, g => value.gauge (target.gauge g)

def blockGauge : List Stmt → Gauge → Gauge
  | [], g => g
  | stmt :: rest, g => blockGauge rest (stmt.gauge g)

end

def Item.gauge : Item → Gauge → Gauge
  | .stage _ _ _, g => g
  | .builtin _ _ _, g => g
  | .global _ _ _ _ _, g => g.declare
  | .record _ _ members _, g => g.addMembers members.length
  | .procedure _ _ _ body _, g => (blockGauge body g.procedure.openScope.label).closeScope

def itemsGauge : List Item → Gauge → Gauge
  | [], g => g
  | item :: rest, g => itemsGauge rest (item.gauge g)

structure Elaboration.Shows (s : Elaboration) (g : Gauge) : Prop where
  program : s.program.Shows g
  elements : s.vectorElements = g.elements
  members : s.recordMembers = g.members
  live : s.scopes.locals.size = g.live
  marks : s.scopes.marks = g.marks

open Renaming Elaborate

open Position (nowhere)

variable {pos pos' : Position}

namespace Renaming

variable {ρ : Renaming}

theorem cause_keeps (h : ρ.Keeps) (c : Cause) : ρ.cause c = c := by
  cases c with
  | unknownAttribute name => exact congrArg _ (h name)
  | unknownStage name => exact congrArg _ (h name)
  | unknownBuiltin name => exact congrArg _ (h name)
  | _ => rfl

theorem program_keeps (h : ρ.Keeps) (p : Program) : ρ.program p = p := by
  have hfield : ρ.field = id := by
    funext m
    rw [field, h]
    rfl
  have htype : ρ.typeEntry = id := by
    funext t
    obtain ⟨name, id, shape⟩ := t
    rw [typeEntry, h]
    cases shape with
    | record members =>
      rw [shape, hfield, List.map_id]
      rfl
    | _ => rfl
  have hglobal : ρ.global = id := by
    funext g
    rw [global, h]
    rfl
  have hexpression : ρ.exprEntry = id := by
    funext e
    obtain ⟨kind, type⟩ := e
    cases kind with
    | load place =>
      rw [exprEntry, exprKind, binding, h]
      rfl
    | _ => rfl
  have hprocedure : ρ.procedure = id := by
    funext a
    rw [procedure, h]
    rfl
  have hentry : ρ.entryPoint = id := by
    funext e
    rw [entryPoint, h]
    rfl
  rw [program, htype, hglobal, hexpression, hprocedure, hentry]
  simp only [Arena.map_id]

theorem lookup (s : Scopes) (text : Bytes) :
    (ρ.scopes s).lookup (ρ.word text) = (s.lookup text).map ρ.binding := by
  have hsame : (fun place : Local => decide (place.name = ρ.word text)) ∘ ρ.binding =
      fun place => decide (place.name = text) := by
    funext place
    exact decide_eq_decide.mpr ρ.word_inj
  rw [Scopes.lookup, scopes, Arena.toList_map, ← List.map_reverse, List.find?_map, hsame]
  rfl

theorem contains_word (names : List Bytes) (text : Bytes) :
    (names.map ρ.word).contains (ρ.word text) = true ↔ names.contains text = true := by
  simp only [List.contains_iff_mem, List.mem_map, ρ.word_inj, exists_eq_right]

theorem isReservedType_word (text : Bytes) :
    isReservedType (ρ.word text) = isReservedType text := by
  have hvoid : (ρ.word text == Text.utf8 "void") = (text == Text.utf8 "void") := by
    rw [Bool.eq_iff_iff, beq_iff_eq, beq_iff_eq, ρ.word_reserved (by simp [reservedWords])]
  rw [isReservedType, isReservedType, hvoid, ρ.ofName?_word]

theorem any_type (p : Program) (text : Bytes) :
    ((ρ.program p).types.items.any fun t => t.name = ρ.word text) =
      p.types.items.any fun t => t.name = text := by
  refine Array.any_map.trans ?_
  congr 1
  funext t
  exact decide_eq_decide.mpr ρ.word_inj

theorem any_procedure (p : Program) (text : Bytes) :
    ((ρ.program p).procedures.items.any fun a => a.name = ρ.word text) =
      p.procedures.items.any fun a => a.name = text := by
  refine Array.any_map.trans ?_
  congr 1
  funext a
  exact decide_eq_decide.mpr ρ.word_inj

theorem any_field (members : List Member) (text : Bytes) :
    ((members.map ρ.field).any fun m => m.name = ρ.word text) =
      members.any fun m => m.name = text := by
  rw [List.any_map]
  congr 1
  funext m
  exact decide_eq_decide.mpr ρ.word_inj

end Renaming

inductive Stop.Alike (ρ : Renaming) : Stop → Stop → Prop
  | refused {d d' : Diagnostic} (h : ρ.Keeps → d'.cause = d.cause) :
    Alike ρ (.refused d) (.refused d')
  | fault (f : Fault) : Alike ρ (.fault f) (.fault f)

namespace Build

variable {α β : Type}

def ByCalls (x : Build α) : Prop := ∀ p a q, x p = .ok a q → p.Reaches q

namespace ByCalls

theorem of_call (call : Call) : ByCalls call.run := fun _ _ _ h => .of_call call h

theorem of_discard {x : Build α} (call : Call) (h : call.run = discard x) : ByCalls x := by
  intro p a q hx
  refine .of_call call (u := ()) ?_
  rw [h]
  exact discard_ok.mpr ⟨a, hx⟩

protected theorem pure {a : α} : ByCalls (pure a) := by
  intro p b q h
  obtain ⟨-, rfl⟩ := pure_ok.mp h
  exact .refl p

protected theorem bind {x : Build β} {f : β → Build α} (hx : ByCalls x)
    (hf : ∀ b, ByCalls (f b)) : ByCalls (x >>= f) := by
  intro p a q h
  obtain ⟨b, r, hfirst, hrest⟩ := bind_ok.mp h
  exact (hx p b r hfirst).trans (hf b r a q hrest)

end ByCalls

/-- What is known of an operation and of its twin under other names: it is made of calls, it demands
the same under all limits, and the twin does to a renamed program what it does to the program. -/
structure Known (ρ : Renaming) (effect : Gauge → Gauge) {α β : Type} (f : α → β) (x : Build α)
    (y : Build β) : Prop where
  calls : x.ByCalls
  uniform : Uniform 0 effect x
  mirrors : x.Mirrors ρ f y

namespace Known

variable {α' β' : Type} {ρ : Renaming} {effect : Gauge → Gauge} {f : α → β} {g : α' → β'}
  {ref : ProcedureRef}

theorem of_walk {x : Build α} {y : Build β} (hx : x.ByCalls) (h : Walk ρ 0 effect f x y) :
    Known ρ effect f x y := ⟨hx, h.uniform, h.mirrors⟩

protected theorem pure {a : α} {b : β} (h : b = f a) : Known ρ id f (pure a) (pure b) :=
  .of_walk .pure (.pure h)

theorem quiet_bind {x : Build α} {y : Build β} {k : α → Build α'} {l : β → Build β'}
    (hx : Known ρ id f x y) (hk : ∀ a, Known ρ effect g (k a) (l (f a))) :
    Known ρ effect g (x >>= k) (y >>= l) :=
  ⟨hx.calls.bind fun a => (hk a).calls, hx.uniform.bind fun a => (hk a).uniform,
    hx.mirrors.bind fun a => (hk a).mirrors⟩

theorem namedType (name : Bytes) : Known ρ id id (namedType name) (namedType (ρ.word name)) :=
  .of_walk (.of_discard (.namedType name) rfl) (.namedType name)

theorem vectorType (component : TypeRef) (size : UInt32) :
    Known ρ id id (vectorType component size) (vectorType component size) :=
  .of_walk (.of_discard (.vectorType component size) rfl) (.typeOfShape fun _ h => nomatch h)

theorem pointerType (base : TypeRef) (storage : StorageClass) :
    Known ρ id id (pointerType base storage) (pointerType base storage) :=
  .of_walk (.of_discard (.pointerType base storage) rfl) (.typeOfShape fun _ h => nomatch h)

theorem addExpression (kind : ExprKind) (type : TypeRef) : Known ρ Gauge.express id
    (addExpression kind type) (addExpression (ρ.exprKind kind) type) :=
  .of_walk (.of_discard (.addExpression kind type) rfl) (.addExpression kind type)

theorem floatConstant (bits : UInt32) : Known ρ id id (floatConstant bits) (floatConstant bits) :=
  .of_walk (.of_discard (.floatConstant bits) rfl) (.floatConstant bits)

theorem declareVariable (pointer : TypeRef) :
    Known ρ id id (declareVariable ref pointer) (declareVariable ref pointer) :=
  .of_walk (.of_discard (.declareVariable ref pointer) rfl) (.declareVariable pointer)

theorem expression (e : ExprRef) : Known ρ id id (expression ref e) (expression ref e) :=
  .of_walk (.of_discard (.expression ref e) rfl) (.expression e)

theorem registerInterface (place : Local) :
    Known ρ id id (registerInterface ref place) (registerInterface ref (ρ.binding place)) :=
  .of_walk (.of_call (.registerInterface ref place)) (.registerInterface place)

theorem store (pointer value : UInt32) :
    Known ρ id id (store ref pointer value) (store ref pointer value) :=
  .of_walk (.of_call (.store ref pointer value)) (.store pointer value)

theorem markReturned : Known ρ id id (modifyProcedure ref fun p => { p with returned := true })
    (modifyProcedure ref fun p => { p with returned := true }) :=
  .of_walk (.of_call (.markReturned ref))
    (.modifyProcedure ref (fun _ => ⟨rfl, rfl, rfl⟩) fun _ => rfl)

theorem exit : Known ρ id id (exit ref) (exit ref) := .of_walk (.of_call (.exit ref)) .exit

theorem exitValue (value : UInt32) : Known ρ id id (exitValue ref value) (exitValue ref value) :=
  .of_walk (.of_call (.exitValue ref value)) (.exitValue value)

theorem addGlobal (direction : Direction) : Known ρ id id
    (addGlobal ⟨[], direction, none, .absent, voidType, voidType, 0⟩)
    (addGlobal ⟨[], direction, none, .absent, voidType, voidType, 0⟩) := by
  have hadd : Walk ρ 0 id id _ _ :=
    .addGlobal ⟨[], direction, none, .absent, voidType, voidType, 0⟩
  rw [Renaming.global, ρ.nameless] at hadd
  exact .of_walk (.of_discard (.addGlobal _) rfl) hadd

theorem setGlobal (ref : GlobalRef) (g : Global) : Known ρ id id
    (modifyGlobal ref fun _ => g) (modifyGlobal ref fun _ => ρ.global g) :=
  .of_walk (.of_call (.setGlobal ref g)) (.modifyGlobal ref fun _ => rfl)

theorem recordType (name : Bytes) (members : List Member) : Known ρ id id
    (addType name (.record members)) (addType (ρ.word name) (.record (members.map ρ.field))) :=
  .of_walk (.of_discard (.recordType name members) rfl) (.addType name (.record members))

theorem addProcedure (name : Bytes) (result : TypeRef) : Known ρ Gauge.procedure id
    (addProcedure name result) (addProcedure (ρ.word name) result) :=
  .of_walk (.of_discard (.addProcedure name result) rfl) (.addProcedure name result)

theorem openBlock : Known ρ Gauge.label id (openBlock ref) (openBlock ref) := by
  have hfirst : Walk ρ 0 id id (discard (procedure ref)) (discard (procedure ref)) :=
    .discard (.view (fun _ _ => rfl) fun p => ρ.procedureAt p ref)
  have hlast : Walk ρ 0 id id (freshId >>= fun label => modifyProcedure ref ({ · with label }))
      (freshId >>= fun label => modifyProcedure ref ({ · with label })) :=
    .quiet_bind .freshId fun _ => .modifyProcedure ref (fun _ => ⟨rfl, rfl, rfl⟩) fun _ => rfl
  exact ⟨.of_call (.openBlock ref),
    hfirst.uniform.bind fun _ => Uniform.reserve_label.bind fun _ => hlast.uniform,
    hfirst.mirrors.bind fun _ => (Mirrors.reserve 2).bind fun _ => hlast.mirrors⟩

theorem addEntryPoint (entry : EntryPoint) : Known ρ id id
    (addEntryPoint entry) (addEntryPoint (ρ.entryPoint entry)) :=
  .of_walk (.of_discard (.addEntryPoint entry) rfl) (.addEntryPoint entry)

end Known

end Build

namespace Elaborate

/-- Counting into a pool of which the elaboration keeps the number itself. -/
structure Counts (ρ : Renaming) (pool : Pool) (effect : Gauge → Gauge) (n : Elaboration → Nat)
    (put : Elaboration → Elaboration) : Prop where
  notWords : pool ≠ .words
  under : ∀ (s : Elaboration) limits, n (s.under limits) = n s ∧
    put (s.under limits) = (put s).under limits
  renamed : ∀ s, n (ρ.elaboration s) = n s ∧ put (ρ.elaboration s) = ρ.elaboration (put s)
  program : ∀ s, (put s).program = s.program
  shows : ∀ s g, s.Shows g → (put s).Shows (effect g)
  count : ∀ s g, s.Shows g →
    s.program.count (effect g) pool = max (s.program.count g pool) (n s)
  other : ∀ (s : Elaboration) g other, pool ≠ other →
    s.program.count (effect g) other = s.program.count g other

/-- An elaboration and its twin under other names, of which the results are related by a function.
The first one changes the gauge of a program as told. -/
inductive Walk (ρ : Renaming) : {α β : Type} → (Gauge → Gauge) → (α → β) → Elaborate α →
    Elaborate β → Prop
  | pure {α β : Type} {f : α → β} {a : α} {b : β} (h : b = f a) : Walk ρ id f (pure a) (pure b)
  | bind {α β α' β' : Type} {effect effect' : Gauge → Gauge} {f : α → β} {g : α' → β'}
      {x : Elaborate α} {y : Elaborate β} {k : α → Elaborate α'} {l : β → Elaborate β'}
      (hx : Walk ρ effect f x y) (hk : ∀ a, Walk ρ effect' g (k a) (l (f a))) :
      Walk ρ (effect' ∘ effect) g (x >>= k) (y >>= l)
  | stop {α β : Type} {effect : Gauge → Gauge} {f : α → β} {x : Elaborate α} {y : Elaborate β}
      {stop stop' : Stop} (hx : ∀ s, x s = .error stop) (hy : ∀ s, y s = .error stop')
      (h : stop.Alike ρ stop') : Walk ρ effect f x y
  | read {α β : Type} {effect : Gauge → Gauge} {f : α → β} {k : Elaboration → Elaborate α}
      {l : Elaboration → Elaborate β} (hunder : ∀ s limits, k (s.under limits) = k s)
      (h : ∀ s, Walk ρ effect f (k s) (l (ρ.elaboration s))) :
      Walk ρ effect f (get >>= k) (get >>= l)
  | wait {change change' : Elaboration → Elaboration}
      (hunder : ∀ s limits, change (s.under limits) = (change s).under limits)
      (hrenamed : ∀ s, change' (ρ.elaboration s) = ρ.elaboration (change s))
      (hprogram : ∀ s, (change s).program = s.program)
      (hshows : ∀ s g, s.Shows g → (change s).Shows g) :
      Walk ρ id id (modify change) (modify change')
  | count {α β : Type} {pool : Pool} {effect effect' : Gauge → Gauge} {n : Elaboration → Nat}
      {put : Elaboration → Elaboration} {f : α → β} {x : Elaborate α} {y : Elaborate β}
      {k : Elaboration → Unit → Elaborate α} {l : Elaboration → Unit → Elaborate β}
      (hcounts : Counts ρ pool effect n put) (pos pos' : Position) (hx : Walk ρ effect' f x y) :
      Walk ρ (effect' ∘ effect) f
        (do
          let state ← get
          if fits (n state) (state.program.limits.of pool) then do
            set (put state)
            x
          else do
            let r ← refuse pos (.limit ⟨pool, state.program.limits.of pool⟩)
            k state r)
        (do
          let state ← get
          if fits (n state) (state.program.limits.of pool) then do
            set (put state)
            y
          else do
            let r ← refuse pos' (.limit ⟨pool, state.program.limits.of pool⟩)
            l state r)
  | build {α β : Type} {pos pos' : Position} {effect : Gauge → Gauge} {f : α → β}
      {operation : Build α} {operation' : Build β} (h : operation.Known ρ effect f operation')
      (hkeeps : ∀ g, (effect g).elements = g.elements ∧ (effect g).members = g.members ∧
        (effect g).live = g.live ∧ (effect g).marks = g.marks := by
          exact fun _ => ⟨rfl, rfl, rfl, rfl⟩) :
      Walk ρ effect f (build pos operation) (build pos' operation')
  | add {pos pos' : Position} (place : Local) : Walk ρ Gauge.declare id
      (scope pos (·.add place)) (scope pos' (·.add (ρ.binding place)))
  | push {pos pos' : Position} :
      Walk ρ Gauge.openScope id (scope pos (·.push)) (scope pos' (·.push))
  | pop {pos pos' : Position} : Walk ρ Gauge.closeScope id (scope pos (·.pop)) (scope pos' (·.pop))

namespace Walk

variable {α β α' β' : Type} {ρ : Renaming} {effect : Gauge → Gauge} {f : α → β} {g : α' → β'}
  {k : α → Elaborate α'} {y : Elaborate β} {x : Elaborate α} {read : Program → Except Fault α}
  {cause : Cause}

theorem quiet_bind {l : β → Elaborate β'} (hx : Walk ρ id f x y)
    (hk : ∀ a, Walk ρ effect g (k a) (l (f a))) :
    Walk ρ effect g (x >>= k) (y >>= l) := hx.bind hk

theorem bind_quiet {l : β → Elaborate β'} (hx : Walk ρ effect f x y)
    (hk : ∀ a, Walk ρ id g (k a) (l (f a))) :
    Walk ρ effect g (x >>= k) (y >>= l) := hx.bind hk

theorem bind_same {x y : Elaborate α} {l : α → Elaborate β'} {effect' : Gauge → Gauge}
    (hx : Walk ρ effect id x y) (hk : ∀ a, Walk ρ effect' g (k a) (l a)) :
    Walk ρ (effect' ∘ effect) g (x >>= k) (y >>= l) := hx.bind hk

theorem discard (hx : Walk ρ effect f x y) :
    Walk ρ effect id (discard x) (discard y) := by
  rw [discard_eq, discard_eq]
  exact .bind_quiet hx fun _ => .pure rfl

theorem refuse {cause cause' : Cause} (h : ρ.Keeps → cause' = cause) :
    Walk ρ effect f (refuse pos cause) (refuse pos' cause') :=
  .stop (fun _ => rfl) (fun _ => rfl) (.refused h)

theorem refuse_bind {cause cause' : Cause} {k : α' → Elaborate α} {l : β' → Elaborate β}
    (h : ρ.Keeps → cause' = cause) :
    Walk ρ effect f (Elaborate.refuse pos cause >>= k) (Elaborate.refuse pos' cause' >>= l) :=
  .stop (fun _ => rfl) (fun _ => rfl) (.refused h)

theorem throw {why : Diagnostic} :
    Walk ρ effect f (throw (.refused why)) (throw (.refused (ρ.diagnostic why))) :=
  .stop (fun _ => rfl) (fun _ => rfl) (.refused fun h => cause_keeps h why.cause)

protected theorem ite {c c' : Prop} [Decidable c] [Decidable c'] {x z : Elaborate α}
    {y w : Elaborate β} (hc : c' ↔ c) (hx : Walk ρ effect f x y) (hz : Walk ρ effect f z w) :
    Walk ρ effect f (if c then x else z) (if c' then y else w) := by
  by_cases h : c
  · rw [if_pos h, if_pos (hc.mpr h)]
    exact hx
  · rw [if_neg h, if_neg (mt hc.mp h)]
    exact hz

theorem part {x : Part α} : Walk ρ id f (part x) (part (ρ.part f x)) := by
  cases x with
  | ok a => exact .pure rfl
  | error why => exact .throw

theorem view {read' : Program → Except Fault β}
    (hunder : ∀ p limits, read (p.under limits) = read p)
    (h : ∀ p, read' (ρ.program p) = (read p).map f) : Walk ρ id f (view read) (view read') := by
  refine .read (fun s limits => ?_) fun s => ?_
  · have hread : read (s.under limits).program = read s.program := hunder s.program limits
    simp only [hread]
  · have hread : read' (ρ.elaboration s).program = (read s.program).map f := h s.program
    rw [hread]
    cases read s.program with
    | ok a => exact .pure rfl
    | error e => exact .stop (fun _ => rfl) (fun _ => rfl) (.fault e)

theorem view_same (hunder : ∀ p limits, read (p.under limits) = read p)
    (h : ∀ p, read (ρ.program p) = read p) :
    Walk ρ id id (Elaborate.view read) (Elaborate.view read) := by
  refine .view hunder fun p => ?_
  rw [h]
  cases read p <;> rfl

theorem naming_bind {type : TypeRef} {k : Bytes → Elaborate α} {l : Bytes → Elaborate β}
    (h : ∀ n n', (ρ.Keeps → n' = n) → Walk ρ effect f (k n) (l n')) :
    Walk ρ effect f (typeName type >>= k) (typeName type >>= l) := by
  have hread : ∀ {γ : Type} (k : Bytes → Elaborate γ), (typeName type >>= k) = get >>= fun s =>
      match s.program.typeName type with
      | .ok n => k n
      | .error e => MonadExcept.throw (.fault e) := by
    intro γ k
    rw [typeName, Elaborate.view, bind_assoc]
    congr
    funext s
    cases s.program.typeName type <;> rfl
  rw [hread, hread]
  refine .read (fun s limits => ?_) fun s => ?_
  · have hname : (s.under limits).program.typeName type = s.program.typeName type :=
      Build.typeNameWithin_under _ type s.program limits
    simp only [hname]
  · have hfound := ρ.typeName s.program type
    have hsame : ρ.Keeps → (ρ.program s.program).typeName type = s.program.typeName type := by
      intro hk
      rw [program_keeps hk]
    have hprogram : (ρ.elaboration s).program = ρ.program s.program := rfl
    rw [hprogram]
    cases hn : s.program.typeName type with
    | error e =>
      cases hn' : (ρ.program s.program).typeName type with
      | ok n' =>
        rw [hn, hn'] at hfound
        cases hfound
      | error e' =>
        rw [hn, hn'] at hfound
        obtain rfl : e' = e := Except.error.inj hfound
        exact .stop (fun _ => rfl) (fun _ => rfl) (.fault _)
    | ok n =>
      cases hn' : (ρ.program s.program).typeName type with
      | error e' =>
        rw [hn, hn'] at hfound
        cases hfound
      | ok n' =>
        rw [hn, hn'] at hsame
        exact h n n' fun hk => Except.ok.inj (hsame hk)

theorem type (written : TypeSyntax) :
    Walk ρ id id (Elaborate.type written) (Elaborate.type (ρ.type written)) := by
  induction written with
  | missing why => exact .throw
  | named name =>
    refine .quiet_bind (.build (.namedType name.text)) fun found => ?_
    cases found with
    | some ref => exact .pure rfl
    | none => exact .refuse fun hk => congrArg Cause.unknownType (hk _)
  | vector pos size component close ih =>
    refine .quiet_bind ih fun found =>
      .quiet_bind (.view_same (fun _ _ => rfl) fun p => ρ.scalarKind? p found) fun kind =>
      .ite Iff.rfl ?_ ?_
    · exact .naming_bind fun _ _ h => .refuse_bind fun hk =>
        congrArg Cause.componentNotScalar (h hk)
    · exact .quiet_bind .part fun _ => .build (.vectorType found size)

theorem variableType (name : Bytes) (written : TypeSyntax) :
    Walk ρ id id (Elaborate.variableType name written)
      (Elaborate.variableType (ρ.word name) (ρ.type written)) :=
  .quiet_bind (.type written) fun _ => .ite Iff.rfl
    (.refuse_bind fun hk => congrArg Cause.voidVariable (hk name)) (.pure rfl)

theorem vector? (type : TypeRef) :
    Walk ρ id id (Elaborate.view (·.vector? type)) (Elaborate.view (·.vector? type)) :=
  .view_same (fun _ _ => rfl) fun p => ρ.vector? p type

theorem checkPosition (type : TypeRef) (pos pos' : Position) :
    Walk ρ id id (Elaborate.checkPosition type pos) (Elaborate.checkPosition type pos') :=
  .quiet_bind (.vector? type) fun _ => .ite Iff.rfl (.refuse fun _ => rfl) (.pure rfl)

theorem typeOf (e : ExprRef) : Walk ρ id id (typeOf e) (typeOf e) := by
  refine .view_same (fun _ _ => rfl) fun p => ?_
  rw [ρ.expressionAt]
  cases p.expressionAt e <;> rfl

theorem isNumeric (type : TypeRef) :
    Walk ρ id id (Elaborate.isNumeric type) (Elaborate.isNumeric type) := by
  refine .quiet_bind (.view_same (fun _ _ => rfl) fun p => ρ.componentKind? p type) fun kind => ?_
  cases kind with
  | none => exact .pure rfl
  | some kind => exact .pure rfl

theorem isVectorOf (type component : TypeRef) :
    Walk ρ id id (Elaborate.isVectorOf type component) (Elaborate.isVectorOf type component) :=
  .quiet_bind (.vector? type) fun _ => .pure rfl

theorem numeric {type : TypeRef} {verb : Verb} {x y : Elaborate α} (h : Walk ρ effect id x y) :
    Walk ρ effect id (do
      unless ← Elaborate.isNumeric type do
        Elaborate.refuse pos (.operandType verb (← Elaborate.typeName type))
      x) (do
      unless ← Elaborate.isNumeric type do
        Elaborate.refuse pos' (.operandType verb (← Elaborate.typeName type))
      y) :=
  .quiet_bind (.isNumeric type) fun _ => .ite Iff.rfl h <| .naming_bind fun _ _ h =>
    .refuse_bind fun hk => congrArg (Cause.operandType verb) (h hk)

theorem sum (op : SumOperator) (opPos opPos' last last' : Position) (left right : ExprRef) :
    Walk ρ Gauge.express id (Elaborate.sum op opPos last left right)
      (Elaborate.sum op opPos' last' left right) :=
  .quiet_bind (.typeOf left) fun _ => .quiet_bind (.typeOf right) fun _ => .ite Iff.rfl
    (.refuse_bind fun _ => rfl) (.numeric (.build (.addExpression (.sum op left right) _)))

theorem scale (op : ScaleOperator) (opPos opPos' last last' : Position) (left right : ExprRef) :
    Walk ρ Gauge.express id (Elaborate.scale op opPos last left right)
      (Elaborate.scale op opPos' last' left right) :=
  .quiet_bind (.typeOf left) fun _ => .quiet_bind (.typeOf right) fun _ =>
    .quiet_bind (.isVectorOf _ _) fun _ =>
    .ite Iff.rfl (.numeric (.build (.addExpression (.scale op right left false) _))) <|
    .quiet_bind (.isVectorOf _ _) fun _ =>
    .ite Iff.rfl (.numeric (.build (.addExpression (.scale op left right true) _)))
      (.refuse fun _ => rfl)

theorem firstElement (e : ExprRef) (pos pos' : Position) :
    Walk ρ id id (Elaborate.firstElement e pos) (Elaborate.firstElement e pos') :=
  .quiet_bind (.typeOf e) fun type => .quiet_bind (.vector? type) fun _ =>
    .quiet_bind (.view_same (fun _ _ => rfl) fun p => ρ.scalarKind? p _) fun _ => .ite Iff.rfl
      (.naming_bind fun _ _ h => .refuse_bind fun hk => congrArg Cause.elementType (h hk))
      (.pure rfl)

theorem elementSize (component : TypeRef) (e : ExprRef) (pos pos' : Position) :
    Walk ρ id id (Elaborate.elementSize component e pos)
      (Elaborate.elementSize component e pos') := by
  refine .quiet_bind (.typeOf e) fun type => .quiet_bind (.vector? type) fun found => ?_
  have hdiffer : Walk ρ id (@id UInt32)
      (if type = component then Pure.pure 1 else Elaborate.refuse pos .elementsDiffer)
      (if type = component then Pure.pure 1 else Elaborate.refuse pos' .elementsDiffer) :=
    .ite Iff.rfl (.pure rfl) (.refuse fun _ => rfl)
  cases found with
  | none => exact hdiffer
  | some vector => exact .ite Iff.rfl (.pure rfl) hdiffer

theorem vectorLiteral (opened opened' closed closed' : Position) (component : TypeRef)
    (count : UInt32) (elements : List ExprRef) :
    Walk ρ (Gauge.express ∘ Gauge.addElements elements.length) id
      (Elaborate.vectorLiteral opened closed component count elements)
      (Elaborate.vectorLiteral opened' closed' component count elements) := by
  have hcounts : Counts ρ .vectorElements (Gauge.addElements elements.length)
      (fun s => s.vectorElements + elements.length)
      (fun s => { s with vectorElements := s.vectorElements + elements.length }) := by
    refine ⟨nofun, fun _ _ => ⟨rfl, rfl⟩, fun _ => ⟨rfl, rfl⟩, fun _ => rfl, fun s g hs => ?_,
      fun s g hs => ?_, fun s g other hother => ?_⟩
    · exact ⟨⟨hs.program.1, hs.program.2, hs.program.3, hs.program.4, hs.program.5, hs.program.6⟩,
        congrArg (· + elements.length) hs.elements, hs.members, hs.live, hs.marks⟩
    · rw [hs.elements]
      exact (Nat.max_eq_right (Nat.le_add_right _ _)).symm
    · cases other <;> trivial
  have hbuild : Walk ρ Gauge.express id (Elaborate.build closed do
      let type ← Build.vectorType component count
      Build.addExpression (.vector elements) type) (Elaborate.build closed' do
      let type ← Build.vectorType component count
      Build.addExpression (.vector elements) type) :=
    .build <| .quiet_bind (.vectorType component count) fun _ => .addExpression (.vector elements) _
  exact .ite Iff.rfl (.refuse_bind fun _ => rfl) (.count hcounts closed closed' hbuild)

mutual

theorem expr : ∀ e : Expr, Walk ρ e.gauge id (Elaborate.expr e) (Elaborate.expr (ρ.expr e))
  | .missing _ => .throw
  | .stopped operand _ => .bind_quiet (.discard (expr operand)) fun _ => .throw
  | .var name => by
      refine .read (fun _ _ => rfl) fun s => ?_
      have hlookup : (ρ.elaboration s).scopes.lookup (ρ.word name.text) = _ :=
        lookup s.scopes name.text
      rw [Renaming.name, hlookup]
      cases s.scopes.lookup name.text with
      | none => exact .refuse fun hk => congrArg Cause.unknownVariable (hk _)
      | some place => exact .build (.addExpression (.load place) place.type)
  | .number bits _ =>
    .build <| .quiet_bind (.floatConstant bits) fun c => .addExpression (.constant c) _
  | .paren _ inner close =>
    .bind_quiet (expr inner) fun _ => .quiet_bind (.discard .part) fun _ => .pure rfl
  | .sum op opPos left right =>
    (expr left).bind_same fun _ => (expr right).bind_same fun _ => .sum op opPos _ _ _ _ _
  | .scale op opPos left right =>
    (expr left).bind_same fun _ => (expr right).bind_same fun _ => .scale op opPos _ _ _ _ _
  | .vector pos first rest close => by
    have hliteral : ∀ (e : ExprRef) (component : TypeRef) (count : UInt32), Walk ρ
        ((Gauge.express ∘ Gauge.addElements (rest.length + 1)) ∘ elementsGauge rest) id
        (Elaborate.elements component count rest >>= fun found => do
          let close ← Elaborate.part close
          Elaborate.vectorLiteral pos close component found.2 (e :: found.1))
        (Elaborate.elements component count (ρ.exprs rest) >>= fun found => do
          let close ← Elaborate.part (ρ.place close)
          Elaborate.vectorLiteral nowhere close component found.2 (e :: found.1)) := by
      intro e component count
      refine elements rest ?_
      intro others count hlength
      rw [← hlength]
      exact .quiet_bind .part fun close => .vectorLiteral pos _ close _ component count
        (e :: others)
    exact (expr first).bind_same fun e => (Walk.firstElement e _ _).bind_same fun kind =>
      hliteral e kind.1 kind.2

theorem elements {α β : Type} {effect : Gauge → Gauge} {f : α → β}
    {k : List ExprRef × UInt32 → Elaborate α} {l : List ExprRef × UInt32 → Elaborate β}
    {component : TypeRef} {count : UInt32} : ∀ xs : List Expr,
    (∀ others count, others.length = xs.length →
      Walk ρ effect f (k (others, count)) (l (others, count))) →
    Walk ρ (effect ∘ elementsGauge xs) f (Elaborate.elements component count xs >>= k)
      (Elaborate.elements component count (ρ.exprs xs) >>= l)
  | [], hk => hk [] count rfl
  | element :: rest, hk => by
    have hrest : ∀ e, Walk ρ (effect ∘ elementsGauge rest) f
        (Elaborate.elementSize component e element.start >>= fun size =>
          Elaborate.elements component (count + size) rest >>= fun found =>
            k (e :: found.1, found.2))
        (Elaborate.elementSize component e (ρ.expr element).start >>= fun size =>
          Elaborate.elements component (count + size) (ρ.exprs rest) >>= fun found =>
            l (e :: found.1, found.2)) := by
      intro e
      refine .quiet_bind (.elementSize component e _ _) fun size => elements rest ?_
      intro others count hlength
      exact hk (e :: others) count (congrArg (· + 1) hlength)
    have hall := (expr element).bind_same hrest
    rw [exprs, Elaborate.elements, Elaborate.elements]
    simp only [bind_assoc, pure_bind]
    exact hall

end

theorem procedure (ref : ProcedureRef) :
    Walk ρ id ρ.procedure (procedure ref) (procedure ref) :=
  .view (fun _ _ => rfl) fun p => ρ.procedureAt p ref

theorem declaration (ref : ProcedureRef) (name : Part Name) (written : TypeSyntax)
    (equal : Part Position) (value : Expr) (close : Part Position) :
    Walk ρ (Gauge.declare ∘ value.gauge) id
      (Elaborate.declaration ref name written equal value close)
      (Elaborate.declaration ref (ρ.part ρ.name name) (ρ.type written) (ρ.place equal)
        (ρ.expr value) (ρ.place close)) := by
  refine .quiet_bind .part fun name => .quiet_bind (.variableType name.text written) fun type =>
    .quiet_bind (.build (.pointerType type .function)) fun pointer =>
    .quiet_bind (.discard .part) fun _ => .bind (.expr value) fun e =>
    .quiet_bind (.typeOf e) fun given => .ite Iff.rfl ?_ ?_
  · refine .naming_bind fun _ _ h => .naming_bind fun _ _ h' => .refuse_bind fun hk => ?_
    rw [h hk, h' hk, Renaming.name, hk]
  · refine .quiet_bind (.build ?_) fun id => .quiet_bind .part fun _ =>
      .add ⟨name.text, type, pointer, id, none⟩
    exact .quiet_bind (.declareVariable pointer) fun id => .quiet_bind (.expression e) fun result =>
      .quiet_bind (.store id result) fun _ => .pure rfl

theorem exit (ref : ProcedureRef) (close close' : Position) :
    Walk ρ id id (Elaborate.exit ref close) (Elaborate.exit ref close') := by
  refine .quiet_bind (.procedure ref) fun a => .ite Iff.rfl ?_ ?_
  · refine .naming_bind fun _ _ h => .refuse_bind fun hk => ?_
    rw [h hk, Renaming.procedure, hk]
  · exact .build <| .quiet_bind .markReturned fun _ => .exit

theorem exitValue (ref : ProcedureRef) (value : Expr) (close : Part Position) :
    Walk ρ value.gauge id (Elaborate.exitValue ref value close)
      (Elaborate.exitValue ref (ρ.expr value) (ρ.place close)) := by
  refine .bind_quiet (.expr value) fun e => .quiet_bind .part fun _ => .quiet_bind (.typeOf e)
    fun _ => .quiet_bind (.procedure ref) fun a => .ite Iff.rfl
      (.refuse_bind fun hk => congrArg Cause.returnFromVoid (hk _)) <| .ite Iff.rfl ?_ ?_
  · refine .naming_bind fun _ _ h => .naming_bind fun _ _ h' => .refuse_bind fun hk => ?_
    rw [h hk, h' hk]
  · exact .build <| .quiet_bind (.expression e) fun result =>
      .quiet_bind .markReturned fun _ => .exitValue result

theorem assignment (ref : ProcedureRef) (target : Expr) (opPos opPos' : Position) (value : Expr)
    (close : Part Position) :
    Walk ρ (value.gauge ∘ target.gauge) id (Elaborate.assignment ref target opPos value close)
      (Elaborate.assignment ref (ρ.expr target) opPos' (ρ.expr value) (ρ.place close)) := by
  refine .bind (.expr target) fun left => .bind_quiet (.expr value) fun e =>
    .quiet_bind (.typeOf left) fun _ => .quiet_bind (.typeOf e) fun _ => .ite Iff.rfl
    (.refuse_bind fun _ => rfl) <| .quiet_bind (.build (.expression e)) fun result =>
    .quiet_bind (.view (fun _ _ => rfl) fun p => ρ.expressionAt p left) fun entry => ?_
  obtain ⟨kind, type⟩ := entry
  cases kind with
  | load place =>
    have hstored : Walk ρ id id (do
        Elaborate.build value.last do
          Build.registerInterface ref place
          Build.store ref place.id result
        Functor.discard (Elaborate.part close)) (do
        Elaborate.build (ρ.expr value).last do
          Build.registerInterface ref (ρ.binding place)
          Build.store ref place.id result
        Functor.discard (Elaborate.part (ρ.place close))) :=
      .quiet_bind (.build <| .quiet_bind (.registerInterface place) fun _ => .store _ _) fun _ =>
        .discard .part
    obtain ⟨name, type, pointer, id', global⟩ := place
    cases global with
    | none => exact hstored
    | some global =>
      exact .quiet_bind (.view (fun _ _ => rfl) fun p => ρ.globalAt p global) fun g => .ite Iff.rfl
        (.refuse_bind fun hk => congrArg Cause.assignmentToInput (hk _)) hstored
  | _ => exact .refuse fun _ => rfl

mutual

theorem statement (ref : ProcedureRef) : ∀ x : Stmt,
    Walk ρ x.gauge id (Elaborate.statement ref x) (Elaborate.statement ref (ρ.stmt x))
  | .declare _ name type equal value close => .declaration ref name type equal value close
  | .leave _ close => .exit ref close _
  | .giveBack _ value close => .exitValue ref value close
  | .group _ body _ =>
    show Walk ρ ((Gauge.closeScope ∘ blockGauge body) ∘ Gauge.openScope) id _ _ from
      .bind .push fun _ => .bind (block ref body) fun _ => .quiet_bind .part fun _ => .pop
  | .evaluate value _ =>
    .bind_quiet (.expr value) fun _ => .quiet_bind .part fun _ => .discard (.build (.expression _))
  | .assign target opPos value close => .assignment ref target opPos _ value close

theorem block (ref : ProcedureRef) : ∀ body : List Stmt,
    Walk ρ (blockGauge body) id (Elaborate.block ref body) (Elaborate.block ref (ρ.stmts body))
  | [] => .pure rfl
  | next :: rest =>
    .quiet_bind (.procedure ref) fun _ => .ite Iff.rfl (.refuse_bind fun _ => rfl) <|
      .bind (statement ref next) fun _ => block ref rest

end

theorem noneWaits {waiting : Elaboration → Option (α × Position)}
    (hunder : ∀ s limits, waiting (s.under limits) = waiting s)
    (h : ∀ s, waiting (ρ.elaboration s) = (waiting s).map fun found => (found.1, nowhere)) :
    Walk ρ id id (Elaborate.noneWaits waiting cause) (Elaborate.noneWaits waiting cause) := by
  refine .read (fun s limits => by rw [hunder]) fun s => ?_
  rw [h]
  cases waiting s with
  | none => exact .pure rfl
  | some found => exact .refuse fun _ => rfl

theorem noStage : Walk ρ id id (Elaborate.noneWaits (·.stage) cause)
    (Elaborate.noneWaits (·.stage) cause) := .noneWaits (fun _ _ => rfl) fun _ => rfl

theorem noBuiltin : Walk ρ id id (Elaborate.noneWaits (·.builtin) cause)
    (Elaborate.noneWaits (·.builtin) cause) := .noneWaits (fun _ _ => rfl) fun _ => rfl

theorem setStage (stage : Option (Stage × Position)) :
    Walk ρ id id (modify fun s => { s with stage })
      (modify fun s => { s with stage := stage.map fun waiting => (waiting.1, nowhere) }) :=
  .wait (fun _ _ => rfl) (fun _ => rfl) (fun _ => rfl) fun _ _ h => ⟨h.1, h.2, h.3, h.4, h.5⟩

theorem setBuiltin (builtin : Option (Builtin × Position)) :
    Walk ρ id id (modify fun s => { s with builtin })
      (modify fun s => { s with builtin := builtin.map fun waiting => (waiting.1, nowhere) }) :=
  .wait (fun _ _ => rfl) (fun _ => rfl) (fun _ => rfl) fun _ _ h => ⟨h.1, h.2, h.3, h.4, h.5⟩

theorem takeStage : Walk ρ id id Elaborate.takeStage Elaborate.takeStage := by
  refine .read (fun _ _ => rfl) fun s => .quiet_bind (.setStage none) fun _ => .pure ?_
  simp only [elaboration, Option.map_map]
  rfl

theorem takeBuiltin : Walk ρ id (Option.map fun waiting => (waiting.1, nowhere))
    Elaborate.takeBuiltin Elaborate.takeBuiltin :=
  .read (fun _ _ => rfl) fun _ => .quiet_bind (.setBuiltin none) fun _ => .pure rfl

theorem stageAttribute (pos : Position) (stage : Stage) (close : Part Position) :
    Walk ρ id id (Elaborate.stageAttribute pos stage close)
      (Elaborate.stageAttribute nowhere stage (ρ.place close)) :=
  .read (fun _ _ => rfl) fun s => .ite (by simp [elaboration]) (.refuse_bind fun _ => rfl) <|
    .quiet_bind (.setStage (some (stage, pos))) fun _ => .discard .part

theorem builtinAttribute (pos : Position) (builtin : Builtin) (close : Part Position) :
    Walk ρ id id (Elaborate.builtinAttribute pos builtin close)
      (Elaborate.builtinAttribute nowhere builtin (ρ.place close)) :=
  .read (fun _ _ => rfl) fun s => .ite (by simp [elaboration]) (.refuse_bind fun _ => rfl) <|
    .quiet_bind (.setBuiltin (some (builtin, pos))) fun _ => .discard .part

theorem location (direction : Direction) (placement : Option Placement) :
    Walk ρ id id (Elaborate.location direction placement)
      (Elaborate.location direction (placement.map ρ.placement)) := by
  cases placement with
  | none => exact .pure rfl
  | some placement =>
    exact .ite Iff.rfl (.refuse_bind fun _ => rfl) <| .quiet_bind .part fun _ =>
      .ite Iff.rfl (.pure rfl) (.refuse fun _ => rfl)

theorem declareGlobal (pos : Position) (direction : Direction) (name : Part Name)
    (written : TypeSyntax) (placement : Part (Option Placement))
    (builtin : Option (Builtin × Position)) :
    Walk ρ Gauge.declare id
      (Elaborate.declareGlobal pos direction name written placement builtin)
      (Elaborate.declareGlobal nowhere direction (ρ.part ρ.name name) (ρ.type written)
        (ρ.part (Option.map ρ.placement) placement)
        (builtin.map fun waiting => (waiting.1, nowhere))) := by
  refine .read (fun _ _ => rfl) fun s => .quiet_bind (.build (.addGlobal direction)) fun ref =>
    .quiet_bind .part fun name => .ite ?_
    (.refuse_bind fun hk => congrArg Cause.globalRedeclared (hk _)) ?_
  · have hnames : (ρ.elaboration s).program.globals.toList.map (·.name) =
        (s.program.globals.toList.map (·.name)).map ρ.word := by
      change (s.program.globals.map ρ.global).toList.map _ = _
      rw [Arena.toList_map, List.map_map, List.map_map]
      rfl
    rw [hnames]
    exact ρ.contains_word _ _
  refine .quiet_bind (.variableType name.text written) fun type =>
    .quiet_bind (.build (.pointerType type direction.storageClass)) fun pointer =>
    .quiet_bind (.view (fun _ _ => rfl) fun p => ρ.globalAt p ref) fun g =>
    .bind_quiet (.add ⟨name.text, type, pointer, g.id, some ref⟩) fun _ =>
    .quiet_bind .part fun placement => .quiet_bind (.location direction placement)
    fun location => ?_
  have hend (g : Global) : Walk ρ id id (Elaborate.build pos (Build.modifyGlobal ref fun _ => g))
      (Elaborate.build nowhere (Build.modifyGlobal ref fun _ => ρ.global g)) :=
    .build (.setGlobal ref g)
  cases builtin with
  | none => exact hend _
  | some waiting => exact .quiet_bind (.checkPosition type _ _) fun _ => hend _

theorem global (pos : Position) (direction : Direction) (name : Part Name) (written : TypeSyntax)
    (placement : Part (Option Placement)) :
    Walk ρ Gauge.declare id (Elaborate.global pos direction name written placement)
      (Elaborate.global nowhere direction (ρ.part ρ.name name) (ρ.type written)
        (ρ.part (Option.map ρ.placement) placement)) := by
  refine .quiet_bind .noStage fun _ => .quiet_bind .takeBuiltin fun builtin => ?_
  cases builtin with
  | none => exact .declareGlobal pos direction name written placement none
  | some waiting =>
    exact .ite Iff.rfl (.refuse_bind fun _ => rfl)
      (.declareGlobal pos direction name written placement (some waiting))

theorem countMember (pos : Position) : Walk ρ (Gauge.addMembers 1) id
    (Elaborate.countMember pos) (Elaborate.countMember nowhere) := by
  have hcounts : Counts ρ .recordMembers (Gauge.addMembers 1) (fun s => s.recordMembers + 1)
      (fun s => { s with recordMembers := s.recordMembers + 1 }) := by
    refine ⟨nofun, fun _ _ => ⟨rfl, rfl⟩, fun _ => ⟨rfl, rfl⟩, fun _ => rfl, fun s g hs => ?_,
      fun s g hs => ?_, fun s g other hother => ?_⟩
    · exact ⟨⟨hs.program.1, hs.program.2, hs.program.3, hs.program.4, hs.program.5, hs.program.6⟩,
        hs.elements, congrArg (· + 1) hs.members, hs.live, hs.marks⟩
    · rw [hs.members]
      exact (Nat.max_eq_right (Nat.le_add_right _ _)).symm
    · cases other <;> trivial
  exact .count hcounts pos nowhere (.pure rfl)

theorem member (record : Bytes) (earlier : List Member) (written : MemberSyntax) :
    Walk ρ (Gauge.addMembers 1) ρ.field (Elaborate.member record earlier written)
      (Elaborate.member (ρ.word record) (earlier.map ρ.field) (ρ.member written)) := by
  refine .quiet_bind .part fun name => .ite (by rw [Renaming.name, ρ.any_field])
    (.refuse_bind fun hk => ?_) ?_
  · rw [Renaming.name, hk, hk]
  · exact .quiet_bind (.variableType name.text written.type) fun type => .ite Iff.rfl
      (.quiet_bind (.checkPosition type _ _) fun _ => .quiet_bind .part fun close =>
        .bind_quiet (.countMember close) fun _ => .pure rfl)
      (.quiet_bind .part fun close => .bind_quiet (.countMember close) fun _ => .pure rfl)

theorem members (record : Bytes) (earlier : List Member) (written : List MemberSyntax) :
    Walk ρ (Gauge.addMembers written.length) (List.map ρ.field)
      (Elaborate.members record earlier written)
      (Elaborate.members (ρ.word record) (earlier.map ρ.field) (written.map ρ.member)) := by
  induction written generalizing earlier with
  | nil => exact .pure List.map_reverse.symm
  | cons first rest ih =>
    have heffect : Gauge.addMembers (first :: rest).length =
        Gauge.addMembers rest.length ∘ Gauge.addMembers 1 := by
      funext g
      simp [Gauge.addMembers, Nat.add_assoc, Nat.add_comm 1]
    rw [heffect]
    exact .bind (.member record earlier first) fun found => ih (found :: earlier)

theorem record (name : Part Name) (written : List MemberSyntax) (close : Part Position) :
    Walk ρ (Gauge.addMembers written.length) id (Elaborate.record name written close)
      (Elaborate.record (ρ.part ρ.name name) (written.map ρ.member) (ρ.place close)) := by
  refine .quiet_bind .noStage fun _ => .quiet_bind .noBuiltin fun _ =>
    .quiet_bind .part fun name => .ite ?_
    (.refuse_bind fun hk => congrArg Cause.typeReserved (hk _)) <|
    .read (fun _ _ => rfl) fun t => .ite ?_
    (.refuse_bind fun hk => congrArg Cause.typeRedeclared (hk _)) ?_
  · rw [Renaming.name, ρ.isReservedType_word, Reading.vectorSize?_word]
  · rw [Renaming.elaboration, Renaming.name, ρ.any_type]
  · exact .bind_quiet (.members name.text [] written) fun found => .quiet_bind .part fun _ =>
      .discard <| .build (.recordType name.text found)

theorem closeProcedure (pos : Position) (name : Bytes) (stage : Option Stage) (ref : ProcedureRef) :
    Walk ρ Gauge.closeScope id (Elaborate.closeProcedure pos name stage ref)
      (Elaborate.closeProcedure nowhere (ρ.word name) stage ref) := by
  refine .bind_quiet .pop fun _ => ?_
  cases stage with
  | none => exact .pure rfl
  | some stage => exact .discard (.build (.addEntryPoint ⟨name, stage, ref⟩))

theorem procedureItem (pos : Position) (name : Part Name) (written : TypeSyntax) (body : List Stmt)
    (close : Part Position) :
    Walk ρ (Item.procedure pos name written body close).gauge id
      (Elaborate.procedureItem name written body close)
      (Elaborate.procedureItem (ρ.part ρ.name name) (ρ.type written) (ρ.stmts body)
        (ρ.place close)) := by
  change Walk ρ ((((Gauge.closeScope ∘ blockGauge body) ∘ Gauge.label) ∘ Gauge.openScope) ∘
    Gauge.procedure) id _ _
  refine .quiet_bind .noBuiltin fun _ => .quiet_bind .takeStage fun stage =>
    .quiet_bind .part fun name => .read (fun _ _ => rfl) fun t => .ite ?_
    (.refuse_bind fun hk => congrArg Cause.procedureRedeclared (hk _)) ?_
  · rw [Renaming.elaboration, Renaming.name, ρ.any_procedure]
  refine .quiet_bind (.type written) fun result => .ite Iff.rfl ?_ ?_
  · refine .naming_bind fun _ _ h => .refuse_bind fun hk => ?_
    rw [h hk, Renaming.name, hk]
  refine .bind (.build (.addProcedure name.text result)) fun ref => .bind .push fun _ =>
    .bind (.build .openBlock) fun _ => .bind (.block ref body) fun _ =>
    .quiet_bind .part fun close => .quiet_bind (.procedure ref) fun _ =>
    .ite Iff.rfl (.closeProcedure close _ stage ref) <| .ite Iff.rfl (.refuse_bind fun _ => rfl) ?_
  exact .quiet_bind (.build .exit) fun _ => .closeProcedure close _ stage ref

theorem item (x : Item) : Walk ρ x.gauge id (Elaborate.item x) (Elaborate.item (ρ.item x)) := by
  cases x with
  | stage pos stage close => exact .stageAttribute pos stage close
  | builtin pos builtin close => exact .builtinAttribute pos builtin close
  | global pos direction name type placement => exact .global pos direction name type placement
  | record pos name members close => exact .record name members close
  | procedure pos name result body close => exact .procedureItem pos name result body close

theorem items (l : List Item) :
    Walk ρ (itemsGauge l) id (l.forM Elaborate.item) ((l.map ρ.item).forM Elaborate.item) := by
  induction l with
  | nil => exact .pure rfl
  | cons x rest ih => exact .bind (.item x) fun _ => ih

theorem sourceTree (tree : SourceTree) : Walk ρ (itemsGauge tree.items) id
    (Elaborate.sourceTree tree) (Elaborate.sourceTree (ρ.tree tree)) :=
  .bind_quiet (.items tree.items) fun _ => .quiet_bind (.discard .part) fun _ =>
    .quiet_bind .noStage fun _ => .noBuiltin

end Walk

end Elaborate

end Shading
