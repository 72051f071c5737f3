import Shading.Proofs.Construction.Calls
import Shading.Proofs.Limits.Building
import Shading.Proofs.Renaming.Building

/-!
One walk over the operations on a program. `Build.Walk` relates an operation to
the same operation under other names. It has a case for every primitive
operation, and it says what the operation adds to the gauge of a program. Every
operation but the opening of a block is walked once here.
-/

namespace Shading.Build

open Program Arena

open Binary (Instruction Opcode)

variable {least : Nat} {effect : Gauge → Gauge} {ref : ProcedureRef}

/-- An operation and its twin under other names, of which the results are related by a function, in
a program of at least some number of procedures. -/
inductive Walk (ρ : Renaming) : {α β : Type} → Nat → (Gauge → Gauge) → (α → β) → Build α →
    Build β → Prop
  | pure {α β : Type} {least : Nat} {f : α → β} {a : α} {b : β} (h : b = f a) :
      Walk ρ least id f (pure a) (pure b)
  | throw {α β : Type} {least : Nat} {effect : Gauge → Gauge} {f : α → β} (e : Fault) :
      Walk ρ least effect f (throw e) (throw e)
  | bind {α β α' β' : Type} {least : Nat} {effect effect' : Gauge → Gauge} {f : α → β}
      {g : α' → β'} {x : Build α} {y : Build β} {k : α → Build α'} {l : β → Build β'}
      (hx : Walk ρ least effect f x y) (hk : ∀ a, Walk ρ least effect' g (k a) (l (f a))) :
      Walk ρ least (effect' ∘ effect) g (x >>= k) (y >>= l)
  | read {α β : Type} {least : Nat} {effect : Gauge → Gauge} {f : α → β} {k : Program → Build α}
      {l : Program → Build β} (hunder : ∀ p limits, k (p.under limits) = k p)
      (h : ∀ p, Walk ρ least effect f (k p) (l (ρ.program p))) :
      Walk ρ least effect f (get >>= k) (get >>= l)
  | find {α β : Type} {least : Nat} {effect : Gauge → Gauge} {f : α → β} {ref : ProcedureRef}
      {k : Procedure → Build α} {l : Procedure → Build β}
      (h : ∀ a, Walk ρ (ref + 1) effect f (k a) (l (ρ.procedure a))) :
      Walk ρ least effect f (procedure ref >>= k) (procedure ref >>= l)
  | freshId {least : Nat} : Walk ρ least id id freshId freshId
  | push {α : Type} {least : Nat} {effect : Gauge → Gauge} {pool : Program → Arena α}
      {put : Program → Arena α → Program} (kind : Pool) (rename : α → α) (item : α)
      (h : Counted kind effect pool put item)
      (hpool : ∀ p, pool (ρ.program p) = (pool p).map rename := by exact fun _ => rfl)
      (hput : ∀ p a, put (ρ.program p) (a.map rename) = ρ.program (put p a) := by
        exact fun _ _ => rfl)
      (hwords : ∀ p a, (put p a).words = p.words := by exact fun _ _ => rfl)
      (hprocedures : ∀ p, (put p ((pool p).add item)).procedures = p.procedures ∨
        ∃ new : Procedure, (∀ part, new.code part = []) ∧
          (put p ((pool p).add item)).procedures = p.procedures.add new := by
            exact fun _ => .inl rfl) :
      Walk ρ least effect id (push pool put item) (push pool put (rename item))
  | modifyGlobal {least : Nat} (ref : GlobalRef) {change change' : Global → Global}
      (h : ∀ g, change' (ρ.global g) = ρ.global (change g)) :
      Walk ρ least id id (modifyGlobal ref change) (modifyGlobal ref change')
  | modifyProcedure {least : Nat} (ref : ProcedureRef) {change change' : Procedure → Procedure}
      (hcode : ∀ a, (change a).locals = a.locals ∧ (change a).body = a.body ∧
        (change a).interface = a.interface)
      (h : ∀ a, change' (ρ.procedure a) = ρ.procedure (change a)) :
      Walk ρ least id id (modifyProcedure ref change) (modifyProcedure ref change')
  | charge {ref : ProcedureRef} (i : Instruction) (part : CodePart)
      {change change' : Procedure → Procedure}
      (hcode : ∀ a part', (change a).code part' = a.code part' ++ if part' = part then [i] else [])
      (hinterface : ∀ a, (change a).interface = a.interface)
      (h : ∀ a, change' (ρ.procedure a) = ρ.procedure (change a)) :
      Walk ρ (ref + 1) id id (charge i >>= fun _ => modifyProcedure ref change)
        (charge i >>= fun _ => modifyProcedure ref change')
  | touch {ref : ProcedureRef} (global : GlobalRef) :
      Walk ρ (ref + 1) id id
        (do
          let program ← get
          if fits (program.interfacesUsed + 1) program.limits.interfaces then
            set { program with interfacesUsed := program.interfacesUsed + 1 }
            Build.modifyProcedure ref fun p => { p with interface := p.interface.push global }
          else MonadExcept.throw (.limit ⟨.interfaces, program.limits.interfaces⟩))
        (do
          let program ← get
          if fits (program.interfacesUsed + 1) program.limits.interfaces then
            set { program with interfacesUsed := program.interfacesUsed + 1 }
            Build.modifyProcedure ref fun p => { p with interface := p.interface.push global }
          else MonadExcept.throw (.limit ⟨.interfaces, program.limits.interfaces⟩))

namespace Walk

variable {α β α' β' : Type} {ρ : Renaming} {f : α → β} {g : α' → β'} {y : Build β} {x : Build α}
  {read : Program → Except Fault α}

theorem quiet_bind {k : α → Build α'} {l : β → Build β'} (hx : Walk ρ least id f x y)
    (hk : ∀ a, Walk ρ least effect g (k a) (l (f a))) :
    Walk ρ least effect g (x >>= k) (y >>= l) := hx.bind hk

theorem bind_quiet {k : α → Build α'} {l : β → Build β'} (hx : Walk ρ least effect f x y)
    (hk : ∀ a, Walk ρ least id g (k a) (l (f a))) :
    Walk ρ least effect g (x >>= k) (y >>= l) := hx.bind hk

protected theorem discard (hx : Walk ρ least effect f x y) :
    Walk ρ least effect id (discard x) (discard y) := by
  rw [discard_eq, discard_eq]
  exact hx.bind_quiet fun _ => .pure rfl

protected theorem ite {c : Prop} [Decidable c] {x z : Build α} {y w : Build β}
    (hx : Walk ρ least effect f x y) (hz : Walk ρ least effect f z w) :
    Walk ρ least effect f (if c then x else z) (if c then y else w) := by
  by_cases h : c
  · rw [if_pos h, if_pos h]
    exact hx
  · rw [if_neg h, if_neg h]
    exact hz

theorem view {read' : Program → Except Fault β}
    (hunder : ∀ p limits, read (p.under limits) = read p)
    (h : ∀ p, read' (ρ.program p) = (read p).map f) :
    Walk ρ least id f (view read) (view read') := by
  refine .read (fun p limits => by simp only [hunder p limits]) fun p => ?_
  rw [h]
  cases read p with
  | error e => exact .throw e
  | ok a => exact .pure rfl

theorem view_same (hunder : ∀ p limits, read (p.under limits) = read p)
    (h : ∀ p, read (ρ.program p) = read p) :
    Walk ρ least id id (Build.view read) (Build.view read) := by
  refine .view hunder fun p => ?_
  rw [h]
  cases read p <;> rfl

theorem found {k : PUnit → Build α} {l : PUnit → Build β}
    (h : Walk ρ (ref + 1) effect f (k ()) (l ())) :
    Walk ρ least effect f (discard (procedure ref) >>= k) (discard (procedure ref) >>= l) := by
  rw [discard_eq, bind_assoc, bind_assoc]
  exact .find fun _ => h

theorem addType (name : Bytes) (shape : Shape) :
    Walk ρ least id id (addType name shape) (addType (ρ.word name) (ρ.shape shape)) :=
  .read (fun _ _ => rfl) fun p =>
    .quiet_bind (.push .types ρ.typeEntry ⟨name, p.nextId, shape⟩ {}) fun _ =>
    .quiet_bind (.discard .freshId) fun _ => .pure rfl

theorem typeOfShape {shape : Shape} (h : ∀ members, shape ≠ .record members) :
    Walk ρ least id id (typeOfShape shape) (typeOfShape shape) := by
  have hshape : ρ.shape shape = shape := (ρ.shape_eq_iff h).mpr rfl
  have hadd : Walk ρ least id id (Build.addType [] shape)
      (Build.addType (ρ.word []) (ρ.shape shape)) := .addType [] shape
  rw [ρ.nameless, hshape] at hadd
  refine .read (fun _ _ => rfl) fun p => ?_
  have hfind : (ρ.program p).types.items.findIdx? (·.shape = shape) =
      p.types.items.findIdx? (·.shape = shape) := by
    refine Array.findIdx?_map.trans ?_
    congr 1
    funext t
    exact decide_eq_decide.mpr (ρ.shape_eq_iff h)
  rw [hfind]
  cases p.types.items.findIdx? (·.shape = shape) with
  | some ref => exact .pure rfl
  | none => exact hadd

theorem namedType (name : Bytes) :
    Walk ρ least id id (namedType name) (namedType (ρ.word name)) := by
  refine .read (fun _ _ => rfl) fun p => ?_
  have hfind : (ρ.program p).types.items.findIdx?
        (fun t => t.name ≠ [] ∧ t.name = ρ.word name) =
      p.types.items.findIdx? fun t => t.name ≠ [] ∧ t.name = name := by
    refine Array.findIdx?_map.trans ?_
    congr 1
    funext t
    exact decide_eq_decide.mpr (and_congr (not_congr ρ.word_nil) ρ.word_inj)
  rw [hfind]
  cases p.types.items.findIdx? fun t => t.name ≠ [] ∧ t.name = name with
  | some ref => exact .pure rfl
  | none =>
    simp only [ρ.ofName?_word]
    cases ScalarKind.ofName? name with
    | none => exact .pure rfl
    | some kind =>
      simp only [map_eq_pure_bind]
      exact .quiet_bind (.addType name (.scalar kind)) fun _ => .pure rfl

theorem floatConstant (bits : UInt32) :
    Walk ρ least id id (floatConstant bits) (floatConstant bits) := by
  refine .read (fun _ _ => rfl) fun p => ?_
  have hfind : (ρ.program p).constants = p.constants := rfl
  rw [hfind]
  cases p.constants.items.findIdx? fun c => c.type = f32Type ∧ c.bits = bits with
  | some ref => exact .pure rfl
  | none =>
    refine .read (fun _ _ => rfl) fun q =>
      .quiet_bind (.push .constants id (⟨f32Type, q.nextId, bits⟩ : Constant) {}
        (fun p => p.constants.map_id.symm) fun p a => ?_) fun _ =>
      .quiet_bind (.discard .freshId) fun _ => .pure rfl
    rw [Arena.map_id]
    rfl

theorem addExpression (kind : ExprKind) (type : TypeRef) :
    Walk ρ least Gauge.express id (addExpression kind type)
      (addExpression (ρ.exprKind kind) type) := by
  refine .push .expressions ρ.exprEntry ⟨kind, type⟩
    { shows := fun p g h hindex => ?_ }
  have hsize : (p.expressions.add ⟨kind, type⟩).size = p.expressions.size + 1 := size_add _ _
  exact ⟨h.1, hsize.trans (by rw [h.2]; rfl), h.3, h.4, h.5, hsize ▸ hindex⟩

theorem addGlobal (global : Global) :
    Walk ρ least id id (addGlobal global) (addGlobal (ρ.global global)) :=
  .quiet_bind (.push .globals ρ.global { global with id := 0 } {}) fun ref =>
    .quiet_bind .freshId fun _ => .quiet_bind (.modifyGlobal ref fun _ => rfl) fun _ => .pure rfl

theorem addEntryPoint (entry : EntryPoint) :
    Walk ρ least id id (addEntryPoint entry) (addEntryPoint (ρ.entryPoint entry)) :=
  .push .entryPoints ρ.entryPoint entry {}

theorem addProcedure (name : Bytes) (result : TypeRef) :
    Walk ρ least Gauge.procedure id (addProcedure name result)
      (addProcedure (ρ.word name) result) := by
  refine .bind_quiet (.push .procedures ρ.procedure
      ⟨name, 0, voidType, result, 0, #[], #[], false, #[]⟩
      { shows := fun p g h hindex => ⟨?_, h.2, ?_, ?_, ?_, h.6⟩, other := ?_ } (fun _ => rfl)
      (fun _ _ => rfl) (fun _ _ => rfl) fun _ => .inr ⟨_, ?_, rfl⟩) fun ref =>
    .quiet_bind .freshId fun _ =>
    .quiet_bind (.modifyProcedure ref (fun _ => ⟨rfl, rfl, rfl⟩) fun _ => rfl) fun _ =>
    .quiet_bind (.typeOfShape (fun _ h => nomatch h)) fun _ =>
    .quiet_bind (.modifyProcedure ref (fun _ => ⟨rfl, rfl, rfl⟩) fun _ => rfl) fun _ => .pure rfl
  · rw [size_add, h.1]
    rfl
  · rw [h.3]
    simp [tally, Procedure.words, Gauge.procedure]
  · rw [h.4]
    simp [tally]
  · rw [size_add]
    exact hindex
  · intro p g other hother
    cases other with
    | procedures => exact absurd rfl hother
    | words => simp [count, tally, Procedure.words, Gauge.procedure]
    | _ => rfl
  · intro part
    cases part <;> rfl

theorem emit (op : Opcode) (operands : List UInt32) :
    Walk ρ (ref + 1) id id (emit ref op operands) (emit ref op operands) :=
  .charge ⟨op, operands⟩ .body (fun a part => by cases part <;> simp [Procedure.code])
    (fun _ => rfl) fun _ => rfl

theorem declareVariable (pointer : TypeRef) :
    Walk ρ least id id (declareVariable ref pointer) (declareVariable ref pointer) := by
  refine .found (.quiet_bind .freshId fun place => .quiet_bind
    (.view_same (fun _ _ => rfl) fun p => ρ.typeId p pointer) fun type => ?_)
  have hcharged : Walk ρ (ref + 1) id id
      (Build.charge ⟨.var, [type, place, functionStorage]⟩ >>= fun _ =>
        Build.modifyProcedure ref fun p =>
          { p with locals := p.locals.push ⟨.var, [type, place, functionStorage]⟩ })
      (Build.charge ⟨.var, [type, place, functionStorage]⟩ >>= fun _ =>
        Build.modifyProcedure ref fun p =>
          { p with locals := p.locals.push ⟨.var, [type, place, functionStorage]⟩ }) :=
    .charge _ .locals (fun a part => by cases part <;> simp [Procedure.code]) (fun _ => rfl)
      fun _ => rfl
  have hboth := hcharged.quiet_bind (g := id) (k := fun _ => Pure.pure place)
    (l := fun _ => Pure.pure place) fun _ => .pure rfl
  rw [bind_assoc] at hboth
  exact hboth

theorem store (pointer value : UInt32) :
    Walk ρ least id id (store ref pointer value) (store ref pointer value) := .found (.emit _ _)

theorem exit : Walk ρ least id id (exit ref) (exit ref) := .found (.emit _ _)

theorem exitValue (value : UInt32) :
    Walk ρ least id id (exitValue ref value) (exitValue ref value) := .found (.emit _ _)

theorem registerInterface (place : Local) :
    Walk ρ least id id (registerInterface ref place) (registerInterface ref (ρ.binding place)) := by
  obtain ⟨name, type, pointer, id', global⟩ := place
  cases global with
  | none => exact .pure rfl
  | some global =>
    exact .quiet_bind (.view (fun _ _ => rfl) fun p => ρ.globalAt p global) fun entry =>
      .find fun _ => .ite (.touch global) (.pure rfl)

theorem hasFloats (type : TypeRef) : Walk ρ least id id (hasFloats type) (hasFloats type) :=
  .quiet_bind (.view_same (fun _ _ => rfl) fun p => ρ.componentKind? p type) fun _ => .pure rfl

protected theorem mapM {x : α → Build α'} (h : ∀ a, Walk ρ least id id (x a) (x a)) (l : List α) :
    Walk ρ least id id (l.mapM x) (l.mapM x) := by
  induction l with
  | nil => exact .pure rfl
  | cons first rest ih =>
    rw [List.mapM_cons]
    exact .quiet_bind (h first) fun _ => .quiet_bind ih fun _ => .pure rfl

theorem expressionWithin (fuel : Nat) (e : ExprRef) :
    Walk ρ (ref + 1) id id (expressionWithin ref fuel e) (expressionWithin ref fuel e) := by
  induction fuel generalizing e with
  | zero => exact .throw _
  | succ fuel ih =>
    refine .quiet_bind (.view (fun _ _ => rfl) fun p => ρ.expressionAt p e) fun entry => ?_
    obtain ⟨kind, type⟩ := entry
    have hid : Walk ρ (ref + 1) id id (Build.view fun p => p.typeId type)
        (Build.view fun p => p.typeId type) := .view_same (fun _ _ => rfl) fun p => ρ.typeId p type
    cases kind with
    | unknown => exact .throw _
    | constant constant =>
      exact .quiet_bind (.view_same (fun _ _ => rfl) fun _ => rfl) fun _ => .pure rfl
    | load place =>
      exact .quiet_bind .freshId fun _ => .quiet_bind
        (.view_same (fun _ _ => rfl) fun p => ρ.typeId p place.type) fun _ =>
        .quiet_bind (.emit _ _) fun _ => .quiet_bind (.registerInterface place) fun _ => .pure rfl
    | vector elements =>
      exact .quiet_bind (.mapM ih elements) fun _ => .quiet_bind .freshId fun _ =>
        .quiet_bind hid fun _ => .quiet_bind (.emit _ _) fun _ => .pure rfl
    | sum op left right =>
      exact .quiet_bind (ih left) fun _ => .quiet_bind (ih right) fun _ =>
        .quiet_bind (.hasFloats type) fun _ => .quiet_bind .freshId fun _ =>
        .quiet_bind hid fun _ => .quiet_bind (.emit _ _) fun _ => .pure rfl
    | scale op scalar vector scalarFirst =>
      refine .quiet_bind (ih scalar) fun _ => .quiet_bind (ih vector) fun _ => .quiet_bind hid
        fun _ => .quiet_bind (.view_same (fun _ _ => rfl) fun p => ρ.componentKind? p type)
        fun _ => .ite ?_ ?_
      · exact .quiet_bind .freshId fun _ => .quiet_bind (.emit _ _) fun _ => .pure rfl
      · exact .quiet_bind (.view_same (fun _ _ => rfl) fun p => ρ.vector? p type) fun _ =>
          .quiet_bind .freshId fun _ => .quiet_bind (.emit _ _) fun _ => .quiet_bind .freshId
          fun _ => .quiet_bind (.emit _ _) fun _ => .pure rfl

theorem expression (e : ExprRef) :
    Walk ρ least id id (expression ref e) (expression ref e) := by
  refine .found (.read (fun _ _ => rfl) fun p => ?_)
  have hsize : (ρ.program p).expressions.size = p.expressions.size := size_map _ _
  rw [hsize]
  exact .expressionWithin _ e

theorem words_of_code {i : Instruction} {part : CodePart} {change : Procedure → Procedure}
    (h : ∀ a part', (change a).code part' = a.code part' ++ if part' = part then [i] else [])
    (a : Procedure) : (change a).words = a.words + i.wordCount := by
  change codeWords ((change a).code .locals) + codeWords ((change a).code .body) =
    codeWords (a.code .locals) + codeWords (a.code .body) + i.wordCount
  rw [h, h]
  cases part <;> simp <;> omega

/-- Every operation makes its demands whatever the limits are. -/
theorem uniform (h : Walk ρ least effect f x y) :
    Uniform least effect x := by
  induction h with
  | pure _ => exact .pure _
  | throw e => exact .throw e
  | bind _ _ ihx ihk => exact ihx.bind ihk
  | read hunder _ ih => exact .get hunder ih
  | find _ ih => exact .checked ih
  | freshId => exact .freshId
  | push _ _ _ h => exact .push h
  | modifyGlobal ref _ => exact .modifyGlobal ref _
  | modifyProcedure ref hcode _ =>
    refine .modifyProcedure ref (fun a => ?_) fun a => (hcode a).2.2
    rw [Procedure.words, (hcode a).1, (hcode a).2.1, Procedure.words]
  | charge i _ hcode hinterface _ => exact .charged i (words_of_code hcode) hinterface
  | touch global => exact .touch global

/-- Under other names an operation does to a renamed program what it does to the program. -/
theorem mirrors (h : Walk ρ least effect f x y) :
    Mirrors ρ f x y := by
  induction h with
  | pure h => exact .pure h
  | throw e => exact .throw e
  | bind _ _ ihx ihk => exact ihx.bind ihk
  | read _ _ ih => exact .get_bind ih
  | find _ ih => exact .find ih
  | freshId => exact .freshId
  | push _ rename _ _ hpool hput _ _ => exact .push rename hpool hput
  | modifyGlobal ref h => exact .modifyGlobal ref h
  | modifyProcedure ref _ h => exact .modifyProcedure ref h
  | charge i _ _ _ h => exact .bind (.charge i) fun _ => .modifyProcedure _ h
  | touch global =>
    exact .get_bind fun p => .ite (.bind (.set _) fun _ => .modifyProcedure _ fun _ => rfl)
      (.throw _)

end Walk

end Shading.Build
