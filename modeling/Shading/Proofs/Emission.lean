import Shading.Proofs.Expressions

/-!
Emitting code. A step that emits code changes one procedure, which gets more
declarations and more instructions at its end, and the ids that it takes are
those that the new instructions define. `Computes` tells which instructions
compute an expression, and emitting an expression appends such instructions.
-/

namespace Shading

open List Program

open Binary (Instruction Opcode idsFrom results)

variable {type : TypeRef} {u : Unit} {kind : Option ScalarKind} {e : ExprRef} {id : UInt32}
  {op : Opcode} {operands : List UInt32} {place : Local} {pointer : TypeRef}

structure Procedure.Continues (old new : Procedure) (vars code : List Instruction)
    (returned : Bool) : Prop where
  name : new.name = old.name
  id : new.id = old.id
  type : new.type = old.type
  result : new.result = old.result
  label : new.label = old.label
  locals : new.locals.toList = old.locals.toList ++ vars
  body : new.body.toList = old.body.toList ++ code
  returned : new.returned = (old.returned || returned)

namespace Procedure.Continues

variable {a b c : Procedure} {vars vars' code code' : List Instruction} {returned returned' : Bool}

theorem refl (a : Procedure) : a.Continues a [] [] false :=
  ⟨rfl, rfl, rfl, rfl, rfl, by simp, by simp, by simp⟩

theorem trans (hab : a.Continues b vars code returned) (hbc : b.Continues c vars' code' returned') :
    a.Continues c (vars ++ vars') (code ++ code') (returned || returned') := by
  refine ⟨hbc.name.trans hab.name, hbc.id.trans hab.id, hbc.type.trans hab.type,
    hbc.result.trans hab.result, hbc.label.trans hab.label, ?_, ?_, ?_⟩
  · rw [hbc.locals, hab.locals, append_assoc]
  · rw [hbc.body, hab.body, append_assoc]
  · rw [hbc.returned, hab.returned, Bool.or_assoc]

theorem resultIds (h : a.Continues b vars code returned) :
    b.resultIds.Perm (a.resultIds ++ (results vars ++ results code)) := by
  unfold Procedure.resultIds
  rw [h.id, h.label, h.locals, h.body]
  simp only [Binary.results_append, cons_append, append_assoc]
  refine .cons _ (.cons _ (.append_left _ ?_))
  rw [← append_assoc, ← append_assoc]
  exact perm_append_comm.append_right _

end Procedure.Continues

theorem perm_flatMap_modify {α β : Type} (f : α → List β) (change : α → α) {l : List α} {i : Nat}
    {a : α} {new : List β} (h : l[i]? = some a) (hf : (f (change a)).Perm (f a ++ new)) :
    ((l.modify i change).flatMap f).Perm (l.flatMap f ++ new) := by
  induction l generalizing i with
  | nil => simp at h
  | cons x xs ih =>
    cases i with
    | zero =>
      obtain rfl : x = a := by simpa using h
      simp only [modify_zero_cons, flatMap_cons]
      exact (hf.append_right _).trans (perm_insert _ _ _)
    | succ i =>
      simp only [modify_succ_cons, flatMap_cons, append_assoc]
      exact (ih (by simpa using h)).append_left _

namespace Program

variable {p q r : Program} {ref : ProcedureRef} {names names' : List Bytes}
  {vars vars' code code' : List Instruction} {returned returned' : Bool} {kept : Region → Prop}

structure Writes (ref : ProcedureRef) (names : List Bytes) (vars code : List Instruction)
    (returned : Bool) (p q : Program) : Prop where
  grows : Extends (· ≠ .procedure ref) names p q
  sound : p.Sound → q.Sound
  procedure : ∃ old new, p.procedures.get? ref = some old ∧ q.procedures.get? ref = some new ∧
    old.Continues new vars code returned

namespace Writes

theorem of_grows {old : Procedure} (h : p.Grows names q) (hq : q.Sound)
    (hold : p.procedures.get? ref = some old) : Writes ref names [] [] false p q :=
  ⟨.of_grows h, fun _ => hq, old, old, hold,
    (h.procedures ref trivial).trans hold, .refl old⟩

theorem refl {old : Procedure} (hold : p.procedures.get? ref = some old) :
    Writes ref [] [] [] false p p :=
  ⟨.refl p, id, old, old, hold, hold, .refl old⟩

theorem trans (hpq : Writes ref names vars code returned p q)
    (hqr : Writes ref names' vars' code' returned' q r) :
    Writes ref (names ++ names') (vars ++ vars') (code ++ code') (returned || returned') p r := by
  obtain ⟨old, mid, hold, hmid, hfirst⟩ := hpq.procedure
  obtain ⟨mid', new, hmid', hnew, hsecond⟩ := hqr.procedure
  obtain rfl : mid = mid' := Option.some.inj (hmid.symm.trans hmid')
  exact ⟨hpq.grows.trans hqr.grows, hqr.sound ∘ hpq.sound, old, new, hold, hnew,
    hfirst.trans hsecond⟩

theorem names_mono (h : Writes ref names vars code returned p q)
    (hnames : ∀ name ∈ names, name ∈ names') : Writes ref names' vars code returned p q :=
  { h with grows := h.grows.names_mono hnames }

end Writes

def edit (p : Program) (ref : ProcedureRef) (change : Procedure → Procedure) (count : Nat)
    (words : WordBudget) (used : Nat) : Program :=
  { p with
    procedures := p.procedures.modify ref change
    nextId := p.nextId + UInt32.ofNat count
    words
    interfacesUsed := used }

theorem writes_edit {old : Procedure} {change : Procedure → Procedure} {count : Nat}
    {words : WordBudget} {used : Nat} (hold : p.procedures.get? ref = some old)
    (hchange : old.Continues (change old) vars code returned)
    (hids : results vars ++ results code = idsFrom p.nextId count) :
    Writes ref [] vars code returned p (p.edit ref change count words used) := by
  have hprocedures : (p.edit ref change count words used).procedures =
      p.procedures.modify ref change := rfl
  refine ⟨⟨rfl, prefix_refl _, prefix_refl _, prefix_refl _, prefix_refl _,
    prefix_refl _, fun _ => rfl, fun _ => rfl, fun _ => rfl, ?_, fun _ h => .inl h, count, rfl,
    ?_⟩, fun hp => hp.congr rfl rfl, old, change old, hold, ?_, hchange⟩
  · intro other hother
    have hne : ref ≠ other := fun heq => hother (congrArg Region.procedure heq.symm)
    rw [hprocedures, Arena.get?_modify_ne _ _ hne]
  · have hperm := perm_flatMap_modify Procedure.resultIds change
      (by rw [← Arena.get?_eq]; exact hold) hchange.resultIds
    rw [hids] at hperm
    unfold resultIds
    rw [hprocedures, Arena.toList_modify]
    simp only [cons_append, append_assoc]
    exact .cons _ (.append_left _ (.append_left _ (.append_left _ hperm)))
  · rw [hprocedures]
    exact Arena.get?_modify_eq change hold

inductive Computes (p : Program) : ExprRef → List Instruction → UInt32 → Prop
  | constant {e : ExprRef} {ref : ConstantRef} {type : TypeRef} {constant : Constant} :
      p.expressions.get? e = some ⟨.constant ref, type⟩ →
      p.constants.get? ref = some constant →
      Computes p e [] constant.id
  | load {e : ExprRef} {place : Local} {type : TypeRef} {typeId id : UInt32} :
      p.expressions.get? e = some ⟨.load place, type⟩ → p.typeId place.type = .ok typeId →
      Computes p e [⟨.load, [typeId, id, place.id]⟩] id
  | vector {e : ExprRef} {elements : List ExprRef} {type : TypeRef} {typeId id : UInt32}
      {parts : List (List Instruction × UInt32)} :
      p.expressions.get? e = some ⟨.vector elements, type⟩ →
      elements.length = parts.length →
      (∀ pair ∈ elements.zip parts, Computes p pair.1 pair.2.1 pair.2.2) →
      p.typeId type = .ok typeId → elements.length < Binary.maxInstructionWords →
      Computes p e
        (parts.flatMap (·.1) ++ [⟨.compositeConstruct, typeId :: id :: parts.map (·.2)⟩]) id
  | sum {e left right : ExprRef} {op : SumOperator} {type : TypeRef} {typeId id l r : UInt32}
      {kind : Option ScalarKind} {before after : List Instruction} :
      p.expressions.get? e = some ⟨.sum op left right, type⟩ →
      Computes p left before l → Computes p right after r →
      p.componentKind? type = .ok kind → p.typeId type = .ok typeId →
      Computes p e (before ++ after ++
        [⟨Build.sumOpcode op ((kind.map (·.isFloat)).getD false), [typeId, id, l, r]⟩]) id
  | scaled {e scalar vector : ExprRef} {op : ScaleOperator} {scalarFirst : Bool} {type : TypeRef}
      {typeId id s v : UInt32} {kind : Option ScalarKind} {before after : List Instruction} :
      p.expressions.get? e = some ⟨.scale op scalar vector scalarFirst, type⟩ →
      Computes p scalar before s → Computes p vector after v →
      p.componentKind? type = .ok kind → p.typeId type = .ok typeId →
      op = .multiply → (kind.map (·.isFloat)).getD false = true →
      Computes p e (before ++ after ++ [⟨.vectorTimesScalar, [typeId, id, v, s]⟩]) id
  | spread {e scalar vector : ExprRef} {op : ScaleOperator} {scalarFirst : Bool} {type : TypeRef}
      {typeId spread id s v : UInt32} {kind : Option ScalarKind}
      {shape : Option (TypeRef × UInt32)} {before after : List Instruction} :
      p.expressions.get? e = some ⟨.scale op scalar vector scalarFirst, type⟩ →
      Computes p scalar before s → Computes p vector after v →
      p.componentKind? type = .ok kind → p.vector? type = .ok shape →
      p.typeId type = .ok typeId →
      ¬(op = .multiply ∧ (kind.map (·.isFloat)).getD false = true) →
      Computes p e (before ++ after ++
        [⟨.compositeConstruct,
            typeId :: spread :: List.replicate ((shape.map Prod.snd).getD 0).toNat s⟩,
          ⟨Build.scaleOpcode op kind,
            typeId :: id :: if scalarFirst then [spread, v] else [v, spread]⟩]) id

theorem Extends.typeAt (h : Extends kept names p q) {entry : TypeEntry}
    (hentry : p.typeAt type = .ok entry) : q.typeAt type = .ok entry :=
  typeAt_ok.mpr (Arena.get?_mono h.types (typeAt_ok.mp hentry))

theorem Extends.vector? (h : Extends kept names p q) {shape : Option (TypeRef × UInt32)}
    (hshape : p.vector? type = .ok shape) :
    q.vector? type = .ok shape := by
  unfold Program.vector? at hshape ⊢
  cases hentry : p.typeAt type with
  | error e => simp [hentry, bind, Except.bind] at hshape
  | ok entry =>
    rw [h.typeAt hentry]
    rwa [hentry] at hshape

theorem Extends.scalarKind? (h : Extends kept names p q) (hkind : p.scalarKind? type = .ok kind) :
    q.scalarKind? type = .ok kind := by
  unfold Program.scalarKind? at hkind ⊢
  cases hentry : p.typeAt type with
  | error e => simp [hentry, bind, Except.bind] at hkind
  | ok entry =>
    rw [h.typeAt hentry]
    rwa [hentry] at hkind

theorem Extends.componentKind? (h : Extends kept names p q)
    (hkind : p.componentKind? type = .ok kind) : q.componentKind? type = .ok kind := by
  unfold Program.componentKind? at hkind ⊢
  cases hshape : p.vector? type with
  | error e => simp [hshape, bind, Except.bind] at hkind
  | ok shape =>
    rw [h.vector? hshape]
    rw [hshape] at hkind
    cases shape with
    | none => exact h.scalarKind? hkind
    | some vector => exact h.scalarKind? hkind

theorem Computes.mono (h : Extends kept names p q) (hc : p.Computes e code id) :
    q.Computes e code id := by
  induction hc with
  | constant hentry hconstant => exact .constant (h.expression hentry) (h.constant hconstant)
  | load hentry htype => exact .load (h.expression hentry) (h.typeId htype)
  | vector hentry hlength _ htype hshort ih =>
    exact .vector (h.expression hentry) hlength ih (h.typeId htype) hshort
  | sum hentry _ _ hkind htype ihl ihr =>
    exact .sum (h.expression hentry) ihl ihr (h.componentKind? hkind) (h.typeId htype)
  | scaled hentry _ _ hkind htype hop hfloat ihs ihv =>
    exact .scaled (h.expression hentry) ihs ihv (h.componentKind? hkind) (h.typeId htype) hop hfloat
  | spread hentry _ _ hkind hshape htype hop ihs ihv =>
    exact .spread (h.expression hentry) ihs ihv (h.componentKind? hkind) (h.vector? hshape)
      (h.typeId htype) hop

end Program

namespace Build

variable {p q r : Program} {ref : ProcedureRef} {old : Procedure}
  {code code' : List Instruction}

theorem procedure_ok {found : Procedure} :
    procedure ref p = .ok found q ↔ p.procedures.get? ref = some found ∧ p = q := by
  unfold procedure
  rw [view_ok, procedureAt_ok]

theorem reserve_ok {count : Int64} (h : reserve count p = .ok u q) :
    ∃ words, q = { p with words } := by
  simp only [reserve, bind_ok, get_ok] at h
  obtain ⟨_, _, ⟨rfl, rfl⟩, h⟩ := h
  cases hwords : p.words.reserve count with
  | ok words =>
    rw [hwords] at h
    exact ⟨words, (set_ok.mp h).symm⟩
  | error e =>
    rw [hwords] at h
    exact (throw_ok.mp h).elim

theorem charge_ok {i : Instruction} (h : charge i p = .ok u q) :
    i.isEncodable = true ∧ ∃ words, q = { p with words } := by
  simp only [charge, bind_ok, ite_ok, pure_ok, throw_ok, and_false, or_false] at h
  obtain ⟨_, r, hreserve, hencodable, -, rfl⟩ := h
  exact ⟨hencodable, reserve_ok hreserve⟩

theorem emit_ok (h : emit ref op operands p = .ok u q) :
    (⟨op, operands⟩ : Instruction).isEncodable = true ∧
      ∃ words, q = p.edit ref (fun a => { a with body := a.body.push ⟨op, operands⟩ }) 0 words
        p.interfacesUsed := by
  simp only [emit, modifyProcedure, bind_ok, modify_ok] at h
  obtain ⟨_, r, hcharge, rfl⟩ := h
  obtain ⟨hencodable, words, rfl⟩ := charge_ok hcharge
  refine ⟨hencodable, words, ?_⟩
  simp [edit]

theorem continues_push (old : Procedure) (i : Instruction) :
    old.Continues { old with body := old.body.push i } [] [i] false :=
  ⟨rfl, rfl, rfl, rfl, rfl, by simp, by simp, by simp⟩

theorem emit_writes (h : emit ref op operands p = .ok u q) (hold : p.procedures.get? ref = some old)
    (hresult : (⟨op, operands⟩ : Instruction).result? = none) :
    p.Writes ref [] [] [⟨op, operands⟩] false q := by
  obtain ⟨-, words, rfl⟩ := emit_ok h
  refine writes_edit hold (continues_push old _) ?_
  simp [Binary.results_cons, hresult]

/-- Code for a value takes the next ids, one for each instruction. -/
structure Emitted (ref : ProcedureRef) (code : List Instruction) (p q : Program) : Prop
    extends p.Writes ref [] [] code false q where
  nextId : q.nextId = p.nextId + UInt32.ofNat code.length
  ids : results code = idsFrom p.nextId code.length
  encodable : ∀ i ∈ code, i.isEncodable = true

namespace Emitted

theorem refl (hold : p.procedures.get? ref = some old) : Emitted ref [] p p :=
  ⟨.refl hold, by simp, rfl, by simp⟩

theorem trans (hpq : Emitted ref code p q) (hqr : Emitted ref code' q r) :
    Emitted ref (code ++ code') p r := by
  refine ⟨hpq.toWrites.trans hqr.toWrites, ?_, ?_, ?_⟩
  · rw [hqr.nextId, hpq.nextId, length_append, UInt32.ofNat_add, UInt32.add_assoc]
  · rw [Binary.results_append, hpq.ids, hqr.ids, hpq.nextId, length_append, Binary.idsFrom_add]
  · exact forall_mem_append.mpr ⟨hpq.encodable, hqr.encodable⟩

end Emitted

theorem emit_fresh (h : emit ref op operands { p with nextId := p.nextId + 1 } = .ok u q)
    (hold : p.procedures.get? ref = some old)
    (hresult : (⟨op, operands⟩ : Instruction).result? = some p.nextId) :
    Emitted ref [⟨op, operands⟩] p q := by
  obtain ⟨hencodable, words, hq⟩ := emit_ok h
  have hedit : q = p.edit ref (fun a => { a with body := a.body.push ⟨op, operands⟩ }) 1 words
      p.interfacesUsed := by
    rw [hq]
    simp [edit]
  rw [hedit]
  refine ⟨writes_edit hold (continues_push old _) ?_, by simp [edit], ?_, by simpa using hencodable⟩
  · simp [Binary.results_cons, hresult]
  · simp [Binary.results_cons, hresult]

theorem registerInterface_edit (h : registerInterface ref place p = .ok u q)
    (hold : p.procedures.get? ref = some old) :
    (∃ global g, place.global = some global ∧ p.globals.get? global = some g ∧
      g.direction.isInterface = true ∧ global ∉ old.interface ∧
      q = p.edit ref (fun a => { a with interface := a.interface.push global }) 0 p.words
        (p.interfacesUsed + 1)) ∨
    (p = q ∧ ∀ global, place.global = some global → ∃ g, p.globals.get? global = some g ∧
      (g.direction.isInterface = true → global ∈ old.interface)) := by
  unfold registerInterface at h
  cases hglobal : place.global with
  | none =>
    rw [hglobal] at h
    obtain ⟨-, rfl⟩ := pure_ok.mp h
    exact .inr ⟨rfl, fun _ hsome => by cases hsome⟩
  | some global =>
    rw [hglobal] at h
    simp only [bind_ok, view_ok, globalAt_ok, procedure_ok, ite_ok, get_ok, set_ok,
      modifyProcedure, modify_ok, throw_ok, pure_ok, and_false, or_false, Bool.and_eq_true,
      Bool.not_eq_true'] at h
    obtain ⟨g, _, ⟨hg, rfl⟩, found, _, ⟨hfound, rfl⟩, h⟩ := h
    obtain rfl : old = found := Option.some.inj (hold.symm.trans hfound)
    rcases h with ⟨⟨hshared, hnew⟩, _, _, ⟨rfl, rfl⟩, -, _, _, rfl, hq⟩ | ⟨hnot, -, rfl⟩
    · refine .inl ⟨global, g, rfl, hg, hshared, by simpa using hnew, ?_⟩
      rw [← hq]
      simp [edit]
    · refine .inr ⟨rfl, fun _ hsome => ?_⟩
      cases hsome
      refine ⟨g, hg, fun hshared => Decidable.byContradiction fun hnew => ?_⟩
      exact hnot ⟨hshared, by simpa using hnew⟩

theorem registerInterface_writes (h : registerInterface ref place p = .ok u q)
    (hold : p.procedures.get? ref = some old) : p.Writes ref [] [] [] false q := by
  rcases registerInterface_edit h hold with ⟨global, g, -, -, -, -, rfl⟩ | ⟨rfl, -⟩
  · refine writes_edit hold ?_ (by simp)
    exact ⟨rfl, rfl, rfl, rfl, rfl, by simp, by simp, by simp⟩
  · exact .refl hold

theorem registerInterface_emitted (h : registerInterface ref place p = .ok u q)
    (hold : p.procedures.get? ref = some old) : Emitted ref [] p q := by
  refine ⟨registerInterface_writes h hold, ?_, rfl, by simp⟩
  rcases registerInterface_edit h hold with ⟨global, g, -, -, -, -, rfl⟩ | ⟨rfl, -⟩
  · simp [edit]
  · simp

theorem hasFloats_ok {float : Bool} (h : hasFloats type p = .ok float q) :
    ∃ kind, p.componentKind? type = .ok kind ∧ float = (kind.map (·.isFloat)).getD false ∧
      p = q := by
  simp only [hasFloats, bind_ok, view_ok, pure_ok] at h
  obtain ⟨kind, _, ⟨hkind, rfl⟩, rfl, rfl⟩ := h
  exact ⟨kind, hkind, rfl, rfl⟩

theorem result?_sum (op : SumOperator) (float : Bool) (type id l r : UInt32) :
    (⟨sumOpcode op float, [type, id, l, r]⟩ : Instruction).result? = some id := by
  cases op <;> cases float <;> rfl

theorem result?_scale (op : ScaleOperator) (kind : Option ScalarKind) (type id : UInt32)
    (operands : List UInt32) :
    (⟨scaleOpcode op kind, type :: id :: operands⟩ : Instruction).result? = some id := by
  unfold scaleOpcode
  split <;> rfl

def EmitsWithin (ref : ProcedureRef) (fuel : Nat) : Prop :=
  ∀ {p q : Program} {old : Procedure} {e : ExprRef} {id : UInt32},
    expressionWithin ref fuel e p = .ok id q → p.procedures.get? ref = some old →
    ∃ code, Emitted ref code p q ∧ q.Computes e code id

theorem mapM_emitted {fuel : Nat} (ih : EmitsWithin ref fuel) {elements : List ExprRef}
    {values : List UInt32} (h : elements.mapM (expressionWithin ref fuel) p = .ok values q)
    (hold : p.procedures.get? ref = some old) :
    ∃ parts : List (List Instruction × UInt32),
      Emitted ref (parts.flatMap (·.1)) p q ∧ values = parts.map (·.2) ∧
      elements.length = parts.length ∧
      ∀ pair ∈ elements.zip parts, q.Computes pair.1 pair.2.1 pair.2.2 := by
  induction elements generalizing p old values with
  | nil =>
    obtain ⟨rfl, rfl⟩ := pure_ok.mp h
    exact ⟨[], .refl hold, rfl, rfl, nofun⟩
  | cons e rest ihrest =>
    simp only [mapM_cons, bind_ok, pure_ok] at h
    obtain ⟨id, r, hfirst, ids, _, hothers, rfl, rfl⟩ := h
    obtain ⟨code, hwrites, hcomputes⟩ := ih hfirst hold
    obtain ⟨-, new, -, hnew, -⟩ := hwrites.procedure
    obtain ⟨parts, hmore, rfl, hlength, hparts⟩ := ihrest hothers hnew
    refine ⟨(code, id) :: parts, hwrites.trans hmore, rfl, by simp [hlength], ?_⟩
    intro pair hpair
    rw [zip_cons_cons, mem_cons] at hpair
    rcases hpair with rfl | hpair
    · exact hcomputes.mono hmore.grows
    · exact hparts pair hpair

theorem emitsWithin (ref : ProcedureRef) (fuel : Nat) : EmitsWithin ref fuel := by
  induction fuel with
  | zero =>
    intro p q old e id h
    exact (throw_ok.mp h).elim
  | succ fuel ih =>
    intro p q old e id h hold
    simp only [expressionWithin, bind_ok, view_ok, expressionAt_ok] at h
    obtain ⟨⟨kind, type⟩, _, ⟨hentry, rfl⟩, h⟩ := h
    cases kind with
    | unknown => exact (throw_ok.mp h).elim
    | constant ref =>
      simp only [bind_ok, view_ok, constantAt_ok, pure_ok] at h
      obtain ⟨constant, _, ⟨hconstant, rfl⟩, rfl, rfl⟩ := h
      exact ⟨[], .refl hold, .constant hentry hconstant⟩
    | load place =>
      simp only [bind_ok, freshId_ok, view_ok, pure_ok] at h
      obtain ⟨_, _, ⟨rfl, rfl⟩, typeId, _, ⟨htype, rfl⟩, _, r, hemit, _, _, htouch, rfl, rfl⟩ := h
      have hload := emit_fresh hemit hold rfl
      obtain ⟨-, new, -, hnew, -⟩ := hload.procedure
      have hwrites := hload.trans (registerInterface_emitted htouch hnew)
      exact ⟨_, hwrites, .load (hwrites.grows.expression hentry) (hwrites.grows.typeId htype)⟩
    | vector elements =>
      simp only [bind_ok, freshId_ok, view_ok, pure_ok] at h
      obtain ⟨values, r, helements, _, _, ⟨rfl, rfl⟩, typeId, _, ⟨htype, rfl⟩, _, _, hemit, rfl,
        rfl⟩ := h
      obtain ⟨parts, hparts, rfl, hlength, hcomputes⟩ := mapM_emitted ih helements hold
      obtain ⟨-, new, -, hnew, -⟩ := hparts.procedure
      have hconstruct := emit_fresh hemit hnew rfl
      have hwrites := hparts.trans hconstruct
      -- An instruction has a limited number of words, and each element takes one.
      have hshort : elements.length < Binary.maxInstructionWords := by
        have hencodable := of_decide_eq_true (emit_ok hemit).1
        simp only [Instruction.wordCount, length_cons, length_map] at hencodable
        omega
      refine ⟨_, hwrites, .vector (hwrites.grows.expression hentry) hlength ?_
        (hconstruct.grows.typeId htype) hshort⟩
      intro pair hpair
      exact (hcomputes pair hpair).mono hconstruct.grows
    | sum op left right =>
      simp only [bind_ok, freshId_ok, view_ok, pure_ok] at h
      obtain ⟨l, r, hleft, m, u, hright, float, _, hfloat, _, _, ⟨rfl, rfl⟩, typeId, _,
        ⟨htype, rfl⟩, _, _, hemit, rfl, rfl⟩ := h
      obtain ⟨kind, hkind, rfl, rfl⟩ := hasFloats_ok hfloat
      obtain ⟨before, hbefore, hl⟩ := ih hleft hold
      obtain ⟨-, mid, -, hmid, -⟩ := hbefore.procedure
      obtain ⟨after, hafter, hr⟩ := ih hright hmid
      obtain ⟨-, new, -, hnew, -⟩ := hafter.procedure
      have hlast := emit_fresh hemit hnew (result?_sum _ _ _ _ _ _)
      have hwrites := (hbefore.trans hafter).trans hlast
      exact ⟨_, hwrites, .sum (hwrites.grows.expression hentry)
        ((hl.mono hafter.grows).mono hlast.grows) (hr.mono hlast.grows)
        (hlast.grows.componentKind? hkind) (hlast.grows.typeId htype)⟩
    | scale op scalar vector scalarFirst =>
      simp only [bind_ok, view_ok] at h
      obtain ⟨s, r, hscalar, v, u, hvector, typeId, _, ⟨htype, rfl⟩, kind, _, ⟨hkind, rfl⟩, h⟩ := h
      obtain ⟨before, hbefore, hs⟩ := ih hscalar hold
      obtain ⟨-, mid, -, hmid, -⟩ := hbefore.procedure
      obtain ⟨after, hafter, hv⟩ := ih hvector hmid
      obtain ⟨-, new, -, hnew, -⟩ := hafter.procedure
      simp only [ite_ok, Bool.and_eq_true, decide_eq_true_eq, bind_ok, freshId_ok, view_ok,
        pure_ok] at h
      -- Floats have an instruction for products; otherwise the scalar is spread first.
      rcases h with ⟨⟨rfl, hfloat⟩, _, _, ⟨rfl, rfl⟩, _, _, hemit, rfl, rfl⟩ |
        ⟨hother, shape, _, ⟨hshape, rfl⟩, _, _, ⟨rfl, rfl⟩, _, w, hspread, _, _, ⟨rfl, rfl⟩, _,
          _, hemit, rfl, rfl⟩
      · have hlast := emit_fresh hemit hnew rfl
        have hwrites := (hbefore.trans hafter).trans hlast
        exact ⟨_, hwrites, .scaled (hwrites.grows.expression hentry)
          ((hs.mono hafter.grows).mono hlast.grows) (hv.mono hlast.grows)
          (hlast.grows.componentKind? hkind) (hlast.grows.typeId htype) rfl hfloat⟩
      · have hsplat := emit_fresh hspread hnew rfl
        obtain ⟨-, wide, -, hwide, -⟩ := hsplat.procedure
        have hlast := hsplat.trans (emit_fresh hemit hwide (result?_scale _ _ _ _ _))
        have hwrites := (hbefore.trans hafter).trans hlast
        exact ⟨_, hwrites, .spread (hwrites.grows.expression hentry)
          ((hs.mono hafter.grows).mono hlast.grows) (hv.mono hlast.grows)
          (hlast.grows.componentKind? hkind) (hlast.grows.vector? hshape)
          (hlast.grows.typeId htype) hother⟩

theorem expression_emitted (h : expression ref e p = .ok id q) :
    ∃ code, Emitted ref code p q ∧ q.Computes e code id := by
  simp only [expression, bind_ok, discard_ok, procedure_ok, get_ok] at h
  obtain ⟨_, _, ⟨old, hold, rfl⟩, _, _, ⟨rfl, rfl⟩, h⟩ := h
  exact emitsWithin ref _ h hold

theorem expression_ok (h : expression ref e p = .ok id q) :
    ∃ code, p.Writes ref [] [] code false q ∧ q.Computes e code id := by
  obtain ⟨code, hemitted, hcomputes⟩ := expression_emitted h
  exact ⟨code, hemitted.toWrites, hcomputes⟩

theorem declareVariable_edit (h : declareVariable ref pointer p = .ok id q) :
    ∃ old typeId words, p.procedures.get? ref = some old ∧ p.typeId pointer = .ok typeId ∧
      id = p.nextId ∧ q = p.edit ref (fun a => { a with
        locals := a.locals.push ⟨.var, [typeId, id, functionStorage]⟩ }) 1 words
        p.interfacesUsed := by
  simp only [declareVariable, bind_ok, discard_ok, procedure_ok, freshId_ok, view_ok,
    modifyProcedure, modify_ok, pure_ok] at h
  obtain ⟨_, _, ⟨old, hold, rfl⟩, _, _, ⟨rfl, rfl⟩, typeId, _, ⟨htype, rfl⟩, _, r, hcharge, _, w,
    hq, rfl, rfl⟩ := h
  obtain ⟨-, words, rfl⟩ := charge_ok hcharge
  exact ⟨old, typeId, words, hold, htype, rfl, hq.symm⟩

theorem declareVariable_ok (h : declareVariable ref pointer p = .ok id q) :
    ∃ typeId, p.typeId pointer = .ok typeId ∧
      p.Writes ref [] [⟨.var, [typeId, id, functionStorage]⟩] [] false q := by
  obtain ⟨old, typeId, words, hold, htype, rfl, rfl⟩ := declareVariable_edit h
  refine ⟨typeId, htype, writes_edit hold ?_ ?_⟩
  · exact ⟨rfl, rfl, rfl, rfl, rfl, by simp, by simp, by simp⟩
  · simp [Binary.results_cons]

theorem store_ok {pointer value : UInt32} (h : store ref pointer value p = .ok u q) :
    p.Writes ref [] [] [⟨.store, [pointer, value]⟩] false q := by
  simp only [store, bind_ok, discard_ok, procedure_ok] at h
  obtain ⟨_, _, ⟨old, hold, rfl⟩, h⟩ := h
  exact emit_writes h hold rfl

theorem returned_edit (h : modifyProcedure ref (fun a => { a with returned := true }) p = .ok u q) :
    q = p.edit ref (fun a => { a with returned := true }) 0 p.words p.interfacesUsed := by
  rw [← modify_ok.mp h]
  simp [edit]

theorem returned_writes (hold : p.procedures.get? ref = some old)
    (h : modifyProcedure ref (fun a => { a with returned := true }) p = .ok u q) :
    p.Writes ref [] [] [] true q := by
  rw [returned_edit h]
  refine writes_edit hold ?_ (by simp)
  exact ⟨rfl, rfl, rfl, rfl, rfl, by simp, by simp, by simp⟩

theorem exit_ok (h : exit ref p = .ok u q) : p.Writes ref [] [] [⟨.exit, []⟩] false q := by
  simp only [exit, bind_ok, discard_ok, procedure_ok] at h
  obtain ⟨_, _, ⟨old, hold, rfl⟩, h⟩ := h
  exact emit_writes h hold rfl

theorem exitValue_ok {value : UInt32} (h : exitValue ref value p = .ok u q) :
    p.Writes ref [] [] [⟨.exitValue, [value]⟩] false q := by
  simp only [exitValue, bind_ok, discard_ok, procedure_ok] at h
  obtain ⟨_, _, ⟨old, hold, rfl⟩, h⟩ := h
  exact emit_writes h hold rfl

end Build

end Shading
