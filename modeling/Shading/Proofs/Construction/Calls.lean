import Shading.Proofs.Assembly

/-!
Programs that are built call by call. A call adds entries to the pools, changes
one of them, or emits code into a procedure. What a call emits is told without
the code that is there already, and every call appends exactly that: the code
of a procedure is what the calls emitted into it, in their order.
-/

namespace Shading

open List Build

open Binary (Instruction)

variable {name : Bytes} {u : Unit}

inductive CodePart where
  | locals
  | body
  deriving DecidableEq

/-- An instruction that was emitted into a procedure. -/
structure Emission where
  procedure : ProcedureRef
  part : CodePart
  instruction : Instruction

def emittedInto (log : List Emission) (ref : ProcedureRef) (part : CodePart) : List Instruction :=
  (log.filter fun e => e.procedure = ref ∧ e.part = part).map (·.instruction)

@[simp] theorem emittedInto_nil (ref : ProcedureRef) (part : CodePart) :
    emittedInto [] ref part = [] := rfl

@[simp] theorem emittedInto_append (log more : List Emission) (ref : ProcedureRef)
    (part : CodePart) :
    emittedInto (log ++ more) ref part = emittedInto log ref part ++ emittedInto more ref part := by
  simp [emittedInto]

def emissions (ref : ProcedureRef) (part : CodePart) (code : List Instruction) : List Emission :=
  code.map fun i => ⟨ref, part, i⟩

@[simp] theorem emittedInto_emissions (ref : ProcedureRef) (part : CodePart)
    (code : List Instruction) : emittedInto (emissions ref part code) ref part = code := by
  have hkept : (emissions ref part code).filter (fun e => e.procedure = ref ∧ e.part = part) =
      emissions ref part code := by
    rw [filter_eq_self]
    simp [emissions]
  rw [emittedInto, hkept, emissions, map_map]
  exact map_id code

theorem emittedInto_emissions_of_ne {ref other : ProcedureRef} {part part' : CodePart}
    (h : ¬(ref = other ∧ part = part')) (code : List Instruction) :
    emittedInto (emissions ref part code) other part' = [] := by
  have hnone : (emissions ref part code).filter
      (fun e => e.procedure = other ∧ e.part = part') = [] := by
    rw [filter_eq_nil_iff]
    intro e he
    obtain ⟨i, -, rfl⟩ := mem_map.mp he
    simpa using h
  rw [emittedInto, hnone, map_nil]

def Procedure.code (procedure : Procedure) : CodePart → List Instruction
  | .locals => procedure.locals.toList
  | .body => procedure.body.toList

namespace Program

variable {p q r : Program} {ref : ProcedureRef}

def codeAt (p : Program) (ref : ProcedureRef) (part : CodePart) : List Instruction :=
  ((p.procedures.get? ref).map (·.code part)).getD []

theorem codeAt_of_get? {procedure : Procedure} (h : p.procedures.get? ref = some procedure)
    (part : CodePart) : p.codeAt ref part = procedure.code part := by
  rw [codeAt, h]
  rfl

def Gains (log : List Emission) (p q : Program) : Prop :=
  ∀ ref part, q.codeAt ref part = p.codeAt ref part ++ emittedInto log ref part

namespace Gains

theorem of_procedures (h : q.procedures = p.procedures) : Gains [] p q := by
  intro ref part
  rw [codeAt, h, emittedInto_nil, append_nil, codeAt]

theorem trans {log more : List Emission} (hpq : Gains log p q) (hqr : Gains more q r) :
    Gains (log ++ more) p r := by
  intro ref part
  rw [hqr, hpq, emittedInto_append, append_assoc]

theorem of_modify {change : Procedure → Procedure}
    (h : q.procedures = p.procedures.modify ref change)
    (hcode : ∀ procedure part, (change procedure).code part = procedure.code part) :
    Gains [] p q := by
  intro other part
  rw [emittedInto_nil, append_nil, codeAt, codeAt, h]
  by_cases hother : ref = other
  · subst hother
    cases hget : p.procedures.get? ref with
    | none =>
      have hnone : (p.procedures.modify ref change).get? ref = none := by
        rw [Arena.get?_eq, Arena.toList_modify, getElem?_modify_eq, ← Arena.get?_eq, hget]
        rfl
      rw [hnone]
    | some procedure =>
      rw [Arena.get?_modify_eq change hget]
      exact hcode procedure part
  · rw [Arena.get?_modify_ne _ _ hother]

theorem of_add {new : Procedure} (h : q.procedures.toList = p.procedures.toList ++ [new])
    (hnew : ∀ part, new.code part = []) : Gains [] p q := by
  intro ref part
  rw [emittedInto_nil, append_nil, codeAt, codeAt, Arena.get?_eq, Arena.get?_eq, h]
  rcases Nat.lt_trichotomy ref p.procedures.toList.length with hlt | rfl | hgt
  · rw [getElem?_append_left hlt]
  · rw [getElem?_concat_length, getElem?_eq_none (Nat.le_refl _)]
    exact hnew part
  · rw [getElem?_eq_none (by rw [length_append, length_singleton]; omega),
      getElem?_eq_none (by omega)]

theorem of_writes {names : List Bytes} {vars code : List Instruction} {returned : Bool}
    (h : p.Writes ref names vars code returned q) :
    Gains (emissions ref .locals vars ++ emissions ref .body code) p q := by
  obtain ⟨old, new, hold, hnew, hcontinues⟩ := h.procedure
  intro other part
  rw [emittedInto_append]
  by_cases hother : ref = other
  · subst hother
    rw [codeAt_of_get? hold, codeAt_of_get? hnew]
    cases part with
    | locals =>
      rw [emittedInto_emissions, emittedInto_emissions_of_ne (by simp), append_nil]
      exact hcontinues.locals
    | body =>
      rw [emittedInto_emissions, emittedInto_emissions_of_ne (by simp), nil_append]
      exact hcontinues.body
  · have hkept : q.procedures.get? other = p.procedures.get? other := by
      refine h.grows.procedures other fun heq => hother ?_
      cases heq
      rfl
    rw [emittedInto_emissions_of_ne (fun hboth => hother hboth.1),
      emittedInto_emissions_of_ne (fun hboth => hother hboth.1), codeAt, codeAt, hkept]
    simp

end Gains

end Program

/-- The calls that build a program. -/
inductive Call where
  | vectorType (component : TypeRef) (size : UInt32)
  | pointerType (base : TypeRef) (storage : StorageClass)
  | procedureType (result : TypeRef)
  | recordType (name : Bytes) (members : List Member)
  | namedType (name : Bytes)
  | floatConstant (bits : UInt32)
  | addExpression (kind : ExprKind) (type : TypeRef)
  | addGlobal (global : Global)
  | setGlobal (ref : GlobalRef) (global : Global)
  | addProcedure (name : Bytes) (result : TypeRef)
  | markReturned (ref : ProcedureRef)
  | addEntryPoint (entry : EntryPoint)
  | registerInterface (ref : ProcedureRef) (place : Local)
  | openBlock (ref : ProcedureRef)
  | declareVariable (ref : ProcedureRef) (pointer : TypeRef)
  | expression (ref : ProcedureRef) (e : ExprRef)
  | store (ref : ProcedureRef) (pointer value : UInt32)
  | exit (ref : ProcedureRef)
  | exitValue (ref : ProcedureRef) (value : UInt32)

namespace Call

/-- Makes a call. What it gives is left out. -/
def run : Call → Build Unit
  | .vectorType component size => discard <| Build.vectorType component size
  | .pointerType base storage => discard <| Build.pointerType base storage
  | .procedureType result => discard <| Build.procedureType result
  | .recordType name members => discard <| Build.addType name (.record members)
  | .namedType name => discard <| Build.namedType name
  | .floatConstant bits => discard <| Build.floatConstant bits
  | .addExpression kind type => discard <| Build.addExpression kind type
  | .addGlobal global => discard <| Build.addGlobal global
  | .setGlobal ref global => Build.modifyGlobal ref fun _ => global
  | .addProcedure name result => discard <| Build.addProcedure name result
  | .markReturned ref => Build.modifyProcedure ref fun p => { p with returned := true }
  | .addEntryPoint entry => discard <| Build.addEntryPoint entry
  | .registerInterface ref place => Build.registerInterface ref place
  | .openBlock ref => Build.openBlock ref
  | .declareVariable ref pointer => discard <| Build.declareVariable ref pointer
  | .expression ref e => discard <| Build.expression ref e
  | .store ref pointer value => Build.store ref pointer value
  | .exit ref => Build.exit ref
  | .exitValue ref value => Build.exitValue ref value

/-- Makes calls one after the other. -/
def runAll : List Call → Build Unit
  | [] => pure ()
  | call :: calls => do
    call.run
    runAll calls

def Emits (p q : Program) : Call → List Emission → Prop
  | .declareVariable ref pointer, log => ∃ type, p.typeId pointer = .ok type ∧
      log = emissions ref .locals [⟨.var, [type, p.nextId, Build.functionStorage]⟩]
  | .expression ref e, log => ∃ code id, q.Computes e code id ∧ log = emissions ref .body code
  | .store ref pointer value, log => log = emissions ref .body [⟨.store, [pointer, value]⟩]
  | .exit ref, log => log = emissions ref .body [⟨.exit, []⟩]
  | .exitValue ref value, log => log = emissions ref .body [⟨.exitValue, [value]⟩]
  | _, log => log = []

end Call

namespace Build

variable {p q : Program} {ref : ProcedureRef}

theorem gains_typeOfShape {shape : Shape} {ref : TypeRef} (h : typeOfShape shape p = .ok ref q) :
    p.Gains [] q := by
  rcases (typeOfShape_ok h).2 with rfl | rfl
  · exact .of_procedures rfl
  · exact .of_procedures rfl

theorem gains_addProcedure {result : TypeRef} (h : addProcedure name result p = .ok ref q) :
    p.Gains [] q := by
  simp only [addProcedure, modifyProcedure, bind_ok, push_ok, freshId_ok, modify_ok, pure_ok] at h
  obtain ⟨_, p₁, ⟨-, rfl, hp₁⟩, _, p₂, ⟨rfl, hp₂⟩, _, p₃, hp₃, type, p₄, htype, _, p₅, hp₅, -,
    rfl⟩ := h
  have hadd : p.Gains [] p₂ := by
    subst hp₂ hp₁
    exact .of_add (Arena.toList_add _ _) fun part => by cases part <;> rfl
  have hid : p₂.Gains [] p₃ := by
    subst hp₃
    exact .of_modify rfl fun procedure part => by cases part <;> rfl
  have hlast : p₄.Gains [] p₅ := by
    subst hp₅
    exact .of_modify rfl fun procedure part => by cases part <;> rfl
  exact ((hadd.trans hid).trans (gains_typeOfShape htype)).trans hlast

theorem gains_registerInterface {place : Local} (h : registerInterface ref place p = .ok u q) :
    p.Gains [] q := by
  cases hglobal : place.global with
  | none =>
    rw [registerInterface, hglobal] at h
    obtain ⟨-, rfl⟩ := pure_ok.mp h
    exact .of_procedures rfl
  | some global =>
    have hprocedure : ∃ old, p.procedures.get? ref = some old := by
      rw [registerInterface, hglobal] at h
      simp only [bind_ok, view_ok, procedure_ok] at h
      obtain ⟨_, _, ⟨-, rfl⟩, old, _, ⟨hold, -⟩, -⟩ := h
      exact ⟨old, hold⟩
    obtain ⟨old, hold⟩ := hprocedure
    exact .of_writes (registerInterface_writes h hold)

theorem declareVariable_id {pointer : TypeRef} {id : UInt32}
    (h : declareVariable ref pointer p = .ok id q) : id = p.nextId := by
  simp only [declareVariable, bind_ok, discard_ok, procedure_ok, freshId_ok, pure_ok] at h
  obtain ⟨_, _, ⟨_, -, rfl⟩, _, _, ⟨rfl, -⟩, _, _, -, _, _, -, _, _, -, rfl, -⟩ := h
  rfl

theorem gains_openBlock (h : openBlock ref p = .ok u q) : p.Gains [] q := by
  simp only [openBlock, modifyProcedure, bind_ok, discard_ok, procedure_ok, freshId_ok,
    modify_ok] at h
  obtain ⟨_, _, ⟨_, -, rfl⟩, _, r, hreserve, label, r', ⟨-, rfl⟩, rfl⟩ := h
  obtain ⟨words, rfl⟩ := reserve_ok hreserve
  exact .of_modify rfl fun procedure part => by cases part <;> rfl

end Build

theorem Call.gains {call : Call} {p q : Program} (h : call.run p = .ok u q) :
    ∃ log, call.Emits p q log ∧ p.Gains log q := by
  cases call with
  | vectorType component size =>
    obtain ⟨ref, h⟩ := discard_ok.mp h
    exact ⟨[], rfl, gains_typeOfShape h⟩
  | pointerType base storage =>
    obtain ⟨ref, h⟩ := discard_ok.mp h
    exact ⟨[], rfl, gains_typeOfShape h⟩
  | procedureType result =>
    obtain ⟨ref, h⟩ := discard_ok.mp h
    exact ⟨[], rfl, gains_typeOfShape h⟩
  | recordType name members =>
    obtain ⟨ref, h⟩ := discard_ok.mp h
    obtain ⟨-, rfl⟩ := addType_ok h
    exact ⟨[], rfl, .of_procedures rfl⟩
  | namedType name =>
    obtain ⟨ref, h⟩ := discard_ok.mp h
    obtain ⟨rfl, -⟩ | ⟨kind, -, -, rfl⟩ := namedType_cases h
    · exact ⟨[], rfl, .of_procedures rfl⟩
    · exact ⟨[], rfl, .of_procedures rfl⟩
  | floatConstant bits =>
    obtain ⟨ref, h⟩ := discard_ok.mp h
    rcases (floatConstant_ok h).2 with rfl | rfl
    · exact ⟨[], rfl, .of_procedures rfl⟩
    · exact ⟨[], rfl, .of_procedures rfl⟩
  | addExpression kind type =>
    obtain ⟨ref, h⟩ := discard_ok.mp h
    obtain ⟨-, rfl⟩ := addExpression_ok h
    exact ⟨[], rfl, .of_procedures rfl⟩
  | addGlobal global =>
    obtain ⟨ref, h⟩ := discard_ok.mp h
    simp only [Build.addGlobal, Build.bind_ok, Build.push_ok, Build.freshId_ok, Build.modify_ok,
      pure_ok] at h
    obtain ⟨_, _, ⟨-, rfl, rfl⟩, _, _, ⟨rfl, rfl⟩, _, _, rfl, rfl, rfl⟩ := h
    exact ⟨[], rfl, .of_procedures rfl⟩
  | setGlobal ref global =>
    obtain rfl := modify_ok.mp h
    exact ⟨[], rfl, .of_procedures rfl⟩
  | addProcedure name result =>
    obtain ⟨ref, h⟩ := discard_ok.mp h
    exact ⟨[], rfl, gains_addProcedure h⟩
  | markReturned ref =>
    obtain rfl := modify_ok.mp h
    exact ⟨[], rfl, .of_modify rfl fun procedure part => by cases part <;> rfl⟩
  | addEntryPoint entry =>
    obtain ⟨index, h⟩ := discard_ok.mp h
    obtain ⟨-, -, rfl⟩ := push_ok.mp h
    exact ⟨[], rfl, .of_procedures rfl⟩
  | registerInterface ref place => exact ⟨[], rfl, gains_registerInterface h⟩
  | openBlock ref => exact ⟨[], rfl, gains_openBlock h⟩
  | declareVariable ref pointer =>
    obtain ⟨id, h⟩ := discard_ok.mp h
    obtain ⟨type, htype, hwrites⟩ := declareVariable_ok h
    obtain rfl : id = p.nextId := declareVariable_id h
    exact ⟨_, ⟨type, htype, rfl⟩, .of_writes hwrites⟩
  | expression ref e =>
    obtain ⟨id, h⟩ := discard_ok.mp h
    obtain ⟨code, hwrites, hcomputes⟩ := expression_ok h
    exact ⟨_, ⟨code, id, hcomputes, rfl⟩, .of_writes hwrites⟩
  | store ref pointer value => exact ⟨_, rfl, .of_writes (store_ok h)⟩
  | exit ref => exact ⟨_, rfl, .of_writes (exit_ok h)⟩
  | exitValue ref value => exact ⟨_, rfl, .of_writes (exitValue_ok h)⟩

/-- Calls lead from one program to another, and the log tells what they emit. -/
inductive Runs : Program → List Call → List Emission → Program → Prop
  | done (p : Program) : Runs p [] [] p
  | call {p q r : Program} {call : Call} {calls : List Call} {emitted log : List Emission} :
      call.run p = .ok () q → call.Emits p q emitted → Runs q calls log r →
      Runs p (call :: calls) (emitted ++ log) r

namespace Runs

variable {p q : Program} {calls : List Call} {log : List Emission}

theorem of_run (h : Call.runAll calls p = .ok u q) : ∃ log, Runs p calls log q ∧ p.Gains log q := by
  induction calls generalizing p with
  | nil =>
    obtain ⟨-, rfl⟩ := pure_ok.mp h
    exact ⟨[], .done p, .of_procedures rfl⟩
  | cons call calls ih =>
    obtain ⟨_, r, hcall, hrest⟩ := bind_ok.mp h
    obtain ⟨emitted, hemits, hgains⟩ := Call.gains hcall
    obtain ⟨log, hruns, hmore⟩ := ih hrest
    exact ⟨emitted ++ log, .call hcall hemits hruns, hgains.trans hmore⟩

end Runs

namespace Program

variable {p q r : Program}

def Reaches (p q : Program) : Prop := ∃ calls, Call.runAll calls p = .ok () q

namespace Reaches

theorem refl (p : Program) : p.Reaches p := ⟨[], rfl⟩

theorem of_call (call : Call) (h : call.run p = .ok u q) : p.Reaches q :=
  ⟨[call], bind_ok.mpr ⟨u, q, h, rfl⟩⟩

theorem trans (hpq : p.Reaches q) (hqr : q.Reaches r) : p.Reaches r := by
  obtain ⟨calls, hcalls⟩ := hpq
  obtain ⟨more, hmore⟩ := hqr
  refine ⟨calls ++ more, ?_⟩
  induction calls generalizing p with
  | nil =>
    obtain ⟨-, rfl⟩ := pure_ok.mp hcalls
    exact hmore
  | cons call calls ih =>
    obtain ⟨u, mid, hcall, hrest⟩ := bind_ok.mp hcalls
    exact bind_ok.mpr ⟨u, mid, hcall, ih hrest⟩

end Reaches

end Program

end Shading
