import Shading.Proofs.Expressions

/-!
Typing of instructions against the declarations of a binary. Nothing here
knows how a binary was made: the types of ids are read off the instructions
that define them, and the shapes of types off their declarations.
-/

namespace Shading.Binary

variable {functions : List (List Instruction)}

def scalarType (kind : ScalarKind) (id : UInt32) : Instruction :=
  match kind with
  | .bool => ⟨.typeBool, [id]⟩
  | .f32 => ⟨.typeFloat, [id, 32]⟩
  | .f64 => ⟨.typeFloat, [id, 64]⟩
  | .i32 => ⟨.typeInt, [id, 32, 1]⟩
  | .u32 => ⟨.typeInt, [id, 32, 0]⟩

def inputStorage : UInt32 := 1

def Opcode.worksOn (op : Opcode) (kind : ScalarKind) : Bool :=
  match op with
  | .fAdd | .fSub | .fDiv => kind.isFloat
  | .iAdd | .iSub | .iMul => kind.isInteger
  | .sDiv => kind = .i32
  | .uDiv => kind = .u32
  | _ => false

theorem Opcode.mem_of_worksOn {op : Opcode} {kind : ScalarKind} (h : op.worksOn kind = true) :
    op ∈ [fAdd, fSub, fDiv, iAdd, iSub, iMul, sDiv, uDiv] := by
  unfold Opcode.worksOn at h
  split at h
  all_goals first | decide | exact (Bool.false_ne_true h).elim

def HasType (code : List Instruction) (id type : UInt32) : Prop :=
  ∃ i ∈ code, i.result? = some id ∧ i.resultType? = some type

def HasComponents (types : List Instruction) (type : UInt32) (kind : ScalarKind) (count : Nat) :
    Prop :=
  (scalarType kind type ∈ types ∧ count = 1) ∨
    ∃ component size, ⟨.typeVector, [type, component, size]⟩ ∈ types ∧
      scalarType kind component ∈ types ∧ count = size.toNat

def IsConstituent (types code : List Instruction) (component id : UInt32) (count : Nat) : Prop :=
  ∃ type, HasType code id type ∧
    ((type = component ∧ count = 1) ∨
      ∃ size, ⟨.typeVector, [type, component, size]⟩ ∈ types ∧ count = size.toNat)

inductive WellTyped (types code : List Instruction) (result : UInt32) : Instruction → Prop
  | var {pointer id storage pointee : UInt32} :
      ⟨.typePointer, [pointer, storage, pointee]⟩ ∈ types →
      WellTyped types code result ⟨.var, [pointer, id, storage]⟩
  | load {type id place pointer storage : UInt32} :
      ⟨.typePointer, [pointer, storage, type]⟩ ∈ types → HasType code place pointer →
      WellTyped types code result ⟨.load, [type, id, place]⟩
  | store {place value pointer storage type : UInt32} :
      ⟨.typePointer, [pointer, storage, type]⟩ ∈ types → storage ≠ inputStorage →
      HasType code place pointer → HasType code value type →
      WellTyped types code result ⟨.store, [place, value]⟩
  | operation {op : Opcode} {type id left right : UInt32} {kind : ScalarKind} {count : Nat} :
      op.worksOn kind = true → HasComponents types type kind count →
      HasType code left type → HasType code right type →
      WellTyped types code result ⟨op, [type, id, left, right]⟩
  | scaled {type id vector scalar component size : UInt32} {kind : ScalarKind} :
      ⟨.typeVector, [type, component, size]⟩ ∈ types → scalarType kind component ∈ types →
      kind.isFloat = true → HasType code vector type → HasType code scalar component →
      WellTyped types code result ⟨.vectorTimesScalar, [type, id, vector, scalar]⟩
  | construct {type id component size : UInt32} {parts : List (UInt32 × Nat)} :
      ⟨.typeVector, [type, component, size]⟩ ∈ types → (size = 2 ∨ size = 3 ∨ size = 4) →
      (∃ kind, scalarType kind component ∈ types) →
      (∀ part ∈ parts, IsConstituent types code component part.1 part.2) →
      total (parts.map (·.2)) = size.toNat →
      WellTyped types code result ⟨.compositeConstruct, type :: id :: parts.map (·.1)⟩
  | exit : ⟨.typeVoid, [result]⟩ ∈ types → WellTyped types code result ⟨.exit, []⟩
  | exitValue {value : UInt32} :
      HasType code value result → WellTyped types code result ⟨.exitValue, [value]⟩

def WellTypedFrom (types : List Instruction) (result : UInt32) (code rest : List Instruction) :
    Prop :=
  Along (fun before i => WellTyped types before result i) code rest

def beforeFunctions (instructions : List Instruction) : List Instruction :=
  instructions.takeWhile fun i => i.opcode ≠ .function

/-- The functions of a binary: each starts a new one. -/
def functionsOf : List Instruction → List (List Instruction)
  | [] => []
  | i :: rest =>
    if i.opcode = .function then (i :: beforeFunctions rest) :: functionsOf rest
    else functionsOf rest

/-- A binary whose instructions are well typed against the declarations before its functions. -/
structure TypeCorrect (instructions : List Instruction) : Prop where
  globals : ∀ i ∈ beforeFunctions instructions, i.opcode = .var →
    ∃ pointer id storage pointee, i = ⟨.var, [pointer, id, storage]⟩ ∧
      ⟨.typePointer, [pointer, storage, pointee]⟩ ∈ beforeFunctions instructions
  functions : ∀ code ∈ functionsOf instructions, ∃ result id type label body,
    code = ⟨.function, [result, id, 0, type]⟩ :: ⟨.label, [label]⟩ ::
      (body ++ [⟨.functionEnd, []⟩]) ∧
    ⟨.typeFunction, [type, result]⟩ ∈ beforeFunctions instructions ∧
    WellTypedFrom (beforeFunctions instructions) result (beforeFunctions instructions) body

variable {types code code' : List Instruction} {result id type : UInt32}

theorem HasType.mono (h : HasType code id type) (hsubset : code ⊆ code') :
    HasType code' id type := by
  obtain ⟨i, hi, hresult, htype⟩ := h
  exact ⟨i, hsubset hi, hresult, htype⟩

theorem HasType.mem_results (h : HasType code id type) : id ∈ results code := by
  obtain ⟨i, hi, hresult, -⟩ := h
  exact Binary.mem_results.mpr ⟨i, hi, hresult⟩

theorem WellTyped.opcode_ne {i : Instruction} (h : WellTyped types code result i) :
    i.opcode ≠ .function := by
  cases h with
  | operation hworks =>
    rintro rfl
    exact Bool.false_ne_true hworks
  | _ => simp

theorem beforeFunctions_append {before after : List Instruction}
    (h : ∀ i ∈ before, i.opcode ≠ .function) :
    beforeFunctions (before ++ after) = before ++ beforeFunctions after := by
  unfold beforeFunctions
  rw [List.takeWhile_append_of_pos]
  intro i hi
  simpa using h i hi

theorem functionsOf_append {before after : List Instruction}
    (h : ∀ i ∈ before, i.opcode ≠ .function) :
    functionsOf (before ++ after) = functionsOf after := by
  induction before with
  | nil => rfl
  | cons i rest ih =>
    rw [List.cons_append, functionsOf, if_neg (h i List.mem_cons_self)]
    exact ih fun j hj => h j (List.mem_cons_of_mem _ hj)

def IsFunction (code : List Instruction) : Prop :=
  ∃ first rest, code = first :: rest ∧ first.opcode = .function ∧ ∀ i ∈ rest, i.opcode ≠ .function

theorem beforeFunctions_flatten (h : ∀ code ∈ functions, IsFunction code) :
    beforeFunctions functions.flatten = [] := by
  cases functions with
  | nil => rfl
  | cons code rest =>
    obtain ⟨first, others, rfl, hfirst, -⟩ := h code List.mem_cons_self
    rw [List.flatten_cons, List.cons_append]
    unfold beforeFunctions
    rw [List.takeWhile_cons_of_neg (by simpa using hfirst)]

theorem functionsOf_flatten (h : ∀ code ∈ functions, IsFunction code) :
    functionsOf functions.flatten = functions := by
  induction functions with
  | nil => rfl
  | cons code rest ih =>
    obtain ⟨first, others, rfl, hfirst, hothers⟩ := h code List.mem_cons_self
    have hrest := fun code hcode => h code (List.mem_cons_of_mem _ hcode)
    rw [List.flatten_cons, List.cons_append, functionsOf, if_pos hfirst,
      beforeFunctions_append hothers, functionsOf_append hothers, beforeFunctions_flatten hrest,
      List.append_nil, ih hrest]

end Shading.Binary
