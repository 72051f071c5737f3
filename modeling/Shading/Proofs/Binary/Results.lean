import Shading.Binary.Instruction

/-!
The ids of an instruction. An instruction may define one id, alone or after
the id of its type, and the ids among its other operands must be defined
elsewhere. Only the layout of an operation decides which operands are ids.
-/

namespace Shading.Binary

open List

variable {i : Instruction}

namespace Opcode

def declares (op : Opcode) : Bool :=
  op ∈ [string, extInstImport, typeVoid, typeBool, typeInt, typeFloat, typeVector, typeStruct,
    typePointer, typeFunction, label]

def yields (op : Opcode) : Bool :=
  op ∈ [extInst, constant, constantComposite, function, functionParameter, var, load, accessChain,
    compositeConstruct, compositeExtract, iAdd, fAdd, iSub, fSub, iMul, fMul, uDiv, sDiv, fDiv,
    vectorTimesScalar]

end Opcode

namespace Instruction

def result? (i : Instruction) : Option UInt32 :=
  if i.opcode.yields then i.operands[1]?
  else if i.opcode.declares then i.operands[0]?
  else none

def resultType? (i : Instruction) : Option UInt32 :=
  if i.opcode.yields then i.operands[0]? else none

def uses (i : Instruction) : List UInt32 :=
  match i.opcode with
  | .typeVector => (i.operands.drop 1).take 1
  | .typePointer => i.operands.drop 2
  | .typeStruct | .typeFunction => i.operands.drop 1
  | .constant => i.operands.take 1
  | .var | .function => i.operands.take 1 ++ i.operands.drop 3
  | .store | .exitValue => i.operands
  | op => if op.yields then i.operands.take 1 ++ i.operands.drop 2 else []

def arguments (i : Instruction) : List UInt32 :=
  match i.opcode with
  | .constant | .function => []
  | .var => i.operands.drop 3
  | .store | .exitValue => i.operands
  | op => if op.yields then i.operands.drop 2 else []

@[simp] theorem result?_var (type id storage : UInt32) :
    (⟨.var, [type, id, storage]⟩ : Instruction).result? = some id := rfl

@[simp] theorem result?_load (type id pointer : UInt32) :
    (⟨.load, [type, id, pointer]⟩ : Instruction).result? = some id := rfl

@[simp] theorem result?_construct (type id : UInt32) (values : List UInt32) :
    (⟨.compositeConstruct, type :: id :: values⟩ : Instruction).result? = some id := rfl

@[simp] theorem result?_scaled (type id vector scalar : UInt32) :
    (⟨.vectorTimesScalar, [type, id, vector, scalar]⟩ : Instruction).result? = some id := rfl

@[simp] theorem result?_store (operands : List UInt32) :
    (⟨.store, operands⟩ : Instruction).result? = none := rfl

@[simp] theorem result?_exit (operands : List UInt32) :
    (⟨.exit, operands⟩ : Instruction).result? = none := rfl

@[simp] theorem result?_exitValue (operands : List UInt32) :
    (⟨.exitValue, operands⟩ : Instruction).result? = none := rfl

end Instruction

/-- The ids that a sequence of instructions defines, in order. -/
def results (instructions : List Instruction) : List UInt32 :=
  instructions.filterMap Instruction.result?

@[simp] theorem results_nil : results [] = [] := rfl

@[simp] theorem results_append (first second : List Instruction) :
    results (first ++ second) = results first ++ results second := by
  simp [results]

theorem results_cons (i : Instruction) (rest : List Instruction) :
    results (i :: rest) = i.result?.toList ++ results rest := by
  unfold results
  cases h : i.result? with
  | none => simp [filterMap_cons_none h]
  | some id => simp [filterMap_cons_some h]

theorem mem_results {id : UInt32} {instructions : List Instruction} :
    id ∈ results instructions ↔ ∃ i ∈ instructions, i.result? = some id := by
  simp [results]

def Along (P : List Instruction → Instruction → Prop) :
    List Instruction → List Instruction → Prop
  | _, [] => True
  | code, i :: rest => P code i ∧ Along P (code ++ [i]) rest

section

variable {P : List Instruction → Instruction → Prop} {code rest rest' : List Instruction}

theorem along_append :
    Along P code (rest ++ rest') ↔ Along P code rest ∧ Along P (code ++ rest) rest' := by
  induction rest generalizing code with
  | nil =>
    rw [append_nil]
    exact ⟨fun h => ⟨trivial, h⟩, fun h => h.2⟩
  | cons i rest ih =>
    rw [cons_append, Along, Along, ih, and_assoc, append_assoc, singleton_append]

theorem along_singleton : Along P code [i] ↔ P code i := by
  simp [Along]

theorem Along.concat (h : Along P code rest) (hi : P (code ++ rest) i) :
    Along P code (rest ++ [i]) :=
  along_append.mpr ⟨h, along_singleton.mpr hi⟩

theorem along_of_forall (h : ∀ i ∈ rest, ∀ before, P (code ++ before) i) : Along P code rest := by
  induction rest generalizing code with
  | nil => trivial
  | cons i rest ih =>
    refine ⟨by simpa using h i mem_cons_self [], ih fun j hj before => ?_⟩
    rw [append_assoc]
    exact h j (mem_cons_of_mem _ hj) _

theorem Along.split {before after : List Instruction} (h : Along P code (before ++ i :: after)) :
    P (code ++ before) i :=
  (along_append.mp h).2.1

theorem along_of_split
    (h : ∀ before i after, rest = before ++ i :: after → P (code ++ before) i) :
    Along P code rest := by
  induction rest generalizing code with
  | nil => trivial
  | cons i rest ih =>
    refine ⟨by simpa using h [] i rest rfl, ih fun before j after hrest => ?_⟩
    rw [append_assoc]
    exact h (i :: before) j after (by rw [hrest, cons_append])

end

def idsFrom (first : UInt32) (count : Nat) : List UInt32 :=
  (List.range count).map fun k => first + UInt32.ofNat k

@[simp] theorem idsFrom_zero (first : UInt32) : idsFrom first 0 = [] := rfl

@[simp] theorem idsFrom_one (first : UInt32) : idsFrom first 1 = [first] := by
  simp [idsFrom]

@[simp] theorem length_idsFrom (first : UInt32) (count : Nat) :
    (idsFrom first count).length = count := by
  simp [idsFrom]

theorem idsFrom_add (first : UInt32) (m n : Nat) :
    idsFrom first (m + n) = idsFrom first m ++ idsFrom (first + UInt32.ofNat m) n := by
  unfold idsFrom
  rw [range_add, map_append, map_map]
  congr 1
  apply map_congr_left
  intro k _
  simp [UInt32.ofNat_add, UInt32.add_assoc]

theorem nodup_idsFrom (first : UInt32) {count : Nat} (h : count ≤ UInt32.size) :
    (idsFrom first count).Nodup := by
  unfold idsFrom
  rw [nodup_iff_pairwise_ne, pairwise_map]
  apply Pairwise.imp_of_mem _ nodup_range
  intro a b ha hb hne heq
  have hab : UInt32.ofNat a = UInt32.ofNat b := (UInt32.add_right_inj first).mp heq
  have ha' : a < count := mem_range.mp ha
  have hb' : b < count := mem_range.mp hb
  have hnat := congrArg UInt32.toNat hab
  simp only [UInt32.toNat_ofNat'] at hnat
  have hsize : UInt32.size = 4294967296 := rfl
  rw [Nat.mod_eq_of_lt (by omega), Nat.mod_eq_of_lt (by omega)] at hnat
  exact hne hnat

end Shading.Binary
