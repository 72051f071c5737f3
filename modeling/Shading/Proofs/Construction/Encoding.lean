import Shading.Proofs.Construction.Accounting
import Shading.Proofs.Construction.Elaborating
import Shading.Proofs.Evaluation
import Shading.Proofs.Packing

/-!
The code of procedures can be encoded. It is not checked again when a program
is assembled, but every call that emits an instruction has checked it. So the
binary of a program that was built by calls decodes to its instructions.
-/

namespace Shading

open Binary (Instruction)

variable {limits : Limits} {source binary : Bytes}

theorem Call.encodable_runAll {calls : List Call} {start p : Program} {u : Unit}
    (hstart : Program.new limits = .ok start) (h : Call.runAll calls start = .ok u p) :
    p.Encodable := by
  obtain ⟨opened, hattempts⟩ := attempts_of_runAll h
  exact (attempts_balanced hattempts (Program.balanced_new hstart)).encodable

namespace Program

variable {p : Program} {s : Sections}

theorem Fresh.codeAt (h : p.Fresh) (ref : ProcedureRef) (part : CodePart) :
    p.codeAt ref part = [] := by
  rw [Program.codeAt, Arena.get?_eq, h.procedures]
  rfl

theorem ofSource_encodable (h : ofSource source limits = .ok p) : p.Encodable := by
  obtain ⟨start, hstart, calls, hcalls⟩ := ofSource_reaches h
  exact Call.encodable_runAll hstart hcalls

theorem Assembles.functions_encodable (h : p.Assembles s) (hp : p.Encodable) :
    ∀ i ∈ s.functions.flatten, i.isEncodable = true := by
  intro i hi
  obtain ⟨code, hcode, hi⟩ := List.mem_flatten.mp hi
  obtain ⟨a, ha, hfunction⟩ := mapM_ok_mem h.functions hcode
  obtain ⟨result, type, -, -, rfl⟩ := function_ok hfunction
  simp only [List.mem_cons, List.mem_append, List.not_mem_nil, or_false] at hi
  rcases hi with rfl | rfl | (hi | hi) | rfl
  · rfl
  · rfl
  · exact hp a ha .locals i hi
  · exact hp a ha .body i hi
  · rfl

theorem isEncodable_of_firstOversized {code : List Instruction} (h : firstOversized code = none) :
    ∀ i ∈ code, i.isEncodable = true := by
  intro i hi
  have hnone := List.findSome?_eq_none_iff.mp h i hi
  unfold Instruction.oversized? at hnone
  split at hnone
  · assumption
  · cases hnone

theorem decode_assemble (hp : p.Encodable) (h : p.assemble = .ok binary) :
    ∃ s, p.Assembles s ∧
      Binary.decode binary = ⟨p.header, p.declarations s ++ s.functions.flatten, none⟩ := by
  obtain ⟨s, hs, hnone, rfl⟩ := assemble_ok h
  refine ⟨s, hs, Binary.decode_bytesOfWords rfl ?_⟩
  rw [List.forall_mem_append]
  exact ⟨isEncodable_of_firstOversized hnone, hs.functions_encodable hp⟩

end Program

theorem decode_compile (h : compile source limits = .ok binary) :
    ∃ (p : Program) (s : Sections), Program.ofSource source limits = .ok p ∧ p.Assembles s ∧
      Binary.decode binary = ⟨p.header, p.declarations s ++ s.functions.flatten, none⟩ := by
  obtain ⟨p, hp, hassemble⟩ := compile_ok h
  obtain ⟨s, hs, hdecode⟩ := Program.decode_assemble (Program.ofSource_encodable hp) hassemble
  exact ⟨p, s, hp, hs, hdecode⟩

theorem compile_assembles (h : compile source limits = .ok binary) :
    ∃ (p : Program) (s : Sections), p.Built (.ofSource source) ∧ p.Assembles s ∧
      Binary.decode binary = ⟨p.header, p.declarations s ++ s.functions.flatten, none⟩ := by
  obtain ⟨p, s, hp, hs, hdecode⟩ := decode_compile h
  exact ⟨p, s, Program.ofSource_built hp, hs, hdecode⟩

end Shading
