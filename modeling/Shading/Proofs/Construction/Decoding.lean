import Shading.Proofs.Construction.Encoding

/-!
The binary of a program that was built by calls decodes to what was asked for:
the header with the bound of the ids, the declarations of every section, and
for each procedure a function that holds what the calls emitted into it.
-/

namespace Shading

open Binary (Instruction)

theorem mapM_zipIdx {ε α β : Type} {f : α → Except ε β} {g : α × Nat → Except ε β} (l : List α)
    (first : Nat) (h : ∀ entry ∈ l.zipIdx first, g entry = f entry.1) :
    (l.zipIdx first).mapM g = l.mapM f := by
  induction l generalizing first with
  | nil => rfl
  | cons x rest ih =>
    rw [List.zipIdx_cons] at h ⊢
    obtain ⟨hx, hrest⟩ := List.forall_mem_cons.mp h
    rw [List.mapM_cons, List.mapM_cons, hx, ih _ hrest]

namespace Program

variable {p : Program}

/-- The function that a procedure comes to if its code is what a log tells. -/
def logged (p : Program) (log : List Emission) (ref : ProcedureRef) (procedure : Procedure) :
    Except Fault (List Instruction) := do
  let result ← p.typeId procedure.result
  let type ← p.typeId procedure.type
  pure (⟨.function, [result, procedure.id, 0, type]⟩ :: ⟨.label, [procedure.label]⟩ ::
    (emittedInto log ref .locals ++ emittedInto log ref .body ++ [⟨.functionEnd, []⟩]))

theorem mapM_logged {log : List Emission}
    (h : ∀ ref part, p.codeAt ref part = emittedInto log ref part) :
    p.procedures.toList.zipIdx.mapM (fun entry => p.logged log entry.2 entry.1) =
      p.procedures.toList.mapM p.function := by
  apply mapM_zipIdx
  intro entry hentry
  have hget : p.procedures.get? entry.2 = some entry.1 := by
    rw [Arena.get?_eq, List.mem_zipIdx_iff_getElem?.mp hentry]
  have hlocals := h entry.2 .locals
  have hbody := h entry.2 .body
  rw [codeAt_of_get? hget] at hlocals hbody
  rw [logged, function, ← hlocals, ← hbody]
  rfl

end Program

/-- A program is built by calls that succeed, from the one that a compilation starts with, and
assembled. Decoding the binary then gives the header with the bound of the ids and the instructions
of every section; each procedure contributes a function of one block with the instructions that
were emitted into its variables and those that were emitted into its body, both in the order of
the calls. The program of every source is built so. -/
theorem construction_roundTrips (limits : Limits) :
    (∀ {start p : Program} {calls : List Call} {binary : Bytes},
      Program.new limits = .ok start → Call.runAll calls start = .ok () p →
      p.assemble = .ok binary →
      ∃ (log : List Emission) (s : Sections), Runs start calls log p ∧ p.Assembles s ∧
        p.procedures.toList.zipIdx.mapM (fun entry => p.logged log entry.2 entry.1) =
          .ok s.functions ∧
        Binary.decode binary = ⟨⟨Binary.magic, 0x00010000, 0, p.nextId, 0⟩,
          p.declarations s ++ s.functions.flatten, none⟩) ∧
    ∀ {source : Bytes} {p : Program}, Program.ofSource source limits = .ok p →
      ∃ start calls, Program.new limits = .ok start ∧ Call.runAll calls start = .ok () p := by
  constructor
  · intro start p calls binary hstart hrun hbinary
    obtain ⟨log, hruns, hgains⟩ := Runs.of_run hrun
    have hencodable := Call.encodable_runAll hstart hrun
    obtain ⟨s, hs, hdecode⟩ := Program.decode_assemble hencodable hbinary
    have hcode : ∀ ref part, p.codeAt ref part = emittedInto log ref part := by
      intro ref part
      rw [hgains, (Program.new_ok hstart).codeAt, List.nil_append]
    exact ⟨log, s, hruns, hs, (Program.mapM_logged hcode).trans hs.functions, hdecode⟩
  · intro source p h
    obtain ⟨start, hstart, calls, hcalls⟩ := Program.ofSource_reaches h
    exact ⟨start, calls, hstart, hcalls⟩

/-- Two variables, the second one declared after a store to the first one, which it is a copy of. -/
def copyingCalls : List Call :=
  [.pointerType 1 .function, .floatConstant 0x3F800000, .addProcedure (Text.utf8 "p") 0,
    .openBlock 0, .declareVariable 0 2, .store 0 9 5, .declareVariable 0 2,
    .addExpression (.load ⟨Text.utf8 "x", 1, 2, 9, none⟩) 1, .expression 0 0, .store 0 10 11,
    .exit 0]

theorem copyingCalls_roundTrips :
    (∃ start p binary log s, Program.new {} = .ok start ∧
      Call.runAll copyingCalls start = .ok () p ∧ p.assemble = .ok binary ∧
      Runs start copyingCalls log p ∧ p.Assembles s ∧
      p.procedures.toList.zipIdx.mapM (fun entry => p.logged log entry.2 entry.1) =
        .ok s.functions ∧
      Binary.decode binary =
        ⟨⟨Binary.magic, 0x00010000, 0, 12, 0⟩, p.declarations s ++ s.functions.flatten, none⟩ ∧
      (Binary.decode binary).instructions.drop 8 =
        [⟨.function, [2, 6, 0, 7]⟩, ⟨.label, [8]⟩, ⟨.var, [4, 9, 7]⟩, ⟨.var, [4, 10, 7]⟩,
          ⟨.store, [9, 5]⟩, ⟨.load, [3, 11, 9]⟩, ⟨.store, [10, 11]⟩, ⟨.exit, []⟩,
          ⟨.functionEnd, []⟩]) ∧
    ∃ p start calls, Program.ofSource (Text.utf8 "procedure p() -> void end") {} = .ok p ∧
      Program.new {} = .ok start ∧ Call.runAll calls start = .ok () p := by
  have hbuilt : ((Program.new {}).toOption.bind fun start =>
      ((Call.runAll copyingCalls).ending start).toOption.bind fun built =>
        built.2.assemble.toOption.map fun binary => ((Binary.decode binary).header.bound,
          (Binary.decode binary).instructions.drop 8)) =
      some (12, [⟨.function, [2, 6, 0, 7]⟩, ⟨.label, [8]⟩, ⟨.var, [4, 9, 7]⟩, ⟨.var, [4, 10, 7]⟩,
        ⟨.store, [9, 5]⟩, ⟨.load, [3, 11, 9]⟩, ⟨.store, [10, 11]⟩, ⟨.exit, []⟩,
        ⟨.functionEnd, []⟩]) := by
    decide +kernel
  have haccepted : (Program.ofSource (Text.utf8 "procedure p() -> void end") {}).isOk = true := by
    decide +kernel
  constructor
  · simp only [Option.bind_eq_some_iff, Option.map_eq_some_iff, Prod.mk.injEq,
      toOption_eq_some] at hbuilt
    obtain ⟨start, hstart, ⟨⟨⟩, p⟩, hrun, binary, hbinary, hbound, hcode⟩ := hbuilt
    have hcalls := Build.ending_eq_ok.mp hrun
    obtain ⟨log, s, hruns, hs, hfunctions, hdecode⟩ :=
      (construction_roundTrips {}).1 hstart hcalls hbinary
    have hnext : p.nextId = 12 := by
      rw [hdecode] at hbound
      exact hbound
    rw [hnext] at hdecode
    exact ⟨start, p, binary, log, s, hstart, hcalls, hbinary, hruns, hs, hfunctions, hdecode, hcode⟩
  · cases h : Program.ofSource (Text.utf8 "procedure p() -> void end") {} with
    | error e =>
      rw [h] at haccepted
      cases haccepted
    | ok p =>
      obtain ⟨start, calls, hstart, hcalls⟩ := (construction_roundTrips {}).2 h
      exact ⟨p, start, calls, rfl, hstart, hcalls⟩

end Shading
