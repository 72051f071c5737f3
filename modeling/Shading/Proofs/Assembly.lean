import Shading.Proofs.Binary.RoundTrip
import Shading.Proofs.Compilation

/-!
The instructions of a program, section by section. Every entry of a pool gives
one instruction of its section, in order; a procedure gives a function.
-/

namespace Shading

open List Binary

open Binary (Instruction Opcode results)

variable {i : Instruction} {entry : EntryPoint} {g : Global} {t : TypeEntry}
  {code : List Instruction}

section

variable {ε α β : Type} {f : α → Except ε β} {xs : List α} {ys : List β}

theorem except_bind_ok {x : Except ε α} {g : α → Except ε β} {b : β} :
    (x >>= g) = .ok b ↔ ∃ a, x = .ok a ∧ g a = .ok b := by
  cases x <;> simp [bind, Except.bind]

theorem except_pure_ok {a b : α} : (pure a : Except ε α) = .ok b ↔ a = b := by
  simp [pure, Except.pure]

theorem mapM_ok_nil : ([] : List α).mapM f = .ok ys ↔ ys = [] := by
  simp [pure, Except.pure, eq_comm]

theorem mapM_ok_cons {x : α} :
    (x :: xs).mapM f = .ok ys ↔ ∃ y rest, f x = .ok y ∧ xs.mapM f = .ok rest ∧ ys = y :: rest := by
  rw [mapM_cons]
  simp only [except_bind_ok, except_pure_ok]
  constructor
  · rintro ⟨y, hy, rest, hrest, rfl⟩
    exact ⟨y, rest, hy, hrest, rfl⟩
  · rintro ⟨y, rest, hy, hrest, rfl⟩
    exact ⟨y, hy, rest, hrest, rfl⟩

theorem mapM_ok_mem {y : β} (h : xs.mapM f = .ok ys) (hy : y ∈ ys) : ∃ x ∈ xs, f x = .ok y := by
  induction xs generalizing ys with
  | nil =>
    obtain rfl := mapM_ok_nil.mp h
    cases hy
  | cons x rest ih =>
    obtain ⟨z, others, hx, hrest, rfl⟩ := mapM_ok_cons.mp h
    rcases mem_cons.mp hy with rfl | hy
    · exact ⟨x, mem_cons_self, hx⟩
    · obtain ⟨found, hmem, hfound⟩ := ih hrest hy
      exact ⟨found, mem_cons_of_mem _ hmem, hfound⟩

theorem mapM_ok_of_mem {x : α} (h : xs.mapM f = .ok ys) (hx : x ∈ xs) : ∃ y ∈ ys, f x = .ok y := by
  induction xs generalizing ys with
  | nil => cases hx
  | cons first rest ih =>
    obtain ⟨z, others, hz, hrest, rfl⟩ := mapM_ok_cons.mp h
    rcases mem_cons.mp hx with rfl | hx
    · exact ⟨z, mem_cons_self, hz⟩
    · obtain ⟨y, hmem, hy⟩ := ih hrest hx
      exact ⟨y, mem_cons_of_mem _ hmem, hy⟩

theorem mapM_ok_length (h : xs.mapM f = .ok ys) : ys.length = xs.length := by
  induction xs generalizing ys with
  | nil =>
    obtain rfl := mapM_ok_nil.mp h
    rfl
  | cons x rest ih =>
    obtain ⟨y, others, -, hrest, rfl⟩ := mapM_ok_cons.mp h
    rw [length_cons, length_cons, ih hrest]

theorem mapM_ok_zip {x : α} {y : β} (h : xs.mapM f = .ok ys) (hpair : (x, y) ∈ xs.zip ys) :
    f x = .ok y := by
  induction xs generalizing ys with
  | nil => cases hpair
  | cons first rest ih =>
    obtain ⟨z, others, hz, hrest, rfl⟩ := mapM_ok_cons.mp h
    rw [zip_cons_cons, mem_cons] at hpair
    rcases hpair with hfirst | hpair
    · cases hfirst
      exact hz
    · exact ih hrest hpair

theorem mapM_ok_split {before after : List β} {y : β} (h : xs.mapM f = .ok (before ++ y :: after)) :
    ∃ first x rest, xs = first ++ x :: rest ∧ first.mapM f = .ok before ∧ f x = .ok y := by
  induction before generalizing xs with
  | nil =>
    cases xs with
    | nil => cases mapM_ok_nil.mp h
    | cons x rest =>
      obtain ⟨_, _, hx, -, hcons⟩ := mapM_ok_cons.mp h
      cases hcons
      exact ⟨[], x, rest, rfl, mapM_ok_nil.mpr rfl, hx⟩
  | cons z before ih =>
    cases xs with
    | nil => cases mapM_ok_nil.mp h
    | cons x rest =>
      obtain ⟨_, _, hx, hrest, hcons⟩ := mapM_ok_cons.mp h
      cases hcons
      obtain ⟨first, x', rest, rfl, hfirst, hx'⟩ := ih hrest
      exact ⟨x :: first, x', rest, rfl, mapM_ok_cons.mpr ⟨z, before, hx, hfirst, rfl⟩, hx'⟩

theorem results_mapM {f : α → Except ε Instruction} {id : α → UInt32} {found : List Instruction}
    (hid : ∀ {x i}, f x = .ok i → i.result? = some (id x)) (h : xs.mapM f = .ok found) :
    results found = xs.map id := by
  induction xs generalizing found with
  | nil =>
    obtain rfl := mapM_ok_nil.mp h
    rfl
  | cons x rest ih =>
    obtain ⟨i, others, hi, hrest, rfl⟩ := mapM_ok_cons.mp h
    rw [results_cons, hid hi, ih hrest]
    rfl

theorem results_mapM_flatten {f : α → Except ε (List Instruction)} {ids : α → List UInt32}
    {found : List (List Instruction)} (hids : ∀ {x code}, f x = .ok code → results code = ids x)
    (h : xs.mapM f = .ok found) : results found.flatten = xs.flatMap ids := by
  induction xs generalizing found with
  | nil =>
    obtain rfl := mapM_ok_nil.mp h
    rfl
  | cons x rest ih =>
    obtain ⟨code, others, hcode, hrest, rfl⟩ := mapM_ok_cons.mp h
    rw [flatten_cons, results_append, hids hcode, ih hrest, flatMap_cons]

end

def Binary.Opcode.isType (op : Opcode) : Bool :=
  op ∈ [Opcode.typeVoid, Opcode.typeBool, Opcode.typeInt, Opcode.typeFloat, Opcode.typeVector,
    Opcode.typeStruct, Opcode.typePointer, Opcode.typeFunction]

/-- The sections of a binary that depend on the program. -/
structure Sections where
  entryPoints : List Instruction
  modes : List (List Instruction)
  types : List Instruction
  globals : List Instruction
  constants : List Instruction
  functions : List (List Instruction)

namespace Program

variable {p : Program} {s : Sections}

/-- The instructions of a procedure. -/
def function (p : Program) (procedure : Procedure) : Except Fault (List Instruction) := do
  let result ← p.typeId procedure.result
  let type ← p.typeId procedure.type
  pure (⟨.function, [result, procedure.id, 0, type]⟩ :: ⟨.label, [procedure.label]⟩ ::
    (procedure.locals.toList ++ procedure.body.toList ++ [⟨.functionEnd, []⟩]))

/-- The instructions of all sections, one after the other. -/
def instructions (p : Program) : Except Fault (List Instruction) := do
  let entryPoints ← p.entryPoints.toList.mapM p.entryPoint
  let modes ← p.entryPoints.toList.mapM p.executionMode
  let types ← p.types.toList.mapM p.typeDeclaration
  let globals ← p.globals.toList.mapM p.globalDeclaration
  let constants ← p.constants.toList.mapM p.constantDeclaration
  let functions ← p.procedures.toList.mapM p.function
  pure (p.capabilities ++ preamble ++ entryPoints ++ modes.flatten ++
    p.globals.toList.flatMap globalDecorations ++ p.types.toList.flatMap memberDecorations ++
    types ++ globals ++ constants ++ functions.flatten)

/-- The sections are those of a program. -/
structure Assembles (p : Program) (s : Sections) : Prop where
  entryPoints : p.entryPoints.toList.mapM p.entryPoint = .ok s.entryPoints
  modes : p.entryPoints.toList.mapM p.executionMode = .ok s.modes
  types : p.types.toList.mapM p.typeDeclaration = .ok s.types
  globals : p.globals.toList.mapM p.globalDeclaration = .ok s.globals
  constants : p.constants.toList.mapM p.constantDeclaration = .ok s.constants
  functions : p.procedures.toList.mapM p.function = .ok s.functions

def annotations (p : Program) (s : Sections) : List Instruction :=
  p.capabilities ++ preamble ++ s.entryPoints ++ s.modes.flatten ++
    p.globals.toList.flatMap globalDecorations ++ p.types.toList.flatMap memberDecorations

/-- What comes before the functions. -/
def declarations (p : Program) (s : Sections) : List Instruction :=
  p.annotations s ++ s.types ++ s.globals ++ s.constants

theorem Assembles.instructions (h : p.Assembles s) :
    p.instructions = .ok (p.declarations s ++ s.functions.flatten) := by
  unfold Program.instructions
  simp only [h.entryPoints, h.modes, h.types, h.globals, h.constants, h.functions]
  rfl

theorem capabilities_opcode : ∀ i ∈ p.capabilities, i.opcode = .capability := by
  unfold capabilities
  split
  · exact forall_mem_cons.mpr ⟨rfl, forall_mem_singleton.mpr rfl⟩
  · exact forall_mem_singleton.mpr rfl

theorem entryPoint_ok (h : p.entryPoint entry = .ok i) :
    ∃ procedure interface, p.procedureAt entry.procedure = .ok procedure ∧
      i = ⟨.entryPoint, entry.stage.executionModel :: procedure.id ::
        (Binary.packString entry.name ++ interface)⟩ := by
  simp only [entryPoint, except_bind_ok, except_pure_ok] at h
  obtain ⟨procedure, hprocedure, interface, -, rfl⟩ := h
  exact ⟨procedure, interface, hprocedure, rfl⟩

theorem executionMode_ok {modes : List Instruction} (h : p.executionMode entry = .ok modes) :
    (entry.stage = .fragment ∧ ∃ id, modes = [⟨.executionMode, [id, 7]⟩]) ∨
      (entry.stage ≠ .fragment ∧ modes = []) := by
  unfold executionMode at h
  split at h
  · next hstage =>
      simp only [except_bind_ok, except_pure_ok] at h
      obtain ⟨procedure, -, rfl⟩ := h
      exact .inl ⟨hstage, procedure.id, rfl⟩
  · next hstage =>
      rw [except_pure_ok] at h
      exact .inr ⟨hstage, h.symm⟩

theorem globalDecorations_opcode (h : i ∈ globalDecorations g) : i.opcode = .decorate := by
  unfold globalDecorations at h
  rcases mem_append.mp h with h | h
  · split at h
    · split at h
      · rw [mem_singleton.mp h]
      · cases h
    · cases h
  · split at h
    · rw [mem_singleton.mp h]
    · cases h

theorem memberDecorations_opcode (h : i ∈ memberDecorations t) : i.opcode = .memberDecorate := by
  unfold memberDecorations at h
  split at h
  · obtain ⟨_, -, hi⟩ := mem_filterMap.mp h
    obtain ⟨_, -, rfl⟩ := Option.map_eq_some_iff.mp hi
    rfl
  · cases h

theorem globalDeclaration_ok (h : p.globalDeclaration g = .ok i) :
    ∃ pointer, p.typeId g.pointer = .ok pointer ∧
      i = ⟨.var, [pointer, g.id, g.direction.storageClass.binaryCode]⟩ := by
  simp only [globalDeclaration, except_bind_ok, except_pure_ok] at h
  obtain ⟨pointer, hpointer, rfl⟩ := h
  exact ⟨pointer, hpointer, rfl⟩

theorem constantDeclaration_ok {c : Constant} (h : p.constantDeclaration c = .ok i) :
    ∃ type, p.typeId c.type = .ok type ∧ i = ⟨.constant, [type, c.id, c.bits]⟩ := by
  simp only [constantDeclaration, except_bind_ok, except_pure_ok] at h
  obtain ⟨type, htype, rfl⟩ := h
  exact ⟨type, htype, rfl⟩

theorem function_ok {procedure : Procedure} (h : p.function procedure = .ok code) :
    ∃ result type, p.typeId procedure.result = .ok result ∧ p.typeId procedure.type = .ok type ∧
      code = ⟨.function, [result, procedure.id, 0, type]⟩ :: ⟨.label, [procedure.label]⟩ ::
        (procedure.locals.toList ++ procedure.body.toList ++ [⟨.functionEnd, []⟩]) := by
  simp only [function, except_bind_ok, except_pure_ok] at h
  obtain ⟨result, hresult, type, htype, rfl⟩ := h
  exact ⟨result, type, hresult, htype, rfl⟩

theorem typeDeclaration_ok (h : p.typeDeclaration t = .ok i) :
    i.opcode.isType = true ∧ i.result? = some t.id := by
  unfold typeDeclaration at h
  split at h
  all_goals
    simp only [except_bind_ok, except_pure_ok, Except.ok.injEq] at h
    first
    | obtain rfl := h
      exact ⟨rfl, rfl⟩
    | obtain ⟨_, -, rfl⟩ := h
      exact ⟨rfl, rfl⟩

theorem results_eq_nil (h : ∀ i ∈ code, i.result? = none) : results code = [] := by
  rw [results, filterMap_eq_nil_iff]
  exact h

theorem result?_of_opcode {op : Opcode} (h : i.opcode = op)
    (hop : op.yields = false ∧ op.declares = false) : i.result? = none := by
  simp [Instruction.result?, h, hop.1, hop.2]

namespace Assembles

theorem entryPoints_opcode (h : p.Assembles s) : ∀ i ∈ s.entryPoints, i.opcode = .entryPoint := by
  intro i hi
  obtain ⟨entry, -, hentry⟩ := mapM_ok_mem h.entryPoints hi
  obtain ⟨procedure, interface, -, rfl⟩ := entryPoint_ok hentry
  rfl

theorem modes_opcode (h : p.Assembles s) : ∀ i ∈ s.modes.flatten, i.opcode = .executionMode := by
  intro i hi
  obtain ⟨modes, hmem, hi⟩ := mem_flatten.mp hi
  obtain ⟨entry, -, hentry⟩ := mapM_ok_mem h.modes hmem
  obtain ⟨-, id, rfl⟩ | ⟨-, rfl⟩ := executionMode_ok hentry
  · rw [mem_singleton.mp hi]
  · cases hi

theorem types_opcode (h : p.Assembles s) : ∀ i ∈ s.types, i.opcode.isType = true := by
  intro i hi
  obtain ⟨t, -, ht⟩ := mapM_ok_mem h.types hi
  exact (typeDeclaration_ok ht).1

theorem globals_opcode (h : p.Assembles s) : ∀ i ∈ s.globals, i.opcode = .var := by
  intro i hi
  obtain ⟨g, -, hg⟩ := mapM_ok_mem h.globals hi
  obtain ⟨pointer, -, rfl⟩ := globalDeclaration_ok hg
  rfl

theorem constants_opcode (h : p.Assembles s) : ∀ i ∈ s.constants, i.opcode = .constant := by
  intro i hi
  obtain ⟨c, -, hc⟩ := mapM_ok_mem h.constants hi
  obtain ⟨type, -, rfl⟩ := constantDeclaration_ok hc
  rfl

theorem annotations_opcode (h : p.Assembles s) (hi : i ∈ p.annotations s) :
    i.opcode ∈ [Opcode.capability, Opcode.extInstImport, Opcode.memoryModel, Opcode.entryPoint,
      Opcode.executionMode, Opcode.decorate, Opcode.memberDecorate] := by
  simp only [annotations, mem_append] at hi
  rcases hi with ((((hi | hi) | hi) | hi) | hi) | hi
  · rw [capabilities_opcode i hi]
    decide
  · rcases mem_cons.mp hi with rfl | hi
    · decide
    · rw [mem_singleton.mp hi]
      decide
  · rw [h.entryPoints_opcode i hi]
    decide
  · rw [h.modes_opcode i hi]
    decide
  · obtain ⟨g, -, hg⟩ := mem_flatMap.mp hi
    rw [globalDecorations_opcode hg]
    decide
  · obtain ⟨t, -, ht⟩ := mem_flatMap.mp hi
    rw [memberDecorations_opcode ht]
    decide

theorem results_annotations (h : p.Assembles s) : results (p.annotations s) = [extendedSetId] := by
  have hcapabilities : results p.capabilities = [] := results_eq_nil fun i hi =>
    result?_of_opcode (capabilities_opcode i hi) ⟨rfl, rfl⟩
  have hpreamble : results preamble = [extendedSetId] := rfl
  have hentryPoints : results s.entryPoints = [] := results_eq_nil fun i hi =>
    result?_of_opcode (h.entryPoints_opcode i hi) ⟨rfl, rfl⟩
  have hmodes : results s.modes.flatten = [] := results_eq_nil fun i hi =>
    result?_of_opcode (h.modes_opcode i hi) ⟨rfl, rfl⟩
  have hdecorations : results (p.globals.toList.flatMap globalDecorations) = [] :=
    results_eq_nil fun i hi => by
      obtain ⟨g, -, hg⟩ := mem_flatMap.mp hi
      exact result?_of_opcode (globalDecorations_opcode hg) ⟨rfl, rfl⟩
  have hmembers : results (p.types.toList.flatMap memberDecorations) = [] :=
    results_eq_nil fun i hi => by
      obtain ⟨t, -, ht⟩ := mem_flatMap.mp hi
      exact result?_of_opcode (memberDecorations_opcode ht) ⟨rfl, rfl⟩
  simp only [annotations, results_append, hcapabilities, hpreamble, hentryPoints, hmodes,
    hdecorations, hmembers, nil_append, append_nil]

theorem results_types (h : p.Assembles s) : results s.types = p.types.toList.map (·.id) := by
  exact results_mapM (fun hi => (typeDeclaration_ok hi).2) h.types

theorem results_globals (h : p.Assembles s) : results s.globals = p.globals.toList.map (·.id) := by
  refine results_mapM (fun hi => ?_) h.globals
  obtain ⟨pointer, -, rfl⟩ := globalDeclaration_ok hi
  rfl

theorem results_constants (h : p.Assembles s) :
    results s.constants = p.constants.toList.map (·.id) := by
  refine results_mapM (fun hi => ?_) h.constants
  obtain ⟨type, -, rfl⟩ := constantDeclaration_ok hi
  rfl

theorem results_functions (h : p.Assembles s) :
    results s.functions.flatten = p.procedures.toList.flatMap Procedure.resultIds := by
  refine results_mapM_flatten (fun hcode => ?_) h.functions
  obtain ⟨result, type, -, -, rfl⟩ := function_ok hcode
  rw [results_cons, results_cons, results_append, results_append]
  exact congrArg (_ :: _ :: ·) (append_nil _)

theorem results_instructions (h : p.Assembles s) :
    results (p.declarations s ++ s.functions.flatten) = p.resultIds := by
  rw [results_append, declarations, results_append, results_append,
    results_append, h.results_annotations, h.results_types, h.results_globals,
    h.results_constants, h.results_functions]
  rfl

theorem declarations_opcode (h : p.Assembles s) : ∀ i ∈ p.declarations s, i.opcode ≠ .function := by
  intro i hi hfunction
  simp only [declarations, mem_append] at hi
  rcases hi with ((hi | hi) | hi) | hi
  · have hopcode := h.annotations_opcode hi
    rw [hfunction] at hopcode
    exact absurd hopcode (by decide)
  · have hopcode := h.types_opcode i hi
    rw [hfunction] at hopcode
    exact absurd hopcode (by decide)
  · rw [h.globals_opcode i hi] at hfunction
    exact absurd hfunction (by decide)
  · rw [h.constants_opcode i hi] at hfunction
    exact absurd hfunction (by decide)

theorem mem_globals (h : p.Assembles s) (hi : i ∈ p.declarations s) (hvar : i.opcode = .var) :
    i ∈ s.globals := by
  simp only [declarations, mem_append] at hi
  rcases hi with ((hi | hi) | hi) | hi
  · have hopcode := h.annotations_opcode hi
    rw [hvar] at hopcode
    exact absurd hopcode (by decide)
  · have hopcode := h.types_opcode i hi
    rw [hvar] at hopcode
    exact absurd hopcode (by decide)
  · exact hi
  · rw [h.constants_opcode i hi] at hvar
    exact absurd hvar (by decide)

end Assembles

end Program

def mixedSource : Bytes :=
  Text.utf8 "in a: vec2<i32> at 0; in s: i32 at 1; in d: f64 at 2; out o: vec4<i32> at 0;
    procedure depth() -> f64 do return d + d; end end
    [entry_point(fragment)] procedure main() -> void
    var k: f32 = 2.0; var b: vec2<i32> = s * a + a; do o := {b, a / s}; return; end end"

end Shading
