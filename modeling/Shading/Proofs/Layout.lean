import Shading.Proofs.Construction.Encoding

/-!
The layout of a binary: its sections follow each other in the order of the
format, and each function is one block with one terminator, its last
instruction. How a block ends follows from the translation of statements,
where nothing stands behind a return.
-/

namespace Shading

open List

variable {result : TypeRef} {returned : Bool} {tree : SourceTree}

namespace Binary

def Opcode.terminates (op : Opcode) : Bool := Opcode.branch.code ≤ op.code && op.code ≤ 255

def Opcode.isPlain (op : Opcode) : Bool :=
  !op.terminates &&
    op ∉ [Opcode.function, Opcode.functionParameter, Opcode.functionEnd, Opcode.label, Opcode.var]

def IsBlock (void : Bool) (code : List Instruction) : Prop :=
  ∃ first label vars body last final,
    code = first :: label :: (vars ++ (body ++ [last]) ++ [final]) ∧
    first.opcode = .function ∧ label.opcode = .label ∧ (∀ i ∈ vars, i.opcode = .var) ∧
    (∀ i ∈ body, i.opcode.isPlain = true) ∧
    last.opcode = (if void then .exit else .exitValue) ∧ final.opcode = .functionEnd

/-- The capability of shaders. -/
def shaderCapability : Instruction := ⟨.capability, [1]⟩

/-- The capability of 64-bit floats. -/
def float64Capability : Instruction := ⟨.capability, [10]⟩

def fragmentMode? (entryPoint : Instruction) : Option Instruction :=
  match entryPoint.operands with
  | model :: id :: _ =>
    if model = Stage.fragment.executionModel then some ⟨.executionMode, [id, 7]⟩ else none
  | _ => none

theorem Opcode.isPlain_of_worksOn {op : Opcode} {kind : ScalarKind} (h : op.worksOn kind = true) :
    op.isPlain = true := by
  have hall : ∀ op ∈ [fAdd, fSub, fDiv, iAdd, iSub, iMul, sDiv, uDiv], op.isPlain = true := by
    decide
  exact hall op (Opcode.mem_of_worksOn h)

end Binary

open Binary (Instruction Opcode IsBlock shaderCapability float64Capability fragmentMode?)

/-- The sections of a binary. -/
structure Layout where
  capabilities : List Instruction
  extendedSet : Instruction
  memoryModel : Instruction
  entryPoints : List Instruction
  modes : List Instruction
  decorations : List Instruction
  memberDecorations : List Instruction
  types : List Instruction
  globals : List Instruction
  constants : List Instruction
  functions : List (List Instruction)

namespace Layout

def instructions (l : Layout) : List Instruction :=
  l.capabilities ++ [l.extendedSet, l.memoryModel] ++ l.entryPoints ++ l.modes ++ l.decorations ++
    l.memberDecorations ++ l.types ++ l.globals ++ l.constants ++ l.functions.flatten

/-- What the sections of a file of items hold. -/
structure Describes (l : Layout) (items : List Item) : Prop where
  capabilities : l.capabilities = shaderCapability ::
    if (items.flatMap Item.types).any (·.leaf = Text.utf8 "f64") then [float64Capability] else []
  extendedSet : l.extendedSet.opcode = .extInstImport
  memoryModel : l.memoryModel.opcode = .memoryModel
  entryPoints : l.entryPoints.length = (stagedProcedures none items).length ∧
    ∀ pair ∈ (stagedProcedures none items).zip l.entryPoints, ∃ id interface,
      pair.2 = ⟨.entryPoint,
        pair.1.1.executionModel :: id :: (Binary.packString pair.1.2 ++ interface)⟩
  modes : l.modes = l.entryPoints.filterMap fragmentMode?
  decorations : ∀ i ∈ l.decorations, i.opcode = .decorate
  memberDecorations : ∀ i ∈ l.memberDecorations, i.opcode = .memberDecorate
  types : ∀ i ∈ l.types, i.opcode.isType = true
  globals : ∀ i ∈ l.globals, i.opcode = .var
  constants : ∀ i ∈ l.constants, i.opcode = .constant
  functions : l.functions.length = (routines [] items).length ∧
    ∀ pair ∈ (routines [] items).zip l.functions, IsBlock pair.1.result.isVoid pair.2

end Layout

namespace Program

variable {p : Program} {s : Sections} {scope scope' : List Local} {code vars : List Instruction}

theorem Translates.plain {x : Expr} {type : TypeRef} {id : UInt32}
    (h : p.Translates scope x type code id) : ∀ i ∈ code, i.opcode.isPlain = true := by
  induction h with
  | var _ _ => exact forall_mem_singleton.mpr rfl
  | number _ _ => exact fun _ hi => (not_mem_nil hi).elim
  | paren _ ih => exact ih
  | vector _ _ hlength _ _ _ ih =>
    refine forall_mem_append.mpr ⟨?_, forall_mem_singleton.mpr rfl⟩
    intro i hi
    obtain ⟨part, hpart, hi⟩ := mem_flatMap.mp hi
    obtain ⟨x, hx⟩ := mem_zip_of_mem_right hlength hpart
    exact ih _ hx i hi
  | sum _ hkind _ _ _ ihl ihr =>
    exact forall_mem_append.mpr ⟨forall_mem_append.mpr ⟨ihl, ihr⟩,
      forall_mem_singleton.mpr (Opcode.isPlain_of_worksOn (worksOn_sum _ hkind))⟩
  | scaled _ _ _ _ _ _ _ ihs ihv =>
    exact forall_mem_append.mpr ⟨forall_mem_append.mpr ⟨ihs, ihv⟩,
      forall_mem_singleton.mpr rfl⟩
  | spread _ _ _ hkind hop _ _ _ ihs ihv =>
    exact forall_mem_append.mpr ⟨forall_mem_append.mpr ⟨ihs, ihv⟩,
      forall_mem_cons.mpr ⟨rfl,
        forall_mem_singleton.mpr (Opcode.isPlain_of_worksOn (worksOn_scale hkind hop))⟩⟩

def Ends (result : TypeRef) (code : List Instruction) : Bool → Prop
  | true => ∃ body last, code = body ++ [last] ∧ (∀ i ∈ body, i.opcode.isPlain = true) ∧
      last.opcode = (if result = voidType then .exit else .exitValue)
  | false => ∀ i ∈ code, i.opcode.isPlain = true

theorem Ends.append {code' : List Instruction} (h : ∀ i ∈ code, i.opcode.isPlain = true)
    (hrest : Ends result code' returned) : Ends result (code ++ code') returned := by
  cases returned with
  | true =>
    obtain ⟨body, last, rfl, hbody, hlast⟩ := hrest
    exact ⟨code ++ body, last, (append_assoc _ _ _).symm,
      forall_mem_append.mpr ⟨h, hbody⟩, hlast⟩
  | false => exact forall_mem_append.mpr ⟨h, hrest⟩

theorem Lowered.ends {stmts : List Stmt}
    (h : p.Lowered result scope stmts scope' vars code returned) : Ends result code returned := by
  induction h with
  | done => exact fun _ hi => (not_mem_nil hi).elim
  | next _ _ ihstmt ihrest => exact .append ihstmt ihrest
  | declare _ _ _ htranslates =>
    exact forall_mem_append.mpr ⟨htranslates.plain, forall_mem_singleton.mpr rfl⟩
  | leave hresult =>
    refine ⟨[], _, rfl, fun _ hi => (not_mem_nil hi).elim, ?_⟩
    rw [if_pos hresult]
  | giveBack hresult htranslates =>
    refine ⟨_, _, rfl, htranslates.plain, ?_⟩
    rw [if_neg hresult]
  | group _ ih => exact ih
  | evaluate htranslates => exact htranslates.plain
  | assign _ _ _ htranslates =>
    exact forall_mem_append.mpr ⟨htranslates.plain, forall_mem_singleton.mpr rfl⟩

theorem Compiled.isBlock {body : List Stmt} {procedure : Procedure}
    (h : p.Compiled scope body procedure) (hcode : p.function procedure = .ok code) :
    IsBlock (procedure.result = voidType) code := by
  obtain ⟨result, type, -, -, rfl⟩ := function_ok hcode
  obtain ⟨scope', code, returned, hlowered, hbody, hvoid⟩ := h.body
  have hvariables : ∀ i ∈ procedure.locals.toList, i.opcode = .var := by
    intro i hi
    obtain ⟨type, id, rfl⟩ := hlowered.variables i hi
    rfl
  have hends := hlowered.ends
  -- A body that has not returned is closed by one return more, which only void ones get.
  rw [hbody]
  cases returned with
  | true =>
    obtain ⟨body, last, rfl, hplain, hlast⟩ := hends
    rw [if_pos rfl, append_nil]
    exact ⟨_, _, _, body, last, _, rfl, rfl, rfl, hvariables, hplain, by simpa using hlast, rfl⟩
  | false =>
    exact ⟨_, _, _, code, _, _, rfl, rfl, rfl, hvariables, hends, by simp [hvoid rfl], rfl⟩

theorem mode_of_entryPoint {entry : EntryPoint} {i : Instruction} {mode : List Instruction}
    (h : p.entryPoint entry = .ok i) (hmode : p.executionMode entry = .ok mode) :
    mode = (fragmentMode? i).toList := by
  obtain ⟨procedure, interface, hprocedure, rfl⟩ := entryPoint_ok h
  unfold executionMode at hmode
  cases hstage : entry.stage with
  | fragment =>
    rw [if_pos hstage, hprocedure] at hmode
    obtain rfl := except_pure_ok.mp hmode
    rfl
  | vertex =>
    rw [hstage, if_neg nofun] at hmode
    obtain rfl := except_pure_ok.mp hmode
    rfl
  | other number =>
    rw [hstage, if_neg nofun] at hmode
    obtain rfl := except_pure_ok.mp hmode
    rfl

theorem modes_of_entryPoints {entries : List EntryPoint} {found : List Instruction}
    {modes : List (List Instruction)} (hfound : entries.mapM p.entryPoint = .ok found)
    (hmodes : entries.mapM p.executionMode = .ok modes) :
    modes.flatten = found.filterMap fragmentMode? := by
  induction entries generalizing found modes with
  | nil =>
    obtain rfl := mapM_ok_nil.mp hfound
    obtain rfl := mapM_ok_nil.mp hmodes
    rfl
  | cons entry rest ih =>
    obtain ⟨i, others, hi, hothers, rfl⟩ := mapM_ok_cons.mp hfound
    obtain ⟨mode, others', hmode, hothers', rfl⟩ := mapM_ok_cons.mp hmodes
    rw [flatten_cons, ih hothers hothers', mode_of_entryPoint hi hmode]
    cases hfragment : fragmentMode? i with
    | none => rw [filterMap_cons_none hfragment]; rfl
    | some mode => rw [filterMap_cons_some hfragment]; rfl

theorem Built.functions_blocks (h : p.Built tree) (hs : p.Assembles s) :
    s.functions.length = (routines [] tree.items).length ∧
      ∀ pair ∈ (routines [] tree.items).zip s.functions, IsBlock pair.1.result.isVoid pair.2 := by
  obtain ⟨hlength, hroutines⟩ := h.declared.routines (prefix_refl _)
  refine ⟨(mapM_ok_length hs.functions).trans hlength.symm, ?_⟩
  rintro ⟨routine, code⟩ hpair
  obtain ⟨procedure, hroutine, hcode⟩ := mem_zip_of_zip hlength hpair
  obtain ⟨-, hvoid, visible, -, -, hcompiled⟩ := hroutines _ hroutine
  have hresult : decide (procedure.result = voidType) = routine.result.isVoid := by
    rw [Bool.eq_iff_iff, decide_eq_true_iff]
    exact hvoid
  rw [← hresult]
  exact hcompiled.isBlock (mapM_ok_zip hs.functions hcode)

theorem Built.capabilities_eq (h : p.Built tree) :
    p.capabilities = shaderCapability ::
      if (tree.items.flatMap Item.types).any (·.leaf = Text.utf8 "f64") then [float64Capability]
      else [] := by
  have hnamed : p.hasScalar .f64 =
      (tree.items.flatMap Item.types).any (·.leaf = Text.utf8 "f64") := by
    rw [Bool.eq_iff_iff, h.scalars, any_eq_true]
    simp only [reduceCtorEq, false_or, decide_eq_true_eq]
    rfl
  unfold capabilities
  rw [hnamed]
  rfl

theorem Built.entryPoints_eq (h : p.Built tree) (hs : p.Assembles s) :
    s.entryPoints.length = (stagedProcedures none tree.items).length ∧
      ∀ pair ∈ (stagedProcedures none tree.items).zip s.entryPoints, ∃ id interface,
        pair.2 = ⟨.entryPoint,
          pair.1.1.executionModel :: id :: (Binary.packString pair.1.2 ++ interface)⟩ := by
  rw [← h.entryPoints]
  unfold Elaborate.entries
  refine ⟨by rw [mapM_ok_length hs.entryPoints, length_map], ?_⟩
  rw [zip_map_left]
  intro pair hpair
  obtain ⟨⟨entry, i⟩, hmem, rfl⟩ := mem_map.mp hpair
  obtain ⟨procedure, interface, -, hi⟩ := entryPoint_ok (mapM_ok_zip hs.entryPoints hmem)
  exact ⟨procedure.id, interface, hi⟩

end Program

/-- A binary has the layout of the format. Its sections tell of the source, whose tokens are those
of its tree, and each procedure is one block with one terminator, its last instruction. -/
theorem compile_layout {source binary : Bytes} {limits : Limits}
    (h : compile source limits = .ok binary) :
    (Binary.decode binary).failure = none ∧
      Grammar.File (Tokens.ofSource source).tokens (SourceTree.ofSource source).items ∧
      ∃ l : Layout, (Binary.decode binary).instructions = l.instructions ∧
        l.Describes (SourceTree.ofSource source).items := by
  obtain ⟨p, s, hbuilt, hs, hdecode⟩ := compile_assembles h
  obtain ⟨pos, hending⟩ := hbuilt.ending
  rw [hdecode]
  refine ⟨rfl, Grammar.file_ofSource hending,
    ⟨p.capabilities, ⟨.extInstImport, extendedSetId :: Binary.packString Program.extendedSetName⟩,
      ⟨.memoryModel, [0, 1]⟩, s.entryPoints, s.modes.flatten,
      p.globals.toList.flatMap Program.globalDecorations,
      p.types.toList.flatMap Program.memberDecorations, s.types, s.globals, s.constants,
      s.functions⟩, rfl, ?_⟩
  refine ⟨hbuilt.capabilities_eq, rfl, rfl, hbuilt.entryPoints_eq hs,
    Program.modes_of_entryPoints hs.entryPoints hs.modes, ?_, ?_, hs.types_opcode,
    hs.globals_opcode, hs.constants_opcode, hbuilt.functions_blocks hs⟩
  · intro i hi
    obtain ⟨g, -, hg⟩ := mem_flatMap.mp hi
    exact Program.globalDecorations_opcode hg
  · intro i hi
    obtain ⟨t, -, ht⟩ := mem_flatMap.mp hi
    exact Program.memberDecorations_opcode ht

theorem mixedSource_layout : ∃ binary, compile mixedSource {} = .ok binary ∧
    ∃ l : Layout, (Binary.decode binary).instructions = l.instructions ∧
      l.Describes (SourceTree.ofSource mixedSource).items ∧
      l.capabilities = [shaderCapability, float64Capability] ∧ l.functions.length = 2 := by
  have hcompiles : (compile mixedSource {}).isOk = true := by decide +kernel
  have hnamed : ((SourceTree.ofSource mixedSource).items.flatMap Item.types).any
      (·.leaf = Text.utf8 "f64") = true := by decide +kernel
  have hcount : (routines [] (SourceTree.ofSource mixedSource).items).length = 2 := by
    decide +kernel
  cases h : compile mixedSource {} with
  | error e => simp [h, Except.isOk, Except.toBool] at hcompiles
  | ok binary =>
    obtain ⟨-, -, l, hinstructions, hdescribes⟩ := compile_layout h
    refine ⟨binary, rfl, l, hinstructions, hdescribes, ?_, ?_⟩
    · rw [hdescribes.capabilities, if_pos hnamed]
    · rw [hdescribes.functions.1, hcount]

end Shading
