import Shading.Proofs.TypeCorrectness

/-!
Ids of a binary are in static single assignment form. Types refer to types of
smaller indices, declarations refer to types, and what is well typed in a
function refers to what was defined with a type before it. No id is left out,
since each one that was taken is the result of one instruction.
-/

namespace Shading

open List

variable {id type : UInt32} {kind : ScalarKind} {count : Nat} {ref : TypeRef} {tree : SourceTree}

namespace Binary

def Defined (before : List Instruction) (i : Instruction) : Prop :=
  ∀ id ∈ i.uses, id ∈ results before

def valuesOf (declarations : List Instruction) : List Instruction :=
  declarations.filter fun i => i.opcode = .var || i.opcode = .constant

def WorksWithin (values before : List Instruction) (i : Instruction) : Prop :=
  ∀ id ∈ i.arguments, id ∈ results values ∨ id ∈ results before

/-- The ids below a bound are defined once each, and before they are used. -/
structure SingleAssignment (bound : UInt32) (instructions : List Instruction) : Prop where
  once : (results instructions).Nodup
  dense : ∀ id, id ∈ results instructions ↔ 1 ≤ id ∧ id < bound
  defined : ∀ before i after, instructions = before ++ i :: after → Defined before i
  own : ∀ code ∈ functionsOf instructions, ∃ first label body, code = first :: label :: body ∧
    first.opcode = .function ∧ label.opcode = .label ∧
    ∀ before i after, body = before ++ i :: after →
      WorksWithin (valuesOf (beforeFunctions instructions)) before i

variable {types code code' : List Instruction} {result : UInt32} {i : Instruction}

theorem results_subset (h : code ⊆ code') : results code ⊆ results code' := by
  intro id hid
  obtain ⟨i, hi, hresult⟩ := mem_results.mp hid
  exact mem_results.mpr ⟨i, h hi, hresult⟩

theorem mem_results_of_mem (hi : i ∈ code) (h : i.result? = some id) : id ∈ results code :=
  mem_results.mpr ⟨i, hi, h⟩

theorem Defined.mono (h : Defined code i) (hsubset : code ⊆ code') : Defined code' i :=
  fun id hid => results_subset hsubset (h id hid)

theorem operation_ids {op : Opcode} (h : op.worksOn kind = true) (type id left right : UInt32) :
    (⟨op, [type, id, left, right]⟩ : Instruction).resultType? = some type ∧
      (⟨op, [type, id, left, right]⟩ : Instruction).arguments = [left, right] ∧
      (⟨op, [type, id, left, right]⟩ : Instruction).uses = [type, left, right] := by
  have hop := Opcode.mem_of_worksOn h
  simp only [mem_cons, not_mem_nil, or_false] at hop
  rcases hop with rfl | rfl | rfl | rfl | rfl | rfl | rfl | rfl <;> exact ⟨rfl, rfl, rfl⟩

theorem WellTyped.arguments (h : WellTyped types code result i) :
    ∀ id ∈ i.arguments, ∃ type, HasType code id type := by
  cases h with
  | var _ => exact fun _ hid => (not_mem_nil hid).elim
  | load _ hplace => exact forall_mem_singleton.mpr ⟨_, hplace⟩
  | store _ _ hplace hvalue =>
    exact forall_mem_cons.mpr ⟨⟨_, hplace⟩, forall_mem_singleton.mpr ⟨_, hvalue⟩⟩
  | operation hworks _ hleft hright =>
    rw [(operation_ids hworks _ _ _ _).2.1]
    exact forall_mem_cons.mpr ⟨⟨_, hleft⟩, forall_mem_singleton.mpr ⟨_, hright⟩⟩
  | scaled _ _ _ hvector hscalar =>
    exact forall_mem_cons.mpr ⟨⟨_, hvector⟩, forall_mem_singleton.mpr ⟨_, hscalar⟩⟩
  | construct _ _ _ hparts _ =>
    intro id hid
    obtain ⟨part, hpart, rfl⟩ := mem_map.mp hid
    obtain ⟨type, htype, -⟩ := hparts part hpart
    exact ⟨type, htype⟩
  | exit _ => exact fun _ hid => (not_mem_nil hid).elim
  | exitValue hvalue => exact forall_mem_singleton.mpr ⟨_, hvalue⟩

theorem WellTyped.uses_eq (h : WellTyped types code result i) :
    i.uses = i.resultType?.toList ++ i.arguments := by
  cases h with
  | operation hworks _ _ _ =>
    obtain ⟨htype, harguments, huses⟩ := operation_ids hworks _ _ _ _
    rw [htype, harguments, huses]
    rfl
  | _ => rfl

theorem result?_scalarType (kind : ScalarKind) (id : UInt32) :
    (scalarType kind id).result? = some id := by
  cases kind <;> rfl

theorem HasComponents.mem_results (h : HasComponents types type kind count) :
    type ∈ results types := by
  rcases h with ⟨hscalar, -⟩ | ⟨component, size, hvector, -⟩
  · exact mem_results_of_mem hscalar (result?_scalarType kind type)
  · exact mem_results_of_mem hvector rfl

theorem WellTyped.resultType_mem (htypes : ∀ j ∈ types, Defined types j)
    (h : WellTyped types code result i) (htype : i.resultType? = some type) :
    type ∈ results types := by
  cases h with
  | var hpointer =>
    cases htype
    exact mem_results_of_mem hpointer rfl
  | load hpointer _ =>
    cases htype
    exact htypes _ hpointer _ mem_cons_self
  | operation hworks hcomponents _ _ =>
    rw [(operation_ids hworks _ _ _ _).1] at htype
    cases htype
    exact hcomponents.mem_results
  | scaled hvector _ _ _ _ =>
    cases htype
    exact mem_results_of_mem hvector rfl
  | construct hvector _ _ _ _ =>
    cases htype
    exact mem_results_of_mem hvector rfl
  | store _ _ _ _ => cases htype
  | exit _ => cases htype
  | exitValue _ => cases htype

theorem WellTyped.defined (htypes : ∀ j ∈ types, Defined types j)
    (hsubset : types ⊆ code) (h : WellTyped types code result i) : Defined code i := by
  intro id hid
  rw [h.uses_eq, mem_append, Option.mem_toList] at hid
  rcases hid with htype | hargument
  · exact results_subset hsubset (h.resultType_mem htypes htype)
  · obtain ⟨type, hvalue⟩ := h.arguments id hargument
    exact hvalue.mem_results

theorem along_defined_flatten {first : List Instruction} {lists : List (List Instruction)}
    (h : ∀ list ∈ lists, Along Defined first list) (hsubset : first ⊆ code) :
    Along Defined code lists.flatten := by
  induction lists generalizing code with
  | nil => trivial
  | cons list rest ih =>
    rw [flatten_cons]
    have hrest := fun other hother => h other (mem_cons_of_mem list hother)
    refine along_append.mpr ⟨?_, ih hrest (subset_append_of_subset_left _ hsubset)⟩
    refine along_of_split fun before i after hsplit => ?_
    have hlist := h list mem_cons_self
    rw [hsplit] at hlist
    exact hlist.split.mono (append_subset.mpr
      ⟨subset_append_of_subset_left _ hsubset, subset_append_right _ _⟩)

theorem annotation_uses (h : i.opcode ∈ [Opcode.capability, Opcode.extInstImport,
    Opcode.memoryModel, Opcode.entryPoint, Opcode.executionMode, Opcode.decorate,
    Opcode.memberDecorate]) : i.uses = [] := by
  obtain ⟨op, operands⟩ := i
  simp only [mem_cons, not_mem_nil, or_false] at h
  rcases h with rfl | rfl | rfl | rfl | rfl | rfl | rfl <;> rfl

theorem Along.closed (h : Along Defined [] code) (hi : i ∈ code) : Defined code i := by
  obtain ⟨before, after, rfl⟩ := append_of_mem hi
  exact h.split.mono (subset_append_left _ _)

theorem mem_idsFrom_one (h : count + 1 < UInt32.size) (id : UInt32) :
    id ∈ idsFrom 1 count ↔ 1 ≤ id ∧ id < 1 + UInt32.ofNat count := by
  have hsum : ∀ k, k ≤ count → (1 + UInt32.ofNat k).toNat = 1 + k := by
    intro k hk
    have hsize : UInt32.size = 4294967296 := rfl
    rw [UInt32.toNat_add, UInt32.toNat_ofNat_of_lt' (by omega), UInt32.toNat_one,
      Nat.mod_eq_of_lt (by omega)]
  unfold idsFrom
  rw [mem_map, UInt32.le_iff_toNat_le, UInt32.lt_iff_toNat_lt, hsum count (Nat.le_refl _),
    UInt32.toNat_one]
  constructor
  · rintro ⟨k, hk, rfl⟩
    rw [mem_range] at hk
    rw [hsum k (Nat.le_of_lt hk)]
    omega
  · rintro ⟨hlow, hhigh⟩
    refine ⟨id.toNat - 1, mem_range.mpr (by omega), ?_⟩
    apply UInt32.toNat_inj.mp
    rw [hsum _ (by omega)]
    omega

end Binary

open Binary

namespace Program

variable {p : Program} {s : Sections}

theorem typeDeclaration_uses {t : TypeEntry} {i : Instruction} (h : p.typeDeclaration t = .ok i)
    (hsound : p.ShapeSound ref t.shape) :
    ∀ id ∈ i.uses, ∃ other < ref, p.typeId other = .ok id := by
  obtain ⟨name, own, shape⟩ := t
  cases shape with
  | void =>
    cases h
    exact fun _ hid => (not_mem_nil hid).elim
  | scalar kind =>
    cases kind <;> cases h <;> exact fun _ hid => (not_mem_nil hid).elim
  | vector component size =>
    simp only [typeDeclaration, except_bind_ok, except_pure_ok] at h
    obtain ⟨id, hid, rfl⟩ := h
    exact forall_mem_singleton.mpr ⟨component, hsound.1, hid⟩
  | pointer base storage =>
    simp only [typeDeclaration, except_bind_ok, except_pure_ok] at h
    obtain ⟨id, hid, rfl⟩ := h
    exact forall_mem_singleton.mpr ⟨base, hsound, hid⟩
  | procedure result =>
    simp only [typeDeclaration, except_bind_ok, except_pure_ok] at h
    obtain ⟨id, hid, rfl⟩ := h
    exact forall_mem_singleton.mpr ⟨result, hsound, hid⟩
  | record members =>
    simp only [typeDeclaration, except_bind_ok, except_pure_ok] at h
    obtain ⟨ids, hids, rfl⟩ := h
    intro id hid
    obtain ⟨m, hm, hid⟩ := mapM_ok_mem hids hid
    exact ⟨m.type, hsound m hm, hid⟩

namespace Assembles

theorem types_defined (hs : p.Assembles s) (hsound : p.Sound) (code : List Instruction) :
    Along Defined code s.types := by
  refine along_of_split fun before i after hsplit id hid => ?_
  have htypes := hs.types
  rw [hsplit] at htypes
  -- The declarations before this one are those of the types before its own.
  obtain ⟨first, t, rest, hlist, hfirst, ht⟩ := mapM_ok_split htypes
  have hindex : p.types.get? first.length = some t := by
    rw [Arena.get?_eq, hlist, getElem?_append_right (Nat.le_refl _), Nat.sub_self]
    rfl
  obtain ⟨other, hother, htypeId⟩ := typeDeclaration_uses ht (hsound.shapes _ _ hindex).1 id hid
  obtain ⟨entry, hentry, rfl⟩ := typeId_ok.mp htypeId
  rw [Arena.get?_eq, hlist, getElem?_append_left hother] at hentry
  have hbefore : results before = first.map (·.id) :=
    results_mapM (fun hi => (typeDeclaration_ok hi).2) hfirst
  rw [results_append, hbefore]
  exact mem_append_right _ (mem_map_of_mem (mem_of_getElem? hentry))

theorem typeId_mem (hs : p.Assembles s) (h : p.typeId ref = .ok id) : id ∈ results s.types := by
  obtain ⟨entry, hentry, rfl⟩ := typeId_ok.mp h
  rw [hs.results_types]
  exact mem_map_of_mem (Arena.mem_of_get? hentry)

theorem declarations_defined (hs : p.Assembles s) (hsound : p.Sound) :
    Along Defined [] (p.declarations s) := by
  have hannotations : Along Defined [] (p.annotations s) := by
    refine along_of_forall fun i hi before id hid => ?_
    rw [annotation_uses (hs.annotations_opcode hi)] at hid
    cases hid
  refine along_append.mpr ⟨along_append.mpr ⟨along_append.mpr ⟨hannotations, ?_⟩, ?_⟩, ?_⟩
  · exact hs.types_defined hsound _
  · refine along_of_forall fun i hi before => ?_
    obtain ⟨g, -, hg⟩ := mapM_ok_mem hs.globals hi
    obtain ⟨pointer, hpointer, rfl⟩ := globalDeclaration_ok hg
    refine forall_mem_singleton.mpr ?_
    simp only [results_append, mem_append]
    exact .inl (.inr (.inr (hs.typeId_mem hpointer)))
  · refine along_of_forall fun i hi before => ?_
    obtain ⟨c, -, hc⟩ := mapM_ok_mem hs.constants hi
    obtain ⟨type, htype, rfl⟩ := constantDeclaration_ok hc
    refine forall_mem_singleton.mpr ?_
    simp only [results_append, mem_append]
    exact .inl (.inr (.inl (.inr (hs.typeId_mem htype))))

theorem value_opcode (hs : p.Assembles s) {i : Instruction} (hi : i ∈ p.declarations s)
    (hyields : i.opcode.yields = true) : i.opcode = .var ∨ i.opcode = .constant := by
  simp only [declarations, mem_append] at hi
  rcases hi with ((hi | hi) | hi) | hi
  · have hnone : ∀ op ∈ [Opcode.capability, Opcode.extInstImport, Opcode.memoryModel,
        Opcode.entryPoint, Opcode.executionMode, Opcode.decorate, Opcode.memberDecorate],
        op.yields = false := by decide
    rw [hnone _ (hs.annotations_opcode hi)] at hyields
    cases hyields
  · have hnone : ∀ op ∈ [Opcode.typeVoid, Opcode.typeBool, Opcode.typeInt, Opcode.typeFloat,
        Opcode.typeVector, Opcode.typeStruct, Opcode.typePointer, Opcode.typeFunction],
        op.yields = false := by decide
    rw [hnone _ (of_decide_eq_true (hs.types_opcode i hi))] at hyields
    cases hyields
  · exact .inl (hs.globals_opcode i hi)
  · exact .inr (hs.constants_opcode i hi)

theorem worksWithin (hs : p.Assembles s) {before : List Instruction} {i : Instruction}
    {result : UInt32} (h : WellTyped (p.declarations s) (p.declarations s ++ before) result i) :
    WorksWithin (valuesOf (p.declarations s)) before i := by
  intro id hid
  obtain ⟨type, j, hj, hresult, htype⟩ := h.arguments id hid
  rcases mem_append.mp hj with hdeclared | hlater
  · have hyields : j.opcode.yields = true := by
      unfold Instruction.resultType? at htype
      split at htype
      · assumption
      · cases htype
    refine .inl (mem_results_of_mem (mem_filter.mpr ⟨hdeclared, ?_⟩) hresult)
    simpa using hs.value_opcode hdeclared hyields
  · exact .inr (mem_results_of_mem hlater hresult)

end Assembles

theorem Built.function_defined (h : p.Built tree) (hs : p.Assembles s) {code : List Instruction}
    (hcode : code ∈ s.functions) : Along Defined (p.declarations s) code := by
  obtain ⟨procedure, -, result, type, rfl, hdeclared, htyped⟩ := h.function hs hcode
  have hclosed : ∀ i ∈ p.declarations s, Defined (p.declarations s) i :=
    fun i hi => (hs.declarations_defined h.sound).closed hi
  refine ⟨?_, fun _ hid => (not_mem_nil hid).elim, Along.concat ?_ ?_⟩
  · refine forall_mem_cons.mpr ⟨?_, forall_mem_singleton.mpr ?_⟩
    · exact hclosed _ hdeclared _ mem_cons_self
    · exact mem_results_of_mem hdeclared rfl
  · refine along_of_split fun before i after hsplit => ?_
    rw [hsplit] at htyped
    refine (htyped.split.defined hclosed (subset_append_left _ _)).mono ?_
    refine append_subset.mpr ⟨?_, subset_append_right _ _⟩
    rw [append_assoc, append_assoc]
    exact subset_append_left _ _
  · exact fun _ hid => (not_mem_nil hid).elim

theorem Built.function_own (h : p.Built tree) (hs : p.Assembles s) {code : List Instruction}
    (hcode : code ∈ s.functions) :
    ∃ first label body, code = first :: label :: body ∧ first.opcode = .function ∧
      label.opcode = .label ∧ ∀ before i after, body = before ++ i :: after →
        WorksWithin (valuesOf (p.declarations s)) before i := by
  obtain ⟨procedure, -, result, type, rfl, -, htyped⟩ := h.function hs hcode
  refine ⟨_, _, _, rfl, rfl, rfl, ?_⟩
  have hown : Along (WorksWithin (valuesOf (p.declarations s))) []
      (procedure.locals.toList ++ procedure.body.toList ++ [⟨.functionEnd, []⟩]) := by
    refine Along.concat (along_of_split fun before i after hsplit => ?_) ?_
    · rw [hsplit] at htyped
      exact hs.worksWithin htyped.split
    · exact fun _ hid => (not_mem_nil hid).elim
  intro before i after hsplit
  rw [hsplit] at hown
  exact hown.split

end Program

/-- The ids of a binary are in static single assignment form, and none is left out, as long as the
counter of ids has not run around. -/
theorem compile_singleAssignment {source binary : Bytes} {limits : Limits}
    (h : compile source limits = .ok binary)
    (hids : (results (decode binary).instructions).length + 1 < UInt32.size) :
    SingleAssignment (decode binary).header.bound (decode binary).instructions := by
  obtain ⟨p, s, hbuilt, hs, hdecode⟩ := compile_assembles h
  obtain ⟨hbefore, hfunctions⟩ := hbuilt.functionsOf hs
  obtain ⟨count, hnext, hperm⟩ := hbuilt.ids
  rw [hdecode, hs.results_instructions, hperm.length_eq, length_idsFrom] at hids
  rw [hdecode]
  refine ⟨?_, ?_, ?_, ?_⟩
  · rw [hs.results_instructions]
    exact hperm.nodup_iff.mpr (nodup_idsFrom 1 (by omega))
  · intro id
    rw [hs.results_instructions, hperm.mem_iff, mem_idsFrom_one hids, ← hnext]
    rfl
  · have hall : Along Defined [] (p.declarations s ++ s.functions.flatten) :=
      along_append.mpr ⟨hs.declarations_defined hbuilt.sound,
        along_defined_flatten (fun code hcode => hbuilt.function_defined hs hcode)
          (Subset.refl _)⟩
    intro before i after hsplit
    change p.declarations s ++ s.functions.flatten = before ++ i :: after at hsplit
    rw [hsplit] at hall
    exact hall.split
  · rw [hfunctions, hbefore]
    exact fun code hcode => hbuilt.function_own hs hcode

theorem mixedSource_singleAssignment : ∃ binary, compile mixedSource {} = .ok binary ∧
    (results (decode binary).instructions).length + 1 < UInt32.size ∧
    (decode binary).header.bound = 42 ∧
    SingleAssignment 42 (decode binary).instructions := by
  have hcheck : (match compile mixedSource {} with
      | .ok binary => decide ((results (decode binary).instructions).length + 1 < UInt32.size ∧
          (decode binary).header.bound = 42)
      | .error _ => false) = true := by decide +kernel
  cases h : compile mixedSource {} with
  | error e => simp [h] at hcheck
  | ok binary =>
    simp only [h, decide_eq_true_eq] at hcheck
    obtain ⟨hids, hbound⟩ := hcheck
    have hassigned := compile_singleAssignment h hids
    rw [hbound] at hassigned
    exact ⟨binary, rfl, hids, hbound, hassigned⟩

end Shading
