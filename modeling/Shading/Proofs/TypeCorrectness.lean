import Shading.Proofs.Construction.Encoding

/-!
The code of a program is well typed against the declarations in its own
binary. Where the program knows the shape of a type, the binary declares it
under the id of the type, so the translation of expressions and statements
carries over.
-/

namespace Shading

open Binary List

variable {code : List Instruction} {component type : TypeRef} {shape : Shape} {kind : ScalarKind}
  {size resultId : UInt32} {result : TypeRef} {count : Nat} {code' vars : List Instruction}
  {scope' : List Local} {stmts : List Stmt} {returned : Bool} {visible : List Global}
  {tree : SourceTree}

namespace Program

variable {p : Program} {s : Sections} {ref : TypeRef} {id : UInt32}

namespace Assembles

theorem declaration (h : p.Assembles s) (hshape : p.shapeAt ref = some shape)
    (hid : p.typeId ref = .ok id) :
    ∃ entry i, entry.id = id ∧ entry.shape = shape ∧ p.typeDeclaration entry = .ok i ∧
      i ∈ p.declarations s := by
  obtain ⟨entry, hentry, rfl⟩ := Option.map_eq_some_iff.mp hshape
  obtain ⟨entry', hentry', rfl⟩ := typeId_ok.mp hid
  rw [hentry] at hentry'
  cases hentry'
  obtain ⟨i, hi, hdeclaration⟩ := mapM_ok_of_mem h.types (Arena.mem_of_get? hentry)
  refine ⟨entry, i, rfl, rfl, hdeclaration, ?_⟩
  unfold declarations
  exact mem_append_left _ (mem_append_left _ (mem_append_right _ hi))

theorem void (h : p.Assembles s) (hshape : p.shapeAt ref = some .void)
    (hid : p.typeId ref = .ok id) : ⟨.typeVoid, [id]⟩ ∈ p.declarations s := by
  obtain ⟨⟨name, own, shape⟩, i, rfl, rfl, hi, hmem⟩ := h.declaration hshape hid
  cases hi
  exact hmem

theorem scalar (h : p.Assembles s) (hshape : p.shapeAt ref = some (.scalar kind))
    (hid : p.typeId ref = .ok id) : scalarType kind id ∈ p.declarations s := by
  obtain ⟨⟨name, own, shape⟩, i, rfl, rfl, hi, hmem⟩ := h.declaration hshape hid
  cases kind <;> cases hi <;> exact hmem

theorem vector (h : p.Assembles s) (hshape : p.shapeAt ref = some (.vector component size))
    (hid : p.typeId ref = .ok id) :
    ∃ componentId, p.typeId component = .ok componentId ∧
      ⟨.typeVector, [id, componentId, size]⟩ ∈ p.declarations s := by
  obtain ⟨⟨name, own, shape⟩, i, rfl, rfl, hi, hmem⟩ := h.declaration hshape hid
  simp only [typeDeclaration, except_bind_ok, except_pure_ok] at hi
  obtain ⟨componentId, hcomponent, rfl⟩ := hi
  exact ⟨componentId, hcomponent, hmem⟩

theorem pointer (h : p.Assembles s) {base : TypeRef} {storage : StorageClass}
    (hshape : p.shapeAt ref = some (.pointer base storage)) (hid : p.typeId ref = .ok id) :
    ∃ baseId, p.typeId base = .ok baseId ∧
      ⟨.typePointer, [id, storage.binaryCode, baseId]⟩ ∈ p.declarations s := by
  obtain ⟨⟨name, own, shape⟩, i, rfl, rfl, hi, hmem⟩ := h.declaration hshape hid
  simp only [typeDeclaration, except_bind_ok, except_pure_ok] at hi
  obtain ⟨baseId, hbase, rfl⟩ := hi
  exact ⟨baseId, hbase, hmem⟩

theorem procedure (h : p.Assembles s) (hshape : p.shapeAt ref = some (.procedure result))
    (hid : p.typeId ref = .ok id) :
    ∃ resultId, p.typeId result = .ok resultId ∧
      ⟨.typeFunction, [id, resultId]⟩ ∈ p.declarations s := by
  obtain ⟨⟨name, own, shape⟩, i, rfl, rfl, hi, hmem⟩ := h.declaration hshape hid
  simp only [typeDeclaration, except_bind_ok, except_pure_ok] at hi
  obtain ⟨resultId, hresult, rfl⟩ := hi
  exact ⟨resultId, hresult, hmem⟩

theorem components (h : p.Assembles s) (hcomponents : p.Components ref kind count)
    (hid : p.typeId ref = .ok id) : HasComponents (p.declarations s) id kind count := by
  rcases hcomponents with ⟨hscalar, hcount⟩ | ⟨component, size, hvector, hscalar, hcount⟩
  · exact .inl ⟨h.scalar hscalar hid, hcount⟩
  · obtain ⟨componentId, hcomponent, hdeclared⟩ := h.vector hvector hid
    exact .inr ⟨componentId, size, hdeclared, h.scalar hscalar hcomponent, hcount⟩

theorem constant (h : p.Assembles s) (hsound : p.Sound) {c : Constant}
    (hc : c ∈ p.constants.toList) (hid : p.typeId f32Type = .ok id) :
    HasType (p.declarations s) c.id id := by
  obtain ⟨i, hi, hdeclaration⟩ := mapM_ok_of_mem h.constants hc
  obtain ⟨type, htype, rfl⟩ := constantDeclaration_ok hdeclaration
  rw [hsound.constants c hc, hid] at htype
  cases htype
  exact ⟨_, mem_append_right _ hi, rfl, rfl⟩

end Assembles

def PlaceTyped (p : Program) (s : Sections) (code : List Instruction) (place : Local) : Prop :=
  ∃ pointer storage type, p.typeId place.type = .ok type ∧
    ⟨.typePointer, [pointer, storage, type]⟩ ∈ p.declarations s ∧ HasType code place.id pointer ∧
    (storage = inputStorage →
      ∃ ref g, place.global = some ref ∧ p.globals.get? ref = some g ∧ g.direction = .input)

theorem PlaceTyped.mono {place : Local} (h : p.PlaceTyped s code place) (hsubset : code ⊆ code') :
    p.PlaceTyped s code' place := by
  obtain ⟨pointer, storage, type, htype, hpointer, hplace, hinput⟩ := h
  exact ⟨pointer, storage, type, htype, hpointer, hplace.mono hsubset, hinput⟩

theorem typeId_of_shapeAt (h : p.shapeAt ref = some shape) : ∃ id, p.typeId ref = .ok id := by
  obtain ⟨entry, hentry, -⟩ := Option.map_eq_some_iff.mp h
  exact ⟨entry.id, typeId_ok.mpr ⟨entry, hentry, rfl⟩⟩

def TypedCode (p : Program) (s : Sections) (scope : List Local) (type : TypeRef)
    (code : List Instruction) (id : UInt32) : Prop :=
  ∀ {before : List Instruction} (result : UInt32), p.declarations s ⊆ before →
    (∀ place ∈ scope, p.PlaceTyped s before place) →
    WellTypedFrom (p.declarations s) result before code ∧
      ∃ typeId, p.typeId type = .ok typeId ∧ HasType (before ++ code) id typeId

variable {scope : List Local} {before : List Instruction}

theorem placesTyped_append (h : ∀ place ∈ scope, p.PlaceTyped s before place)
    (code : List Instruction) : ∀ place ∈ scope, p.PlaceTyped s (before ++ code) place :=
  fun place hplace => (h place hplace).mono (subset_append_left _ _)

theorem TypedCode.pair {type' : TypeRef} {l r : UInt32} (hl : p.TypedCode s scope type code l)
    (hr : p.TypedCode s scope type' code' r) (result : UInt32)
    (hdeclared : p.declarations s ⊆ before)
    (hscope : ∀ place ∈ scope, p.PlaceTyped s before place) :
    WellTypedFrom (p.declarations s) result before (code ++ code') ∧
      ∃ typeId typeId', p.typeId type = .ok typeId ∧ p.typeId type' = .ok typeId' ∧
        HasType (before ++ (code ++ code')) l typeId ∧
        HasType (before ++ (code ++ code')) r typeId' := by
  obtain ⟨hcode, typeId, htype, hid⟩ := hl result hdeclared hscope
  obtain ⟨hcode', typeId', htype', hid'⟩ := hr result
    (subset_append_of_subset_left _ hdeclared) (placesTyped_append hscope code)
  rw [append_assoc] at hid'
  refine ⟨along_append.mpr ⟨hcode, hcode'⟩, typeId, typeId', htype, htype', ?_, hid'⟩
  rw [← append_assoc]
  exact hid.mono (subset_append_left _ _)

theorem TypedCode.factors (hs : p.Assembles s) {typeId : UInt32} {l v : UInt32}
    (hshape : p.shapeAt type = some (.vector component size)) (htype : p.typeId type = .ok typeId)
    (hl : p.TypedCode s scope component code l) (hv : p.TypedCode s scope type code' v)
    (result : UInt32) (hdeclared : p.declarations s ⊆ before)
    (hscope : ∀ place ∈ scope, p.PlaceTyped s before place) :
    WellTypedFrom (p.declarations s) result before (code ++ code') ∧
      ∃ componentId, p.typeId component = .ok componentId ∧
        ⟨.typeVector, [typeId, componentId, size]⟩ ∈ p.declarations s ∧
        HasType (before ++ (code ++ code')) l componentId ∧
        HasType (before ++ (code ++ code')) v typeId := by
  obtain ⟨hcode, componentId, found, hcomponent, hfound, hscalar, hvector⟩ :=
    TypedCode.pair hl hv result hdeclared hscope
  rw [htype] at hfound
  cases hfound
  obtain ⟨found, hfound, htypeVector⟩ := hs.vector hshape htype
  rw [hcomponent] at hfound
  cases hfound
  exact ⟨hcode, componentId, hcomponent, htypeVector, hscalar, hvector⟩

theorem typedCode_elements {parts : List ((TypeRef × Nat) × (List Instruction × UInt32))}
    (hparts : ∀ part ∈ parts, p.TypedCode s scope part.1.1 part.2.1 part.2.2) (result : UInt32)
    (hdeclared : p.declarations s ⊆ before)
    (hscope : ∀ place ∈ scope, p.PlaceTyped s before place) :
    WellTypedFrom (p.declarations s) result before (parts.flatMap (·.2.1)) ∧
      ∀ part ∈ parts, ∃ typeId, p.typeId part.1.1 = .ok typeId ∧
        HasType (before ++ parts.flatMap (·.2.1)) part.2.2 typeId := by
  induction parts generalizing before with
  | nil => exact ⟨trivial, nofun⟩
  | cons part rest ih =>
    obtain ⟨hcode, typeId, htype, hid⟩ := hparts part mem_cons_self result hdeclared hscope
    obtain ⟨hrest, hids⟩ := ih (fun part hpart => hparts part (mem_cons_of_mem _ hpart))
      (subset_append_of_subset_left _ hdeclared) (placesTyped_append hscope part.2.1)
    rw [flatMap_cons]
    refine ⟨along_append.mpr ⟨hcode, hrest⟩, ?_⟩
    rw [← append_assoc]
    exact forall_mem_cons.mpr
      ⟨⟨typeId, htype, hid.mono (subset_append_left _ _)⟩, hids⟩

theorem Assembles.constituent (h : p.Assembles s) {componentId typeId : UInt32}
    (hwidth : p.Width component type count) (hcomponent : p.typeId component = .ok componentId)
    (htype : p.typeId type = .ok typeId) (hid : HasType code id typeId) :
    IsConstituent (p.declarations s) code componentId id count := by
  refine ⟨typeId, hid, ?_⟩
  rcases hwidth with ⟨rfl, hcount⟩ | ⟨size, hshape, hcount⟩
  · rw [hcomponent] at htype
    cases htype
    exact .inl ⟨rfl, hcount⟩
  · obtain ⟨found, hfound, hdeclared⟩ := h.vector hshape htype
    rw [hcomponent] at hfound
    cases hfound
    exact .inr ⟨size, hdeclared, hcount⟩

theorem hasType_concat {i : Instruction} {type : UInt32} (hresult : i.result? = some id)
    (htype : i.resultType? = some type) : HasType (before ++ (code ++ [i])) id type :=
  ⟨i, mem_append_right _ (mem_append_right _ mem_cons_self), hresult, htype⟩

theorem resultType?_sum (op : SumOperator) (float : Bool) (type id l r : UInt32) :
    (⟨Build.sumOpcode op float, [type, id, l, r]⟩ : Instruction).resultType? = some type := by
  cases op <;> cases float <;> rfl

theorem resultType?_scale (op : ScaleOperator) (kind : Option ScalarKind) (type id : UInt32)
    (operands : List UInt32) :
    (⟨Build.scaleOpcode op kind, type :: id :: operands⟩ : Instruction).resultType? =
      some type := by
  unfold Build.scaleOpcode
  split <;> rfl

theorem total_replicate (count : Nat) : total (List.replicate count 1) = count := by
  induction count with
  | zero => rfl
  | succ count ih =>
    rw [replicate_succ, total_cons, ih]
    omega

theorem Assembles.spread (hs : p.Assembles s) (own : UInt32) (hsound : p.Sound)
    {typeId componentId scalar result : UInt32}
    (hshape : p.shapeAt type = some (.vector component size))
    (hscalar : p.shapeAt component = some (.scalar kind))
    (hcomponent : p.typeId component = .ok componentId)
    (hvector : ⟨.typeVector, [typeId, componentId, size]⟩ ∈ p.declarations s)
    (hid : HasType code scalar componentId) :
    WellTyped (p.declarations s) code result
      ⟨.compositeConstruct, typeId :: own :: List.replicate size.toNat scalar⟩ := by
  obtain ⟨-, -, hsize⟩ := hsound.shape hshape
  have hparts : (replicate size.toNat (scalar, 1)).map (·.1) =
      replicate size.toNat scalar := map_replicate
  rw [← hparts]
  refine .construct hvector hsize ⟨kind, hs.scalar hscalar hcomponent⟩ ?_ ?_
  · intro part hpart
    rw [eq_of_mem_replicate hpart]
    exact ⟨componentId, hid, .inl ⟨rfl, rfl⟩⟩
  · rw [map_replicate, total_replicate]

theorem Translates.typedCode (hs : p.Assembles s) (hsound : p.Sound) {x : Expr}
    (ht : p.Translates scope x type code id) : p.TypedCode s scope type code id := by
  induction ht with
  | @var name place typeId id hlookup htype =>
    intro before result hdeclared hscope
    obtain ⟨pointer, storage, found, hfound, hpointer, hplace, -⟩ :=
      hscope place (lookupIn_mem hlookup)
    rw [htype] at hfound
    cases hfound
    exact ⟨along_singleton.mpr (.load hpointer hplace), typeId, htype,
      _, mem_append_right _ mem_cons_self, rfl, rfl⟩
  | @number bits pos constant hconstant hbits =>
    intro before result hdeclared hscope
    obtain ⟨typeId, htype⟩ := typeId_of_shapeAt hsound.f32
    refine ⟨trivial, typeId, htype, ?_⟩
    rw [append_nil]
    exact (hs.constant hsound hconstant htype).mono hdeclared
  | paren _ ih => exact ih
  | @vector pos first rest close type component size typeId id parts hshape htype hlength _ hwidth
      htotal ih =>
      intro before result hdeclared hscope
      have hparts : ∀ part ∈ parts, p.TypedCode s scope part.1.1 part.2.1 part.2.2 := by
        intro part hpart
        obtain ⟨x, hx⟩ := mem_zip_of_mem_right hlength hpart
        exact ih (x, part) hx
      obtain ⟨hcode, hids⟩ := typedCode_elements hparts result hdeclared hscope
      obtain ⟨-, ⟨kind, hkind⟩, hsize⟩ := hsound.shape hshape
      obtain ⟨componentId, hcomponent, hvector⟩ := hs.vector hshape htype
      have hconstruct : WellTyped (p.declarations s) (before ++ parts.flatMap (·.2.1)) result
          ⟨.compositeConstruct, typeId :: id ::
            (parts.map fun part => (part.2.2, part.1.2)).map (·.1)⟩ := by
        refine .construct hvector hsize ⟨kind, hs.scalar hkind hcomponent⟩ ?_ ?_
        · intro part hpart
          obtain ⟨part, hmem, rfl⟩ := mem_map.mp hpart
          obtain ⟨partType, hpartType, hid⟩ := hids part hmem
          exact hs.constituent (hwidth part hmem) hcomponent hpartType hid
        · rw [map_map]
          exact htotal
      rw [map_map] at hconstruct
      exact ⟨hcode.concat hconstruct, typeId, htype, hasType_concat rfl rfl⟩
  | @sum op opPos left right type kind count typeId id l r before after hcomponents hkind htype hl
      hr ihl ihr =>
      intro code result hdeclared hscope
      obtain ⟨hcode, found, found', hfound, hfound', hleft, hright⟩ :=
        TypedCode.pair ihl ihr result hdeclared hscope
      rw [htype] at hfound hfound'
      cases hfound
      cases hfound'
      refine ⟨hcode.concat (.operation (worksOn_sum op hkind)
        (hs.components hcomponents htype) hleft hright), typeId, htype, ?_⟩
      exact hasType_concat (Build.result?_sum ..) (resultType?_sum ..)
  | @scaled opPos left right scalar vector scalarFirst type component size kind typeId id l v before
      after hbeside hshape hscalar hfloat htype hl hv ihl ihv =>
      intro code result hdeclared hscope
      obtain ⟨hcode, componentId, hcomponent, hvector, hleft, hright⟩ :=
        TypedCode.factors hs hshape htype ihl ihv result hdeclared hscope
      exact ⟨hcode.concat (.scaled hvector (hs.scalar hscalar hcomponent) hfloat hright
        hleft), typeId, htype, hasType_concat rfl rfl⟩
  | @spread op opPos left right scalar vector scalarFirst type component size kind typeId spread id
      l v before after hbeside hshape hscalar hkind hop htype hl hv ihl ihv =>
      intro code result hdeclared hscope
      obtain ⟨hcode, componentId, hcomponent, hvector, hleft, hright⟩ :=
        TypedCode.factors hs hshape htype ihl ihv result hdeclared hscope
      -- The vector of the scalar is a value of its own, which the operation then finds.
      have hcode' := hcode.concat
        (hs.spread spread hsound hshape hscalar hcomponent hvector hleft)
      rw [append_cons (before ++ after)]
      refine ⟨hcode'.concat ?_, typeId, htype,
        hasType_concat (Build.result?_scale ..) (resultType?_scale ..)⟩
      have hcomponents := hs.components (.inr ⟨component, size, hshape, hscalar, rfl⟩) htype
      have hvalue := hright.mono (subset_append_left _
        [⟨.compositeConstruct, typeId :: spread :: replicate size.toNat l⟩])
      rw [append_assoc] at hvalue
      cases scalarFirst with
      | true =>
        exact .operation (worksOn_scale hkind hop) hcomponents (hasType_concat rfl rfl) hvalue
      | false =>
        exact .operation (worksOn_scale hkind hop) hcomponents hvalue (hasType_concat rfl rfl)

theorem Lowered.variables_wellTyped (hs : p.Assembles s)
    (hl : p.Lowered result scope stmts scope' vars code returned) (resultId : UInt32) :
    ∀ i ∈ vars, ∀ before, WellTyped (p.declarations s) before resultId i := by
  induction hl with
  | next _ _ ihstmt ihrest => exact forall_mem_append.mpr ⟨ihstmt, ihrest⟩
  | declare _ hpointer hid _ =>
    obtain ⟨typeId, -, hdeclared⟩ := hs.pointer hpointer hid
    exact forall_mem_singleton.mpr fun _ => .var hdeclared
  | group _ ih => exact ih
  | _ => exact fun _ hi => (not_mem_nil hi).elim

theorem Lowered.wellTyped (hs : p.Assembles s) (hsound : p.Sound)
    (hl : p.Lowered result scope stmts scope' vars code returned)
    (hresult : p.typeId result = .ok resultId) (hdeclared : p.declarations s ⊆ before)
    (hvars : vars ⊆ before) (hscope : ∀ place ∈ scope, p.PlaceTyped s before place) :
    WellTypedFrom (p.declarations s) resultId before code ∧
      ∀ place ∈ scope', p.PlaceTyped s (before ++ code) place := by
  induction hl generalizing before with
  | done =>
    rw [append_nil]
    exact ⟨trivial, hscope⟩
  | next _ _ ihstmt ihrest =>
    obtain ⟨hcode, hmid⟩ := ihstmt hdeclared (append_subset.mp hvars).1 hscope
    have hsubset := subset_append_left before
    obtain ⟨hcode', hfinal⟩ := ihrest (Subset.trans hdeclared (hsubset _))
      (Subset.trans (append_subset.mp hvars).2 (hsubset _)) hmid
    rw [← append_assoc]
    exact ⟨along_append.mpr ⟨hcode, hcode'⟩, hfinal⟩
  | @declare scope pos name written equal close value type pointer pointerId place id code _
      hpointer hid htranslates =>
      obtain ⟨hcode, typeId, htype, hvalue⟩ :=
        htranslates.typedCode hs hsound resultId hdeclared hscope
      obtain ⟨found, hfound, hpointerType⟩ := hs.pointer hpointer hid
      rw [htype] at hfound
      cases hfound
      have hplace : HasType before place pointerId :=
        ⟨_, hvars mem_cons_self, rfl, rfl⟩
      have hstorage : StorageClass.function.binaryCode ≠ inputStorage := by decide
      refine ⟨hcode.concat (.store hpointerType hstorage
        (hplace.mono (subset_append_left _ _)) hvalue), ?_⟩
      refine forall_mem_append.mpr
        ⟨placesTyped_append hscope _, forall_mem_singleton.mpr ?_⟩
      exact ⟨pointerId, _, typeId, htype, hpointerType, hplace.mono (subset_append_left _ _),
        fun h => absurd h hstorage⟩
  | leave hvoid =>
    subst hvoid
    exact ⟨along_singleton.mpr (.exit (hs.void hsound.void hresult)),
      placesTyped_append hscope _⟩
  | giveBack _ htranslates =>
    obtain ⟨hcode, typeId, htype, hvalue⟩ :=
      htranslates.typedCode hs hsound resultId hdeclared hscope
    rw [hresult] at htype
    cases htype
    exact ⟨hcode.concat (.exitValue hvalue), placesTyped_append hscope _⟩
  | group _ ih =>
    -- The places of the group are forgotten behind it.
    exact ⟨(ih hdeclared hvars hscope).1, placesTyped_append hscope _⟩
  | evaluate htranslates =>
    exact ⟨(htranslates.typedCode hs hsound resultId hdeclared hscope).1,
      placesTyped_append hscope _⟩
  | assign _ hlookup hinput htranslates =>
    obtain ⟨hcode, typeId, htype, hvalue⟩ :=
      htranslates.typedCode hs hsound resultId hdeclared hscope
    obtain ⟨pointer, storage, found, hfound, hpointerType, hplace, hclass⟩ :=
      hscope _ (lookupIn_mem hlookup)
    rw [htype] at hfound
    cases hfound
    -- Only inputs have the storage class of inputs, and they are not assigned.
    have hstorage : storage ≠ inputStorage := by
      intro heq
      obtain ⟨ref, g, hglobal, hg, hdirection⟩ := hclass heq
      obtain ⟨g', hg', hnot⟩ := hinput ref hglobal
      rw [hg] at hg'
      cases hg'
      exact hnot hdirection
    exact ⟨hcode.concat (.store hpointerType hstorage
      (hplace.mono (subset_append_left _ _)) hvalue), placesTyped_append hscope _⟩

theorem eq_input_of_storage {direction : Direction}
    (h : direction.storageClass.binaryCode = inputStorage) : direction = .input := by
  cases direction with
  | input => rfl
  | output => exact absurd h (by decide)
  | internal => exact absurd h (by decide)
  | other code =>
    exact absurd (show StorageClass.internal.binaryCode = inputStorage from h) (by decide)

theorem Assembles.aliases (hs : p.Assembles s) (hglobals : ∀ g ∈ p.globals.toList, p.GlobalSound g)
    (hvisible : visible <+: p.globals.toList) :
    ∀ place ∈ Shading.aliases visible, p.PlaceTyped s (p.declarations s) place := by
  intro place hplace
  obtain ⟨⟨g, ref⟩, hmem, rfl⟩ := mem_map.mp hplace
  have hg : p.globals.toList[ref]? = some g := by
    obtain ⟨rest, hrest⟩ := hvisible
    have hfound := mem_zipIdx_iff_getElem?.mp hmem
    rw [← hrest, List.getElem?_append_left (List.getElem?_eq_some_iff.mp hfound).1]
    exact hfound
  have hsound := hglobals g (mem_of_getElem? hg)
  obtain ⟨i, hi, hdeclaration⟩ := mapM_ok_of_mem hs.globals (mem_of_getElem? hg)
  obtain ⟨pointer, hpointer, rfl⟩ := globalDeclaration_ok hdeclaration
  obtain ⟨typeId, htype, hdeclared⟩ := hs.pointer hsound.pointer hpointer
  refine ⟨pointer, _, typeId, htype, hdeclared,
    ⟨_, mem_append_left _ (mem_append_right _ hi), rfl, rfl⟩, ?_⟩
  intro hstorage
  refine ⟨ref, g, rfl, ?_, ?_⟩
  · rw [Arena.get?_eq]
    exact hg
  · exact eq_input_of_storage hstorage

theorem Compiled.wellTyped (hs : p.Assembles s) (hsound : p.Sound)
    (hglobals : ∀ g ∈ p.globals.toList, p.GlobalSound g) {body : List Stmt} {procedure : Procedure}
    (hvisible : visible <+: p.globals.toList)
    (h : p.Compiled (Shading.aliases visible) body procedure)
    (hresult : p.typeId procedure.result = .ok resultId) :
    WellTypedFrom (p.declarations s) resultId (p.declarations s)
      (procedure.locals.toList ++ procedure.body.toList) := by
  obtain ⟨scope', code, returned, hlowered, hbody, hvoid⟩ := h.body
  have hvars : WellTypedFrom (p.declarations s) resultId (p.declarations s)
      procedure.locals.toList := along_of_forall fun i hi before =>
        hlowered.variables_wellTyped hs resultId i hi (p.declarations s ++ before)
  have hsubset := subset_append_left (p.declarations s) procedure.locals.toList
  obtain ⟨hcode, -⟩ := hlowered.wellTyped hs hsound hresult hsubset (subset_append_right _ _)
    fun place hplace => (hs.aliases hglobals hvisible place hplace).mono hsubset
  refine along_append.mpr ⟨hvars, ?_⟩
  rw [hbody]
  cases returned with
  | true =>
    rw [if_pos rfl, append_nil]
    exact hcode
  | false =>
    rw [hvoid rfl] at hresult
    exact hcode.concat (.exit (hs.void hsound.void hresult))

theorem Built.function (h : p.Built tree) (hs : p.Assembles s) (hcode : code ∈ s.functions) :
    ∃ procedure ∈ p.procedures.toList, ∃ result type,
      code = ⟨.function, [result, procedure.id, 0, type]⟩ :: ⟨.label, [procedure.label]⟩ ::
        (procedure.locals.toList ++ procedure.body.toList ++ [⟨.functionEnd, []⟩]) ∧
      ⟨.typeFunction, [type, result]⟩ ∈ p.declarations s ∧
      WellTypedFrom (p.declarations s) result (p.declarations s)
        (procedure.locals.toList ++ procedure.body.toList) := by
  obtain ⟨procedure, hprocedure, hfunction⟩ := mapM_ok_mem hs.functions hcode
  obtain ⟨result, type, hresult, htype, rfl⟩ := function_ok hfunction
  obtain ⟨hlength, hroutines⟩ := h.declared.routines (prefix_refl _)
  obtain ⟨routine, hpair⟩ := mem_zip_of_mem_right hlength hprocedure
  obtain ⟨-, -, visible, hvisible, -, hcompiled⟩ := hroutines _ hpair
  obtain ⟨found, hfound, hdeclared⟩ := hs.procedure hcompiled.type htype
  rw [hresult] at hfound
  cases hfound
  exact ⟨procedure, hprocedure, result, type, rfl, hdeclared,
    hcompiled.wellTyped hs h.sound h.globals hvisible hresult⟩

theorem Built.isFunction (h : p.Built tree) (hs : p.Assembles s) :
    ∀ code ∈ s.functions, IsFunction code := by
  intro code hcode
  obtain ⟨procedure, -, result, type, rfl, -, htyped⟩ := h.function hs hcode
  refine ⟨_, _, rfl, rfl, ?_⟩
  refine forall_mem_cons.mpr ⟨by simp, forall_mem_append.mpr ⟨?_,
    forall_mem_singleton.mpr (by decide)⟩⟩
  intro i hi
  obtain ⟨before, after, hsplit⟩ := append_of_mem hi
  rw [hsplit] at htyped
  exact htyped.split.opcode_ne

theorem Built.functionsOf (h : p.Built tree) (hs : p.Assembles s) :
    beforeFunctions (p.declarations s ++ s.functions.flatten) = p.declarations s ∧
      Binary.functionsOf (p.declarations s ++ s.functions.flatten) = s.functions := by
  have hfunctions := h.isFunction hs
  rw [beforeFunctions_append hs.declarations_opcode, beforeFunctions_flatten hfunctions,
    functionsOf_append hs.declarations_opcode, functionsOf_flatten hfunctions, append_nil]
  exact ⟨rfl, rfl⟩

end Program

/-- The code of a binary is well typed against its own declarations. An id has one type, unless the
counter of ids has run around. -/
theorem compile_typeCorrect {source binary : Bytes} {limits : Limits}
    (h : compile source limits = .ok binary) :
    (decode binary).failure = none ∧ TypeCorrect (decode binary).instructions ∧
      ((results (decode binary).instructions).length < UInt32.size →
        (results (decode binary).instructions).Nodup) := by
  obtain ⟨p, s, hbuilt, hs, hdecode⟩ := compile_assembles h
  obtain ⟨hbefore, hfunctions⟩ := hbuilt.functionsOf hs
  rw [hdecode]
  refine ⟨rfl, ⟨?_, ?_⟩, ?_⟩
  · rw [hbefore]
    intro i hi hvar
    obtain ⟨g, hg, hdeclaration⟩ := mapM_ok_mem hs.globals (hs.mem_globals hi hvar)
    obtain ⟨pointer, hpointer, rfl⟩ := Program.globalDeclaration_ok hdeclaration
    obtain ⟨pointee, -, hdeclared⟩ := hs.pointer (hbuilt.globals g hg).pointer hpointer
    exact ⟨pointer, _, _, pointee, rfl, hdeclared⟩
  · rw [hbefore, hfunctions]
    intro code hcode
    obtain ⟨procedure, -, result, type, rfl, hdeclared, htyped⟩ := hbuilt.function hs hcode
    exact ⟨result, _, type, _, _, rfl, hdeclared, htyped⟩
  · rw [hs.results_instructions]
    exact hbuilt.nodup

theorem mixedSource_typeCorrect : ∃ binary, compile mixedSource {} = .ok binary ∧
    (Binary.functionsOf (decode binary).instructions).length = 2 ∧
    TypeCorrect (decode binary).instructions := by
  have hcheck : (match compile mixedSource {} with
      | .ok binary => decide ((Binary.functionsOf (decode binary).instructions).length = 2)
      | .error _ => false) = true := by decide +kernel
  cases h : compile mixedSource {} with
  | error e => simp [h] at hcheck
  | ok binary =>
    simp only [h, decide_eq_true_eq] at hcheck
    exact ⟨binary, rfl, hcheck, (compile_typeCorrect h).2.1⟩

end Shading
