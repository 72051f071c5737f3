import Shading.Proofs.Binary.Results
import Shading.Proofs.Running

/-!
How a program grows. Entries of a pool keep their index for good, and every id
that is taken is the id of exactly one thing of the program: `Program.Extends`
says both, and it holds between the programs before and after any step.
-/

namespace Shading

open List

open Binary (Instruction idsFrom results)

variable {ref : TypeRef} {g : Global} {c : Constant} {entry : ExprEntry} {kind : ScalarKind}
  {id : UInt32}

namespace Arena

variable {α : Type} {a b : Arena α} {i : Nat} {x y : α}

@[simp] theorem length_toList (a : Arena α) : a.toList.length = a.size := by
  simp [toList, size]

@[simp] theorem toList_add (a : Arena α) (item : α) : (a.add item).toList = a.toList ++ [item] := by
  simp [toList, add]

@[simp] theorem size_add (a : Arena α) (item : α) : (a.add item).size = a.size + 1 := by
  simp [size, add]

@[simp] theorem toList_modify (a : Arena α) (i : Nat) (f : α → α) :
    (a.modify i f).toList = a.toList.modify i f := by
  simp [toList, modify]

@[simp] theorem size_modify (a : Arena α) (i : Nat) (f : α → α) : (a.modify i f).size = a.size := by
  simp [size, modify]

theorem get?_eq (a : Arena α) (i : Nat) : a.get? i = a.toList[i]? := by
  simp [get?, toList]

theorem get?_lt (h : a.get? i = some x) : i < a.size := by
  rw [get?_eq] at h
  have hlt := (List.getElem?_eq_some_iff.mp h).1
  simpa using hlt

theorem mem_of_get? (h : a.get? i = some x) : x ∈ a.toList := by
  rw [get?_eq] at h
  exact mem_of_getElem? h

theorem get?_of_lt (h : i < a.size) : ∃ x, a.get? i = some x := by
  rw [get?_eq]
  exact ⟨_, List.getElem?_eq_getElem (by rw [length_toList]; exact h)⟩

theorem get?_of_mem (h : x ∈ a.toList) : ∃ i, a.get? i = some x := by
  obtain ⟨i, hi⟩ := getElem?_of_mem h
  exact ⟨i, by rw [get?_eq, hi]⟩

@[simp] theorem get?_add_size (a : Arena α) (item : α) : (a.add item).get? a.size = some item := by
  rw [get?_eq, toList_add, ← length_toList]
  simp

theorem get?_add (h : (a.add x).get? i = some y) : (i = a.size ∧ y = x) ∨ a.get? i = some y := by
  have hlt := get?_lt h
  rw [size_add] at hlt
  rw [get?_eq, toList_add] at h
  by_cases hi : i = a.size
  · subst hi
    rw [← length_toList, getElem?_concat_length] at h
    exact .inl ⟨rfl, (Option.some.inj h).symm⟩
  · rw [getElem?_append_left (by rw [length_toList]; omega)] at h
    exact .inr (by rw [get?_eq, h])

theorem get?_mono (hab : a.toList <+: b.toList) (h : a.get? i = some x) : b.get? i = some x := by
  rw [get?_eq] at h ⊢
  obtain ⟨rest, hrest⟩ := hab
  rw [← hrest, List.getElem?_append_left (List.getElem?_eq_some_iff.mp h).1]
  exact h

theorem get?_modify_ne (a : Arena α) {j : Nat} (f : α → α) (h : i ≠ j) :
    (a.modify i f).get? j = a.get? j := by
  rw [get?_eq, toList_modify, getElem?_modify_ne f _ h, get?_eq]

theorem get?_modify_eq (f : α → α) (h : a.get? i = some x) :
    (a.modify i f).get? i = some (f x) := by
  rw [get?_eq] at h
  rw [get?_eq, toList_modify, getElem?_modify_eq, h]
  rfl

theorem mem_modify {f : α → α} (h : x ∈ (a.modify i f).toList) :
    x ∈ a.toList ∨ ∃ old ∈ a.toList, x = f old := by
  rw [toList_modify] at h
  obtain ⟨k, hk⟩ := mem_iff_getElem?.mp h
  rw [getElem?_modify] at hk
  obtain ⟨old, hold, rfl⟩ := Option.map_eq_some_iff.mp hk
  split
  · exact .inr ⟨old, mem_of_getElem? hold, rfl⟩
  · exact .inl (mem_of_getElem? hold)

theorem mem_add_or {P : α → Prop} (hy : P y) : ∀ x ∈ (a.add y).toList, x ∈ a.toList ∨ P x := by
  intro x hx
  rw [toList_add, mem_append, mem_singleton] at hx
  rcases hx with hold | rfl
  · exact .inl hold
  · exact .inr hy

theorem prefix_add (a : Arena α) (item : α) : a.toList <+: (a.add item).toList := by
  rw [toList_add]
  exact prefix_append _ _

end Arena

def Procedure.resultIds (p : Procedure) : List UInt32 :=
  p.id :: p.label :: (results p.locals.toList ++ results p.body.toList)

def TypeEntry.record? (t : TypeEntry) : Option (Bytes × List Member) :=
  match t.shape with
  | .record members => some (t.name, members)
  | _ => none

namespace Program

variable {p q : Program}

def shapeAt (p : Program) (ref : TypeRef) : Option Shape := (p.types.get? ref).map (·.shape)

/-- The ids of the entries of all pools, in the order in which a binary defines them. -/
def resultIds (p : Program) : List UInt32 :=
  extendedSetId :: (p.types.toList.map (·.id) ++ p.globals.toList.map (·.id) ++
    p.constants.toList.map (·.id) ++ p.procedures.toList.flatMap Procedure.resultIds)

/-- The records with their members, in the order in which they were declared. -/
def records (p : Program) : List (Bytes × List Member) := p.types.toList.filterMap TypeEntry.record?

inductive Region where
  | globals
  | entryPoints
  | records
  | procedure (ref : ProcedureRef)

structure Extends (kept : Region → Prop) (names : List Bytes) (p q : Program) : Prop where
  limits : q.limits = p.limits
  types : p.types.toList <+: q.types.toList
  globals : p.globals.toList <+: q.globals.toList
  constants : p.constants.toList <+: q.constants.toList
  expressions : p.expressions.toList <+: q.expressions.toList
  entryPoints : p.entryPoints.toList <+: q.entryPoints.toList
  keptGlobals : kept .globals → q.globals.toList = p.globals.toList
  keptEntryPoints : kept .entryPoints → q.entryPoints.toList = p.entryPoints.toList
  keptRecords : kept .records → q.records = p.records
  procedures : ∀ ref, kept (.procedure ref) → q.procedures.get? ref = p.procedures.get? ref
  scalars : ∀ kind, q.hasScalar kind = true → p.hasScalar kind = true ∨ kind.name ∈ names
  ids : ∃ count, q.nextId = p.nextId + UInt32.ofNat count ∧
    q.resultIds.Perm (p.resultIds ++ idsFrom p.nextId count)

abbrev Grows (names : List Bytes) (p q : Program) : Prop := Extends (fun _ => True) names p q

namespace Extends

variable {kept kept' : Region → Prop} {names names' : List Bytes} {p q r : Program}

theorem refl (p : Program) : Extends kept names p p :=
  ⟨rfl, prefix_refl _, prefix_refl _, prefix_refl _, prefix_refl _,
    prefix_refl _, fun _ => rfl, fun _ => rfl, fun _ => rfl, fun _ _ => rfl,
    fun _ h => .inl h, 0, by simp, by simp⟩

theorem trans (hpq : Extends kept names p q) (hqr : Extends kept names' q r) :
    Extends kept (names ++ names') p r := by
  obtain ⟨m, hm, hmp⟩ := hpq.ids
  obtain ⟨n, hn, hnp⟩ := hqr.ids
  refine ⟨hqr.limits.trans hpq.limits, hpq.types.trans hqr.types, hpq.globals.trans hqr.globals,
    hpq.constants.trans hqr.constants, hpq.expressions.trans hqr.expressions,
    hpq.entryPoints.trans hqr.entryPoints,
    fun h => (hqr.keptGlobals h).trans (hpq.keptGlobals h),
    fun h => (hqr.keptEntryPoints h).trans (hpq.keptEntryPoints h),
    fun h => (hqr.keptRecords h).trans (hpq.keptRecords h), ?_, ?_, m + n, ?_, ?_⟩
  · intro ref href
    exact (hqr.procedures ref href).trans (hpq.procedures ref href)
  · intro kind hkind
    rw [mem_append]
    rcases hqr.scalars kind hkind with hq | hn
    · rcases hpq.scalars kind hq with hp | hn
      · exact .inl hp
      · exact .inr (.inl hn)
    · exact .inr (.inr hn)
  · rw [hn, hm, UInt32.ofNat_add, UInt32.add_assoc]
  · rw [Binary.idsFrom_add, ← append_assoc, ← hm]
    exact hnp.trans (hmp.append_right _)

theorem mono (h : Extends kept names p q) (hk : ∀ region, kept' region → kept region) :
    Extends kept' names p q :=
  { h with
    keptGlobals := fun hregion => h.keptGlobals (hk _ hregion)
    keptEntryPoints := fun hregion => h.keptEntryPoints (hk _ hregion)
    keptRecords := fun hregion => h.keptRecords (hk _ hregion)
    procedures := fun ref href => h.procedures ref (hk _ href) }

theorem of_grows (h : Grows names p q) : Extends kept names p q := h.mono fun _ _ => trivial

theorem procedures_eq (h : Grows names p q) : q.procedures.toList = p.procedures.toList := by
  apply ext_getElem?
  intro ref
  rw [← Arena.get?_eq, ← Arena.get?_eq]
  exact h.procedures ref trivial

theorem names_mono (h : Extends kept names p q) (hnames : ∀ name ∈ names, name ∈ names') :
    Extends kept names' p q :=
  { h with scalars := fun kind hkind => (h.scalars kind hkind).imp_right (hnames _) }

theorem shapeAt (h : Extends kept names p q) {shape : Shape} (hs : p.shapeAt ref = some shape) :
    q.shapeAt ref = some shape := by
  obtain ⟨entry, hentry, rfl⟩ := Option.map_eq_some_iff.mp hs
  exact Option.map_eq_some_iff.mpr ⟨entry, Arena.get?_mono h.types hentry, rfl⟩

theorem global (h : Extends kept names p q) {ref : GlobalRef} (hg : p.globals.get? ref = some g) :
    q.globals.get? ref = some g :=
  Arena.get?_mono h.globals hg

theorem constant (h : Extends kept names p q) {ref : ConstantRef}
    (hc : p.constants.get? ref = some c) : q.constants.get? ref = some c :=
  Arena.get?_mono h.constants hc

theorem expression (h : Extends kept names p q) {ref : ExprRef}
    (he : p.expressions.get? ref = some entry) : q.expressions.get? ref = some entry :=
  Arena.get?_mono h.expressions he

theorem hasScalar (h : Extends kept names p q) (hk : p.hasScalar kind = true) :
    q.hasScalar kind = true := by
  simp only [Program.hasScalar, Array.any_eq_true', decide_eq_true_eq] at hk ⊢
  obtain ⟨entry, hentry, hshape⟩ := hk
  refine ⟨entry, ?_, hshape⟩
  have hmem : entry ∈ p.types.toList := Array.mem_toList_iff.mpr hentry
  exact Array.mem_toList_iff.mp (h.types.subset hmem)

end Extends

theorem perm_insert {α : Type} (before new after : List α) :
    (before ++ new ++ after).Perm (before ++ after ++ new) := by
  rw [append_assoc, append_assoc]
  exact perm_append_comm.append_left before

structure Added where
  types : List TypeEntry := []
  globals : List Global := []
  constants : List Constant := []
  procedures : List Procedure := []

def Added.resultIds (a : Added) : List UInt32 :=
  a.types.map (·.id) ++ a.globals.map (·.id) ++ a.constants.map (·.id) ++
    a.procedures.flatMap Procedure.resultIds

structure Appends (p q : Program) (a : Added) : Prop where
  limits : q.limits = p.limits
  types : q.types.toList = p.types.toList ++ a.types
  globals : q.globals.toList = p.globals.toList ++ a.globals
  constants : q.constants.toList = p.constants.toList ++ a.constants
  expressions : q.expressions = p.expressions
  entryPoints : q.entryPoints = p.entryPoints
  procedures : q.procedures.toList = p.procedures.toList ++ a.procedures

theorem hasScalar_append {added : List TypeEntry} (h : q.types.toList = p.types.toList ++ added)
    (hk : q.hasScalar kind = true) :
    p.hasScalar kind = true ∨ ∃ t ∈ added, t.shape = .scalar kind := by
  simp only [hasScalar, Array.any_eq_true', decide_eq_true_eq] at hk ⊢
  obtain ⟨entry, hentry, hshape⟩ := hk
  have hmem : entry ∈ q.types.toList := Array.mem_toList_iff.mpr hentry
  rw [h, mem_append] at hmem
  rcases hmem with hold | hnew
  · exact .inl ⟨entry, Array.mem_toList_iff.mp hold, hshape⟩
  · exact .inr ⟨entry, hnew, hshape⟩

theorem Appends.extends {kept : Region → Prop} {names : List Bytes} {a : Added} (h : Appends p q a)
    (count : Nat) (hnext : q.nextId = p.nextId + UInt32.ofNat count)
    (hids : a.resultIds.Perm (idsFrom p.nextId count))
    (hscalars : ∀ t ∈ a.types, ∀ kind, t.shape = .scalar kind → kind.name ∈ names)
    (hrecords : kept .records → ∀ t ∈ a.types, t.record? = none)
    (hglobals : kept .globals → a.globals = [])
    (hprocedures : ∀ ref, kept (.procedure ref) → ref < p.procedures.size ∨ a.procedures = []) :
    Extends kept names p q := by
  refine ⟨h.limits, ⟨_, h.types.symm⟩, ⟨_, h.globals.symm⟩, ⟨_, h.constants.symm⟩,
    h.expressions ▸ prefix_refl _, h.entryPoints ▸ prefix_refl _, ?_,
    fun _ => by rw [h.entryPoints], ?_, ?_, ?_, count, hnext, ?_⟩
  · intro hkept
    rw [h.globals, hglobals hkept, append_nil]
  · intro hkept
    rw [records, h.types, filterMap_append, filterMap_eq_nil_iff.mpr (hrecords hkept),
      append_nil, records]
  · intro ref href
    rw [Arena.get?_eq, Arena.get?_eq, h.procedures]
    rcases hprocedures ref href with hlt | hnone
    · rw [getElem?_append_left (by simpa using hlt)]
    · rw [hnone, append_nil]
  · intro kind hkind
    rcases hasScalar_append h.types hkind with hold | ⟨t, ht, hshape⟩
    · exact .inl hold
    · exact .inr (hscalars t ht kind hshape)
  · refine .trans ?_ (hids.append_left _)
    unfold resultIds Added.resultIds
    rw [h.types, h.globals, h.constants, h.procedures]
    simp only [map_append, flatMap_append, cons_append, append_assoc]
    refine .cons _ (perm_iff_count.mpr fun id => ?_)
    simp only [count_append]
    omega

theorem typeAt_ok {entry : TypeEntry} :
    p.typeAt ref = .ok entry ↔ p.types.get? ref = some entry := by
  unfold typeAt
  cases h : p.types.get? ref <;> simp

theorem typeId_ok :
    p.typeId ref = .ok id ↔ ∃ entry, p.types.get? ref = some entry ∧ entry.id = id := by
  unfold typeId
  cases h : p.types.get? ref <;> simp [typeAt, h, Except.map]

theorem Extends.typeId {kept : Region → Prop} {names : List Bytes} (h : Extends kept names p q)
    (hid : p.typeId ref = .ok id) : q.typeId ref = .ok id := by
  obtain ⟨entry, hentry, rfl⟩ := typeId_ok.mp hid
  exact typeId_ok.mpr ⟨entry, Arena.get?_mono h.types hentry, rfl⟩

theorem globalAt_ok {ref : GlobalRef} :
    p.globalAt ref = .ok g ↔ p.globals.get? ref = some g := by
  unfold globalAt
  cases h : p.globals.get? ref <;> simp

theorem constantAt_ok {ref : ConstantRef} :
    p.constantAt ref = .ok c ↔ p.constants.get? ref = some c := by
  unfold constantAt
  cases h : p.constants.get? ref <;> simp

theorem expressionAt_ok {ref : ExprRef} :
    p.expressionAt ref = .ok entry ↔ p.expressions.get? ref = some entry := by
  unfold expressionAt
  cases h : p.expressions.get? ref <;> simp

theorem procedureAt_ok {ref : ProcedureRef} {procedure : Procedure} :
    p.procedureAt ref = .ok procedure ↔ p.procedures.get? ref = some procedure := by
  unfold procedureAt
  cases h : p.procedures.get? ref <;> simp

theorem procedureAt_error {ref : ProcedureRef} {f : Fault} :
    p.procedureAt ref = .error f ↔ p.procedures.get? ref = none ∧ .outOfRange = f := by
  unfold procedureAt
  cases h : p.procedures.get? ref <;> simp

end Program

end Shading
