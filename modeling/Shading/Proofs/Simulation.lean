import Shading.Proofs.Semantics

/-!
Instructions do what the statements say. `Agrees` relates the cells of a
store to the variables of a machine. The code of an expression computes its
value and touches no variable; the code of statements keeps the two related,
up to the same return.
-/

namespace Shading.Semantics

open Machine List

open Binary (Instruction Opcode results)

variable {i : Instruction} {id : UInt32} {found : UInt32}

variable {σ : Type} {arithmetic : Arithmetic σ} {p : Program} {m m' : Machine σ}
  {code code' : List Instruction}

@[simp] theorem Machine.define_values_self (id : UInt32) (value : Value σ) :
    (m.define id value).values id = some value := by
  simp [define]

theorem Machine.define_values_ne (value : Value σ) (h : found ≠ id) :
    (m.define id value).values found = m.values found := by
  simp [define, h]

@[simp] theorem Machine.write_memory_self (id : UInt32) (contents : Option (Value σ)) :
    (m.write id contents).memory id = some contents := by
  simp [write]

theorem Machine.write_memory_ne (contents : Option (Value σ)) (h : found ≠ id) :
    (m.write id contents).memory found = m.memory found := by
  simp [write, h]

theorem yields_of_operation? {op : Opcode} {operation : ScalarKind → σ → σ → σ}
    (h : operation? arithmetic op = some operation) : op.yields = true := by
  unfold operation? at h
  split at h <;> first | rfl | cases h

theorem step_goes (h : step arithmetic m i = some (.goes m')) :
    (∃ id value, i.result? = some id ∧ m' = m.define id value) ∨
      ∃ id contents, m' = m.write id contents := by
  obtain ⟨op, operands⟩ := i
  unfold step at h
  dsimp only at h
  split at h
  case h_1 =>
      split at h
      · cases h
        exact .inr ⟨_, _, rfl⟩
      · cases h
  case h_2 =>
      split at h
      · simp only [bind, Option.bind_eq_some_iff, pure, Option.some.injEq, Progress.goes.injEq] at h
        obtain ⟨_, -, value, -, rfl⟩ := h
        exact .inl ⟨_, _, rfl, rfl⟩
      · cases h
  case h_3 =>
      split at h
      · simp only [bind, Option.bind_eq_some_iff, pure, Option.some.injEq, Progress.goes.injEq] at h
        obtain ⟨_, -, value, -, rfl⟩ := h
        exact .inr ⟨_, _, rfl⟩
      · cases h
  case h_4 =>
      split at h
      · simp only [bind, Option.bind_eq_some_iff, pure, Option.some.injEq, Progress.goes.injEq] at h
        obtain ⟨_, -, value, -, rfl⟩ := h
        exact .inl ⟨_, _, rfl, rfl⟩
      · cases h
  case h_5 =>
      split at h
      · simp only [bind, Option.bind_eq_some_iff, pure, Option.some.injEq, Progress.goes.injEq] at h
        obtain ⟨_, -, _, -, value, -, rfl⟩ := h
        exact .inl ⟨_, _, rfl, rfl⟩
      · cases h
  case h_6 =>
      split at h
      · cases h
      · cases h
  case h_7 =>
      split at h
      · simp only [bind, Option.bind_eq_some_iff, pure, Option.some.injEq] at h
        obtain ⟨_, -, h⟩ := h
        cases h
      · cases h
  case h_8 =>
      split at h
      · next type id left right =>
          simp only [bind, Option.bind_eq_some_iff] at h
          obtain ⟨operation, hoperation, _, -, _, -, value, -, kind, -, h⟩ := h
          refine .inl ⟨id, value, ?_, ?_⟩
          · simp [Instruction.result?, yields_of_operation? hoperation]
          · split at h
            · exact (Progress.goes.inj (Option.some.inj h)).symm
            · cases h
      · cases h

theorem step_values (h : step arithmetic m i = some (.goes m')) (hid : i.result? ≠ some id) :
    m'.values id = m.values id := by
  obtain ⟨own, value, hown, rfl⟩ | ⟨own, contents, rfl⟩ := step_goes h
  · apply define_values_ne
    rintro rfl
    exact hid hown
  · rfl

theorem step_memory (h : step arithmetic m i = some (.goes m'))
    (hid : (m.memory id).isSome = true) : (m'.memory id).isSome = true := by
  obtain ⟨own, value, -, rfl⟩ | ⟨own, contents, rfl⟩ := step_goes h
  · exact hid
  · by_cases heq : id = own
    · subst heq
      rw [write_memory_self]
      rfl
    · rw [write_memory_ne contents heq]
      exact hid

theorem run_cons {rest : List Instruction} :
    run arithmetic m (i :: rest) = (step arithmetic m i).bind fun progress =>
      match progress with
      | .goes m' => run arithmetic m' rest
      | .ends m' value => some (.ends m' value) := rfl

theorem run_append :
    run arithmetic m (code ++ code') = (run arithmetic m code).bind fun progress =>
      match progress with
      | .goes m' => run arithmetic m' code'
      | .ends m' value => some (.ends m' value) := by
  induction code generalizing m with
  | nil => rfl
  | cons i rest ih =>
    rw [cons_append, run_cons, run_cons, Option.bind_assoc]
    congr 1
    funext progress
    cases progress with
    | goes m' => exact ih
    | ends m' value => rfl

theorem run_goes_append (h : run arithmetic m code = some (.goes m')) :
    run arithmetic m (code ++ code') = run arithmetic m' code' := by
  rw [run_append, h]
  rfl

theorem run_single : run arithmetic m [i] = step arithmetic m i := by
  rw [run_cons]
  cases h : step arithmetic m i with
  | none => rfl
  | some progress => cases progress <;> rfl

theorem run_values {code : List Instruction} (h : run arithmetic m code = some (.goes m'))
    (hid : id ∉ results code) : m'.values id = m.values id := by
  induction code generalizing m with
  | nil =>
    cases h
    rfl
  | cons i rest ih =>
    rw [run_cons, Option.bind_eq_some_iff] at h
    obtain ⟨progress, hstep, h⟩ := h
    rw [Binary.results_cons, mem_append, not_or, Option.mem_toList] at hid
    cases progress with
    | goes next => rw [ih h hid.2, step_values hstep hid.1]
    | ends next value => cases h

theorem run_memory {code : List Instruction} (h : run arithmetic m code = some (.goes m'))
    (hid : (m.memory id).isSome = true) : (m'.memory id).isSome = true := by
  induction code generalizing m with
  | nil =>
    cases h
    exact hid
  | cons i rest ih =>
    rw [run_cons, Option.bind_eq_some_iff] at h
    obtain ⟨progress, hstep, h⟩ := h
    cases progress with
    | goes next => exact ih h (step_memory hstep hid)
    | ends next value => cases h

namespace Value

variable {kind : ScalarKind} {op : ScalarKind → σ → σ → σ}

theorem mapM_components (kind : ScalarKind) (parts : List (List σ)) :
    (parts.map (numbers kind)).mapM (components? kind) = some parts := by
  induction parts with
  | nil => rfl
  | cons part rest ih =>
    rw [map_cons, mapM_cons, ih]
    simp [components?]

theorem join_numbers (kind : ScalarKind) {parts : List (List σ)} (h : parts ≠ []) :
    join (parts.map (numbers kind)) = some (numbers kind parts.flatten) := by
  cases parts with
  | nil => exact absurd rfl h
  | cons part rest =>
    have hparts := mapM_components kind (part :: rest)
    rw [map_cons] at hparts ⊢
    change (mapM (components? kind) (numbers kind part :: rest.map (numbers kind))).bind _ = _
    rw [hparts]
    rfl

theorem join_replicate {count : Nat} {x : σ} (h : count ≠ 0) :
    join (List.replicate count (numbers kind [x])) =
      some (numbers kind (List.replicate count x)) := by
  have hparts : replicate count [x] ≠ [] := by simpa using h
  have hjoin := join_numbers kind hparts
  rw [map_replicate] at hjoin
  rw [hjoin, flatten_replicate_singleton]

theorem combine_numbers {xs ys : List σ} (h : xs.length = ys.length) :
    combine op (numbers kind xs) (numbers kind ys) =
      some (numbers kind (List.zipWith (op kind) xs ys)) := by
  simp [combine, h]

theorem scale_first {x : σ} {ys : List σ} :
    scale op (numbers kind [x]) (numbers kind ys) = some (numbers kind (ys.map (op kind x))) := by
  simp [scale]

theorem scale_last {xs : List σ} {y : σ} :
    scale op (numbers kind xs) (numbers kind [y]) = some (numbers kind (xs.map (op kind · y))) := by
  match xs with
  | [] => simp [scale]
  | [x] => simp [scale]
  | x :: x' :: rest => simp [scale]

theorem zipWith_replicate_left {op : σ → σ → σ} {x : σ} {ys : List σ} :
    List.zipWith op (List.replicate ys.length x) ys = ys.map (op x) := by
  induction ys with
  | nil => rfl
  | cons y rest ih => rw [length_cons, replicate_succ, zipWith_cons_cons, ih]; rfl

theorem zipWith_replicate_right {op : σ → σ → σ} {xs : List σ} {y : σ} :
    List.zipWith op xs (List.replicate xs.length y) = xs.map (op · y) := by
  induction xs with
  | nil => rfl
  | cons x rest ih => rw [length_cons, replicate_succ, zipWith_cons_cons, ih]; rfl

end Value

end Shading.Semantics

namespace Shading.Program

open Semantics

variable {σ : Type} {p : Program} {type : TypeRef} {kind : ScalarKind} {count : Nat}

theorem Fits.numbers {value : Value σ} (h : p.Fits type value) (hc : p.Components type kind count) :
    ∃ xs, value = .numbers kind xs ∧ xs.length = count := by
  cases h with
  | scalar hshape =>
    rcases hc with ⟨hscalar, rfl⟩ | ⟨_, _, hvector, -⟩
    · rw [hshape] at hscalar
      cases hscalar
      exact ⟨_, rfl, rfl⟩
    · rw [hshape] at hvector
      cases hvector
  | vector hshape hcomponent hlength =>
    rcases hc with ⟨hscalar, rfl⟩ | ⟨_, _, hvector, hkind, rfl⟩
    · rw [hshape] at hscalar
      cases hscalar
    · rw [hshape] at hvector
      cases hvector
      rw [hcomponent] at hkind
      cases hkind
      exact ⟨_, rfl, hlength⟩
  | record hshape _ _ =>
    rcases hc with ⟨hscalar, rfl⟩ | ⟨_, _, hvector, -⟩
    · rw [hshape] at hscalar
      cases hscalar
    · rw [hshape] at hvector
      cases hvector

theorem Fits.single {value : Value σ} (h : p.Fits type value)
    (hscalar : p.shapeAt type = some (.scalar kind)) : ∃ x, value = .numbers kind [x] := by
  obtain ⟨xs, rfl, hlength⟩ := h.numbers (.inl ⟨hscalar, rfl⟩)
  obtain ⟨x, rfl⟩ := List.length_eq_one_iff.mp hlength
  exact ⟨x, rfl⟩

theorem Components.fits {xs : List σ} (hc : p.Components type kind count) (h : xs.length = count) :
    p.Fits type (.numbers kind xs) := by
  rcases hc with ⟨hscalar, rfl⟩ | ⟨_, _, hvector, hkind, rfl⟩
  · obtain ⟨x, rfl⟩ := List.length_eq_one_iff.mp h
    exact .scalar hscalar
  · exact .vector hvector hkind h

theorem Width.components {component : TypeRef} (h : p.Width component type count)
    (hkind : p.shapeAt component = some (.scalar kind)) : p.Components type kind count := by
  rcases h with ⟨rfl, rfl⟩ | ⟨size, hshape, rfl⟩
  · exact .inl ⟨hkind, rfl⟩
  · exact .inr ⟨component, size, hshape, hkind, rfl⟩

end Shading.Program

namespace Shading.Semantics

open Binary (Instruction Opcode results)

variable {σ : Type} {arithmetic : Arithmetic σ} {p : Program} {m m' : Machine σ}
  {cells new : List (UInt32 × TypeRef)} {scope : List Local} {env : Environment}
  {store : List (Value σ)} {op : ScaleOperator} {name : Bytes} {place : Local} {kind : ScalarKind}

inductive Binds (cells : List (UInt32 × TypeRef)) : List Local → Environment → Prop
  | nil : Binds cells [] []
  | concat {scope : List Local} {env : Environment} {place : Local} {cell : Nat} :
      Binds cells scope env → cells[cell]? = some (place.id, place.type) →
      Binds cells (scope ++ [place]) ((place.name, cell) :: env)

theorem Binds.append (h : Binds cells scope env) : Binds (cells ++ new) scope env := by
  induction h with
  | nil => exact .nil
  | concat _ hcell ih =>
    obtain ⟨hlt, -⟩ := getElem?_eq_some_iff.mp hcell
    exact .concat ih ((List.getElem?_append_left hlt).trans hcell)

theorem Binds.cell? (h : Binds cells scope env) (hlookup : lookupIn scope name = some place) :
    ∃ cell, env.cell? name = some cell ∧ cells[cell]? = some (place.id, place.type) := by
  induction h with
  | nil => cases hlookup
  | @concat scope env latest cell _ hcell ih =>
    rw [lookupIn, List.reverse_append, List.reverse_singleton, List.singleton_append,
      List.find?_cons] at hlookup
    by_cases hname : latest.name = name
    · simp only [hname, decide_true, Option.some.injEq] at hlookup
      subst hlookup
      exact ⟨cell, by simp [Environment.cell?, hname], hcell⟩
    · simp only [hname, decide_false] at hlookup
      obtain ⟨found, hfound, hplace⟩ := ih hlookup
      refine ⟨found, ?_, hplace⟩
      simpa [Environment.cell?, hname] using hfound

structure Agrees (arithmetic : Arithmetic σ) (p : Program) (cells : List (UInt32 × TypeRef))
    (scope : List Local) (env : Environment) (store : List (Value σ)) (m : Machine σ) : Prop where
  length : cells.length = store.length
  contents : ∀ {cell : Nat} {id : UInt32} {type : TypeRef} {value : Value σ},
    cells[cell]? = some (id, type) → store[cell]? = some value →
    m.memory id = some (some value) ∧ p.Fits type value
  binds : Binds cells scope env
  constants : ∀ c ∈ p.constants.toList,
    m.values c.id = some (.numbers .f32 [arithmetic.literal c.bits])

theorem Agrees.lookup (h : Agrees arithmetic p cells scope env store m)
    (hlookup : lookupIn scope name = some place) :
    ∃ cell value, env.cell? name = some cell ∧ cells[cell]? = some (place.id, place.type) ∧
      store[cell]? = some value := by
  obtain ⟨cell, hcell, hplace⟩ := h.binds.cell? hlookup
  obtain ⟨hlt, -⟩ := getElem?_eq_some_iff.mp hplace
  rw [h.length] at hlt
  exact ⟨cell, store[cell], hcell, hplace, List.getElem?_eq_getElem hlt⟩

structure Distinct (p : Program) (code : List Instruction) : Prop where
  nodup : (results code).Nodup
  constants : ∀ c ∈ p.constants.toList, c.id ∉ results code

namespace Distinct

variable {code code' : List Instruction}

theorem left (h : Distinct p (code ++ code')) : Distinct p code := by
  have hnodup := h.nodup
  rw [Binary.results_append] at hnodup
  refine ⟨(List.nodup_append.mp hnodup).1, ?_⟩
  intro c hc hmem
  exact h.constants c hc (by rw [Binary.results_append]; exact List.mem_append_left _ hmem)

theorem right (h : Distinct p (code ++ code')) : Distinct p code' := by
  have hnodup := h.nodup
  rw [Binary.results_append] at hnodup
  refine ⟨(List.nodup_append.mp hnodup).2.1, ?_⟩
  intro c hc hmem
  exact h.constants c hc (by rw [Binary.results_append]; exact List.mem_append_right _ hmem)

theorem not_mem (h : Distinct p (code ++ code')) {id : UInt32}
    (hid : id ∈ results code ∨ ∃ c ∈ p.constants.toList, c.id = id) : id ∉ results code' := by
  have hnodup := h.nodup
  rw [Binary.results_append] at hnodup
  rcases hid with hid | ⟨c, hc, rfl⟩
  · intro hmem
    exact (List.nodup_append.mp hnodup).2.2 id hid id hmem rfl
  · exact h.right.constants c hc

end Distinct

theorem Agrees.of_run (h : Agrees arithmetic p cells scope env store m) {code : List Instruction}
    (hd : Distinct p code) (hrun : run arithmetic m code = some (.goes m'))
    (hmemory : m'.memory = m.memory) : Agrees arithmetic p cells scope env store m' := by
  refine ⟨h.length, ?_, h.binds, ?_⟩
  · intro cell id type value hcell hstore
    rw [hmemory]
    exact h.contents hcell hstore
  · intro c hc
    rw [run_values hrun (hd.constants c hc)]
    exact h.constants c hc

theorem operation?_sum (arithmetic : Arithmetic σ) (op : SumOperator) (float : Bool) :
    operation? arithmetic (Build.sumOpcode op float) = some (arithmetic.sum op) := by
  cases op <;> cases float <;> rfl

theorem operation?_scale (arithmetic : Arithmetic σ) (op : ScaleOperator) (kind : ScalarKind) :
    operation? arithmetic (Build.scaleOpcode op (some kind)) = some (arithmetic.scale op) := by
  cases op <;> cases kind <;> rfl

theorem step_operation {op : Opcode} {operation : ScalarKind → σ → σ → σ} {xs ys : List σ}
    {type id l r : UInt32} (h : operation? arithmetic op = some operation)
    (hkind : op.worksOn kind = true) (hlength : xs.length = ys.length)
    (hl : m.values l = some (.numbers kind xs)) (hr : m.values r = some (.numbers kind ys)) :
    step arithmetic m ⟨op, [type, id, l, r]⟩ =
      some (.goes (m.define id (.numbers kind (List.zipWith (operation kind) xs ys)))) := by
  have hstep : step arithmetic m ⟨op, [type, id, l, r]⟩ =
      (m.values l).bind fun left => (m.values r).bind fun right =>
        (left.combine operation right).bind fun value => value.kind?.bind fun kind =>
          if op.worksOn kind then some (.goes (m.define id value)) else none := by
    unfold operation? at h
    split at h <;> first | (cases h; rfl) | cases h
  rw [hstep, hl, hr]
  simp [Value.combine_numbers hlength, Value.kind?, hkind]

theorem total_lengths (values : List (List σ)) :
    values.flatten.length = total (values.map List.length) := by
  induction values with
  | nil => rfl
  | cons xs rest ih => rw [List.flatten_cons, List.length_append, ih]; rfl

theorem step_construct {type id : UInt32} {parts : List UInt32} {values : List (Value σ)}
    {value : Value σ} (hparts : parts.mapM m.values = some values)
    (hjoin : Value.join values = some value) :
    step arithmetic m ⟨.compositeConstruct, type :: id :: parts⟩ =
      some (.goes (m.define id value)) := by
  simp [step, hparts, hjoin]

theorem mapM_replicate {α β : Type} {f : α → Option β} {a : α} {b : β} (count : Nat)
    (h : f a = some b) : (List.replicate count a).mapM f = some (List.replicate count b) := by
  induction count with
  | zero => rfl
  | succ count ih =>
    rw [List.replicate_succ, List.mapM_cons, h, ih]
    rfl

def Arithmetic.scaleAll (arithmetic : Arithmetic σ) (op : ScaleOperator) (scalarFirst : Bool)
    (kind : ScalarKind) (x : σ) (ys : List σ) : List σ :=
  ys.map fun y => if scalarFirst then arithmetic.scale op kind x y else arithmetic.scale op kind y x

theorem timesScalar_numbers (hfloat : kind.isFloat = true) (scalarFirst : Bool) (x : σ)
    (ys : List σ) :
    timesScalar arithmetic (.numbers kind ys) (.numbers kind [x]) =
      some (.numbers kind (arithmetic.scaleAll .multiply scalarFirst kind x ys)) := by
  simp only [timesScalar, hfloat, and_self, if_true]
  congr 2
  apply List.map_congr_left
  intro y _
  cases scalarFirst with
  | true => exact arithmetic.multiply_comm kind hfloat y x
  | false => rfl

theorem run_spread (arithmetic : Arithmetic σ) (scalarFirst : Bool) {size : Nat}
    (typeId id : UInt32) {spread s v : UInt32} {x : σ} {ys : List σ}
    (hworks : (Build.scaleOpcode op (some kind)).worksOn kind = true) (hne : v ≠ spread)
    (hlength : ys.length = size) (hsize : size ≠ 0) (hs : m.values s = some (.numbers kind [x]))
    (hv : m.values v = some (.numbers kind ys)) :
    run arithmetic m [⟨.compositeConstruct, typeId :: spread :: List.replicate size s⟩,
        ⟨Build.scaleOpcode op (some kind),
          typeId :: id :: if scalarFirst then [spread, v] else [v, spread]⟩] =
      some (.goes ((m.define spread (.numbers kind (List.replicate size x))).define id
        (.numbers kind (arithmetic.scaleAll op scalarFirst kind x ys)))) := by
  subst hlength
  have hspread : (m.define spread (.numbers kind (List.replicate ys.length x))).values v =
      some (.numbers kind ys) := (Machine.define_values_ne _ hne).trans hv
  have hoperation := operation?_scale arithmetic op kind
  rw [run_cons, step_construct (mapM_replicate _ hs) (Value.join_replicate hsize)]
  change run arithmetic _ [_] = _
  rw [run_single]
  cases scalarFirst with
  | true =>
    exact (step_operation hoperation hworks List.length_replicate
      (Machine.define_values_self _ _) hspread).trans
      (by rw [Value.zipWith_replicate_left]; rfl)
  | false =>
    exact (step_operation hoperation hworks List.length_replicate.symm hspread
      (Machine.define_values_self _ _)).trans (by rw [Value.zipWith_replicate_right]; rfl)

/-- The constants have their values, and code that leaves the variables alone and gives values to
ids of its own does not lead outside. -/
structure Persists (arithmetic : Arithmetic σ) (p : Program) (start : Machine σ → Prop) :
    Prop where
  constants : ∀ {m : Machine σ}, start m → ∀ c ∈ p.constants.toList,
    m.values c.id = some (.numbers .f32 [arithmetic.literal c.bits])
  kept : ∀ {m m' : Machine σ} {code : List Instruction}, start m → Distinct p code →
    run arithmetic m code = some (.goes m') → m'.memory = m.memory → start m'

/-- There is a value as expected, it has the type, and the code gives it to the id without touching
a variable. -/
structure Delivers (arithmetic : Arithmetic σ) (p : Program) (start : Machine σ → Prop)
    (expected : Option (Value σ)) (type : TypeRef) (code : List Instruction) (id : UInt32) :
    Prop where
  id_mem : id ∈ results code ∨ ∃ c ∈ p.constants.toList, c.id = id
  runs : ∀ {m : Machine σ}, start m → Distinct p code →
    ∃ value m', expected = some value ∧ p.Fits type value ∧
      run arithmetic m code = some (.goes m') ∧ m'.values id = some value ∧ m'.memory = m.memory

/-- The same of a list of values with components of one kind, as many as are counted. -/
def DeliversAll (arithmetic : Arithmetic σ) (p : Program) (start : Machine σ → Prop)
    (kind : ScalarKind) (expected : Option (List (Value σ))) (counts : List Nat)
    (code : List Instruction) (ids : List UInt32) : Prop :=
  ∀ m : Machine σ, start m → Distinct p code →
    ∃ (values : List (List σ)) (m' : Machine σ), expected = some (values.map (.numbers kind)) ∧
      values.map List.length = counts ∧ run arithmetic m code = some (.goes m') ∧
      ids.mapM m'.values = some (values.map (.numbers kind)) ∧ m'.memory = m.memory

section Delivering

variable {start : Machine σ → Prop} {expected first second : Option (Value σ)}
  {type component : TypeRef} {size : UInt32} {kind : ScalarKind} {code code' : List Instruction}
  {typeId id l r : UInt32}

theorem Delivers.load {pointer : UInt32}
    (hload : ∀ {m : Machine σ}, start m →
      ∃ value, expected = some value ∧ p.Fits type value ∧ m.memory pointer = some (some value)) :
    Delivers arithmetic p start expected type [⟨.load, [typeId, id, pointer]⟩] id := by
  refine ⟨.inl (by simp [Binary.results_cons]), fun {m} h _ => ?_⟩
  obtain ⟨value, hvalue, hfits, hmemory⟩ := hload h
  refine ⟨value, m.define id value, hvalue, hfits, ?_, Machine.define_values_self _ _, rfl⟩
  rw [run_single]
  simp [step, hmemory]

theorem DeliversAll.nil : DeliversAll arithmetic p start kind (some []) [] [] [] :=
  fun m _ _ => ⟨[], m, rfl, rfl, rfl, rfl, rfl⟩

theorem DeliversAll.vector {values : Option (List (Value σ))} {counts : List Nat}
    {ids : List UInt32} (h : DeliversAll arithmetic p start kind values counts code ids)
    (hshape : p.shapeAt type = some (.vector component size)) (hsize : size ≠ 0)
    (hkind : p.shapeAt component = some (.scalar kind)) (htotal : total counts = size.toNat) :
    Delivers arithmetic p start (values.bind Value.join) type
      (code ++ [⟨.compositeConstruct, typeId :: id :: ids⟩]) id := by
  refine ⟨.inl (by simp [Binary.results_cons]), fun {m} hm hd => ?_⟩
  obtain ⟨parts, m', rfl, hlengths, hrun, hvalues, hmemory⟩ := h m hm hd.left
  have hcount : parts.flatten.length = size.toNat := by
    rw [total_lengths, hlengths, htotal]
  have hsome : parts ≠ [] := by
    rintro rfl
    exact hsize (UInt32.toNat_inj.mp hcount.symm)
  have hjoin := Value.join_numbers kind hsome
  refine ⟨.numbers kind parts.flatten, m'.define id _, hjoin, .vector hshape hkind hcount, ?_,
    Machine.define_values_self _ _, hmemory⟩
  rw [run_goes_append hrun, run_single, step_construct hvalues hjoin]

variable (hstart : Persists arithmetic p start)

include hstart

theorem Delivers.constant {c : Constant} (hc : c ∈ p.constants.toList)
    (hshape : p.shapeAt type = some (.scalar .f32)) :
    Delivers arithmetic p start (some (.numbers .f32 [arithmetic.literal c.bits])) type [] c.id :=
  ⟨.inr ⟨c, hc, rfl⟩, fun h _ => ⟨_, _, rfl, .scalar hshape, rfl, hstart.constants h c hc, rfl⟩⟩

theorem DeliversAll.cons {others : Option (List (Value σ))} {count : Nat} {counts : List Nat}
    {ids : List UInt32} (hx : Delivers arithmetic p start first type code id)
    (hc : p.Components type kind count)
    (hrest : DeliversAll arithmetic p start kind others counts code' ids) :
    DeliversAll arithmetic p start kind
      (do let value ← first; let values ← others; pure (value :: values)) (count :: counts)
      (code ++ code') (id :: ids) := by
  intro m h hd
  obtain ⟨_, m₁, rfl, hfits, hrun, hvalue, hmemory⟩ := hx.runs h hd.left
  obtain ⟨xs, rfl, hxs⟩ := hfits.numbers hc
  obtain ⟨values, m₂, rfl, hcounts, hrun', hvalues, hmemory'⟩ :=
    hrest m₁ (hstart.kept h hd.left hrun hmemory) hd.right
  refine ⟨xs :: values, m₂, rfl, ?_, ?_, ?_, hmemory'.trans hmemory⟩
  · rw [List.map_cons, hxs, hcounts]
  · rw [run_goes_append hrun, hrun']
  · have hkept : m₂.values id = some (.numbers kind xs) := by
      rw [run_values hrun' (hd.not_mem hx.id_mem), hvalue]
    rw [List.mapM_cons, hkept, hvalues]
    rfl

theorem Delivers.pair {type' : TypeRef} (hx : Delivers arithmetic p start first type code l)
    (hy : Delivers arithmetic p start second type' code' r) (h : start m)
    (hd : Distinct p (code ++ code')) :
    ∃ x y m', first = some x ∧ second = some y ∧ p.Fits type x ∧ p.Fits type' y ∧
      run arithmetic m (code ++ code') = some (.goes m') ∧ m'.values l = some x ∧
      m'.values r = some y ∧ m'.memory = m.memory := by
  obtain ⟨x, m₁, hx', hfits, hrun, hvalue, hmemory⟩ := hx.runs h hd.left
  obtain ⟨y, m₂, hy', hfits', hrun', hvalue', hmemory'⟩ :=
    hy.runs (hstart.kept h hd.left hrun hmemory) hd.right
  refine ⟨x, y, m₂, hx', hy', hfits, hfits', ?_, ?_, hvalue', hmemory'.trans hmemory⟩
  · rw [run_goes_append hrun, hrun']
  · rw [run_values hrun' (hd.not_mem hx.id_mem), hvalue]

theorem Delivers.sum {op : SumOperator} {count : Nat}
    (hl : Delivers arithmetic p start first type code l)
    (hr : Delivers arithmetic p start second type code' r) (hc : p.Components type kind count)
    (hkind : kind ≠ .bool)
    (hexpected : ∀ x y, first = some x → second = some y →
      expected = x.combine (arithmetic.sum op) y) :
    Delivers arithmetic p start expected type
      (code ++ code' ++ [⟨Build.sumOpcode op kind.isFloat, [typeId, id, l, r]⟩]) id := by
  refine ⟨.inl (by simp [Binary.results_cons, Build.result?_sum]), fun {m} h hd => ?_⟩
  obtain ⟨_, _, m', hx, hy, hfits, hfits', hrun, hleft, hright, hmemory⟩ :=
    hl.pair hstart hr h hd.left
  obtain ⟨xs, rfl, hxs⟩ := hfits.numbers hc
  obtain ⟨ys, rfl, hys⟩ := hfits'.numbers hc
  have hlength : xs.length = ys.length := hxs.trans hys.symm
  refine ⟨.numbers kind (List.zipWith (arithmetic.sum op kind) xs ys), m'.define id _, ?_,
    hc.fits ?_, ?_, Machine.define_values_self _ _, hmemory⟩
  · rw [hexpected _ _ hx hy, Value.combine_numbers hlength]
  · rw [List.length_zipWith, ← hlength, Nat.min_self, hxs]
  · rw [run_goes_append hrun, run_single]
    exact step_operation (operation?_sum arithmetic op kind.isFloat) (worksOn_sum op hkind) hlength
      hleft hright

variable (hs : Delivers arithmetic p start first component code l)
  (hv : Delivers arithmetic p start second type code' r)
  (hshape : p.shapeAt type = some (.vector component size))
  (hscalar : p.shapeAt component = some (.scalar kind))

include hs hv hshape hscalar

theorem Delivers.factors (h : start m) (hd : Distinct p (code ++ code')) :
    ∃ x ys m', first = some (.numbers kind [x]) ∧ second = some (.numbers kind ys) ∧
      ys.length = size.toNat ∧ run arithmetic m (code ++ code') = some (.goes m') ∧
      m'.values l = some (.numbers kind [x]) ∧ m'.values r = some (.numbers kind ys) ∧
      m'.memory = m.memory := by
  obtain ⟨_, _, m', hx, hy, hfits, hfits', hrun, hleft, hright, hmemory⟩ := hs.pair hstart hv h hd
  obtain ⟨x, rfl⟩ := hfits.single hscalar
  obtain ⟨ys, rfl, hys⟩ := hfits'.numbers (.inr ⟨component, size, hshape, hscalar, rfl⟩)
  exact ⟨x, ys, m', hx, hy, hys, hrun, hleft, hright, hmemory⟩

theorem Delivers.scaled {scalarFirst : Bool} (hfloat : kind.isFloat = true)
    (hexpected : ∀ x ys, first = some (.numbers kind [x]) → second = some (.numbers kind ys) →
      expected = some (.numbers kind (arithmetic.scaleAll .multiply scalarFirst kind x ys))) :
    Delivers arithmetic p start expected type
      (code ++ code' ++ [⟨.vectorTimesScalar, [typeId, id, r, l]⟩]) id := by
  refine ⟨.inl (by simp [Binary.results_cons]), fun {m} h hd => ?_⟩
  obtain ⟨x, ys, m', hx, hy, hys, hrun, hleft, hright, hmemory⟩ :=
    hs.factors hstart hv hshape hscalar h hd.left
  refine ⟨_, m'.define id _, hexpected x ys hx hy,
    .vector hshape hscalar ((List.length_map _).trans hys), ?_, Machine.define_values_self _ _,
    hmemory⟩
  rw [run_goes_append hrun, run_single]
  simp [step, hleft, hright, timesScalar_numbers hfloat scalarFirst]

theorem Delivers.spread {scalarFirst : Bool} {spread : UInt32} (hsize : size ≠ 0)
    (hkind : kind ≠ .bool) (hop : ¬(op = .multiply ∧ kind.isFloat = true))
    (hexpected : ∀ x ys, first = some (.numbers kind [x]) → second = some (.numbers kind ys) →
      expected = some (.numbers kind (arithmetic.scaleAll op scalarFirst kind x ys))) :
    Delivers arithmetic p start expected type
      (code ++ code' ++ [⟨.compositeConstruct, typeId :: spread :: List.replicate size.toNat l⟩,
        ⟨Build.scaleOpcode op (some kind),
          typeId :: id :: if scalarFirst then [spread, r] else [r, spread]⟩]) id := by
  refine ⟨.inl (by simp [Binary.results_cons, Build.result?_scale]), fun {m} h hd => ?_⟩
  obtain ⟨x, ys, m', hx, hy, hys, hrun, hleft, hright, hmemory⟩ :=
    hs.factors hstart hv hshape hscalar h hd.left
  -- What is spread has an id of its own, so the vector is still there behind it.
  have hne : r ≠ spread := by
    rintro rfl
    have hid : r ∈ results (code ++ code') ∨ ∃ c ∈ p.constants.toList, c.id = r := by
      rw [Binary.results_append]
      exact hv.id_mem.imp_left (List.mem_append_right _)
    exact hd.not_mem hid (by simp [Binary.results_cons])
  have hspread := run_spread arithmetic scalarFirst typeId id (worksOn_scale hkind hop) hne hys
    (fun hzero => hsize (UInt32.toNat_inj.mp hzero)) hleft hright
  exact ⟨_, _, hexpected x ys hx hy, .vector hshape hscalar ((List.length_map _).trans hys),
    (run_goes_append hrun).trans hspread, Machine.define_values_self _ _, hmemory⟩

end Delivering

theorem Agrees.persists : Persists arithmetic p (Agrees arithmetic p cells scope env store) :=
  ⟨fun h => h.constants, fun h hd hrun hmemory => h.of_run hd hrun hmemory⟩

theorem evaluate_vector {pos : Position} {first : Expr} {rest : List Expr} {close : Part Position} :
    evaluate arithmetic env store (.vector pos first rest close) =
      (evaluateAll arithmetic env store (first :: rest)).bind Value.join := by
  simp only [evaluate, evaluateAll, bind, pure, Option.bind_assoc, Option.bind_some]

theorem evaluate_scale {opPos : Position} {left right scalar vector : Expr} {scalarFirst : Bool}
    {x : σ} {ys : List σ} (hbeside : Program.Beside scalarFirst scalar vector left right)
    (hs : evaluate arithmetic env store scalar = some (.numbers kind [x]))
    (hv : evaluate arithmetic env store vector = some (.numbers kind ys)) :
    evaluate arithmetic env store (.scale op opPos left right) =
      some (.numbers kind (arithmetic.scaleAll op scalarFirst kind x ys)) := by
  cases scalarFirst with
  | true =>
    obtain ⟨rfl, rfl⟩ := hbeside
    simp [evaluate, hs, hv, Value.scale_first, Arithmetic.scaleAll]
  | false =>
    obtain ⟨rfl, rfl⟩ := hbeside
    simp [evaluate, hs, hv, Value.scale_last, Arithmetic.scaleAll]

theorem simulates_elements (xs : List Expr)
    {parts : List ((TypeRef × Nat) × (List Instruction × UInt32))}
    (hlength : xs.length = parts.length)
    (hparts : ∀ pair ∈ xs.zip parts,
      Delivers arithmetic p (Agrees arithmetic p cells scope env store)
        (evaluate arithmetic env store pair.1) pair.2.1.1 pair.2.2.1 pair.2.2.2)
    (hwidth : ∀ part ∈ parts, p.Components part.1.1 kind part.1.2) :
    DeliversAll arithmetic p (Agrees arithmetic p cells scope env store) kind
      (evaluateAll arithmetic env store xs) (parts.map (·.1.2)) (parts.flatMap (·.2.1))
      (parts.map (·.2.2)) := by
  induction xs generalizing parts with
  | nil =>
    obtain rfl : parts = [] := List.eq_nil_of_length_eq_zero hlength.symm
    rw [evaluateAll]
    exact .nil
  | cons x rest ih =>
    cases parts with
    | nil => cases hlength
    | cons part others =>
      obtain ⟨hx, hrest⟩ := List.forall_mem_cons.mp hparts
      obtain ⟨hpart, hothers⟩ := List.forall_mem_cons.mp hwidth
      rw [evaluateAll]
      exact .cons Agrees.persists hx hpart (ih (Nat.succ.inj hlength) hrest hothers)

theorem simulates_expression {x : Expr} {type : TypeRef} {code : List Instruction} {id : UInt32}
    (hsound : p.Sound) (ht : p.Translates scope x type code id) :
    Delivers arithmetic p (Agrees arithmetic p cells scope env store)
      (evaluate arithmetic env store x) type code id := by
  have hstart := @Agrees.persists σ arithmetic p cells scope env store
  induction ht with
  | var hlookup _ =>
    refine .load fun h => ?_
    obtain ⟨cell, value, hcell, hplace, hvalue⟩ := h.lookup hlookup
    obtain ⟨hmemory, hfits⟩ := h.contents hplace hvalue
    exact ⟨value, by simp [evaluate, hcell, hvalue], hfits, hmemory⟩
  | number hconstant hbits =>
    rw [evaluate, ← hbits]
    exact .constant hstart hconstant hsound.f32
  | paren _ ih =>
    rw [evaluate]
    exact ih
  | vector hshape _ hlength _ hwidth htotal ih =>
    obtain ⟨-, ⟨kind, hkind⟩, -⟩ := hsound.shape hshape
    have hparts := simulates_elements _ hlength ih fun part hpart =>
      (hwidth part hpart).components hkind
    rw [evaluate_vector]
    exact hparts.vector hshape (hsound.size_ne_zero hshape) hkind htotal
  | sum hcomponents hkind _ _ _ ihl ihr =>
    exact .sum hstart ihl ihr hcomponents hkind fun x y hx hy => by simp [evaluate, hx, hy]
  | scaled hbeside hshape hscalar hfloat _ _ _ ihs ihv =>
    exact .scaled hstart ihs ihv hshape hscalar hfloat fun x ys => evaluate_scale hbeside
  | spread hbeside hshape hscalar hkind hop _ _ _ ihs ihv =>
    exact .spread hstart ihs ihv hshape hscalar (hsound.size_ne_zero hshape) hkind hop
      fun x ys => evaluate_scale hbeside

end Shading.Semantics
