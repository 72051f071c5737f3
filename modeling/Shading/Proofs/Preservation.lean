import Shading.Proofs.Compilation
import Shading.Proofs.Simulation

/-!
Compilation preserves meaning: the code of a procedure ends with the same
contents of the global variables and the same returned value as its
statements. Statements are followed by induction on their translation, the
variables they declare being there from the start.
-/

namespace Shading.Semantics

open List

open Binary (Instruction results)

variable {σ : Type} {arithmetic : Arithmetic σ} {p : Program} {m : Machine σ}
  {cells : List (UInt32 × TypeRef)} {scope scope' : List Local} {env : Environment}
  {store : List (Value σ)} {stmt : Stmt} {cell : Nat} {id : UInt32} {type : TypeRef}
  {code vars : List Instruction} {declared : List UInt32} {returned : Bool} {before : List Global}
  {procedure : Procedure} {value : Value σ} {new : List (UInt32 × TypeRef)}
  {contents : List (Value σ)}

inductive Matches (arithmetic : Arithmetic σ) (p : Program) (cells : List (UInt32 × TypeRef))
    (declared : List UInt32) (scope : List Local) : Bool → Flow σ → Progress σ → Prop
  | goes (new : List (UInt32 × TypeRef)) {env : Environment} {store : List (Value σ)}
      {m : Machine σ} :
      new.map (·.1) = declared → Agrees arithmetic p (cells ++ new) scope env store m →
      Matches arithmetic p cells declared scope false (.goes env store) (.goes m)
  | returns {store : List (Value σ)} {value : Option (Value σ)} {m : Machine σ} :
      cells.length ≤ store.length →
      (∀ {cell : Nat} {id : UInt32} {type : TypeRef} {value : Value σ},
        cells[cell]? = some (id, type) → store[cell]? = some value →
        m.memory id = some (some value)) →
      Matches arithmetic p cells declared scope true (.returns store value) (.ends m value)

theorem executeAll_cons {rest : List Stmt} :
    executeAll arithmetic env store (stmt :: rest) =
      (executeAll arithmetic env store [stmt]).bind fun flow =>
        match flow with
        | .goes env store => executeAll arithmetic env store rest
        | .returns store value => some (.returns store value) := by
  simp only [executeAll, bind, Option.bind_assoc]
  congr 1
  funext flow
  cases flow <;> rfl

theorem executeAll_single :
    executeAll arithmetic env store [stmt] = execute arithmetic env store stmt := by
  simp only [executeAll, bind]
  cases h : execute arithmetic env store stmt with
  | none => rfl
  | some flow => cases flow <;> rfl

theorem Agrees.assign (h : Agrees arithmetic p cells scope env store m)
    (hnodup : (cells.map (·.1)).Nodup) (hcell : cells[cell]? = some (id, type))
    (hfits : p.Fits type value) :
    Agrees arithmetic p cells scope env (store.set cell value) (m.write id (some value)) := by
  refine ⟨by rw [length_set]; exact h.length, ?_, h.binds, h.constants⟩
  intro other id' type' value' hother hvalue
  by_cases heq : cell = other
  · subst heq
    rw [hcell] at hother
    cases hother
    obtain ⟨hlt, -⟩ := List.getElem?_eq_some_iff.mp hcell
    rw [getElem?_set_self (h.length ▸ hlt)] at hvalue
    cases hvalue
    exact ⟨Machine.write_memory_self _ _, hfits⟩
  · rw [getElem?_set_ne heq] at hvalue
    obtain ⟨hmemory, hfits'⟩ := h.contents hother hvalue
    refine ⟨?_, hfits'⟩
    rw [Machine.write_memory_ne]
    · exact hmemory
    · rintro rfl
      have hid : (cells.map (·.1))[cell]? = some id' := by rw [getElem?_map, hcell]; rfl
      have hid' : (cells.map (·.1))[other]? = some id' := by rw [getElem?_map, hother]; rfl
      obtain ⟨hlt, -⟩ := List.getElem?_eq_some_iff.mp hid
      exact heq ((getElem?_inj hlt hnodup).mp (hid.trans hid'.symm))

theorem Agrees.declare (place : Local) (h : Agrees arithmetic p cells scope env store m)
    (hplace : place.id ∉ cells.map (·.1)) (hfits : p.Fits place.type value) :
    Agrees arithmetic p (cells ++ [(place.id, place.type)]) (scope ++ [place])
      ((place.name, store.length) :: env) (store ++ [value]) (m.write place.id (some value)) := by
  have hlast :
      (cells ++ [(place.id, place.type)])[store.length]? = some (place.id, place.type) := by
    rw [← h.length]
    exact getElem?_concat_length
  refine ⟨by simp [h.length], ?_, .concat h.binds.append hlast, h.constants⟩
  intro cell id type value' hcell hvalue
  by_cases hlt : cell < cells.length
  · rw [getElem?_append_left hlt] at hcell
    rw [getElem?_append_left (h.length ▸ hlt)] at hvalue
    obtain ⟨hmemory, hfits'⟩ := h.contents hcell hvalue
    refine ⟨?_, hfits'⟩
    rw [Machine.write_memory_ne]
    · exact hmemory
    · rintro rfl
      exact hplace (mem_map.mpr ⟨_, mem_of_getElem? hcell, rfl⟩)
  · have hcount := (List.getElem?_eq_some_iff.mp hvalue).1
    rw [length_append, length_singleton, ← h.length] at hcount
    obtain rfl : cell = store.length := by rw [← h.length]; omega
    rw [hlast] at hcell
    cases hcell
    rw [getElem?_concat_length] at hvalue
    cases hvalue
    exact ⟨Machine.write_memory_self _ _, hfits⟩

theorem step_store {pointer value : UInt32} {v : Value σ}
    (hpointer : (m.memory pointer).isSome = true) (hvalue : m.values value = some v) :
    step arithmetic m ⟨.store, [pointer, value]⟩ = some (.goes (m.write pointer (some v))) := by
  obtain ⟨contents, hcontents⟩ := Option.isSome_iff_exists.mp hpointer
  simp [step, hcontents, hvalue]

theorem simulates_store {x : Expr} {place : UInt32} (hsound : p.Sound)
    (ht : p.Translates scope x type code id) (h : Agrees arithmetic p cells scope env store m)
    (hd : Distinct p (code ++ [⟨.store, [place, id]⟩])) (hplace : (m.memory place).isSome = true) :
    ∃ value m', evaluate arithmetic env store x = some value ∧ p.Fits type value ∧
      Agrees arithmetic p cells scope env store m' ∧
      run arithmetic m (code ++ [⟨.store, [place, id]⟩]) =
        some (.goes (m'.write place (some value))) := by
  obtain ⟨value, m', heval, hfits, hrun, hvalue, hmemory⟩ :=
    (simulates_expression hsound ht).runs h hd.left
  refine ⟨value, m', heval, hfits, h.of_run hd.left hrun hmemory, ?_⟩
  rw [run_goes_append hrun, run_single, step_store (by rwa [hmemory]) hvalue]

theorem Matches.behind {declared' : List UInt32} {flow : Flow σ} {progress : Progress σ}
    (hnew : new.map (·.1) = declared)
    (h : Matches arithmetic p (cells ++ new) declared' scope returned flow progress) :
    Matches arithmetic p cells (declared ++ declared') scope returned flow progress := by
  cases h with
  | goes new' hnew' hagrees =>
    refine .goes (new ++ new') ?_ ?_
    · rw [map_append, hnew, hnew']
    · rw [← append_assoc]
      exact hagrees
  | returns hlength hcontents =>
    rw [length_append] at hlength
    refine .returns (by omega) ?_
    intro cell id type value hcell
    obtain ⟨hlt, -⟩ := List.getElem?_eq_some_iff.mp hcell
    exact hcontents ((getElem?_append_left hlt).trans hcell)

theorem Matches.outside {flow : Flow σ} {progress : Progress σ} (hbinds : Binds cells scope env)
    (h : Matches arithmetic p cells declared scope' returned flow progress) :
    ∃ flow', (match flow with
        | .goes _ store => some (.goes env store)
        | .returns store value => some (.returns store value)) = some flow' ∧
      Matches arithmetic p cells declared scope returned flow' progress := by
  cases h with
  | goes new hnew hagrees =>
    exact ⟨_, rfl,
      .goes new hnew ⟨hagrees.length, hagrees.contents, hbinds.append, hagrees.constants⟩⟩
  | returns hlength hcontents => exact ⟨_, rfl, .returns hlength hcontents⟩

theorem simulates_statements {result : TypeRef} {stmts : List Stmt} (hsound : p.Sound)
    (hl : p.Lowered result scope stmts scope' vars code returned)
    (h : Agrees arithmetic p cells scope env store m)
    (hcells : (cells.map (·.1) ++ results vars).Nodup)
    (hdeclared : ∀ id ∈ results vars, (m.memory id).isSome = true) (hd : Distinct p code) :
    ∃ flow progress, executeAll arithmetic env store stmts = some flow ∧
      run arithmetic m code = some progress ∧
      Matches arithmetic p cells (results vars) scope' returned flow progress := by
  induction hl generalizing cells env store m with
  | done =>
    refine ⟨.goes env store, .goes m, by simp [executeAll], rfl, .goes [] rfl ?_⟩
    rw [append_nil]
    exact h
  | @next scope mid final stmt rest vars vars' code code' returned _ _ ihstmt ihrest =>
    rw [Binary.results_append] at hcells hdeclared ⊢
    have hfirst := hcells
    rw [← append_assoc] at hfirst
    obtain ⟨flow, progress, hflow, hrun, hmatches⟩ :=
      ihstmt h (nodup_append.mp hfirst).1
        (fun id hid => hdeclared id (mem_append_left _ hid)) hd.left
    -- The first statement has not returned: the rest goes on with one cell more for each of its
    -- variables.
    cases hmatches with
    | goes new hnew hagrees =>
      have hcells' : ((cells ++ new).map (·.1) ++ results vars').Nodup := by
        rw [map_append, hnew]
        exact hfirst
      obtain ⟨flow', progress', hflow', hrun', hmatches'⟩ := ihrest hagrees hcells'
        (fun id hid => run_memory hrun (hdeclared id (mem_append_right _ hid))) hd.right
      refine ⟨flow', progress', ?_, ?_, hmatches'.behind hnew⟩
      · rw [executeAll_cons, hflow]
        exact hflow'
      · rw [run_goes_append hrun]
        exact hrun'
  | @declare scope pos name written equal close value type pointer pointerId place id code _ _ _
      htranslates =>
      have hplace := hdeclared place (by simp [Binary.results_cons])
      obtain ⟨v, m', hv, hfits, hagrees, hrun⟩ := simulates_store hsound htranslates h hd hplace
      have hfresh : place ∉ cells.map (·.1) := by
        intro hmem
        exact (nodup_append.mp hcells).2.2 place hmem place (by simp [Binary.results_cons]) rfl
      refine ⟨_, _, ?_, hrun, .goes _ (by simp [Binary.results_cons])
        (hagrees.declare ⟨name.text, type, pointer, place, none⟩ hfresh hfits)⟩
      rw [executeAll_single]
      simp [execute, hv]
  | leave _ =>
    refine ⟨.returns store none, .ends m none, ?_, rfl, .returns (Nat.le_of_eq h.length) ?_⟩
    · rw [executeAll_single]
      simp [execute]
    · intro cell id type value hcell hvalue
      exact (h.contents hcell hvalue).1
  | @giveBack scope pos value close code id _ htranslates =>
    obtain ⟨v, m', hv, hfits, hrun, hvalue, hmemory⟩ :=
      (simulates_expression hsound htranslates).runs h hd.left
    refine ⟨.returns store (some v), .ends m' (some v), ?_, ?_,
      .returns (Nat.le_of_eq h.length) ?_⟩
    · rw [executeAll_single]
      simp [execute, hv]
    · rw [run_goes_append hrun, run_single]
      simp [step, hvalue]
    · intro cell id type value hcell hstored
      rw [hmemory]
      exact (h.contents hcell hstored).1
  | group _ ih =>
    obtain ⟨flow, progress, hflow, hrun, hmatches⟩ := ih h hcells hdeclared hd
    obtain ⟨flow', hflow', hmatches'⟩ := hmatches.outside h.binds
    refine ⟨flow', progress, ?_, hrun, hmatches'⟩
    rw [executeAll_single]
    simp only [execute, hflow]
    exact hflow'
  | evaluate htranslates =>
    obtain ⟨v, m', hv, hfits, hrun, hvalue, hmemory⟩ :=
      (simulates_expression hsound htranslates).runs h hd
    refine ⟨.goes env store, .goes m', ?_, hrun, .goes [] rfl ?_⟩
    · rw [executeAll_single]
      simp [execute, hv]
    · rw [append_nil]
      exact h.of_run hd hrun hmemory
  | @assign scope target value opPos close name place code id htarget hlookup _ htranslates =>
    obtain ⟨cell, old, hcell, hplace, hold⟩ := h.lookup hlookup
    have hpointer : (m.memory place.id).isSome = true := by
      rw [(h.contents hplace hold).1]
      rfl
    obtain ⟨v, m', hv, hfits, hagrees, hrun⟩ := simulates_store hsound htranslates h hd hpointer
    refine ⟨.goes env (store.set cell v), _, ?_, hrun, .goes [] rfl ?_⟩
    · rw [executeAll_single]
      simp [execute, htarget, hcell, hv]
    · rw [append_nil]
      exact hagrees.assign (nodup_append.mp hcells).1 hplace hfits

theorem run_variables (arithmetic : Arithmetic σ)
    (hvars : ∀ i ∈ vars, ∃ type id, i = ⟨.var, [type, id, Build.functionStorage]⟩) :
    ∃ m', run arithmetic m vars = some (.goes m') ∧ m'.values = m.values ∧
      (∀ id ∈ results vars, (m'.memory id).isSome = true) ∧
      ∀ id, id ∉ results vars → m'.memory id = m.memory id := by
  induction vars generalizing m with
  | nil => exact ⟨m, rfl, rfl, nofun, fun _ _ => rfl⟩
  | cons i rest ih =>
    obtain ⟨type, own, rfl⟩ := hvars i mem_cons_self
    obtain ⟨m', hrun, hvalues, hdeclared, hothers⟩ :=
      ih (m := m.write own none) fun i hi => hvars i (mem_cons_of_mem _ hi)
    refine ⟨m', hrun, hvalues, ?_, ?_⟩
    · intro id hid
      rw [Binary.results_cons] at hid
      rcases mem_append.mp hid with hown | hid
      · obtain rfl : id = own := by simpa using hown
        exact run_memory hrun (by rw [Machine.write_memory_self]; rfl)
      · exact hdeclared id hid
    · intro id hid
      rw [Binary.results_cons, mem_append, not_or] at hid
      have hne : id ≠ own := by
        rintro rfl
        exact hid.1 (by simp)
      rw [hothers id hid.2, Machine.write_memory_ne none hne]

theorem find?_of_nodup {α : Type} {key : α → UInt32} {xs : List α} {x : α}
    (hnodup : (xs.map key).Nodup) (hx : x ∈ xs) : xs.find? (fun y => key y = key x) = some x := by
  induction xs with
  | nil => cases hx
  | cons y rest ih =>
    rw [map_cons, nodup_cons] at hnodup
    rw [find?_cons]
    by_cases hkey : key y = key x
    · rcases mem_cons.mp hx with rfl | hx
      · simp
      · exact absurd (hkey ▸ mem_map_of_mem hx) hnodup.1
    · simp only [hkey, decide_false]
      rcases mem_cons.mp hx with rfl | hx
      · exact absurd rfl hkey
      · exact ih hnodup.2 hx

theorem binds_aliases {globals : List Global} (h : before <+: globals) :
    Binds (globals.map fun g => (g.id, g.type)) (aliases before)
      (before.map (·.name)).zipIdx.reverse := by
  induction hcount : before.length generalizing before with
  | zero =>
    obtain rfl := eq_nil_of_length_eq_zero hcount
    exact .nil
  | succ count ih =>
    obtain ⟨first, g, rfl⟩ : ∃ first g, before = first ++ [g] :=
      ⟨before.dropLast, before.getLast (by rintro rfl; cases hcount),
        (dropLast_concat_getLast _).symm⟩
    have hlength : first.length = count := by simpa using hcount
    have hfirst := ih ((prefix_append _ _).trans h) hlength
    rw [aliases_concat, map_append, zipIdx_append, reverse_append]
    refine .concat hfirst ?_
    obtain ⟨rest, rfl⟩ := h
    simp [Global.alias]

theorem agrees_start (arithmetic : Arithmetic σ) (hglobals : (p.globals.toList.map (·.id)).Nodup)
    (hconstants : (p.constants.toList.map (·.id)).Nodup) (hbefore : before <+: p.globals.toList)
    (h : p.Holds contents) :
    Agrees arithmetic p (p.globals.toList.map fun g => (g.id, g.type)) (aliases before)
      (before.map (·.name)).zipIdx.reverse contents (.start arithmetic p contents) := by
  refine ⟨by rw [length_map]; exact h.1, ?_, binds_aliases hbefore, ?_⟩
  · intro cell id type value hcell hvalue
    rw [getElem?_map, Option.map_eq_some_iff] at hcell
    obtain ⟨g, hg, hpair⟩ := hcell
    cases hpair
    have hzip : (p.globals.toList.zip contents)[cell]? = some (g, value) :=
      getElem?_zip_eq_some.mpr ⟨hg, hvalue⟩
    have hmem := mem_of_getElem? hzip
    have hkeys : ((p.globals.toList.zip contents).map fun entry => entry.1.id).Nodup := by
      rw [show (fun entry : Global × Value σ => entry.1.id) = (·.id) ∘ Prod.fst from rfl,
        ← map_map, map_fst_zip (Nat.le_of_eq h.1)]
      exact hglobals
    have hfound := find?_of_nodup hkeys hmem
    refine ⟨?_, h.2 _ hmem⟩
    simp only [Machine.start]
    rw [hfound]
    rfl
  · intro c hc
    simp only [Machine.start]
    rw [find?_of_nodup hconstants hc]
    rfl

theorem ids_sublist (h : procedure ∈ p.procedures.toList) :
    (p.globals.toList.map (·.id) ++ (p.constants.toList.map (·.id) ++
      (results procedure.locals.toList ++ results procedure.body.toList))).Sublist p.resultIds := by
  have hown : (results procedure.locals.toList ++ results procedure.body.toList).Sublist
      (p.procedures.toList.flatMap Procedure.resultIds) := by
    refine Sublist.trans ?_ (sublist_flatten_of_mem (mem_map_of_mem h))
    exact ((Sublist.refl _).cons _).cons _
  rw [Program.resultIds, append_assoc, append_assoc]
  exact (Sublist.append (nil_sublist _) (Sublist.append (Sublist.refl _)
    (Sublist.append (Sublist.refl _) hown))).cons _

theorem nodup_procedure (hnodup : p.resultIds.Nodup) (h : procedure ∈ p.procedures.toList) :
    (p.globals.toList.map (·.id)).Nodup ∧ (p.constants.toList.map (·.id)).Nodup ∧
      (p.globals.toList.map (·.id) ++ results procedure.locals.toList).Nodup ∧
      Distinct p procedure.body.toList := by
  obtain ⟨hglobals, hrest, hdisjoint⟩ := nodup_append.mp (hnodup.sublist (ids_sublist h))
  obtain ⟨hconstants, hown, hdisjoint'⟩ := nodup_append.mp hrest
  obtain ⟨hlocals, hbody, -⟩ := nodup_append.mp hown
  refine ⟨hglobals, hconstants, nodup_append.mpr ⟨hglobals, hlocals, ?_⟩, hbody, ?_⟩
  · intro id hid id' hid'
    exact hdisjoint id hid id' (mem_append_right _ (mem_append_left _ hid'))
  · intro c hc hmem
    exact hdisjoint' c.id (mem_map_of_mem hc) c.id (mem_append_right _ hmem) rfl

theorem mapM_take {α β : Type} {f : α → Option β} {xs : List α} {ys : List β}
    (hlength : xs.length ≤ ys.length)
    (h : ∀ {i : Nat} {x : α} {y : β}, xs[i]? = some x → ys[i]? = some y → f x = some y) :
    xs.mapM f = some (ys.take xs.length) := by
  induction xs generalizing ys with
  | nil => rfl
  | cons x rest ih =>
    cases ys with
    | nil => cases hlength
    | cons y others =>
      have hx : f x = some y := h (i := 0) rfl rfl
      have hrest := ih (Nat.le_of_succ_le_succ hlength)
        fun {i} _ _ hx hy => h (i := i + 1) (by simpa using hx) (by simpa using hy)
      rw [mapM_cons, hx, hrest]
      rfl

theorem mapM_contents {store : List (Value σ)} (hlength : p.globals.toList.length ≤ store.length)
    (h : ∀ {cell : Nat} {id : UInt32} {type : TypeRef} {value : Value σ},
      (p.globals.toList.map fun g => (g.id, g.type))[cell]? = some (id, type) →
      store[cell]? = some value → m.memory id = some (some value)) :
    (p.globals.toList.mapM fun g => (m.memory g.id).join) =
      some (store.take p.globals.toList.length) := by
  refine mapM_take hlength fun {cell g value} hg hvalue => ?_
  have hcell : (p.globals.toList.map fun g => (g.id, g.type))[cell]? = some (g.id, g.type) := by
    rw [getElem?_map, hg]
    rfl
  rw [h hcell hvalue]
  rfl

theorem Agrees.outer (h : Agrees arithmetic p (cells ++ new) scope env store m)
    (hcell : cells[cell]? = some (id, type)) (hvalue : store[cell]? = some value) :
    m.memory id = some (some value) := by
  obtain ⟨hlt, -⟩ := List.getElem?_eq_some_iff.mp hcell
  exact (h.contents ((getElem?_append_left hlt).trans hcell) hvalue).1

theorem Agrees.of_variables {m' : Machine σ} (h : Agrees arithmetic p cells scope env store m)
    (hcells : (cells.map (·.1) ++ results vars).Nodup) (hvalues : m'.values = m.values)
    (hothers : ∀ id, id ∉ results vars → m'.memory id = m.memory id) :
    Agrees arithmetic p cells scope env store m' := by
  refine ⟨h.length, ?_, h.binds, by rw [hvalues]; exact h.constants⟩
  intro cell id type value hcell hvalue
  have hmem : id ∈ cells.map (·.1) := mem_map.mpr ⟨_, mem_of_getElem? hcell, rfl⟩
  rw [hothers id fun hid => (nodup_append.mp hcells).2.2 id hmem id hid rfl]
  exact h.contents hcell hvalue

theorem compiled_runs {name : Bytes} {written : TypeSyntax} {body : List Stmt}
    (arithmetic : Arithmetic σ) (hsound : p.Sound) (hnodup : p.resultIds.Nodup)
    (hprocedure : procedure ∈ p.procedures.toList) (hbefore : before <+: p.globals.toList)
    (h : p.Compiled (aliases before) body procedure) (hholds : p.Holds contents) :
    ∃ outcome,
      runRoutine arithmetic ⟨before.map (·.name), name, written, body⟩ contents = some outcome ∧
      runProcedure arithmetic p procedure contents = some outcome := by
  obtain ⟨scope', code, returned, hlowered, hbody, -⟩ := h.body
  obtain ⟨hglobals, hconstants, hlocals, hd⟩ := nodup_procedure hnodup hprocedure
  rw [hbody] at hd
  have hcells : ((p.globals.toList.map fun g => (g.id, g.type)).map (·.1) ++
      results procedure.locals.toList).Nodup := by
    rw [map_map]
    exact hlocals
  have hstart := agrees_start arithmetic hglobals hconstants hbefore hholds
  obtain ⟨m, hvars, hvalues, hdeclared, hothers⟩ := run_variables arithmetic hlowered.variables
  obtain ⟨flow, progress, hflow, hrun, hmatches⟩ := simulates_statements hsound hlowered
    (hstart.of_variables hcells hvalues hothers) hcells hdeclared hd.left
  have hcount : p.globals.toList.length = contents.length := hholds.1
  cases hmatches with
  | @goes _ _ store _ _ hagrees =>
    refine ⟨(store.take contents.length, none), ?_, ?_⟩
    · simp [runRoutine, hflow]
    · rw [runProcedure, hbody, run_goes_append hvars, run_goes_append hrun]
      have hlength := hagrees.length
      rw [length_append, length_map] at hlength
      have hcontents := mapM_contents (by omega) hagrees.outer
      rw [hcount] at hcontents
      simp [run, step, hcontents]
  | @returns store value _ hlength hcontents =>
    refine ⟨(store.take contents.length, value), ?_, ?_⟩
    · simp [runRoutine, hflow]
    · rw [runProcedure, hbody, run_goes_append hvars, if_pos rfl, append_nil, hrun]
      have hcontents := mapM_contents (by rwa [length_map] at hlength) hcontents
      rw [hcount] at hcontents
      simp [hcontents]

/-- Compilation preserves meaning. The source is written with the tokens of its tree, and for every
procedure and all contents of the global variables, the instructions end like the statements. Two
variables could share an id only if the counter of ids had run around. -/
theorem compilation_preserves_meaning (arithmetic : Arithmetic σ) {source : Bytes} {limits : Limits}
    {p : Program} (h : Program.ofSource source limits = .ok p)
    (hids : p.resultIds.length < UInt32.size) :
    Grammar.File (Tokens.ofSource source).tokens (SourceTree.ofSource source).items ∧
      (routines [] (SourceTree.ofSource source).items).length = p.procedures.toList.length ∧
      ∀ pair ∈ (routines [] (SourceTree.ofSource source).items).zip p.procedures.toList,
        pair.1.name = pair.2.name ∧ ∀ contents, p.Holds contents →
          ∃ outcome, runRoutine arithmetic pair.1 contents = some outcome ∧
            runProcedure arithmetic p pair.2 contents = some outcome := by
  have hbuilt := Program.ofSource_built h
  obtain ⟨pos, hending⟩ := hbuilt.ending
  obtain ⟨hlength, hroutines⟩ := hbuilt.declared.routines (prefix_refl _)
  refine ⟨Grammar.file_ofSource hending, hlength, ?_⟩
  rintro ⟨⟨globals, name, written, body⟩, procedure⟩ hpair
  obtain ⟨hname, -, visible, hvisible, rfl, hcompiled⟩ := hroutines _ hpair
  refine ⟨hname, fun contents hholds => ?_⟩
  exact compiled_runs arithmetic hbuilt.sound (hbuilt.nodup hids) (of_mem_zip hpair).2 hvisible
    hcompiled hholds

def hidingSource : Bytes :=
  Text.utf8 ("in a: vec2<f32> at 0; out o: vec4<f32> at 0; procedure main() -> void
    var x: f32 = 2.0; do var x: vec2<f32> = x * a; o := {x, 1.0 - 3.0 - 4.0, 1.0}; end " ++
    "o := o / x; end")

theorem hidingSource_preserves_meaning :
    ∃ p, Program.ofSource hidingSource {} = .ok p ∧ p.resultIds.length < UInt32.size ∧
      p.Holds [.numbers .f32 [(3 : Int), 5], .numbers .f32 [0, 0, 0, 0]] ∧
      ∃ routine procedure outcome, (routine, procedure) ∈
          (routines [] (SourceTree.ofSource hidingSource).items).zip p.procedures.toList ∧
        runRoutine integers routine
          [.numbers .f32 [(3 : Int), 5], .numbers .f32 [0, 0, 0, 0]] = some outcome ∧
        runProcedure integers p procedure
          [.numbers .f32 [(3 : Int), 5], .numbers .f32 [0, 0, 0, 0]] = some outcome := by
  have hcheck : (match Program.ofSource hidingSource {} with
      | .ok p => decide (p.resultIds.length < UInt32.size ∧ p.procedures.toList.length = 1 ∧
          p.globals.toList.map (fun g => p.shapeAt g.type) =
            [some (.vector f32Type 2), some (.vector f32Type 4)])
      | .error _ => false) = true := by decide +kernel
  cases hp : Program.ofSource hidingSource {} with
  | error e => simp [hp] at hcheck
  | ok p =>
    simp only [hp, decide_eq_true_eq] at hcheck
    obtain ⟨hids, hcount, hglobals⟩ := hcheck
    obtain ⟨-, hlength, hmeaning⟩ := compilation_preserves_meaning integers hp hids
    obtain ⟨procedure, hprocedure⟩ := length_eq_one_iff.mp hcount
    obtain ⟨routine, hroutine⟩ := length_eq_one_iff.mp (hlength.trans hcount)
    have hpair : (routine, procedure) ∈
        (routines [] (SourceTree.ofSource hidingSource).items).zip p.procedures.toList := by
      rw [hprocedure, hroutine]
      exact mem_cons_self
    have hholds : p.Holds [.numbers .f32 [(3 : Int), 5], .numbers .f32 [0, 0, 0, 0]] := by
      have hf32 := (Program.ofSource_built hp).sound.f32
      obtain ⟨g, rest, hcons, hg, hrest⟩ := map_eq_cons_iff.mp hglobals
      obtain ⟨g', rest', rfl, hg', hrest'⟩ := map_eq_cons_iff.mp hrest
      obtain rfl := map_eq_nil_iff.mp hrest'
      refine ⟨by rw [hcons]; rfl, ?_⟩
      rw [hcons]
      exact forall_mem_cons.mpr ⟨.vector hg hf32 rfl,
        forall_mem_singleton.mpr (.vector hg' hf32 rfl)⟩
    obtain ⟨outcome, hsource, hcode⟩ := (hmeaning _ hpair).2 _ hholds
    exact ⟨p, rfl, hids, hholds, routine, procedure, outcome, hpair, hsource, hcode⟩

end Shading.Semantics
