import Shading.Proofs.Interfaces.Tracking
import Shading.Proofs.Preservation
import Shading.Proofs.Safety.Compiling
import Shading.Proofs.TypeCorrectness

/-!
Interfaces are exact. Statements keep the interface of their procedure exact,
and what is declared after a procedure does not change it. As long as ids are
distinct, the entry points of a binary list the input and output variables that
their functions read or write, in the order in which they do so for the first
time.
-/

namespace Shading

open List Build Arena Binary

open Binary (Instruction results)

variable {i : Instruction} {id : UInt32} {q : Program} {e : ExprRef}

namespace Binary

def Instruction.interfaceVariable? (i : Instruction) : Option UInt32 :=
  match i with
  | ⟨.var, [_, id, storage]⟩ => if storage = 1 ∨ storage = 3 then some id else none
  | _ => none

def interfaceVariables (declarations : List Instruction) : List UInt32 :=
  declarations.filterMap Instruction.interfaceVariable?

def touchedInterface (instructions code : List Instruction) : List UInt32 :=
  ((pointers code).filter (· ∈ interfaceVariables (beforeFunctions instructions))).eraseDups

/-- An entry point is declared with the input and output variables that its function touches, and no
other instruction than the declaration of such a variable defines one of their ids. -/
def TellsInterface (instructions : List Instruction) (model function : UInt32) (name : Bytes) :
    Prop :=
  ∃ code ∈ functionsOf instructions, code.head?.bind Instruction.result? = some function ∧
    (⟨.entryPoint, model :: function :: (packString name ++ touchedInterface instructions code)⟩ :
      Instruction) ∈ instructions ∧
    ∀ id ∈ touchedInterface instructions code, ∃ type storage, (storage = 1 ∨ storage = 3) ∧
      ∀ i : Instruction, i ∈ instructions ∧ i.result? = some id ↔ i = ⟨.var, [type, id, storage]⟩

theorem Instruction.interfaceVariable?_some (h : i.interfaceVariable? = some id) :
    ∃ type storage, i = ⟨.var, [type, id, storage]⟩ ∧ (storage = 1 ∨ storage = 3) := by
  unfold interfaceVariable? at h
  split at h
  · next type found storage =>
      split at h
      · next hstorage =>
          cases h
          exact ⟨type, storage, rfl, hstorage⟩
      · cases h
  · cases h

theorem eq_of_result {instructions : List Instruction} {j : Instruction}
    (h : (results instructions).Nodup) (hi : i ∈ instructions) (hj : j ∈ instructions)
    (hid : i.result? = some id) (hjd : j.result? = some id) : i = j := by
  induction instructions with
  | nil => cases hi
  | cons first rest ih =>
    rw [results_cons, nodup_append] at h
    obtain ⟨-, hrest, hdisjoint⟩ := h
    have hother {k : Instruction} (hk : k ∈ rest) (hfirst : first.result? = some id) :
        k.result? ≠ some id := by
      intro hsame
      refine hdisjoint id ?_ id (mem_results.mpr ⟨k, hk, hsame⟩) rfl
      rw [hfirst]
      exact mem_singleton_self id
    rcases mem_cons.mp hi with rfl | hi'
    · rcases mem_cons.mp hj with rfl | hj'
      · rfl
      · exact absurd hjd (hother hj' hid)
    · rcases mem_cons.mp hj with rfl | hj'
      · exact absurd hid (hother hi' hjd)
      · exact ih hrest hi' hj'

end Binary

namespace Elaborate

variable {s t : Elaboration} {ref : ProcedureRef} {result : TypeRef} {u : Unit}
  {close : Part Position} {value : Expr}

structure Tracked (ref : ProcedureRef) (s : Elaboration) : Prop where
  interface : s.program.Exact ref
  scope : ∀ place ∈ s.scopes.locals.toList, s.program.Owns ref place

theorem Tracked.grow {names : List Bytes} (hs : Tracked ref s) (h : s.program.Grows names q) :
    Tracked ref { s with program := q } :=
  ⟨hs.interface.keep h trivial, fun place hplace => (hs.scope place hplace).keep h trivial⟩

theorem Tracked.express {x : Expr} {type : TypeRef} (hs : Tracked ref s)
    (hx : Expressed s t x e type) :
    Tracked ref t ∧ t.program.Typed (t.program.Owns ref) e type := by
  have hgrown := hs.grow hx.grows.program
  constructor
  · refine ⟨hgrown.interface, ?_⟩
    rw [hx.grows.scopes]
    exact hgrown.scope
  · exact hx.typed.mono (show t.program.Grows [] t.program from .refl _) hgrown.scope

theorem Tracked.emit {type : TypeRef} (hs : Tracked ref s)
    (ht : s.program.Typed (s.program.Owns ref) e type)
    (h : Build.expression ref e s.program = .ok id q) : Tracked ref { s with program := q } := by
  obtain ⟨code, hwrites, -⟩ := expression_ok h
  exact ⟨hs.interface.expression h ht, fun place hplace =>
    (hs.scope place hplace).of_writes hwrites⟩

theorem declaration_tracked {name : Part Name} {written : TypeSyntax} {equal close : Part Position}
    (h : declaration ref name written equal value close s = .ok (u, t)) (hs : Ready ref result s)
    (hsized : written.Sized) (htracked : Tracked ref s) : Tracked ref t := by
  obtain ⟨found, type, s₁, pointer, q, e, s₂, id, r, value', r', _, q', scopes, rfl, htype,
    hpointer, hvalue, -, hdeclare, hemit, hstore, hadd, rfl⟩ := declaration_steps h
  obtain ⟨q₁, rfl, hnamed, hsound₁, hisValue, -⟩ := variableType_ok htype hs.sound hsized
  have hgrows : q₁.Grows [] q := typeOfShape_grows hpointer (by simp)
  have hsound : q.Sound := by
    obtain ⟨shape, hshape, -⟩ := hisValue
    exact typeOfShape_sound hpointer hsound₁ (Program.shapeAt_lt hshape) rfl
  obtain ⟨given, hx⟩ := expr_ok value hvalue hsound
  obtain ⟨htracked₂, htyped⟩ := (htracked.grow (hnamed.trans hgrows)).express hx
  -- The variable is there before its value is emitted, and visible only after that.
  obtain ⟨hr, hnew⟩ := htracked₂.interface.declareVariable hdeclare
  obtain ⟨typeId, -, hvar⟩ := declareVariable_ok hdeclare
  have htracked₃ : Tracked ref { s₂ with program := r } :=
    ⟨hr, fun place hplace => (htracked₂.scope place hplace).of_writes hvar⟩
  have htracked₄ :=
    htracked₃.emit (htyped.mono hvar.grows fun _ howns => howns.of_writes hvar) hemit
  obtain ⟨code, hcode, -⟩ := expression_ok hemit
  have howned : r'.Owns ref ⟨found.text, type, pointer, id, none⟩ :=
    (hnew _ rfl rfl).of_writes hcode
  have hstored := store_ok hstore
  constructor
  · exact htracked₄.interface.store hstore rfl howned
  · intro place hplace
    rw [(Scopes.add_ok hadd).1] at hplace
    rcases mem_append.mp hplace with hold | hlast
    · exact (htracked₄.scope place hold).of_writes hstored
    · cases mem_singleton.mp hlast
      exact howned.of_writes hstored

theorem exit_tracked {close : Position} (h : exit ref close s = .ok (u, t))
    (htracked : Tracked ref s) : Tracked ref t := by
  obtain ⟨found, _, r, q, hfound, -, hmark, hexit, rfl⟩ := exit_steps h
  have hwrites := (Build.returned_writes hfound hmark).trans (Build.exit_ok hexit)
  exact ⟨(htracked.interface.returned hmark).exit hexit,
    fun place hplace => (htracked.scope place hplace).of_writes hwrites⟩

theorem exitValue_tracked (h : exitValue ref value close s = .ok (u, t)) (hs : Ready ref result s)
    (htracked : Tracked ref s) : Tracked ref t := by
  obtain ⟨e, s₁, found, id, r, _, r', q, hvalue, -, -, -, hemit, hmark, hexit, rfl⟩ :=
    exitValue_steps h
  obtain ⟨type, hx⟩ := expr_ok value hvalue hs.sound
  obtain ⟨htracked₁, htyped⟩ := htracked.express hx
  have htracked₂ := htracked₁.emit htyped hemit
  obtain ⟨procedure, hprocedure⟩ := htracked₂.interface.procedure
  have hwrites := (Build.returned_writes hprocedure hmark).trans (Build.exitValue_ok hexit)
  exact ⟨(htracked₂.interface.returned hmark).exitValue hexit,
    fun place hplace => (htracked₂.scope place hplace).of_writes hwrites⟩

theorem evaluate_tracked (h : statement ref (.evaluate value close) s = .ok (u, t))
    (hs : Ready ref result s) (htracked : Tracked ref s) : Tracked ref t := by
  simp only [statement, bind_ok, part_ok, discard_ok, build_ok] at h
  obtain ⟨e, s₁, hvalue, _, _, ⟨-, rfl⟩, id, q, hemit, rfl⟩ := h
  obtain ⟨type, hx⟩ := expr_ok value hvalue hs.sound
  obtain ⟨htracked₁, htyped⟩ := htracked.express hx
  exact htracked₁.emit htyped hemit

theorem assignment_tracked {target value : Expr} {opPos : Position}
    (h : assignment ref target opPos value close s = .ok (u, t)) (hs : Ready ref result s)
    (htracked : Tracked ref s) : Tracked ref t := by
  obtain ⟨left, s₁, e, s₂, type, id, q, place, stored, _, r, _, q', htarget, hvalue, -, -, hemit,
    hentry, -, htouch, hstore, rfl⟩ := assignment_steps h
  obtain ⟨leftType, hl⟩ := expr_ok target htarget hs.sound
  have hready₁ := hs.of_writes (t := s₁) (hs.writes hl.grows.program hl.sound) rfl
  obtain ⟨rightType, hr⟩ := expr_ok value hvalue hready₁.sound
  obtain ⟨htracked₁, htypedLeft⟩ := htracked.express hl
  obtain ⟨htracked₂, htyped⟩ := htracked₁.express hr
  have htracked₃ := htracked₂.emit htyped hemit
  obtain ⟨code, hcode, -⟩ := expression_ok hemit
  obtain ⟨procedure, hprocedure⟩ := htracked₃.interface.procedure
  have howned : q.Owns ref place := by
    have hleft :=
      (htypedLeft.mono hr.grows.program fun _ howns => howns.keep hr.grows.program trivial)
    exact (hleft.mono hcode.grows fun _ howns => howns.of_writes hcode).owned hentry
  have hlast := (registerInterface_writes htouch hprocedure).trans (store_ok hstore)
  exact ⟨htracked₃.interface.assign htouch hstore howned,
    fun place hplace => (htracked₃.scope place hplace).of_writes hlast⟩

mutual

theorem statement_tracked {s t : Elaboration} {u : Unit} (stmt : Stmt)
    (h : statement ref stmt s = .ok (u, t)) (hs : Ready ref result s)
    (hsized : ∀ written ∈ stmt.types, written.Sized) (htracked : Tracked ref s) :
    Tracked ref t := by
  cases stmt with
  | declare pos name written equal value close =>
    exact declaration_tracked h hs (hsized written (by simp [Stmt.types])) htracked
  | leave pos close => exact exit_tracked h htracked
  | giveBack pos value close => exact exitValue_tracked h hs htracked
  | group pos body close =>
    simp only [statement, bind_ok, scope_ok, part_ok] at h
    obtain ⟨_, _, ⟨scopes, hpush, rfl⟩, _, s₂, hbody, _, _, ⟨-, rfl⟩, scopes', hpop, rfl⟩ := h
    have hready : Ready ref result { s with scopes } := ⟨hs.sound, hs.procedure⟩
    have hsizedBody : ∀ written ∈ blockTypes body, written.Sized := by
      simpa [Stmt.types] using hsized
    obtain ⟨vars, code, returned, hlowers⟩ := block_ok body hbody hready hsizedBody
    have hinner : Tracked ref { s with scopes } := by
      refine ⟨htracked.interface, ?_⟩
      rw [(Scopes.push_ok hpush).1]
      exact htracked.scope
    have hafter := block_tracked body hbody hready hsizedBody hinner
    refine ⟨hafter.interface, ?_⟩
    rw [(hlowers.scope_back hpush hpop).1]
    exact fun place hplace => (htracked.scope place hplace).of_writes hlowers.writes
  | evaluate value close => exact evaluate_tracked h hs htracked
  | assign target opPos value close => exact assignment_tracked h hs htracked

theorem block_tracked {s t : Elaboration} {u : Unit} (stmts : List Stmt)
    (h : block ref stmts s = .ok (u, t)) (hs : Ready ref result s)
    (hsized : ∀ written ∈ blockTypes stmts, written.Sized) (htracked : Tracked ref s) :
    Tracked ref t := by
  cases stmts with
  | nil =>
    obtain ⟨-, rfl⟩ := pure_ok.mp h
    exact htracked
  | cons stmt rest =>
    obtain ⟨-, u', s₁, hstatement, hrest⟩ := block_cons_ok h
    simp only [blockTypes, mem_append] at hsized
    obtain ⟨vars, code, returned, hfirst⟩ :=
      statement_ok stmt hstatement hs fun written hmem => hsized written (.inl hmem)
    have hready := hs.of_writes (t := s₁) hfirst.writes rfl
    have hnext := statement_tracked stmt hstatement hs
      (fun written hmem => hsized written (.inl hmem)) htracked
    exact block_tracked rest hrest hready (fun written hmem => hsized written (.inr hmem)) hnext

end

theorem Closes.interface {p : Program} (h : Closes ref result p q) (hp : p.Exact ref) :
    q.Exact ref := by
  obtain ⟨found, -, ⟨-, rfl⟩ | ⟨-, -, hexit⟩⟩ := h
  · exact hp
  · exact hp.exit hexit

theorem procedureItem_exact {name : Part Name} {written : TypeSyntax} {body : List Stmt}
    (h : procedureItem name written body close s = .ok (u, t)) (hs : Between s)
    (hsized : ∀ type ∈ written :: blockTypes body, type.Sized) :
    t.program.Exact s.program.procedures.size := by
  obtain ⟨found, result, s₁, ref, q₁, scopes, q₂, s₂, q₃, closed, q₄, rfl, -, htype, hadd, hpush,
    hopen, hblock, hcloses, hpop, henters, rfl⟩ := procedureItem_steps h
  obtain ⟨hsizedResult, hsizedBody⟩ := forall_mem_cons.mp hsized
  obtain ⟨q, rfl, hnamed, hsound, hresult, -⟩ := type_ok htype hs.sound hsizedResult
  have hlt : result < q.types.size := by
    rcases hresult with rfl | ⟨shape, hshape, -⟩
    · exact Program.shapeAt_lt hsound.void
    · exact Program.shapeAt_lt hshape
  obtain ⟨rfl, hsound₂, hglobals₂, -, -, id, type, label, hprocedures₂, -⟩ :=
    openProcedure_ok hadd hopen hsound hlt
  have hsize : q.procedures.size = s.program.procedures.size := by
    rw [← length_toList, hnamed.procedures_eq, length_toList]
  have hbare : q₂.procedures.get? q.procedures.size =
      some (bareProcedure found.text id type result label) := by
    rw [get?_eq, hprocedures₂, ← length_toList, getElem?_concat_length]
  have hready : Ready q.procedures.size result
      { s with program := q₂, scopes := scopes, stage := none } :=
    ⟨hsound₂, _, hbare, rfl⟩
  have htracked : Tracked q.procedures.size
      { s with program := q₂, scopes := scopes, stage := none } := by
    constructor
    · exact ⟨[], ⟨_, hbare, rfl, rfl⟩, fun _ hplace => (not_mem_nil hplace).elim⟩
    · intro place hplace
      rw [(Scopes.push_ok hpush).1] at hplace
      -- Between items only global variables are visible.
      have hplace' : place ∈ aliases s.program.globals.toList := hs.scope ▸ hplace
      obtain ⟨⟨g, global⟩, hg, rfl⟩ := mem_map.mp hplace'
      refine .inl ⟨global, g, rfl, ?_, rfl⟩
      rw [get?_eq, hglobals₂, hnamed.keptGlobals trivial]
      exact mk_mem_zipIdx_iff_getElem?.mp hg
  have hbody := block_tracked body hblock hready hsizedBody htracked
  rw [← hsize]
  exact (hcloses.interface hbody.interface).keep henters.extends.1 nofun

theorem item_exact (x : Item) (h : item x s = .ok (u, t)) (hs : Between s)
    (hsized : ∀ written ∈ x.types, written.Sized)
    (hexact : ∀ ref < s.program.procedures.size, s.program.Exact ref) :
    ∀ ref < t.program.procedures.size, t.program.Exact ref := by
  have hstep := item_ok x h hs hsized
  obtain ⟨globals, procedures, -, hprocedures, hdeclared⟩ := hstep.declared
  have hsize : t.program.procedures.size = s.program.procedures.size + procedures.length := by
    rw [← length_toList, hprocedures, length_append, length_toList]
  intro ref href
  rw [hsize] at href
  by_cases hold : ref < s.program.procedures.size
  · exact (hexact ref hold).keep hstep.grows hold
  · cases x with
    | procedure pos name result body close =>
      obtain ⟨-, procedure, found, rfl, -⟩ := hdeclared
      obtain rfl : ref = s.program.procedures.size := by
        rw [length_singleton] at href
        omega
      exact procedureItem_exact h hs hsized
    | global pos direction name type placement =>
      obtain ⟨rfl, -⟩ := hdeclared
      exact absurd href hold
    | stage pos stage close =>
      obtain ⟨-, rfl⟩ := hdeclared
      exact absurd href hold
    | builtin pos builtin close =>
      obtain ⟨-, rfl⟩ := hdeclared
      exact absurd href hold
    | record pos name members close =>
      obtain ⟨-, rfl⟩ := hdeclared
      exact absurd href hold

theorem items_exact (items : List Item) (h : items.forM item s = .ok (u, t)) (hs : Between s)
    (hsized : ∀ written ∈ items.flatMap Item.types, written.Sized)
    (hexact : ∀ ref < s.program.procedures.size, s.program.Exact ref) :
    ∀ ref < t.program.procedures.size, t.program.Exact ref := by
  induction items generalizing s with
  | nil =>
    obtain ⟨-, rfl⟩ := pure_ok.mp h
    exact hexact
  | cons x rest ih =>
    obtain ⟨_, s₁, hfirst, hrest⟩ := bind_ok.mp h
    simp only [flatMap_cons, mem_append] at hsized
    have hsizedFirst : ∀ written ∈ x.types, written.Sized := fun _ hmem => hsized _ (.inl hmem)
    have hstep := item_ok x hfirst hs hsizedFirst
    exact ih hrest hstep.between (fun _ hmem => hsized _ (.inr hmem))
      (item_exact x hfirst hs hsizedFirst hexact)

end Elaborate

namespace Program

variable {p : Program} {source : Bytes} {limits : Limits}

theorem ofSource_exact (h : ofSource source limits = .ok p) :
    ∀ ref < p.procedures.size, p.Exact ref := by
  obtain ⟨start, t, hstart, hrun, rfl⟩ := ofSource_elaborates h
  have hfresh := new_ok hstart
  obtain ⟨hitems, hending, -⟩ := Elaborate.sourceTree_ok hrun
  have hsized := SourceTree.sized_ofSource source
  apply Elaborate.items_exact _ hitems hfresh.between hsized
  intro ref href
  have hnone : (Elaboration.ofProgram start).program.procedures.size = 0 := by
    rw [← length_toList]
    exact congrArg length hfresh.procedures
  omega

/-- The ids of the input and output variables. -/
def sharedIds (p : Program) : List UInt32 :=
  (p.globals.toList.filter (·.direction.isInterface)).map (·.id)

def globalId (p : Program) (ref : GlobalRef) : UInt32 := ((p.globals.get? ref).map (·.id)).getD 0

theorem globalId_eq {ref : GlobalRef} {g : Global} (h : p.globals.get? ref = some g) :
    p.globalId ref = g.id := by
  simp [globalId, h]

theorem mapM_globalId {refs : List GlobalRef} (h : ∀ ref ∈ refs, ∃ g, p.globals.get? ref = some g) :
    refs.mapM (fun ref => (p.globalAt ref).map (·.id)) = .ok (refs.map p.globalId) := by
  induction refs with
  | nil => rfl
  | cons ref rest ih =>
    obtain ⟨⟨g, hg⟩, hrest⟩ := forall_mem_cons.mp h
    refine mapM_ok_cons.mpr ⟨p.globalId ref, _, ?_, ih hrest, rfl⟩
    rw [globalAt_ok.mpr hg, globalId_eq hg]
    rfl

section Distinct

variable {ref : ProcedureRef} {place : Local} {touched : List Local}

theorem globalId_injective (hnodup : p.resultIds.Nodup) {i j : GlobalRef} {g g' : Global}
    (hi : p.globals.get? i = some g) (hj : p.globals.get? j = some g') (hid : g.id = g'.id) :
    i = j := by
  have hpart : (p.globals.toList.map (·.id)).Sublist p.resultIds := by
    rw [resultIds, append_assoc, append_assoc]
    exact ((sublist_append_left _ _).trans (sublist_append_right _ _)).cons _
  have hsame : (p.globals.toList.map (·.id))[i]? = (p.globals.toList.map (·.id))[j]? := by
    rw [get?_eq] at hi hj
    simp [hi, hj, hid]
  have hlt : i < (p.globals.toList.map (·.id)).length := by simpa using get?_lt hi
  exact (getElem?_inj hlt (hnodup.sublist hpart)).mp hsame

theorem Owns.mem_sharedIds (hnodup : p.resultIds.Nodup) (h : p.Owns ref place) :
    place.id ∈ p.sharedIds ↔ ∃ global, place.global = some global ∧ p.isShared global = true := by
  simp only [sharedIds, mem_map, mem_filter]
  constructor
  · rintro ⟨g, ⟨hg, hdirection⟩, hid⟩
    obtain ⟨i, hi⟩ := get?_of_mem hg
    rcases h with ⟨global, found, hglobal, hfound, hplace⟩ | ⟨-, procedure, hprocedure, hlocal⟩
    · obtain rfl := globalId_injective hnodup hi hfound (hid.trans hplace)
      exact ⟨i, hglobal, (isShared_of_get? hi).trans hdirection⟩
    · have hids := (Semantics.nodup_procedure hnodup (mem_of_get? hprocedure)).2.2.1
      have hne := (nodup_append.mp hids).2.2 g.id (mem_map_of_mem hg) place.id hlocal
      exact absurd hid hne
  · rintro ⟨global, hglobal, hshared⟩
    rcases h with ⟨found, g, hfound, hg, hid⟩ | ⟨hnone, -⟩
    · rw [hglobal] at hfound
      cases hfound
      rw [isShared_of_get? hg] at hshared
      exact ⟨g, ⟨mem_of_get? hg, hshared⟩, hid.symm⟩
    · rw [hglobal] at hnone
      cases hnone

theorem shared_ids (hnodup : p.resultIds.Nodup) (h : ∀ place ∈ touched, p.Owns ref place) :
    (p.shared touched).map p.globalId = (touched.map (·.id)).filter (· ∈ p.sharedIds) := by
  induction touched with
  | nil => rfl
  | cons place rest ih =>
    obtain ⟨hplace, hrest⟩ := forall_mem_cons.mp h
    have hmem := hplace.mem_sharedIds hnodup
    have hcons : p.shared (place :: rest) = p.shared [place] ++ p.shared rest :=
      shared_append p [place] rest
    rw [hcons, map_append, ih hrest, map_cons, filter_cons]
    by_cases hshared : place.id ∈ p.sharedIds
    · obtain ⟨global, hglobal, hisShared⟩ := hmem.mp hshared
      rw [shared_singleton hglobal hisShared, if_pos (decide_eq_true hshared)]
      rcases hplace with ⟨found, g, hfound, hg, hid⟩ | ⟨hnone, -⟩
      · rw [hglobal] at hfound
        cases hfound
        rw [map_singleton, globalId_eq hg, hid]
        rfl
      · rw [hglobal] at hnone
        cases hnone
    · have hnone : p.shared [place] = [] := by
        cases hglobal : place.global with
        | none => simp [shared, hglobal]
        | some global =>
          have hnot : ¬p.isShared global = true :=
            fun hisShared => hshared (hmem.mpr ⟨global, hglobal, hisShared⟩)
          simp [shared, hglobal, hnot]
      rw [hnone, if_neg (by simpa using hshared)]
      rfl

theorem Exact.interface {procedure : Procedure} (h : p.Exact ref) (hnodup : p.resultIds.Nodup)
    (hprocedure : p.procedures.get? ref = some procedure) :
    procedure.interface.toList.mapM (fun ref => (p.globalAt ref).map (·.id)) =
      .ok ((Binary.pointers procedure.body.toList).filter (· ∈ p.sharedIds)).eraseDups := by
  obtain ⟨touched, ⟨found, hfound, hpointers, hinterface⟩, howned⟩ := h
  obtain rfl : procedure = found := Option.some.inj (hprocedure.symm.trans hfound)
  have hthere : ∀ global ∈ p.shared touched, ∃ g, p.globals.get? global = some g := by
    intro global hglobal
    have hshared := (mem_filter.mp hglobal).2
    cases hg : p.globals.get? global with
    | none => simp [isShared, hg] at hshared
    | some g => exact ⟨g, rfl⟩
  rw [hinterface, mapM_globalId fun global hglobal => hthere global (mem_eraseDups.mp hglobal),
    hpointers, ← shared_ids hnodup howned, eraseDups_map]
  intro i hi j hj heq
  obtain ⟨g, hg⟩ := hthere i hi
  obtain ⟨g', hg'⟩ := hthere j hj
  rw [globalId_eq hg, globalId_eq hg'] at heq
  exact globalId_injective hnodup hg hg' heq

end Distinct

theorem Assembles.interfaceVariables {s : Sections} (hs : p.Assembles s) (id : UInt32) :
    id ∈ Binary.interfaceVariables (p.declarations s) ↔ id ∈ p.sharedIds := by
  simp only [Binary.interfaceVariables, sharedIds, List.mem_filterMap, List.mem_map,
    List.mem_filter]
  constructor
  · rintro ⟨i, hi, hid⟩
    obtain ⟨type, storage, rfl, hstorage⟩ := Binary.Instruction.interfaceVariable?_some hid
    obtain ⟨g, hg, hdeclared⟩ := mapM_ok_mem hs.globals (hs.mem_globals hi rfl)
    obtain ⟨pointer, -, heq⟩ := globalDeclaration_ok hdeclared
    cases heq
    refine ⟨g, ⟨hg, ?_⟩, rfl⟩
    cases hdirection : g.direction <;>
      simp_all [Direction.storageClass, StorageClass.binaryCode, Direction.isInterface]
  · rintro ⟨g, ⟨hg, hdirection⟩, rfl⟩
    obtain ⟨i, hi, hdeclared⟩ := mapM_ok_of_mem hs.globals hg
    obtain ⟨pointer, -, rfl⟩ := globalDeclaration_ok hdeclared
    refine ⟨⟨.var, [pointer, g.id, g.direction.storageClass.binaryCode]⟩, ?_, ?_⟩
    · simp only [declarations, List.mem_append]
      exact .inl (.inr hi)
    · cases hcase : g.direction <;>
        simp_all [Direction.storageClass, StorageClass.binaryCode, Direction.isInterface,
          Binary.Instruction.interfaceVariable?]

theorem Built.pointers_function {tree : SourceTree} (h : p.Built tree) {procedure : Procedure}
    (hprocedure : procedure ∈ p.procedures.toList) {code : List Instruction}
    (hcode : p.function procedure = .ok code) :
    Binary.pointers code = Binary.pointers procedure.body.toList := by
  obtain ⟨hlength, hroutines⟩ := h.declared.routines (List.prefix_refl _)
  obtain ⟨routine, hpair⟩ := mem_zip_of_mem_right hlength hprocedure
  obtain ⟨-, -, visible, -, -, hcompiled⟩ := hroutines _ hpair
  obtain ⟨scope, body, returned, hlowered, -⟩ := hcompiled.body
  have hlocals : Binary.pointers procedure.locals.toList = [] := by
    apply List.filterMap_eq_nil_iff.mpr
    intro i hi
    obtain ⟨type, id, rfl⟩ := hlowered.variables i hi
    rfl
  obtain ⟨result, type, -, -, rfl⟩ := function_ok hcode
  have hcons : ∀ first label rest, Binary.Instruction.pointer? first = none →
      Binary.Instruction.pointer? label = none →
      Binary.pointers (first :: label :: rest) = Binary.pointers rest := by
    intro first label rest hfirst hlabel
    simp [Binary.pointers, hfirst, hlabel]
  rw [hcons _ _ _ rfl rfl, pointers_append, pointers_append, hlocals]
  exact append_nil _

theorem entryPoint_interface {entry : EntryPoint} (h : p.entryPoint entry = .ok i) :
    ∃ procedure interface, p.procedures.get? entry.procedure = some procedure ∧
      procedure.interface.toList.mapM (fun ref => (p.globalAt ref).map (·.id)) = .ok interface ∧
      i = ⟨.entryPoint, entry.stage.executionModel :: procedure.id ::
        (Binary.packString entry.name ++ interface)⟩ := by
  simp only [entryPoint, except_bind_ok, except_pure_ok, procedureAt_ok] at h
  obtain ⟨procedure, hprocedure, interface, hinterface, rfl⟩ := h
  exact ⟨procedure, interface, hprocedure, hinterface, rfl⟩

theorem Built.tellsInterface {tree : SourceTree} {s : Sections} (h : p.Built tree)
    (hs : p.Assembles s) (hnodup : p.resultIds.Nodup)
    (hexact : ∀ ref < p.procedures.size, p.Exact ref)
    {entry : EntryPoint} (hentry : entry ∈ p.entryPoints.toList) :
    ∃ procedure, p.procedures.get? entry.procedure = some procedure ∧
      Binary.TellsInterface (p.declarations s ++ s.functions.flatten) entry.stage.executionModel
        procedure.id entry.name := by
  obtain ⟨hbefore, hfunctions⟩ := h.functionsOf hs
  obtain ⟨i, hi, hdeclared⟩ := mapM_ok_of_mem hs.entryPoints hentry
  obtain ⟨procedure, interface, hprocedure, hinterface, rfl⟩ := entryPoint_interface hdeclared
  have hmem : procedure ∈ p.procedures.toList := mem_of_get? hprocedure
  obtain ⟨code, hcode, hfunction⟩ := mapM_ok_of_mem hs.functions hmem
  have htouched : interface =
      touchedInterface (p.declarations s ++ s.functions.flatten) code := by
    rw [(hexact _ (get?_lt hprocedure)).interface hnodup hprocedure] at hinterface
    cases hinterface
    rw [touchedInterface, hbefore, h.pointers_function hmem hfunction]
    congr 1
    apply filter_congr
    intro id _
    exact decide_eq_decide.mpr (hs.interfaceVariables id).symm
  refine ⟨procedure, hprocedure, code, by rwa [hfunctions], ?_, ?_, ?_⟩
  · obtain ⟨result, type, -, -, rfl⟩ := function_ok hfunction
    rfl
  · rw [← htouched]
    simp only [declarations, annotations, mem_append]
    exact .inl (.inl (.inl (.inl (.inl (.inl (.inl (.inr hi)))))))
  · intro id hid
    rw [touchedInterface, hbefore, mem_eraseDups, mem_filter] at hid
    obtain ⟨i, hi, hvariable⟩ := mem_filterMap.mp (of_decide_eq_true hid.2)
    obtain ⟨type, storage, rfl, hstorage⟩ := Instruction.interfaceVariable?_some hvariable
    have hall : (⟨.var, [type, id, storage]⟩ : Instruction) ∈
        p.declarations s ++ s.functions.flatten := mem_append_left _ hi
    refine ⟨type, storage, hstorage, fun j => ⟨?_, ?_⟩⟩
    · rintro ⟨hj, hresult⟩
      rw [← hs.results_instructions] at hnodup
      exact eq_of_result hnodup hj hall hresult rfl
    · rintro rfl
      exact ⟨hall, rfl⟩

/-- Interfaces are exact as long as the counter of ids has not run around. The interface of a
procedure consists of the input and output variables that its code reads or writes, each once and
in the order in which they are first touched; and so does the one that an entry point of the binary
declares for its function. -/
theorem ofSource_interfaces (h : ofSource source limits = .ok p)
    (hids : p.resultIds.length < UInt32.size) :
    (∀ procedure ∈ p.procedures.toList,
      procedure.interface.toList.mapM (fun ref => (p.globalAt ref).map (·.id)) =
        .ok ((Binary.pointers procedure.body.toList).filter (· ∈ p.sharedIds)).eraseDups) ∧
    ∃ instructions, p.instructions = .ok instructions ∧
      (∀ binary, compile source limits = .ok binary →
        (Binary.decode binary).instructions = instructions) ∧
      ∀ entry ∈ p.entryPoints.toList, ∃ procedure,
        p.procedures.get? entry.procedure = some procedure ∧
        Binary.TellsInterface instructions entry.stage.executionModel procedure.id entry.name := by
  have hbuilt := ofSource_built h
  have hnodup := hbuilt.nodup hids
  have hexact := ofSource_exact h
  constructor
  · intro procedure hprocedure
    obtain ⟨ref, href⟩ := get?_of_mem hprocedure
    exact (hexact ref (get?_lt href)).interface hnodup href
  · have hclosed := ofSource_allowed limits (SourceTree.marked_ofSource source)
    rw [h] at hclosed
    obtain ⟨s, hs⟩ := hclosed.resolves.assembles
    refine ⟨_, hs.instructions, ?_, fun entry hentry =>
      hbuilt.tellsInterface hs hnodup hexact hentry⟩
    intro binary hbinary
    obtain ⟨p', s', hp', hs', hdecode⟩ := decode_compile hbinary
    rw [h] at hp'
    cases hp'
    have hsame := hs.instructions.symm.trans hs'.instructions
    rw [hdecode, Except.ok.inj hsame]

def touchingSource : Bytes :=
  Text.utf8 "in a: f32 at 0; in b: f32 at 1; var c: f32; out o: f32 at 0; out unused: f32 at 1;
    procedure sum() -> f32 return b + c + a + b; end
    [entry_point(fragment)] procedure main() -> void
    var a: f32 = b; c := a; o := c; do var o: f32 = a; o := b; end o := a; end"

theorem touchingSource_interfaces : ∃ p, ofSource touchingSource {} = .ok p ∧
    p.resultIds.length < UInt32.size ∧
    p.procedures.toList.map (·.interface.toList) = [[1, 0], [1, 3]] ∧
    (∀ procedure ∈ p.procedures.toList,
      procedure.interface.toList.mapM (fun ref => (p.globalAt ref).map (·.id)) =
        .ok ((Binary.pointers procedure.body.toList).filter (· ∈ p.sharedIds)).eraseDups) ∧
    ∃ instructions, p.instructions = .ok instructions ∧
      ∀ entry ∈ p.entryPoints.toList, ∃ procedure,
        p.procedures.get? entry.procedure = some procedure ∧
        Binary.TellsInterface instructions entry.stage.executionModel procedure.id entry.name := by
  have hcheck : (ofSource touchingSource {}).toOption.map (fun p =>
      (decide (p.resultIds.length < UInt32.size), p.procedures.toList.map (·.interface.toList))) =
      some (true, [[1, 0], [1, 3]]) := by
    decide +kernel
  cases h : ofSource touchingSource {} with
  | error e =>
    rw [h] at hcheck
    cases hcheck
  | ok p =>
    rw [h] at hcheck
    obtain ⟨hids, hinterfaces⟩ := Prod.mk.inj (Option.some.inj hcheck)
    have hids : p.resultIds.length < UInt32.size := of_decide_eq_true hids
    obtain ⟨hprocedures, instructions, hinstructions, -, hentries⟩ := ofSource_interfaces h hids
    exact ⟨p, rfl, hids, hinterfaces, hprocedures, instructions, hinstructions, hentries⟩

end Program

end Shading
