import Mathlib.Data.List.Induction
import Shading.Proofs.Elaboration.Statements

/-!
The interface of a procedure while its code is emitted. The variables that the
code reads and writes are listed in order next to those that were noted. A load
is emitted before its variable is noted, a store after it, and both lists are
the same again once the two have happened.
-/

namespace Shading

open List Build

open Binary (Instruction Opcode results)

variable {global : GlobalRef} {op : Opcode} {operands : List UInt32} {type : TypeRef}
  {id value : UInt32} {e : ExprRef} {fuel : Nat}

namespace Binary

def Instruction.pointer? (i : Instruction) : Option UInt32 :=
  match i.opcode with
  | .load => i.operands[2]?
  | .store => i.operands[0]?
  | _ => none

/-- The pointers that instructions read and write through, in order. -/
def pointers (code : List Instruction) : List UInt32 := code.filterMap Instruction.pointer?

@[simp] theorem pointers_nil : pointers [] = [] := rfl

@[simp] theorem pointers_append (first second : List Instruction) :
    pointers (first ++ second) = pointers first ++ pointers second := by
  simp [pointers]

@[simp] theorem pointers_singleton (i : Instruction) : pointers [i] = i.pointer?.toList := by
  cases h : i.pointer? <;> simp [pointers, h]

end Binary

theorem eraseDups_concat {α : Type} [DecidableEq α] (xs : List α) (x : α) :
    (xs ++ [x]).eraseDups = if x ∈ xs then xs.eraseDups else xs.eraseDups ++ [x] := by
  rw [eraseDups_append]
  by_cases h : x ∈ xs
  · simp [removeAll, h]
  · simp [removeAll, h, eraseDups_cons]

theorem eraseDups_map {α β : Type} [DecidableEq α] [DecidableEq β] {f : α → β} {xs : List α}
    (h : ∀ a ∈ xs, ∀ b ∈ xs, f a = f b → a = b) : (xs.map f).eraseDups = xs.eraseDups.map f := by
  induction xs using reverseRecOn with
  | nil => rfl
  | append_singleton xs x ih =>
    have hmem : f x ∈ xs.map f ↔ x ∈ xs := by
      constructor
      · intro hfx
        obtain ⟨a, ha, heq⟩ := mem_map.mp hfx
        rwa [← h a (by simp [ha]) x (by simp) heq]
      · exact mem_map_of_mem
    have hbefore : (xs.map f).eraseDups = xs.eraseDups.map f :=
      ih fun a ha b hb => h a (by simp [ha]) b (by simp [hb])
    rw [map_append, map_singleton, eraseDups_concat, eraseDups_concat, hbefore]
    by_cases hx : x ∈ xs
    · rw [if_pos hx, if_pos (hmem.mpr hx)]
    · rw [if_neg hx, if_neg fun hfx => hx (hmem.mp hfx), map_append, map_singleton]

namespace Program

variable {p q : Program} {ref : ProcedureRef} {place : Local} {touched noted : List Local}

def isShared (p : Program) (ref : GlobalRef) : Bool :=
  (p.globals.get? ref).any (·.direction.isInterface)

def shared (p : Program) (places : List Local) : List GlobalRef :=
  (places.filterMap (·.global)).filter p.isShared

@[simp] theorem shared_append (p : Program) (first second : List Local) :
    p.shared (first ++ second) = p.shared first ++ p.shared second := by
  simp [shared]

theorem isShared_of_get? {g : Global} (h : p.globals.get? global = some g) :
    p.isShared global = g.direction.isInterface := by
  simp [isShared, h]

theorem shared_singleton (h : place.global = some global) (hshared : p.isShared global = true) :
    p.shared [place] = [global] := by
  simp [shared, h, hshared]

def Tracks (p : Program) (ref : ProcedureRef) (touched noted : List Local) : Prop :=
  ∃ procedure, p.procedures.get? ref = some procedure ∧
    Binary.pointers procedure.body.toList = touched.map (·.id) ∧
    procedure.interface.toList = (p.shared noted).eraseDups

def Owns (p : Program) (ref : ProcedureRef) (place : Local) : Prop :=
  (∃ global g, place.global = some global ∧ p.globals.get? global = some g ∧ place.id = g.id) ∨
    (place.global = none ∧ ∃ procedure, p.procedures.get? ref = some procedure ∧
      place.id ∈ results procedure.locals.toList)

def Exact (p : Program) (ref : ProcedureRef) : Prop :=
  ∃ touched, p.Tracks ref touched touched ∧ ∀ place ∈ touched, p.Owns ref place

theorem Tracks.procedure (h : p.Tracks ref touched noted) :
    ∃ procedure, p.procedures.get? ref = some procedure :=
  h.imp fun _ hprocedure => hprocedure.1

theorem Exact.procedure (h : p.Exact ref) :
    ∃ procedure, p.procedures.get? ref = some procedure := by
  obtain ⟨_, htracks, -⟩ := h
  exact htracks.procedure

section Keeping

variable {kept : Region → Prop} {names : List Bytes}

theorem Owns.keep (h : Extends kept names p q) (href : kept (.procedure ref))
    (hp : p.Owns ref place) : q.Owns ref place := by
  rcases hp with ⟨global, g, hglobal, hg, hid⟩ | ⟨hnone, procedure, hprocedure, hid⟩
  · exact .inl ⟨global, g, hglobal, h.global hg, hid⟩
  · exact .inr ⟨hnone, procedure, (h.procedures ref href).trans hprocedure, hid⟩

theorem Owns.of_writes {vars code : List Instruction} {returned : Bool}
    (h : p.Writes ref names vars code returned q) (hp : p.Owns ref place) : q.Owns ref place := by
  rcases hp with ⟨global, g, hglobal, hg, hid⟩ | ⟨hnone, procedure, hprocedure, hid⟩
  · exact .inl ⟨global, g, hglobal, h.grows.global hg, hid⟩
  · obtain ⟨old, new, hold, hnew, hcontinues⟩ := h.procedure
    obtain rfl : procedure = old := Option.some.inj (hprocedure.symm.trans hold)
    refine .inr ⟨hnone, new, hnew, ?_⟩
    rw [hcontinues.locals, Binary.results_append]
    exact mem_append_left _ hid

theorem Exact.keep (h : Extends kept names p q) (href : kept (.procedure ref))
    (hp : p.Exact ref) : q.Exact ref := by
  obtain ⟨touched, ⟨procedure, hprocedure, hpointers, hinterface⟩, howns⟩ := hp
  refine ⟨touched, ⟨procedure, (h.procedures ref href).trans hprocedure, hpointers, ?_⟩,
    fun place hplace => (howns place hplace).keep h href⟩
  have hshared : q.shared touched = p.shared touched := by
    apply filter_congr
    intro global hglobal
    obtain ⟨place, hplace, hsome⟩ := mem_filterMap.mp hglobal
    rcases howns place hplace with ⟨found, g, hfound, hg, -⟩ | ⟨hnone, -⟩
    · rw [hfound] at hsome
      cases hsome
      rw [isShared_of_get? hg, isShared_of_get? (h.global hg)]
    · rw [hnone] at hsome
      cases hsome
  rw [hinterface, hshared]

end Keeping

section Editing

variable {change : Procedure → Procedure} {count used : Nat} {words : WordBudget}

theorem Tracks.edit {touched' noted' : List Local} (h : p.Tracks ref touched noted)
    (hchange : ∀ a, p.procedures.get? ref = some a →
      Binary.pointers a.body.toList = touched.map (·.id) →
      a.interface.toList = (p.shared noted).eraseDups →
      Binary.pointers (change a).body.toList = touched'.map (·.id) ∧
      (change a).interface.toList = (p.shared noted').eraseDups) :
    (p.edit ref change count words used).Tracks ref touched' noted' := by
  obtain ⟨procedure, hprocedure, hpointers, hinterface⟩ := h
  obtain ⟨hpointers', hinterface'⟩ := hchange procedure hprocedure hpointers hinterface
  refine ⟨change procedure, ?_, hpointers', hinterface'⟩
  exact Arena.get?_modify_eq change hprocedure

theorem Tracks.emit {more : List Local} {u : Unit} (h : Build.emit ref op operands p = .ok u q)
    (hp : p.Tracks ref touched noted)
    (hmore : (⟨op, operands⟩ : Instruction).pointer?.toList = more.map (·.id)) :
    q.Tracks ref (touched ++ more) noted := by
  obtain ⟨-, words, rfl⟩ := emit_ok h
  apply hp.edit
  intro a _ hpointers hinterface
  constructor
  · simp only [Array.toList_push, Binary.pointers_append, Binary.pointers_singleton, hmore,
      hpointers, map_append]
  · exact hinterface

theorem Tracks.register {u : Unit} (h : Build.registerInterface ref place p = .ok u q)
    (hp : p.Tracks ref touched noted) : q.Tracks ref touched (noted ++ [place]) := by
  obtain ⟨procedure, hprocedure, hpointers, hinterface⟩ := hp
  have hnoted {global : GlobalRef} : global ∈ procedure.interface ↔ global ∈ p.shared noted := by
    rw [← Array.mem_toList_iff, hinterface, mem_eraseDups]
  rcases registerInterface_edit h hprocedure with
    ⟨global, g, hglobal, hg, hdirection, hnew, rfl⟩ | ⟨rfl, hthere⟩
  · apply Tracks.edit ⟨procedure, hprocedure, hpointers, hinterface⟩
    intro a ha hpointers hinterface
    obtain rfl : procedure = a := Option.some.inj (hprocedure.symm.trans ha)
    have hsingle : p.shared [place] = [global] :=
      shared_singleton hglobal ((isShared_of_get? hg).trans hdirection)
    constructor
    · exact hpointers
    · rw [shared_append, hsingle, eraseDups_concat, if_neg (fun hmem => hnew (hnoted.mpr hmem))]
      simp [hinterface]
  · refine ⟨procedure, hprocedure, hpointers, ?_⟩
    rw [hinterface, shared_append]
    cases hglobal : place.global with
    | none => simp [shared, hglobal]
    | some global =>
      obtain ⟨g, hg, himplies⟩ := hthere global hglobal
      cases hdirection : g.direction.isInterface with
      | false => simp [shared, hglobal, isShared_of_get? hg, hdirection]
      | true =>
        have hsingle : p.shared [place] = [global] :=
          shared_singleton hglobal ((isShared_of_get? hg).trans hdirection)
        rw [hsingle, eraseDups_concat, if_pos (hnoted.mp (himplies hdirection))]

theorem Owns.edit (h : p.Owns ref place)
    (hlocals : ∀ a : Procedure, results a.locals.toList ⊆ results (change a).locals.toList) :
    (p.edit ref change count words used).Owns ref place := by
  rcases h with hglobal | ⟨hnone, procedure, hprocedure, hid⟩
  · exact .inl hglobal
  · exact .inr ⟨hnone, change procedure, Arena.get?_modify_eq change hprocedure,
      hlocals procedure hid⟩

theorem Owns.emit {u : Unit} (h : Build.emit ref op operands p = .ok u q) (hp : p.Owns ref place) :
    q.Owns ref place := by
  obtain ⟨-, words, rfl⟩ := emit_ok h
  apply hp.edit
  exact fun _ => Subset.refl _

theorem Owns.register {noting : Local} {u : Unit}
    (h : Build.registerInterface ref noting p = .ok u q) {procedure : Procedure}
    (hprocedure : p.procedures.get? ref = some procedure) (hp : p.Owns ref place) :
    q.Owns ref place :=
  hp.of_writes (registerInterface_writes h hprocedure)

theorem Exact.edit (h : p.Exact ref) (hbody : ∀ a, (change a).body = a.body)
    (hinterface : ∀ a, (change a).interface = a.interface)
    (hlocals : ∀ a : Procedure, results a.locals.toList ⊆ results (change a).locals.toList) :
    (p.edit ref change count words used).Exact ref := by
  obtain ⟨touched, htracks, howned⟩ := h
  refine ⟨touched, ?_, fun place hplace => (howned place hplace).edit hlocals⟩
  apply htracks.edit
  intro a _ hpointers hshared
  rw [hbody, hinterface]
  exact ⟨hpointers, hshared⟩

end Editing

section Emitting

variable {r : Program} {u u' : Unit}

theorem Exact.emit (h : Build.emit ref op operands p = .ok u q)
    (hnone : (⟨op, operands⟩ : Instruction).pointer? = none) (hp : p.Exact ref) : q.Exact ref := by
  obtain ⟨touched, htracks, howned⟩ := hp
  have hkept : q.Tracks ref (touched ++ []) touched := htracks.emit h (by rw [hnone]; rfl)
  rw [append_nil] at hkept
  exact ⟨touched, hkept, fun place hplace => (howned place hplace).emit h⟩

theorem Exact.load {type : UInt32} (hemit : Build.emit ref .load [type, id, place.id] p = .ok u q)
    (htouch : Build.registerInterface ref place q = .ok u' r) (hplace : p.Owns ref place)
    (hp : p.Exact ref) : r.Exact ref := by
  obtain ⟨touched, htracks, howned⟩ := hp
  have hread : q.Tracks ref (touched ++ [place]) touched := htracks.emit hemit rfl
  obtain ⟨procedure, hprocedure⟩ := hread.procedure
  refine ⟨touched ++ [place], hread.register htouch, ?_⟩
  intro other hother
  apply Owns.register htouch hprocedure
  apply Owns.emit hemit
  rcases mem_append.mp hother with hold | hlast
  · exact howned other hold
  · cases mem_singleton.mp hlast
    exact hplace

theorem Exact.assign (htouch : Build.registerInterface ref place p = .ok u q)
    (hstore : Build.store ref place.id value q = .ok u' r) (hplace : p.Owns ref place)
    (hp : p.Exact ref) : r.Exact ref := by
  simp only [store, bind_ok, discard_ok, procedure_ok] at hstore
  obtain ⟨_, _, ⟨_, -, rfl⟩, hemit⟩ := hstore
  obtain ⟨touched, htracks, howned⟩ := hp
  obtain ⟨procedure, hprocedure⟩ := htracks.procedure
  have hnoted : q.Tracks ref touched (touched ++ [place]) := htracks.register htouch
  refine ⟨touched ++ [place], hnoted.emit hemit rfl, ?_⟩
  intro other hother
  apply Owns.emit hemit
  apply Owns.register htouch hprocedure
  rcases mem_append.mp hother with hold | hlast
  · exact howned other hold
  · cases mem_singleton.mp hlast
    exact hplace

theorem Exact.store (hstore : Build.store ref place.id value p = .ok u q)
    (hnone : place.global = none) (hplace : p.Owns ref place) (hp : p.Exact ref) : q.Exact ref := by
  have htouch : registerInterface ref place p = .ok () p := by
    unfold registerInterface
    rw [hnone]
    rfl
  exact hp.assign htouch hstore hplace

theorem Exact.declareVariable {pointer : TypeRef}
    (h : Build.declareVariable ref pointer p = .ok id q) (hp : p.Exact ref) :
    q.Exact ref ∧ ∀ place : Local, place.global = none → place.id = id → q.Owns ref place := by
  obtain ⟨old, typeId, words, hold, -, rfl, rfl⟩ := declareVariable_edit h
  constructor
  · apply hp.edit
    · exact fun _ => rfl
    · exact fun _ => rfl
    · intro a
      simp [Binary.results_append]
  · intro place hnone hid
    refine .inr ⟨hnone, _, Arena.get?_modify_eq _ hold, ?_⟩
    simp [Binary.results_append, Binary.results_cons, hid]

theorem Exact.returned
    (h : Build.modifyProcedure ref (fun a => { a with returned := true }) p = .ok u q)
    (hp : p.Exact ref) : q.Exact ref := by
  rw [returned_edit h]
  apply hp.edit
  · exact fun _ => rfl
  · exact fun _ => rfl
  · exact fun _ => Subset.refl _

theorem Exact.exit (h : Build.exit ref p = .ok u q) (hp : p.Exact ref) : q.Exact ref := by
  simp only [Build.exit, Build.bind_ok, Build.discard_ok, Build.procedure_ok] at h
  obtain ⟨_, _, ⟨_, -, rfl⟩, hemit⟩ := h
  exact hp.emit hemit rfl

theorem Exact.exitValue (h : Build.exitValue ref value p = .ok u q) (hp : p.Exact ref) :
    q.Exact ref := by
  simp only [Build.exitValue, Build.bind_ok, Build.discard_ok, Build.procedure_ok] at h
  obtain ⟨_, _, ⟨_, -, rfl⟩, hemit⟩ := h
  exact hp.emit hemit rfl

theorem Exact.nextId (hp : p.Exact ref) : Exact { p with nextId := id } ref := hp

theorem pointer?_sum (op : SumOperator) (float : Bool) (operands : List UInt32) :
    (⟨Build.sumOpcode op float, operands⟩ : Instruction).pointer? = none := by
  cases op <;> cases float <;> rfl

theorem pointer?_scale (op : ScaleOperator) (kind : Option ScalarKind) (operands : List UInt32) :
    (⟨Build.scaleOpcode op kind, operands⟩ : Instruction).pointer? = none := by
  unfold scaleOpcode
  split <;> rfl

def ExactWithin (ref : ProcedureRef) (fuel : Nat) : Prop :=
  ∀ {p q : Program} {e : ExprRef} {id : UInt32} {type : TypeRef},
    Build.expressionWithin ref fuel e p = .ok id q → p.Typed (p.Owns ref) e type →
    p.Exact ref → q.Exact ref

theorem Typed.owned {places : Local → Prop} {found : TypeRef} (ht : p.Typed places e type)
    (hentry : p.expressions.get? e = some ⟨.load place, found⟩) : places place := by
  cases ht with
  | load h hplace =>
    rw [hentry] at h
    cases h
    exact hplace
  | _ => simp_all

theorem Typed.emitted {e' : ExprRef} (h : Build.expressionWithin ref fuel e p = .ok id q)
    (hp : p.Exact ref) (ht : p.Typed (p.Owns ref) e' type) : q.Typed (q.Owns ref) e' type := by
  obtain ⟨procedure, hprocedure⟩ := hp.procedure
  obtain ⟨code, hemitted, -⟩ := emitsWithin ref fuel h hprocedure
  exact ht.mono hemitted.grows fun _ howns => howns.of_writes hemitted.toWrites

theorem Exact.elements (ih : ExactWithin ref fuel) {elements : List ExprRef} {values : List UInt32}
    (h : elements.mapM (Build.expressionWithin ref fuel) p = .ok values q)
    (ht : ∀ e ∈ elements, ∃ type, p.Typed (p.Owns ref) e type) (hp : p.Exact ref) :
    q.Exact ref := by
  induction elements generalizing p values with
  | nil =>
    obtain ⟨-, rfl⟩ := pure_ok.mp h
    exact hp
  | cons e rest ihrest =>
    simp only [mapM_cons, bind_ok, pure_ok] at h
    obtain ⟨id, r, hfirst, ids, _, hothers, rfl, rfl⟩ := h
    obtain ⟨⟨type, htype⟩, htypes⟩ := forall_mem_cons.mp ht
    apply ihrest hothers
    · intro e' he'
      obtain ⟨type', htype'⟩ := htypes e' he'
      exact ⟨type', htype'.emitted hfirst hp⟩
    · exact ih hfirst htype hp

theorem exactWithin (ref : ProcedureRef) (fuel : Nat) : ExactWithin ref fuel := by
  induction fuel with
  | zero =>
    intro p q e id type h
    exact (throw_ok.mp h).elim
  | succ fuel ih =>
    intro p q e id type h ht hp
    simp only [expressionWithin, bind_ok, view_ok, expressionAt_ok] at h
    obtain ⟨⟨kind, found⟩, _, ⟨hentry, rfl⟩, h⟩ := h
    cases kind with
    | unknown => exact (throw_ok.mp h).elim
    | constant ref =>
      simp only [bind_ok, view_ok, pure_ok] at h
      obtain ⟨constant, _, ⟨-, rfl⟩, -, rfl⟩ := h
      exact hp
    | load place =>
      simp only [bind_ok, freshId_ok, view_ok, pure_ok] at h
      obtain ⟨_, _, ⟨rfl, rfl⟩, typeId, _, ⟨-, rfl⟩, _, r, hemit, _, _, htouch, -, rfl⟩ := h
      exact hp.nextId.load hemit htouch (ht.owned hentry)
    | vector elements =>
      simp only [bind_ok, freshId_ok, view_ok, pure_ok] at h
      obtain ⟨values, r, helements, _, _, ⟨rfl, rfl⟩, typeId, _, ⟨-, rfl⟩, _, _, hemit, -,
        rfl⟩ := h
      obtain ⟨-, component, size, parts, -, hlength, hparts, -⟩ := ht.elements hentry
      have hr : r.Exact ref := by
        apply Exact.elements ih helements _ hp
        intro e' he'
        rw [← map_fst_zip (Nat.le_of_eq hlength)] at he'
        obtain ⟨⟨_, part⟩, hpart, rfl⟩ := mem_map.mp he'
        exact ⟨part.1, hparts _ hpart⟩
      exact hr.nextId.emit hemit rfl
    | sum op left right =>
      simp only [bind_ok, freshId_ok, view_ok, pure_ok] at h
      obtain ⟨l, r, hleft, m, u, hright, float, _, hfloat, _, _, ⟨rfl, rfl⟩, typeId, _,
        ⟨-, rfl⟩, _, _, hemit, -, rfl⟩ := h
      obtain ⟨kind, -, rfl, rfl⟩ := hasFloats_ok hfloat
      obtain ⟨-, htl, htr, -⟩ := ht.summands hentry
      have hr : r.Exact ref := ih hleft htl hp
      have hu : u.Exact ref := ih hright (htr.emitted hleft hp) hr
      exact hu.nextId.emit hemit (pointer?_sum _ _ _)
    | scale op scalar vector scalarFirst =>
      simp only [bind_ok, view_ok] at h
      obtain ⟨s, r, hscalar, v, u, hvector, typeId, _, ⟨-, rfl⟩, kind, _, ⟨-, rfl⟩, h⟩ := h
      obtain ⟨-, component, size, kind', -, -, -, hts, htv⟩ := ht.factors hentry
      have hr : r.Exact ref := ih hscalar hts hp
      have hu : u.Exact ref := ih hvector (htv.emitted hscalar hp) hr
      simp only [ite_ok, bind_ok, freshId_ok, view_ok,
        pure_ok] at h
      rcases h with ⟨-, _, _, ⟨rfl, rfl⟩, _, _, hemit, -, rfl⟩ |
        ⟨-, shape, _, ⟨-, rfl⟩, _, _, ⟨rfl, rfl⟩, _, w, hspread, _, _, ⟨rfl, rfl⟩, _, _, hemit, -,
          rfl⟩
      · exact hu.nextId.emit hemit rfl
      · have hw : w.Exact ref := hu.nextId.emit hspread rfl
        exact hw.nextId.emit hemit (pointer?_scale _ _ _)

theorem Exact.expression (h : Build.expression ref e p = .ok id q)
    (ht : p.Typed (p.Owns ref) e type) (hp : p.Exact ref) : q.Exact ref := by
  simp only [Build.expression, Build.bind_ok, Build.discard_ok, Build.procedure_ok,
    get_ok] at h
  obtain ⟨_, _, ⟨_, -, rfl⟩, _, _, ⟨rfl, rfl⟩, h⟩ := h
  exact exactWithin ref _ h ht hp

end Emitting

end Program

end Shading
