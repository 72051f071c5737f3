import Shading.Proofs.Elaboration.Expressions
import Shading.Proofs.Translation

/-!
Elaborating statements emits their translation. The code of a statement goes
behind what the procedure had before, and after a block the scopes are those
before it.
-/

namespace Shading

open Build

open Binary (Instruction)

variable {q : Program} {opPos : Position}

namespace Scopes

variable {s t : Scopes}

theorem add_ok {place : Local} (h : s.add place = .ok t) :
    t.locals.toList = s.locals.toList ++ [place] ∧ t.marks = s.marks := by
  rw [add_eq] at h
  split at h
  · split at h
    · cases h
      exact ⟨Arena.toList_add _ _, rfl⟩
    · cases h
  · cases h

theorem push_ok (h : s.push = .ok t) :
    t.locals = s.locals ∧ t.marks = s.locals.size :: s.marks := by
  rw [push_eq] at h
  split at h
  · cases h
    exact ⟨rfl, rfl⟩
  · cases h

end Scopes

namespace Elaborate

variable {s t : Elaboration} {ref : ProcedureRef} {result : TypeRef} {u : Unit}
  {vars code : List Instruction} {equal close : Part Position} {returned : Bool} {value : Expr}
  {names : List Bytes} {stmt : Stmt}

structure Ready (ref : ProcedureRef) (result : TypeRef) (s : Elaboration) : Prop where
  sound : s.program.Sound
  procedure : ∃ old, s.program.procedures.get? ref = some old ∧ old.result = result

structure Lowers (ref : ProcedureRef) (result : TypeRef) (s t : Elaboration) (stmts : List Stmt)
    (vars code : List Instruction) (returned : Bool) : Prop where
  writes : s.program.Writes ref ((blockTypes stmts).map TypeSyntax.leaf) vars code returned
    t.program
  lowered : t.program.Lowered result s.scopes.locals.toList stmts t.scopes.locals.toList vars code
    returned
  marks : t.scopes.marks = s.scopes.marks
  stage : t.stage = s.stage
  builtin : t.builtin = s.builtin
  named : ∀ written ∈ blockTypes stmts, ∀ kind : ScalarKind, kind.name = written.leaf →
    t.program.hasScalar kind = true

theorem Ready.of_writes (hs : Ready ref result s)
    (hw : s.program.Writes ref names vars code returned q) (hq : t.program = q) :
    Ready ref result t := by
  subst hq
  refine ⟨hw.sound hs.sound, ?_⟩
  obtain ⟨old, hold, hresult⟩ := hs.procedure
  obtain ⟨old', new, hold', hnew, hcontinues⟩ := hw.procedure
  obtain rfl : old = old' := Option.some.inj (hold.symm.trans hold')
  exact ⟨new, hnew, hcontinues.result.trans hresult⟩

theorem Ready.writes (hs : Ready ref result s) (hgrows : s.program.Grows names q) (hq : q.Sound) :
    s.program.Writes ref names [] [] false q := by
  obtain ⟨old, hold, -⟩ := hs.procedure
  exact .of_grows hgrows hq hold

theorem Expressed.emitted {x : Expr} {e : ExprRef} {type : TypeRef} {p : Program} {id : UInt32}
    {kept : Program.Region → Prop} (hx : Expressed s t x e type)
    (hp : t.program.Extends kept names p) (hsound : p.Sound) (h : expression ref e p = .ok id q) :
    ∃ code, p.Writes ref [] [] code false q ∧
      q.Translates s.scopes.locals.toList x type code id := by
  obtain ⟨code, hwrites, hcomputes⟩ := expression_ok h
  refine ⟨code, hwrites, ?_⟩
  have hrepresents := (hx.represents.mono hp).mono hwrites.grows
  have htyped := (hx.typed.mono hp fun _ h => h).mono hwrites.grows fun _ h => h
  exact hrepresents.translates (hwrites.sound hsound) htyped hcomputes

theorem declaration_steps {name : Part Name} {written : TypeSyntax}
    (h : declaration ref name written equal value close s = .ok (u, t)) :
    ∃ found type s₁ pointer q e s₂ id r value' r' u' q' scopes,
      name = .ok found ∧ variableType found.text written s = .ok (type, s₁) ∧
      pointerType type .function s₁.program = .ok pointer q ∧
      expr value { s₁ with program := q } = .ok (e, s₂) ∧
      (∃ s₃, typeOf e s₂ = .ok (type, s₃)) ∧
      declareVariable ref pointer s₂.program = .ok id r ∧
      expression ref e r = .ok value' r' ∧ store ref id value' r' = .ok u' q' ∧
      s₂.scopes.add ⟨found.text, type, pointer, id, none⟩ = .ok scopes ∧
      t = { s₂ with program := q', scopes } := by
  simp only [declaration, bind_ok, part_ok, build_ok, discard_ok, ite_ok, refuse_ok, scope_ok,
    false_and, and_false, exists_false, false_or, Build.bind_ok, Build.pure_ok] at h
  obtain ⟨found, _, ⟨rfl, rfl⟩, type, s₁, htype, pointer, _, ⟨q, hpointer, rfl⟩, _, _, ⟨_, -, rfl⟩,
    e, s₂, hvalue, given, s₃, hgiven, hsame, id, _,
    ⟨q', ⟨id', r, hdeclare, value', r', hemit, u', _, hstore, rfl, rfl⟩, rfl⟩, _, _,
    ⟨-, rfl⟩, scopes, hadd, rfl⟩ := h
  obtain rfl : given = type := Decidable.not_not.mp hsame
  obtain ⟨-, rfl⟩ := typeOf_ok.mp hgiven
  exact ⟨found, given, s₁, pointer, q, e, s₂, id', r, value', r', u', _, scopes, rfl, htype,
    hpointer, hvalue, ⟨_, hgiven⟩, hdeclare, hemit, hstore, hadd, rfl⟩

theorem declaration_ok (pos : Position) {name : Part Name} {written : TypeSyntax}
    (h : declaration ref name written equal value close s = .ok (u, t)) (hs : Ready ref result s)
    (hsized : written.Sized) :
    ∃ vars code, Lowers ref result s t [.declare pos name written equal value close] vars code
      false := by
  obtain ⟨found, type, s₁, pointer, q, e, s₂, id, r, value', r', u', q', scopes, rfl, htype,
    hpointer, hvalue, ⟨_, hgiven⟩, hdeclare, hemit, hstore, hadd, rfl⟩ := declaration_steps h
  obtain ⟨q₁, rfl, hnamed, hsound₁, hisValue, hscalars⟩ := variableType_ok htype hs.sound hsized
  have hgrows₂ : q₁.Grows [] q := Build.typeOfShape_grows hpointer (by simp)
  have hsound₂ : q.Sound := by
    obtain ⟨shape, hshape, -⟩ := hisValue
    exact Build.typeOfShape_sound hpointer hsound₁ (Program.shapeAt_lt hshape) rfl
  have hshape : q.shapeAt pointer = some (.pointer type .function) :=
    (Build.typeOfShape_ok hpointer).1
  have hwrites₂ := hs.writes (hnamed.trans hgrows₂) hsound₂
  have hready₂ := hs.of_writes hwrites₂ (t := { s with program := q }) rfl
  obtain ⟨given, hx⟩ := expr_ok value hvalue hready₂.sound
  obtain ⟨rfl, rfl⟩ := typeOf_typed hgiven hx.typed
  obtain ⟨pointerId, hpointerId, hvar⟩ := declareVariable_ok hdeclare
  obtain ⟨code, hcode, htranslates⟩ := hx.emitted hvar.grows (hvar.sound hx.sound) hemit
  have hstored := store_ok hstore
  have hafter := hvar.trans (hcode.trans hstored)
  have hrest := (hready₂.writes hx.grows.program hx.sound).trans hafter
  refine ⟨_, _, (hwrites₂.trans hrest).names_mono (by simp [blockTypes, Stmt.types]), ?_, ?_, ?_,
    ?_, ?_⟩
  · have hvisible := (Scopes.add_ok hadd).1
    rw [hx.grows.scopes] at hvisible
    rw [hvisible]
    exact .declare ((hisValue.mono hgrows₂).mono hrest.grows) (hrest.grows.shapeAt hshape)
      (hafter.grows.typeId hpointerId) (htranslates.mono hstored.grows)
  · exact (Scopes.add_ok hadd).2.trans (congrArg Scopes.marks hx.grows.scopes)
  · exact hx.grows.stage
  · exact hx.grows.builtin
  · intro written' hwritten kind hkind
    obtain rfl : written' = written := by simpa [blockTypes, Stmt.types] using hwritten
    exact hrest.grows.hasScalar (hgrows₂.hasScalar (hscalars kind hkind))

theorem lowers_of_writes {stmt : Stmt} {vars code : List Instruction} {returned : Bool}
    (htypes : stmt.types = []) (ht : s.Grows t)
    (hwrites : s.program.Writes ref [] vars code returned q)
    (hlowered : q.Lowered result s.scopes.locals.toList [stmt] s.scopes.locals.toList vars code
      returned) : Lowers ref result s { t with program := q } [stmt] vars code returned := by
  have hnone : blockTypes [stmt] = [] := by simp [blockTypes, htypes]
  refine ⟨?_, ?_, ?_, ht.stage, ht.builtin, ?_⟩
  · rw [hnone]
    exact hwrites
  · rw [ht.scopes]
    exact hlowered
  · rw [ht.scopes]
  · rw [hnone]
    nofun

theorem exit_steps {close : Position} (h : exit ref close s = .ok (u, t)) :
    ∃ found u' r q, s.program.procedures.get? ref = some found ∧ found.result = voidType ∧
      modifyProcedure ref (fun a => { a with returned := true }) s.program = .ok u' r ∧
      Build.exit ref r = .ok u q ∧ t = { s with program := q } := by
  simp only [exit, procedure, bind_ok, view_ok, ite_ok, refuse_ok, build_ok, false_and, and_false,
    exists_false, false_or, Build.bind_ok, Program.procedureAt_ok] at h
  obtain ⟨found, _, ⟨hfound, rfl⟩, hvoid, q, ⟨u', r, hmark, hexit⟩, rfl⟩ := h
  exact ⟨found, u', r, q, hfound, Decidable.not_not.mp hvoid, hmark, hexit, rfl⟩

theorem exit_ok {pos close : Position} (h : exit ref close s = .ok (u, t))
    (hs : Ready ref result s) : Lowers ref result s t [.leave pos close] [] [⟨.exit, []⟩] true := by
  obtain ⟨old, hold, rfl⟩ := hs.procedure
  obtain ⟨found, _, r, q, hfound, hvoid, hmark, hexit, rfl⟩ := exit_steps h
  obtain rfl : old = found := Option.some.inj (hold.symm.trans hfound)
  have hmarked := Build.returned_writes hold hmark
  exact lowers_of_writes rfl (.refl s) (hmarked.trans (Build.exit_ok hexit)) (.leave hvoid)

theorem exitValue_steps (h : exitValue ref value close s = .ok (u, t)) :
    ∃ e s₁ found id r u' r' q, expr value s = .ok (e, s₁) ∧
      s₁.program.procedures.get? ref = some found ∧ found.result ≠ voidType ∧
      (∃ s₂, typeOf e s₁ = .ok (found.result, s₂)) ∧ Build.expression ref e s₁.program = .ok id r ∧
      Build.modifyProcedure ref (fun a => { a with returned := true }) r = .ok u' r' ∧
      Build.exitValue ref id r' = .ok u q ∧ t = { s₁ with program := q } := by
  simp only [exitValue, procedure, bind_ok, part_ok, view_ok, ite_ok, refuse_ok, build_ok,
    false_and, and_false, exists_false, false_or, Build.bind_ok, Program.procedureAt_ok] at h
  obtain ⟨e, s₁, hvalue, _, _, ⟨-, rfl⟩, type, s₂, htype, found, _, ⟨hfound, rfl⟩, hvoid, hsame, q,
    ⟨id, r, hemit, u', r', hmark, hexit⟩, rfl⟩ := h
  obtain rfl : type = found.result := Decidable.not_not.mp hsame
  obtain ⟨-, rfl⟩ := typeOf_ok.mp htype
  exact ⟨e, s₁, found, id, r, u', r', q, hvalue, hfound, hvoid, ⟨_, htype⟩, hemit, hmark, hexit,
    rfl⟩

theorem exitValue_ok {pos : Position} (h : exitValue ref value close s = .ok (u, t))
    (hs : Ready ref result s) :
    ∃ code, Lowers ref result s t [.giveBack pos value close] [] code true := by
  obtain ⟨e, s₁, found, id, r, _, r', q, hvalue, hfound, hvoid, ⟨_, htype⟩, hemit, hmark, hexit,
    rfl⟩ := exitValue_steps h
  obtain ⟨given, hx⟩ := expr_ok value hvalue hs.sound
  obtain ⟨rfl, rfl⟩ := typeOf_typed htype hx.typed
  have hgrown := hs.writes hx.grows.program hx.sound
  obtain ⟨found', hfound', hresult⟩ := (hs.of_writes (t := s₁) hgrown rfl).procedure
  obtain rfl : found = found' := Option.some.inj (hfound.symm.trans hfound')
  obtain ⟨code, hcode, htranslates⟩ :=
    hx.emitted (show s₁.program.Grows [] s₁.program from .refl _) hx.sound hemit
  obtain ⟨-, new, -, hnew, -⟩ := hcode.procedure
  have hlast := (Build.returned_writes hnew hmark).trans (Build.exitValue_ok hexit)
  refine ⟨_, lowers_of_writes rfl hx.grows ((hgrown.trans hcode).trans hlast) ?_⟩
  rw [hresult] at hvoid htranslates
  exact .giveBack hvoid (htranslates.mono hlast.grows)

theorem evaluate_ok (h : statement ref (.evaluate value close) s = .ok (u, t))
    (hs : Ready ref result s) :
    ∃ code, Lowers ref result s t [.evaluate value close] [] code false := by
  simp only [statement, bind_ok, part_ok, discard_ok, build_ok] at h
  obtain ⟨e, s₁, hvalue, _, _, ⟨-, rfl⟩, id, q, hemit, rfl⟩ := h
  obtain ⟨type, hx⟩ := expr_ok value hvalue hs.sound
  obtain ⟨code, hcode, htranslates⟩ :=
    hx.emitted (show s₁.program.Grows [] s₁.program from .refl _) hx.sound hemit
  have hgrown := hs.writes hx.grows.program hx.sound
  exact ⟨_, lowers_of_writes rfl hx.grows (hgrown.trans hcode) (.evaluate htranslates)⟩

theorem assignment_steps {target value : Expr}
    (h : assignment ref target opPos value close s = .ok (u, t)) :
    ∃ left s₁ e s₂ type id q place stored u₁ r u₂ q',
      expr target s = .ok (left, s₁) ∧ expr value s₁ = .ok (e, s₂) ∧
      (∃ s₃, typeOf left s₂ = .ok (type, s₃)) ∧ (∃ s₃, typeOf e s₂ = .ok (type, s₃)) ∧
      expression ref e s₂.program = .ok id q ∧
      q.expressions.get? left = some ⟨.load place, stored⟩ ∧
      (∀ global, place.global = some global →
        ∃ g, q.globals.get? global = some g ∧ g.direction ≠ .input) ∧
      registerInterface ref place q = .ok u₁ r ∧
      store ref place.id id r = .ok u₂ q' ∧ t = { s₂ with program := q' } := by
  simp only [assignment, bind_ok, ite_ok, refuse_ok, build_ok, view_ok, Program.expressionAt_ok,
    false_and, and_false, exists_false, false_or] at h
  obtain ⟨left, s₁, htarget, e, s₂, hvalue, leftType, _, hleftType, rightType, _, hrightType, hsame,
    id, _, ⟨q, hemit, rfl⟩, ⟨kind, stored⟩, _, ⟨hentry, rfl⟩, h⟩ := h
  obtain ⟨-, rfl⟩ := typeOf_ok.mp hleftType
  obtain ⟨-, rfl⟩ := typeOf_ok.mp hrightType
  obtain rfl : leftType = rightType := Decidable.not_not.mp hsame
  cases kind with
  | load place =>
    obtain ⟨hinput, q', r, u₁, u₂, htouch, hstore, rfl⟩ : (∀ global, place.global = some global →
        ∃ g, q.globals.get? global = some g ∧ g.direction ≠ .input) ∧
        ∃ q' r u₁ u₂, registerInterface ref place q = .ok u₁ r ∧
          store ref place.id id r = .ok u₂ q' ∧ { s₂ with program := q' } = t := by
      cases hglobal : place.global with
      | none =>
        simp only [hglobal, bind_ok, discard_ok, part_ok, build_ok, Build.bind_ok] at h
        obtain ⟨_, _, ⟨q', ⟨_, r, htouch, hstore⟩, rfl⟩, _, -, rfl⟩ := h
        exact ⟨fun _ hnone => (Option.some_ne_none _ hnone.symm).elim, q', r, _, _, htouch, hstore,
          rfl⟩
      | some found =>
        simp only [hglobal, bind_ok, view_ok, Program.globalAt_ok, ite_ok, refuse_ok, false_and,
          and_false, exists_false, false_or, discard_ok, part_ok, build_ok, Build.bind_ok] at h
        obtain ⟨g, _, ⟨hg, rfl⟩, hdirection, _, _, ⟨q', ⟨_, r, htouch, hstore⟩, rfl⟩, _, -,
          rfl⟩ := h
        refine ⟨?_, q', r, _, _, htouch, hstore, rfl⟩
        intro global hglobal
        cases hglobal
        exact ⟨g, hg, hdirection⟩
    exact ⟨left, s₁, e, s₂, leftType, id, q, place, stored, u₁, r, u₂, q', htarget, hvalue,
      ⟨_, hleftType⟩, ⟨_, hrightType⟩, hemit, hentry, hinput, htouch, hstore, rfl⟩
  | _ => exact (refuse_ok.mp h).elim

theorem assignment_ok {target value : Expr}
    (h : assignment ref target opPos value close s = .ok (u, t)) (hs : Ready ref result s) :
    ∃ code, Lowers ref result s t [.assign target opPos value close] [] code false := by
  obtain ⟨left, s₁, e, s₂, type, id, q, place, stored, _, r, _, q', htarget, hvalue, ⟨_, hleftType⟩,
    ⟨_, hrightType⟩, hemit, hentry, hinput, htouch, hstore, rfl⟩ := assignment_steps h
  obtain ⟨leftType, hl⟩ := expr_ok target htarget hs.sound
  have hready₁ := hs.of_writes (t := s₁) (hs.writes hl.grows.program hl.sound) rfl
  obtain ⟨rightType, hr⟩ := expr_ok value hvalue hready₁.sound
  obtain ⟨hgrows, hrepresents, -, htl, htr, -⟩ := hl.pair hr
  obtain ⟨rfl, rfl⟩ := typeOf_typed hleftType htl
  obtain ⟨rfl, rfl⟩ := typeOf_typed hrightType htr
  obtain ⟨code, hcode, htranslates⟩ :=
    hr.emitted (show s₂.program.Grows [] s₂.program from .refl _) hr.sound hemit
  rw [hl.grows.scopes] at htranslates
  obtain ⟨-, new, -, hnew, -⟩ := hcode.procedure
  have hlast := (Build.registerInterface_writes htouch hnew).trans (Build.store_ok hstore)
  have hgrown := hs.writes hgrows.program hr.sound
  obtain ⟨name, hname, hlookup⟩ := (hrepresents.mono hcode.grows).variable hentry
  obtain rfl := (htl.mono hcode.grows fun _ h => h).loaded hentry
  refine ⟨_, lowers_of_writes rfl hgrows ((hgrown.trans hcode).trans hlast) ?_⟩
  refine .assign hname hlookup ?_ (htranslates.mono hlast.grows)
  intro ref href
  obtain ⟨g, hg, hdirection⟩ := hinput ref href
  exact ⟨g, hlast.grows.global hg, hdirection⟩

theorem Lowers.next {s t u : Elaboration} {rest : List Stmt}
    {vars vars' code code' : List Instruction}
    (hfirst : Lowers ref result s t [stmt] vars code false)
    (hrest : Lowers ref result t u rest vars' code' returned) :
    Lowers ref result s u (stmt :: rest) (vars ++ vars') (code ++ code') returned := by
  have htypes : blockTypes (stmt :: rest) = blockTypes [stmt] ++ blockTypes rest := by
    simp [blockTypes]
  refine ⟨?_, .next (hfirst.lowered.mono hrest.writes.grows) hrest.lowered,
    hrest.marks.trans hfirst.marks, hrest.stage.trans hfirst.stage,
    hrest.builtin.trans hfirst.builtin, ?_⟩
  · rw [htypes, List.map_append]
    exact hfirst.writes.trans hrest.writes
  · intro written hwritten kind hkind
    rw [htypes, List.mem_append] at hwritten
    rcases hwritten with hmem | hmem
    · exact hrest.writes.grows.hasScalar (hfirst.named written hmem kind hkind)
    · exact hrest.named written hmem kind hkind

theorem Lowers.scope_back {body : List Stmt} {outer closed : Scopes}
    (hbody : Lowers ref result s t body vars code returned) (hpush : outer.push = .ok s.scopes)
    (hpop : t.scopes.pop = .ok closed) :
    closed.locals.toList = outer.locals.toList ∧ closed.marks = outer.marks := by
  obtain ⟨hlocals, hmarks⟩ := Scopes.push_ok hpush
  obtain ⟨mark, hmark, -, htake⟩ := Scopes.pop_ok hpop
  rw [hbody.marks, hmarks] at hmark
  obtain ⟨rfl, hmarks'⟩ := List.cons.inj hmark
  refine ⟨?_, hmarks'.symm⟩
  obtain ⟨added, hadded⟩ := hbody.lowered.scope_prefix_scope
  rw [htake, ← hadded, hlocals, ← Arena.length_toList, List.take_left]

theorem Lowers.group {pos : Position} {body : List Stmt} {scopes closed : Scopes}
    (hbody : Lowers ref result { s with scopes } t body vars code returned)
    (hpush : s.scopes.push = .ok scopes) (hpop : t.scopes.pop = .ok closed) :
    Lowers ref result s { t with scopes := closed } [.group pos body close] vars code returned := by
  obtain ⟨hback, hmarks⟩ := hbody.scope_back hpush hpop
  have htypes : blockTypes [.group pos body close] = blockTypes body := by
    simp [blockTypes, Stmt.types]
  have hlowered := hbody.lowered
  rw [(Scopes.push_ok hpush).1] at hlowered
  refine ⟨by rw [htypes]; exact hbody.writes, ?_, hmarks, hbody.stage, hbody.builtin, ?_⟩
  · rw [hback]
    exact .group hlowered
  · rw [htypes]
    exact hbody.named

theorem block_cons_ok {rest : List Stmt} (h : block ref (stmt :: rest) s = .ok (u, t)) :
    (∃ found, s.program.procedures.get? ref = some found ∧ found.returned = false) ∧
      ∃ u' s₁, statement ref stmt s = .ok (u', s₁) ∧ block ref rest s₁ = .ok (u, t) := by
  simp only [block, procedure, bind_ok, view_ok, Program.procedureAt_ok, ite_ok, refuse_ok,
    false_and, and_false, exists_false, false_or] at h
  obtain ⟨found, _, ⟨hfound, rfl⟩, hnot, u', s₁, hstatement, hrest⟩ := h
  exact ⟨⟨found, hfound, by simpa using hnot⟩, u', s₁, hstatement, hrest⟩

theorem Lowers.returned_iff {stmts : List Stmt} {old new : Procedure}
    (h : Lowers ref result s t stmts vars code returned)
    (hold : s.program.procedures.get? ref = some old) (hnot : old.returned = false)
    (hnew : t.program.procedures.get? ref = some new) : new.returned = returned := by
  obtain ⟨old', new', hold', hnew', hcontinues⟩ := h.writes.procedure
  obtain rfl : old = old' := Option.some.inj (hold.symm.trans hold')
  obtain rfl : new = new' := Option.some.inj (hnew.symm.trans hnew')
  rw [hcontinues.returned, hnot, Bool.false_or]

mutual

theorem statement_ok {s t : Elaboration} {u : Unit} (stmt : Stmt)
    (h : statement ref stmt s = .ok (u, t)) (hs : Ready ref result s)
    (hsized : ∀ written ∈ stmt.types, written.Sized) :
    ∃ vars code returned, Lowers ref result s t [stmt] vars code returned := by
  cases stmt with
  | declare pos name written equal value close =>
    obtain ⟨vars, code, hlowers⟩ :=
      declaration_ok pos h hs (hsized written (by simp [Stmt.types]))
    exact ⟨vars, code, false, hlowers⟩
  | leave pos close => exact ⟨_, _, _, exit_ok h hs⟩
  | giveBack pos value close =>
    obtain ⟨code, hlowers⟩ := exitValue_ok h hs
    exact ⟨_, _, _, hlowers⟩
  | group pos body close =>
    simp only [statement, bind_ok, scope_ok, part_ok] at h
    obtain ⟨_, _, ⟨scopes, hpush, rfl⟩, _, s₂, hbody, _, _, ⟨-, rfl⟩, scopes', hpop, rfl⟩ := h
    have hready : Ready ref result { s with scopes } := ⟨hs.sound, hs.procedure⟩
    obtain ⟨vars, code, returned, hlowers⟩ :=
      block_ok body hbody hready (by simpa [Stmt.types] using hsized)
    exact ⟨vars, code, returned, hlowers.group hpush hpop⟩
  | evaluate value close =>
    obtain ⟨code, hlowers⟩ := evaluate_ok h hs
    exact ⟨_, _, _, hlowers⟩
  | assign target opPos value close =>
    obtain ⟨code, hlowers⟩ := assignment_ok h hs
    exact ⟨_, _, _, hlowers⟩

theorem block_ok {s t : Elaboration} {u : Unit} (stmts : List Stmt)
    (h : block ref stmts s = .ok (u, t)) (hs : Ready ref result s)
    (hsized : ∀ written ∈ blockTypes stmts, written.Sized) :
    ∃ vars code returned, Lowers ref result s t stmts vars code returned := by
  cases stmts with
  | nil =>
    obtain ⟨-, rfl⟩ := pure_ok.mp h
    obtain ⟨old, hold, -⟩ := hs.procedure
    exact ⟨[], [], false, .refl hold, .done, rfl, rfl, rfl, nofun⟩
  | cons stmt rest =>
    obtain ⟨⟨old, hold, hnot⟩, u', s₁, hstatement, hrest⟩ := block_cons_ok h
    simp only [blockTypes, List.mem_append] at hsized
    obtain ⟨vars, code, returned, hfirst⟩ :=
      statement_ok stmt hstatement hs fun written hmem => hsized written (.inl hmem)
    have hready := hs.of_writes (t := s₁) hfirst.writes rfl
    obtain ⟨vars', code', returned', hmore⟩ :=
      block_ok rest hrest hready fun written hmem => hsized written (.inr hmem)
    cases rest with
    | nil =>
      obtain ⟨-, rfl⟩ := pure_ok.mp hrest
      exact ⟨vars, code, returned, hfirst⟩
    | cons stmt' rest' =>
      obtain ⟨⟨new, hnew, hnot'⟩, -⟩ := block_cons_ok hrest
      obtain rfl : returned = false := (hfirst.returned_iff hold hnot hnew).symm.trans hnot'
      exact ⟨_, _, _, hfirst.next hmore⟩

end

end Elaborate

end Shading
