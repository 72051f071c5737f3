import Shading.Proofs.Renaming.Basic
import Shading.Proofs.Types

/-!
Operations on a program under other names. What a program holds is found by its
index or by its contents, and names are only compared with each other, so an
operation does to a renamed program what it does to the program as it is.
-/

namespace Shading

namespace Arena

variable {α β : Type} (f : α → β) (a : Arena α)

theorem size_map : (a.map f).size = a.size := Array.size_map

theorem hasRoom_map : (a.map f).hasRoom = a.hasRoom := by
  rw [hasRoom, size_map]
  rfl

theorem hasIndex_map : (a.map f).hasIndex = a.hasIndex := by
  rw [hasIndex, size_map]
  rfl

theorem get?_map (index : Nat) : (a.map f).get? index = (a.get? index).map f :=
  Array.getElem?_map

theorem toList_map : (a.map f).toList = a.toList.map f := Array.toList_map

theorem map_empty (pool : Pool) (limit : Int64) : (empty pool limit).map f = empty pool limit := by
  simp only [map, empty, Array.map_empty]

theorem map_id : a.map id = a := by
  simp only [map, Array.map_id_fun, id]

theorem add_map (item : α) : (a.map f).add (f item) = (a.add item).map f := by
  simp only [add, map, Array.map_push]

theorem modify_map {change : α → α} {change' : β → β} (h : ∀ x, change' (f x) = f (change x))
    (index : Nat) : (a.map f).modify index change' = (a.modify index change).map f := by
  simp only [modify, map, mk.injEq, and_self, and_true]
  ext i hi hi'
  · simp
  · simp only [Array.getElem_modify, Array.getElem_map]
    split
    · exact h _
    · rfl

end Arena

namespace Renaming

variable (ρ : Renaming) (p : Program)

theorem typeAt (ref : TypeRef) : (ρ.program p).typeAt ref = (p.typeAt ref).map ρ.typeEntry := by
  rw [Program.typeAt, Program.typeAt, program, Arena.get?_map]
  cases p.types.get? ref <;> rfl

theorem globalAt (ref : GlobalRef) :
    (ρ.program p).globalAt ref = (p.globalAt ref).map ρ.global := by
  rw [Program.globalAt, Program.globalAt, program, Arena.get?_map]
  cases p.globals.get? ref <;> rfl

theorem expressionAt (ref : ExprRef) :
    (ρ.program p).expressionAt ref = (p.expressionAt ref).map ρ.exprEntry := by
  rw [Program.expressionAt, Program.expressionAt, program, Arena.get?_map]
  cases p.expressions.get? ref <;> rfl

theorem procedureAt (ref : ProcedureRef) :
    (ρ.program p).procedureAt ref = (p.procedureAt ref).map ρ.procedure := by
  rw [Program.procedureAt, Program.procedureAt, program, Arena.get?_map]
  cases p.procedures.get? ref <;> rfl

theorem typeId (ref : TypeRef) : (ρ.program p).typeId ref = p.typeId ref := by
  rw [Program.typeId, Program.typeId, typeAt]
  cases p.typeAt ref <;> rfl

theorem scalarKind? (ref : TypeRef) : (ρ.program p).scalarKind? ref = p.scalarKind? ref := by
  rw [Program.scalarKind?, Program.scalarKind?, typeAt]
  cases p.typeAt ref with
  | error f => rfl
  | ok entry =>
    obtain ⟨name, id, shape⟩ := entry
    cases shape <;> rfl

theorem vector? (ref : TypeRef) : (ρ.program p).vector? ref = p.vector? ref := by
  rw [Program.vector?, Program.vector?, typeAt]
  cases p.typeAt ref with
  | error f => rfl
  | ok entry =>
    obtain ⟨name, id, shape⟩ := entry
    cases shape <;> rfl

theorem componentKind? (ref : TypeRef) :
    (ρ.program p).componentKind? ref = p.componentKind? ref := by
  simp only [Program.componentKind?, vector?, scalarKind?]

theorem shape_eq_iff {a b : Shape} (hb : ∀ members, b ≠ .record members) :
    ρ.shape a = b ↔ a = b := by
  cases a with
  | record members =>
    constructor
    · intro h
      exact absurd h.symm (hb _)
    · intro h
      exact absurd h.symm (hb _)
  | _ => exact Iff.rfl

theorem word_scalar (kind : ScalarKind) : ρ.word kind.name = kind.name := by
  cases kind <;> exact ρ.reserved _ (by simp [reservedWords, ScalarKind.name])

theorem ofName?_word (name : Bytes) :
    ScalarKind.ofName? (ρ.word name) = ScalarKind.ofName? name := by
  have hsame :
      (fun kind : ScalarKind => kind.name == ρ.word name) = fun kind => kind.name == name := by
    funext kind
    rw [Bool.eq_iff_iff, beq_iff_eq, beq_iff_eq, eq_comm, ρ.word_eq_iff (ρ.word_scalar kind),
      eq_comm]
  rw [ScalarKind.ofName?, hsame]
  rfl

theorem succeeds_alike {ε α : Type} {x y : Except ε α} (g h : α → α)
    (hxy : (x.map fun _ => ()) = y.map fun _ => ()) :
    ((x >>= fun a => pure (g a)).map fun _ => ()) =
      (y >>= fun a => pure (h a)).map fun _ => () := by
  cases x <;> cases y <;> cases hxy <;> rfl

theorem typeNameWithin (fuel : Nat) (ref : TypeRef) :
    ((ρ.program p).typeNameWithin fuel ref).map (fun _ => ()) =
      (p.typeNameWithin fuel ref).map fun _ => () := by
  induction fuel generalizing ref with
  | zero => rfl
  | succ fuel ih =>
    simp only [Program.typeNameWithin, typeAt]
    cases p.typeAt ref with
    | error f => rfl
    | ok entry =>
      obtain ⟨name, id, shape⟩ := entry
      cases shape with
      | vector component size => exact succeeds_alike _ _ (ih component)
      | pointer base storage => exact succeeds_alike _ _ (ih base)
      | procedure result => exact succeeds_alike _ _ (ih result)
      | _ => rfl

theorem typeName (ref : TypeRef) :
    ((ρ.program p).typeName ref).map (fun _ => ()) = (p.typeName ref).map fun _ => () := by
  have hsize : (ρ.program p).types.size = p.types.size := Arena.size_map _ _
  rw [Program.typeName, hsize]
  exact ρ.typeNameWithin p _ ref

end Renaming

namespace Build

variable {α β α' β' : Type} {ρ : Renaming}

def Mirrors (ρ : Renaming) (f : α → β) (x : Build α) (y : Build β) : Prop :=
  ∀ p, y.ending (ρ.program p) = (x.ending p).map fun r => (f r.1, ρ.program r.2)

namespace Mirrors

variable {f : α → β} {g : α' → β'}

protected theorem pure {a : α} {b : β} (h : b = f a) : Mirrors ρ f (pure a) (pure b) := by
  intro p
  rw [h]
  rfl

protected theorem throw (e : Fault) : Mirrors ρ f (throw e) (throw e) := fun _ => rfl

protected theorem bind {x : Build α} {y : Build β} {k : α → Build α'} {l : β → Build β'}
    (hx : Mirrors ρ f x y) (hk : ∀ a, Mirrors ρ g (k a) (l (f a))) :
    Mirrors ρ g (x >>= k) (y >>= l) := by
  intro p
  rw [ending_bind, ending_bind, hx p]
  cases x.ending p with
  | error e => rfl
  | ok r => exact hk r.1 r.2

protected theorem ite {c : Prop} [Decidable c] {x z : Build α} {y w : Build β}
    (hx : Mirrors ρ f x y) (hz : Mirrors ρ f z w) :
    Mirrors ρ f (if c then x else z) (if c then y else w) := by
  by_cases h : c
  · rw [if_pos h, if_pos h]
    exact hx
  · rw [if_neg h, if_neg h]
    exact hz

theorem get_bind {k : Program → Build α} {l : Program → Build β}
    (h : ∀ p, Mirrors ρ f (k p) (l (ρ.program p))) : Mirrors ρ f (get >>= k) (get >>= l) :=
  fun p => h p p

theorem set (q : Program) : Mirrors ρ id (set q) (set (ρ.program q)) := fun _ => rfl

theorem modify {change change' : Program → Program}
    (h : ∀ p, change' (ρ.program p) = ρ.program (change p)) :
    Mirrors ρ id (modify change) (modify change') := by
  intro p
  change Except.ok (_, change' (ρ.program p)) = _
  rw [h]
  rfl

theorem find {ref : ProcedureRef} {k : Procedure → Build α} {l : Procedure → Build β}
    (h : ∀ a, Mirrors ρ f (k a) (l (ρ.procedure a))) :
    Mirrors ρ f (procedure ref >>= k) (procedure ref >>= l) := by
  refine .bind (f := ρ.procedure) (.get_bind fun p => ?_) h
  simp only [ρ.procedureAt]
  cases p.procedureAt ref with
  | error e => exact .throw e
  | ok a => exact .pure rfl

theorem freshId : Mirrors ρ id freshId freshId := fun _ => rfl

theorem push (rename : α → α) {pool : Program → Arena α} {put : Program → Arena α → Program}
    (hpool : ∀ p, pool (ρ.program p) = (pool p).map rename)
    (hput : ∀ p a, put (ρ.program p) (a.map rename) = ρ.program (put p a)) {item : α} :
    Mirrors ρ id (push pool put item) (push pool put (rename item)) := by
  refine .get_bind fun p => ?_
  simp only [hpool, Arena.hasRoom_map, Arena.hasIndex_map, Arena.size_map, Arena.add_map, hput]
  exact .ite (.ite (.bind (.set _) fun _ => .pure rfl) (.throw _)) (.throw _)

theorem modifyGlobal (ref : GlobalRef) {change change' : Global → Global}
    (h : ∀ g, change' (ρ.global g) = ρ.global (change g)) :
    Mirrors ρ id (modifyGlobal ref change) (modifyGlobal ref change') := by
  refine .modify fun p => ?_
  simp only [Renaming.program, Arena.modify_map ρ.global _ h]

theorem modifyProcedure (ref : ProcedureRef) {change change' : Procedure → Procedure}
    (h : ∀ a, change' (ρ.procedure a) = ρ.procedure (change a)) :
    Mirrors ρ id (modifyProcedure ref change) (modifyProcedure ref change') := by
  refine .modify fun p => ?_
  simp only [Renaming.program, Arena.modify_map ρ.procedure _ h]

theorem reserve (count : Int64) : Mirrors ρ id (reserve count) (reserve count) := by
  refine .get_bind fun p => ?_
  have hwords : (ρ.program p).words = p.words := rfl
  rw [hwords]
  cases p.words.reserve count with
  | error e => exact .throw _
  | ok words => exact .set _

theorem charge (instruction : Binary.Instruction) :
    Mirrors ρ id (charge instruction) (charge instruction) :=
  .bind (.reserve _) fun _ => .ite (.pure rfl) (.throw _)

end Mirrors

end Build

end Shading
