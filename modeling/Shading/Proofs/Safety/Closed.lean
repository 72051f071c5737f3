import Shading.Proofs.Limits.Demands
import Shading.Proofs.Reading.Places

/-!
Programs that are closed: every index that one of their entries holds is one of
its pool, and the entries that an expression or a type is made of come before
it. Operations on a closed program leave it closed and never look for an entry
that is not there, so the faults that are left are full pools and, if it can
have a thousand million elements, a vector literal too long for an
instruction. They also keep the names of a program in order: no two types have
the same one, and types without a name differ in their shapes.
-/

namespace Shading

open Binary (Instruction Opcode)

variable {i : Nat} {ref : TypeRef} {p q : Program}

def Shape.Below (own : TypeRef) : Shape → Prop
  | .vector component size => component < own ∧ (size = 2 ∨ size = 3 ∨ size = 4)
  | .pointer base _ => base < own
  | .procedure result => result < own
  | .record members => ∀ member ∈ members, member.type < own
  | _ => True

def StorageClass.isNamed : StorageClass → Bool
  | .other _ => false
  | _ => true

def TypeEntry.Titled (t : TypeEntry) : Prop :=
  match t.shape with
  | .void => t.name = Text.utf8 "void"
  | .scalar kind => t.name = kind.name
  | .record _ => Lexeme.isIdentifier t.name = true
  | .pointer _ storage => t.name = [] ∧ storage.isNamed = true
  | _ => t.name = []

def TypeEntry.Apart (t u : TypeEntry) : Prop := t.name = u.name → t.name = [] ∧ t.shape ≠ u.shape

structure Room where
  limits : Limits
  tokens : Nat

def Room.AllowsLiteral (room : Room) (length : Nat) : Prop :=
  length ≤ 4 ∨ 2 ^ 30 < length ∧ (length : Int) < room.limits.expressions.toInt ∧
    (length : Int) ≤ room.limits.vectorElements.toInt ∧ length ≤ room.tokens + 1

/-- Room for a literal whose components are counted past the greatest 32-bit number. -/
def Room.AllowsOverlong (room : Room) : Prop :=
  2 ^ 30 + 1 < room.limits.expressions.toInt ∧ 2 ^ 30 < room.limits.vectorElements.toInt ∧
    2 ^ 30 ≤ room.tokens

def Pool.IsOwn (pool : Pool) : Prop := ∀ what, pool ≠ .named what

def Fault.Allowed (room : Room) : Fault → Prop
  | .limit e => e.pool.IsOwn ∧ e.limit = room.limits.of e.pool
  | .indexOverflow pool => pool.IsOwn
  | .oversized op => op = .compositeConstruct ∧ room.AllowsOverlong
  | _ => False

namespace Program

structure AtMost (p q : Program) : Prop where
  types : p.types.size ≤ q.types.size
  globals : p.globals.size ≤ q.globals.size
  constants : p.constants.size ≤ q.constants.size
  expressions : p.expressions.size ≤ q.expressions.size
  procedures : p.procedures.size ≤ q.procedures.size

namespace AtMost

variable {p q r : Program}

theorem refl (p : Program) : p.AtMost p :=
  ⟨Nat.le_refl _, Nat.le_refl _, Nat.le_refl _, Nat.le_refl _, Nat.le_refl _⟩

theorem trans (hpq : p.AtMost q) (hqr : q.AtMost r) : p.AtMost r :=
  ⟨Nat.le_trans hpq.types hqr.types, Nat.le_trans hpq.globals hqr.globals,
    Nat.le_trans hpq.constants hqr.constants, Nat.le_trans hpq.expressions hqr.expressions,
    Nat.le_trans hpq.procedures hqr.procedures⟩

end AtMost

end Program

def Local.Within (p : Program) (place : Local) : Prop :=
  place.type < p.types.size ∧ place.pointer < p.types.size ∧
    ∀ global ∈ place.global, global < p.globals.size

def ExprKind.Within (room : Room) (p : Program) (own : ExprRef) : ExprKind → Prop
  | .unknown => False
  | .constant ref => ref < p.constants.size
  | .load place => place.Within p
  | .vector elements => (∀ e ∈ elements, e < own) ∧ room.AllowsLiteral elements.length
  | .sum _ left right => left < own ∧ right < own
  | .scale _ left right _ => left < own ∧ right < own

def Procedure.Within (p : Program) (a : Procedure) : Prop :=
  a.type < p.types.size ∧ a.result < p.types.size ∧
    ∀ global ∈ a.interface.toList, global < p.globals.size

theorem Local.Within.mono {place : Local} (h : place.Within p) (hle : p.AtMost q) :
    place.Within q :=
  ⟨Nat.lt_of_lt_of_le h.1 hle.types, Nat.lt_of_lt_of_le h.2.1 hle.types,
    fun global hglobal => Nat.lt_of_lt_of_le (h.2.2 global hglobal) hle.globals⟩

theorem ExprKind.Within.mono {room : Room} {own : ExprRef} {kind : ExprKind}
    (h : kind.Within room p own) (hle : p.AtMost q) : kind.Within room q own := by
  cases kind with
  | constant constant => exact Nat.lt_of_lt_of_le h hle.constants
  | load place => exact Local.Within.mono h hle
  | _ => exact h

theorem Procedure.Within.mono {a : Procedure} (h : a.Within p) (hle : p.AtMost q) : a.Within q :=
  ⟨Nat.lt_of_lt_of_le h.1 hle.types, Nat.lt_of_lt_of_le h.2.1 hle.types,
    fun global hglobal => Nat.lt_of_lt_of_le (h.2.2 global hglobal) hle.globals⟩

namespace Program

/-- A program within some room that has void, the 32-bit float, and every entry that another entry
refers to. -/
structure Closed (room : Room) (p : Program) : Prop where
  limited : p.under room.limits = p
  seeded : 2 ≤ p.types.size
  types : ∀ ref entry, p.types.get? ref = some entry → entry.shape.Below ref
  constants : ∀ c ∈ p.constants.toList, c.type < p.types.size
  globals : ∀ g ∈ p.globals.toList, g.pointer < p.types.size
  expressions : ∀ ref entry, p.expressions.get? ref = some entry →
    entry.type < p.types.size ∧ entry.kind.Within room p ref
  procedures : ∀ a ∈ p.procedures.toList, a.Within p
  entryPoints : ∀ entry ∈ p.entryPoints.toList, entry.procedure < p.procedures.size

def TypesApart (p : Program) : Prop :=
  (∀ t ∈ p.types.toList, t.Titled) ∧ p.types.toList.Pairwise TypeEntry.Apart

def Labelled (p : Program) : Prop :=
  p.TypesApart ∧ (∀ g ∈ p.globals.toList, Text.OneLine g.name) ∧
    ∀ a ∈ p.procedures.toList, Text.OneLine a.name

structure Named (room : Room) (p : Program) : Prop extends p.Closed room where
  labelled : p.Labelled

variable {room : Room} {p q : Program}

theorem Closed.typeAt (h : p.Closed room) (href : ref < p.types.size) :
    ∃ entry, p.typeAt ref = .ok entry ∧ entry.shape.Below ref := by
  obtain ⟨entry, hentry⟩ := Arena.get?_of_lt href
  exact ⟨entry, typeAt_ok.mpr hentry, h.types ref entry hentry⟩

theorem typeId_of_lt (href : ref < p.types.size) : ∃ id, p.typeId ref = .ok id := by
  obtain ⟨entry, hentry⟩ := Arena.get?_of_lt href
  exact ⟨entry.id, typeId_ok.mpr ⟨entry, hentry, rfl⟩⟩

theorem scalarKind?_of_lt (href : ref < p.types.size) : ∃ found, p.scalarKind? ref = .ok found := by
  obtain ⟨entry, hentry⟩ := Arena.get?_of_lt href
  unfold scalarKind?
  rw [typeAt_ok.mpr hentry]
  simp only [bind, Except.bind]
  cases entry.shape with
  | scalar kind => exact ⟨some kind, rfl⟩
  | _ => exact ⟨none, rfl⟩

theorem Closed.vector? (h : p.Closed room) (href : ref < p.types.size) :
    ∃ found, p.vector? ref = .ok found ∧
      ∀ inner ∈ found, inner.1 < ref ∧ (inner.2 = 2 ∨ inner.2 = 3 ∨ inner.2 = 4) := by
  obtain ⟨entry, hentry, hbelow⟩ := h.typeAt href
  unfold Program.vector?
  rw [hentry]
  simp only [bind, Except.bind]
  cases hshape : entry.shape with
  | vector component size =>
    rw [hshape] at hbelow
    refine ⟨some (component, size), rfl, ?_⟩
    rintro inner hinner
    cases hinner
    exact hbelow
  | _ => exact ⟨none, rfl, fun _ h => nomatch h⟩

theorem Closed.componentKind? (h : p.Closed room) (href : ref < p.types.size) :
    ∃ found, p.componentKind? ref = .ok found := by
  obtain ⟨found, hfound, hinner⟩ := h.vector? href
  unfold Program.componentKind?
  rw [hfound]
  cases found with
  | none => exact scalarKind?_of_lt href
  | some inner => exact scalarKind?_of_lt (Nat.lt_trans (hinner inner rfl).1 href)

theorem typeNameWithin_of_below
    (h : ∀ ref entry, p.types.get? ref = some entry → entry.shape.Below ref) (fuel : Nat)
    (hfuel : ref < fuel) (href : ref < p.types.size) :
    ∃ name, p.typeNameWithin fuel ref = .ok name := by
  induction fuel generalizing ref with
  | zero => exact absurd hfuel (Nat.not_lt_zero _)
  | succ fuel ih =>
    obtain ⟨entry, hget⟩ := Arena.get?_of_lt href
    have hentry := typeAt_ok.mpr hget
    have hbelow := h ref entry hget
    have hinner : ∀ inner, inner < ref → ∃ name, p.typeNameWithin fuel inner = .ok name :=
      fun inner hlt =>
        ih (Nat.lt_of_lt_of_le hlt (Nat.le_of_lt_succ hfuel)) (Nat.lt_trans hlt href)
    unfold Program.typeNameWithin
    rw [hentry]
    simp only [bind, Except.bind]
    cases hshape : entry.shape with
    | vector component size =>
      rw [hshape] at hbelow
      obtain ⟨name, hname⟩ := hinner component hbelow.1
      simp only [hname]
      exact ⟨_, rfl⟩
    | pointer base storage =>
      rw [hshape] at hbelow
      obtain ⟨name, hname⟩ := hinner base hbelow
      simp only [hname]
      exact ⟨_, rfl⟩
    | procedure result =>
      rw [hshape] at hbelow
      obtain ⟨name, hname⟩ := hinner result hbelow
      simp only [hname]
      exact ⟨_, rfl⟩
    | _ => exact ⟨_, rfl⟩

theorem typeName_of_below (h : ∀ ref entry, p.types.get? ref = some entry → entry.shape.Below ref)
    (href : ref < p.types.size) : ∃ name, p.typeName ref = .ok name :=
  typeNameWithin_of_below h _ (Nat.lt_succ_of_lt href) href

theorem procedureAt_of_lt {ref : ProcedureRef} (href : ref < p.procedures.size) :
    ∃ a, p.procedureAt ref = .ok a ∧ a ∈ p.procedures.toList := by
  obtain ⟨a, ha⟩ := Arena.get?_of_lt href
  exact ⟨a, procedureAt_ok.mpr ha, Arena.mem_of_get? ha⟩

theorem globalAt_of_lt {ref : GlobalRef} (href : ref < p.globals.size) :
    ∃ g, p.globalAt ref = .ok g := by
  obtain ⟨g, hg⟩ := Arena.get?_of_lt href
  exact ⟨g, globalAt_ok.mpr hg⟩

theorem constantAt_of_lt {ref : ConstantRef} (href : ref < p.constants.size) :
    ∃ c, p.constantAt ref = .ok c := by
  obtain ⟨c, hc⟩ := Arena.get?_of_lt href
  exact ⟨c, constantAt_ok.mpr hc⟩

theorem Closed.expressionAt (h : p.Closed room) {ref : ExprRef}
    (href : ref < p.expressions.size) :
    ∃ entry, p.expressionAt ref = .ok entry ∧ entry.type < p.types.size ∧
      entry.kind.Within room p ref := by
  obtain ⟨entry, hentry⟩ := Arena.get?_of_lt href
  exact ⟨entry, expressionAt_ok.mpr hentry, h.expressions ref entry hentry⟩

theorem Closed.limits_eq (h : p.Closed room) : p.limits = room.limits :=
  (congrArg Program.limits h.limited).symm

end Program

namespace Build

variable {α β : Type} {room : Room} {p q : Program}

def Safe (room : Room) (x : Build α) (p : Program) (good : α → Program → Prop) : Prop :=
  match x p with
  | .ok a q => p.AtMost q ∧ q.Named room ∧ good a q
  | .error f _ => f.Allowed room

namespace Safe

variable {good good' : α → Program → Prop} {x : Build β}

protected theorem pure {a : α} (hp : p.Named room) (h : good a p) :
    Safe room (pure a : Build α) p good := ⟨.refl p, hp, h⟩

protected theorem throw {f : Fault} (h : f.Allowed room) :
    Safe room (throw f : Build α) p good := h

protected theorem bind {mid : β → Program → Prop} {f : β → Build α} (hx : Safe room x p mid)
    (hf : ∀ b q, p.AtMost q → q.Named room → mid b q → Safe room (f b) q good) :
    Safe room (x >>= f) p good := by
  unfold Safe at hx ⊢
  change match EStateM.bind x f p with | .ok a q => _ | .error e _ => _
  unfold EStateM.bind
  cases h : x p with
  | error e q =>
    rw [h] at hx
    exact hx
  | ok b q =>
    rw [h] at hx
    obtain ⟨hle, hq, hmid⟩ := hx
    have hnext := hf b q hle hq hmid
    unfold Safe at hnext
    dsimp only
    cases h' : f b q with
    | error e r =>
      rw [h'] at hnext
      exact hnext
    | ok a r =>
      rw [h'] at hnext
      exact ⟨hle.trans hnext.1, hnext.2⟩

theorem mono {x : Build α} (hx : Safe room x p good)
    (h : ∀ a q, p.AtMost q → good a q → good' a q) : Safe room x p good' := by
  unfold Safe at hx ⊢
  cases hrun : x p with
  | error e q =>
    rw [hrun] at hx
    exact hx
  | ok a q =>
    rw [hrun] at hx
    exact ⟨hx.1, hx.2.1, h a q hx.1 hx.2.2⟩

protected theorem get {f : Program → Build α} (h : Safe room (f p) p good) :
    Safe room (get >>= f) p good := h

protected theorem map {f : β → α} (hx : Safe room x p fun b q => good (f b) q) :
    Safe room (f <$> x) p good := by
  rw [← bind_pure_comp]
  exact hx.bind fun b q _ hq hb => .pure hq hb

protected theorem discard {mid : β → Program → Prop} {good : PUnit → Program → Prop}
    (hx : Safe room x p mid) (h : ∀ b q, mid b q → good ⟨⟩ q) : Safe room (discard x) p good :=
  .map (hx.mono fun b q _ hmid => h b q hmid)

theorem view {read : Program → Except Fault α} {a : α} (hp : p.Named room)
    (hread : read p = .ok a) (h : good a p) : Safe room (Build.view read) p good := by
  refine .get ?_
  rw [hread]
  exact .pure hp h

theorem view_bind {read : Program → Except Fault β} {f : β → Build α} {b : β}
    (hp : p.Named room) (hread : read p = .ok b) (h : Safe room (f b) p good) :
    Safe room (Build.view read >>= f) p good := by
  have hview : Safe room (Build.view read) p fun found q => found = b ∧ q = p :=
    .view hp hread ⟨rfl, rfl⟩
  refine hview.bind ?_
  rintro _ _ _ _ ⟨rfl, rfl⟩
  exact h

end Safe

end Build

end Shading
