import Shading.Proofs.Safety.Closed
import Shading.Proofs.Types

/-!
The operations on a program, one after another: each leaves a closed program
closed. Code for an expression follows operands to smaller indices, so it comes
to an end.
-/

namespace Shading

open Arena List

open Binary (Instruction Opcode)

namespace Program

variable {room : Room} {p q : Program}

/-- A program that adds to another one: what is new in a pool holds indices of the old program. -/
structure Enlarges (room : Room) (p q : Program) : Prop where
  limited : q.under room.limits = q
  atMost : p.AtMost q
  types : ∀ ref entry, q.types.get? ref = some entry →
    p.types.get? ref = some entry ∨ entry.shape.Below ref
  constants : ∀ c ∈ q.constants.toList, c ∈ p.constants.toList ∨ c.type < p.types.size
  globals : ∀ g ∈ q.globals.toList, g ∈ p.globals.toList ∨ g.pointer < p.types.size
  expressions : ∀ ref entry, q.expressions.get? ref = some entry →
    p.expressions.get? ref = some entry ∨ entry.type < p.types.size ∧ entry.kind.Within room p ref
  procedures : ∀ a ∈ q.procedures.toList, a ∈ p.procedures.toList ∨ a.Within p
  entryPoints : ∀ entry ∈ q.entryPoints.toList,
    entry ∈ p.entryPoints.toList ∨ entry.procedure < p.procedures.size
  labelled : q.Labelled

theorem Named.same (hp : p.Named room) : p.Enlarges room p :=
  ⟨hp.limited, .refl p, fun _ _ => .inl, fun _ => .inl, fun _ => .inl, fun _ _ => .inl,
    fun _ => .inl, fun _ => .inl, hp.labelled⟩

theorem Closed.enlarge (hp : p.Closed room) (h : p.Enlarges room q) : q.Closed room where
  limited := h.limited
  seeded := Nat.le_trans hp.seeded h.atMost.types
  types := fun ref entry hentry => (h.types ref entry hentry).elim (hp.types ref entry) id
  constants := fun c hc =>
    Nat.lt_of_lt_of_le ((h.constants c hc).elim (hp.constants c) id) h.atMost.types
  globals := fun g hg =>
    Nat.lt_of_lt_of_le ((h.globals g hg).elim (hp.globals g) id) h.atMost.types
  expressions := fun ref entry hentry =>
    ((h.expressions ref entry hentry).elim (hp.expressions ref entry) id).imp
      (Nat.lt_of_lt_of_le · h.atMost.types) (·.mono h.atMost)
  procedures := fun a ha => ((h.procedures a ha).elim (hp.procedures a) id).mono h.atMost
  entryPoints := fun entry hentry => Nat.lt_of_lt_of_le
    ((h.entryPoints entry hentry).elim (hp.entryPoints entry) id) h.atMost.procedures

theorem Named.enlarge (hp : p.Named room) (h : p.Enlarges room q) : q.Named room :=
  ⟨hp.toClosed.enlarge h, h.labelled⟩

end Program

namespace Build.Safe

variable {α β : Type} {room : Room} {p q : Program} {good : α → Program → Prop} {name : Bytes}
  {shape : Shape} {type : TypeRef} {ref : ProcedureRef} {op : Opcode} {operands : List UInt32}
  {e : ExprRef}

protected theorem modify {f : Program → Program} {good : PUnit → Program → Prop}
    (hp : p.Named room) (hf : p.Enlarges room (f p)) (h : good ⟨⟩ (f p)) :
    Safe room (modify f : Build PUnit) p good := ⟨hf.atMost, hp.enlarge hf, h⟩

protected theorem set {good : PUnit → Program → Prop} (hp : p.Named room)
    (hq : p.Enlarges room q) (h : good ⟨⟩ q) : Safe room (set q : Build PUnit) p good :=
  ⟨hq.atMost, hp.enlarge hq, h⟩

theorem push {entry : β} {pool : Program → Arena β} {put : Program → Arena β → Program}
    {good : Nat → Program → Prop} (kind : Pool) (hkind : kind.IsOwn) (hp : p.Named room)
    (hlimited : (pool p).under kind (room.limits.of kind) = pool p)
    (hput : fits ((pool p).size + 1) (room.limits.of kind) = true →
      p.Enlarges room (put p ((pool p).add entry)))
    (h : good (pool p).size (put p ((pool p).add entry))) :
    Safe room (Build.push pool put entry) p good := by
  refine .get ?_
  have hpool : (pool p).pool = kind := (congrArg Arena.pool hlimited).symm
  have hlimit : (pool p).limit = room.limits.of kind := (congrArg Arena.limit hlimited).symm
  by_cases hroom : (pool p).hasRoom = true
  · rw [if_pos hroom]
    have hfits : fits ((pool p).size + 1) (room.limits.of kind) = true := hlimit ▸ hroom
    by_cases hindex : (pool p).hasIndex = true
    · rw [if_pos hindex]
      have hset : Safe room (set (put p ((pool p).add entry)) : Build PUnit) p
          fun _ q => q = put p ((pool p).add entry) := .set hp (hput hfits) rfl
      exact hset.bind fun _ q _ hq heq => .pure hq (heq ▸ h)
    · rw [if_neg hindex]
      subst hpool
      exact .throw hkind
  · rw [if_neg hroom]
    subst hpool
    exact .throw ⟨hkind, hlimit⟩

theorem freshId (hp : p.Named room) :
    Safe room Build.freshId p fun _ q => q = { p with nextId := p.nextId + 1 } := by
  have hnext : p.Enlarges room { p with nextId := p.nextId + 1 } :=
    { hp.same with
      limited := congrArg (fun r : Program => { r with nextId := r.nextId + 1 }) hp.limited
      atMost := { Program.AtMost.refl p with } }
  have hset : Safe room (set { p with nextId := p.nextId + 1 } : Build PUnit) p
      fun _ q => q = { p with nextId := p.nextId + 1 } := .set hp hnext rfl
  exact .get (hset.bind fun _ _ _ hq heq => .pure hq heq)

theorem addType (hp : p.Named room) (hshape : shape.Below p.types.size)
    (htitle : TypeEntry.Titled ⟨name, p.nextId, shape⟩)
    (hapart : ∀ t ∈ p.types.toList, t.Apart ⟨name, p.nextId, shape⟩) :
    Safe room (Build.addType name shape) p fun ref q => ref < q.types.size := by
  refine .get ?_
  have hpush : Safe room (Build.push (·.types) (fun program types => { program with types })
      ⟨name, p.nextId, shape⟩) p fun ref q => ref < q.types.size := by
    refine .push .types (fun _ h => nomatch h) hp (congrArg (·.types) hp.limited) (fun _ => ?_)
      (by simp)
    exact
      { hp.same with
        limited := congrArg (fun r : Program =>
          { r with types := r.types.add ⟨name, p.nextId, shape⟩ }) hp.limited
        atMost := { Program.AtMost.refl p with types := by simp }
        types := by
          intro ref entry hentry
          obtain ⟨rfl, rfl⟩ | hold := get?_add hentry
          · exact .inr hshape
          · exact .inl hold
        labelled := by
          obtain ⟨⟨htitled, hpairwise⟩, hnames⟩ := hp.labelled
          refine ⟨⟨?_, ?_⟩, hnames⟩ <;> rw [toList_add]
          · exact forall_mem_append.mpr ⟨htitled, forall_mem_singleton.mpr htitle⟩
          · refine pairwise_append.mpr ⟨hpairwise, pairwise_singleton _ _, ?_⟩
            exact fun t ht u hu => mem_singleton.mp hu ▸ hapart t ht }
  refine hpush.bind fun ref q _ hq href => ?_
  refine (Safe.discard (.freshId hq) fun _ r hr => ?_).bind fun _ r _ hr hlt => .pure hr hlt
  subst hr
  exact href

theorem typeOfShape (hp : p.Named room) (hshape : shape.Below p.types.size)
    (htitle : ∀ id, TypeEntry.Titled ⟨[], id, shape⟩) :
    Safe room (Build.typeOfShape shape) p fun ref q => ref < q.types.size := by
  refine .get ?_
  cases hfind : p.types.items.findIdx? (·.shape = shape) with
  | some ref => exact .pure hp (Array.findIdx?_eq_some_iff_getElem.mp hfind).1
  | none =>
    refine .addType hp hshape (htitle _) fun t ht hname => ⟨hname, fun heq => ?_⟩
    exact of_decide_eq_false (Array.findIdx?_eq_none_iff.mp hfind t
      (Array.mem_toList_iff.mp ht)) heq

theorem namedType (hp : p.Named room) :
    Safe room (Build.namedType name) p fun found q => ∀ ref ∈ found, ref < q.types.size := by
  refine .get ?_
  cases hfind : p.types.items.findIdx? fun t => t.name ≠ [] ∧ t.name = name with
  | some ref =>
    refine .pure hp fun found hfound => ?_
    cases hfound
    exact (Array.findIdx?_eq_some_iff_getElem.mp hfind).1
  | none =>
    cases hkind : ScalarKind.ofName? name with
    | none => exact .pure hp fun _ h => nomatch h
    | some kind =>
      obtain rfl : kind.name = name := ScalarKind.name_of_ofName? hkind
      have hscalar : Shape.Below p.types.size (.scalar kind) := trivial
      have hne : kind.name ≠ [] := by cases kind <;> decide
      have hapart : ∀ t ∈ p.types.toList, t.Apart ⟨kind.name, p.nextId, .scalar kind⟩ := by
        intro t ht hname
        have hother := Array.findIdx?_eq_none_iff.mp hfind t (Array.mem_toList_iff.mp ht)
        exact absurd ⟨hname ▸ hne, hname⟩ (of_decide_eq_false hother)
      refine .map ((Safe.addType hp hscalar rfl hapart).mono fun ref q _ href found hfound => ?_)
      cases hfound
      exact href

theorem floatConstant {bits : UInt32} (hp : p.Named room) :
    Safe room (Build.floatConstant bits) p fun ref q => ref < q.constants.size := by
  refine .get ?_
  cases hfind : p.constants.items.findIdx? fun c => c.type = f32Type ∧ c.bits = bits with
  | some ref => exact .pure hp (Array.findIdx?_eq_some_iff_getElem.mp hfind).1
  | none =>
    refine .get ?_
    have hpush : Safe room (Build.push (·.constants)
        (fun program constants => { program with constants }) ⟨f32Type, p.nextId, bits⟩) p
        fun ref q => ref < q.constants.size := by
      refine .push .constants (fun _ h => nomatch h) hp
        (congrArg (·.constants) hp.limited) (fun _ => ?_) (by simp)
      exact
        { hp.same with
          limited := congrArg (fun r : Program =>
            { r with constants := r.constants.add ⟨f32Type, p.nextId, bits⟩ }) hp.limited
          atMost := { Program.AtMost.refl p with constants := by simp }
          constants := mem_add_or hp.seeded }
    refine hpush.bind fun ref q _ hq href => ?_
    refine (Safe.discard (.freshId hq) fun _ r hr => ?_).bind fun _ r _ hr hlt => .pure hr hlt
    subst hr
    exact href

theorem addExpression {kind : ExprKind} (hp : p.Named room) (htype : type < p.types.size)
    (hkind : fits (p.expressions.size + 1) room.limits.expressions = true →
      kind.Within room p p.expressions.size) :
    Safe room (Build.addExpression kind type) p fun ref q =>
      ref = p.expressions.size ∧ q.expressions.size = p.expressions.size + 1 := by
  refine .push .expressions (fun _ h => nomatch h) hp (congrArg (·.expressions) hp.limited)
    (fun hroom => ?_) ⟨rfl, by simp⟩
  exact
    { hp.same with
      limited := congrArg (fun r : Program =>
        { r with expressions := r.expressions.add ⟨kind, type⟩ }) hp.limited
      atMost := { Program.AtMost.refl p with expressions := by simp }
      expressions := by
        intro ref entry hentry
        obtain ⟨rfl, rfl⟩ | hold := get?_add hentry
        · exact .inr ⟨htype, hkind hroom⟩
        · exact .inl hold }

theorem modifyGlobals {ref : GlobalRef} {change : Global → Global} {good : PUnit → Program → Prop}
    (hp : p.Named room)
    (hchange : ∀ g ∈ p.globals.toList,
      (change g).pointer < p.types.size ∧ Text.OneLine (change g).name)
    (h : good ⟨⟩ { p with globals := p.globals.modify ref change }) :
    Safe room (modify fun p => { p with globals := p.globals.modify ref change } : Build PUnit)
      p good := by
  refine .modify hp ?_ h
  exact
    { hp.same with
      limited := congrArg (fun r : Program =>
        { r with globals := r.globals.modify ref change }) hp.limited
      atMost := { Program.AtMost.refl p with globals := by simp }
      globals := by
        intro g hg
        obtain hold | ⟨old, hold, rfl⟩ := mem_modify hg
        · exact .inl hold
        · exact .inr (hchange old hold).1
      labelled := by
        refine ⟨hp.labelled.1, fun g hg => ?_, hp.labelled.2.2⟩
        obtain hold | ⟨old, hold, rfl⟩ := mem_modify hg
        · exact hp.labelled.2.1 g hold
        · exact (hchange old hold).2 }

theorem addGlobal {global : Global} (hp : p.Named room)
    (hpointer : global.pointer < p.types.size) (hname : Text.OneLine global.name) :
    Safe room (Build.addGlobal global) p fun ref q => ref < q.globals.size := by
  have hpush : Safe room (Build.push (·.globals) (fun program globals => { program with globals })
      { global with id := 0 }) p fun ref q => ref < q.globals.size := by
    refine .push .globals (fun _ h => nomatch h) hp (congrArg (·.globals) hp.limited) (fun _ => ?_)
      (by simp)
    exact
      { hp.same with
        limited := congrArg (fun r : Program =>
          { r with globals := r.globals.add { global with id := 0 } }) hp.limited
        atMost := { Program.AtMost.refl p with globals := by simp }
        globals := mem_add_or hpointer
        labelled := by
          refine ⟨hp.labelled.1, ?_, hp.labelled.2.2⟩
          rw [toList_add]
          exact forall_mem_append.mpr
            ⟨hp.labelled.2.1, forall_mem_singleton.mpr hname⟩ }
  refine hpush.bind fun ref q _ hq href => (Safe.freshId hq).bind fun id r _ hr heq => ?_
  have hlt : ref < r.globals.size := heq ▸ href
  have hmodify : Safe room (modify fun p =>
      { p with globals := p.globals.modify ref fun g => { g with id } } : Build PUnit) r
      fun _ q => ref < q.globals.size :=
    .modifyGlobals hr (fun g hg => ⟨hr.globals g hg, hr.labelled.2.1 g hg⟩)
      (by simpa [Arena.size, Arena.modify] using hlt)
  exact hmodify.bind fun _ r _ hr hlt => .pure hr hlt

theorem modifyGlobal {ref : GlobalRef} {g : Global} (hp : p.Named room)
    (hpointer : g.pointer < p.types.size) (hname : Text.OneLine g.name) :
    Safe room (Build.modifyGlobal ref fun _ => g) p fun _ _ => True :=
  .modifyGlobals hp (fun _ _ => ⟨hpointer, hname⟩) trivial

theorem modifyProcedure {change : Procedure → Procedure} (hp : p.Named room)
    (hchange : ∀ a, a.Within p → (change a).Within p) (hname : ∀ a, (change a).name = a.name) :
    Safe room (Build.modifyProcedure ref change) p fun _ q =>
      q = { p with procedures := p.procedures.modify ref change } := by
  refine .modify hp ?_ rfl
  exact
    { hp.same with
      limited := congrArg (fun r : Program =>
        { r with procedures := r.procedures.modify ref change }) hp.limited
      atMost := { Program.AtMost.refl p with procedures := by simp }
      procedures := by
        intro a ha
        obtain hold | ⟨old, hold, rfl⟩ := mem_modify ha
        · exact .inl hold
        · exact .inr (hchange old (hp.procedures old hold))
      labelled := by
        refine ⟨hp.labelled.1, hp.labelled.2.1, fun a ha => ?_⟩
        obtain hold | ⟨old, hold, rfl⟩ := mem_modify ha
        · exact hp.labelled.2.2 a hold
        · rw [hname]
          exact hp.labelled.2.2 old hold }

theorem addProcedure {result : TypeRef} (hp : p.Named room) (hresult : result < p.types.size)
    (hname : Text.OneLine name) :
    Safe room (Build.addProcedure name result) p fun ref q => ref < q.procedures.size := by
  let new : Procedure :=
    { name, id := 0, type := voidType, result, label := 0, locals := #[], body := #[],
      returned := false, interface := #[] }
  have hpush : Safe room (Build.push (·.procedures)
      (fun program procedures => { program with procedures }) new) p
      fun ref q => ref < q.procedures.size := by
    refine .push .procedures (fun _ h => nomatch h) hp
      (congrArg (·.procedures) hp.limited) (fun _ => ?_) (by simp)
    exact
      { hp.same with
        limited := congrArg (fun r : Program =>
          { r with procedures := r.procedures.add new }) hp.limited
        atMost := { Program.AtMost.refl p with procedures := by simp }
        procedures := by
          have hvoid : voidType < p.types.size := Nat.lt_of_lt_of_le (Nat.succ_pos 1) hp.seeded
          exact mem_add_or ⟨hvoid, hresult, fun _ hg => nomatch hg⟩
        labelled := by
          refine ⟨hp.labelled.1, hp.labelled.2.1, ?_⟩
          rw [toList_add]
          exact forall_mem_append.mpr
            ⟨hp.labelled.2.2, forall_mem_singleton.mpr hname⟩ }
  refine hpush.bind fun ref q hpq hq href => (Safe.freshId hq).bind fun id r hqr hr _ => ?_
  refine .bind (.modifyProcedure hr (fun _ ha => ha) fun _ => rfl) fun _ s hrs hs _ => ?_
  have hps := hpq.trans (hqr.trans hrs)
  have hresult' := Nat.lt_of_lt_of_le hresult hps.types
  refine .bind (.typeOfShape hs hresult' fun _ => rfl) fun type t hst ht htype => ?_
  refine .bind (.modifyProcedure ht (fun _ ha => ⟨htype, ha.2⟩) fun _ => rfl)
    fun _ u htu hu _ => .pure hu ?_
  exact Nat.lt_of_lt_of_le href (hqr.trans (hrs.trans (hst.trans htu))).procedures

theorem addEntryPoint {entry : EntryPoint} (hp : p.Named room)
    (hentry : entry.procedure < p.procedures.size) :
    Safe room (Build.addEntryPoint entry) p fun _ _ => True := by
  refine .push .entryPoints (fun _ h => nomatch h) hp (congrArg (·.entryPoints) hp.limited)
    (fun _ => ?_) trivial
  exact
    { hp.same with
      limited := congrArg (fun r : Program =>
        { r with entryPoints := r.entryPoints.add entry }) hp.limited
      atMost := { Program.AtMost.refl p with }
      entryPoints := mem_add_or hentry }

theorem reserve {count : Int64} (hp : p.Named room) :
    Safe room (Build.reserve count) p fun _ q => p.AtMost q := by
  refine .get ?_
  unfold WordBudget.reserve
  by_cases hfull : p.words.used + count > p.words.limit
  · rw [if_pos hfull]
    exact .throw ⟨(fun _ h => nomatch h), (congrArg (·.words.limit) hp.limited).symm⟩
  · rw [if_neg hfull]
    have hle : p.AtMost { p with words := { p.words with used := p.words.used + count } } :=
      { Program.AtMost.refl p with }
    refine .set hp ?_ hle
    exact
      { hp.same with
        limited := congrArg (fun r : Program =>
          { r with words := { r.words with used := r.words.used + count } }) hp.limited
        atMost := hle }

theorem charge {instruction : Instruction} (hp : p.Named room)
    (h : instruction.isEncodable = false → (Fault.oversized instruction.opcode).Allowed room) :
    Safe room (Build.charge instruction) p fun _ _ => True := by
  refine (Safe.reserve hp).bind fun _ q _ hq _ => ?_
  cases hfits : instruction.isEncodable with
  | true => exact .pure hq trivial
  | false => exact .throw (h hfits)

theorem emit (hp : p.Named room)
    (h : Instruction.isEncodable ⟨op, operands⟩ = false → (Fault.oversized op).Allowed room) :
    Safe room (Build.emit ref op operands) p fun _ _ => True := by
  refine (Safe.charge hp h).bind fun _ q _ hq _ => ?_
  exact .mono (.modifyProcedure hq (fun _ ha => ha) fun _ => rfl) fun _ _ _ _ => trivial

theorem emit_short (hp : p.Named room) (h : operands.length ≤ 7) :
    Safe room (Build.emit ref op operands) p fun _ _ => True := by
  refine .emit hp fun hlong => ?_
  have hfits : Instruction.isEncodable ⟨op, operands⟩ = true := by
    apply decide_eq_true
    change operands.length + 1 ≤ 0xFFFF
    omega
  rw [hfits] at hlong
  cases hlong

theorem procedure_bind {f : PUnit → Build α} (hp : p.Named room) (href : ref < p.procedures.size)
    (h : Safe room (f ⟨⟩) p good) : Safe room (discard (Build.procedure ref) >>= f) p good := by
  obtain ⟨a, ha, -⟩ := Program.procedureAt_of_lt href
  have hview : Safe room (Build.procedure ref) p fun _ q => q = p := .view hp ha rfl
  have hdiscard : Safe room (discard (Build.procedure ref)) p fun _ q => q = p :=
    .discard hview fun _ _ hq => hq
  refine hdiscard.bind ?_
  rintro _ _ _ _ rfl
  exact h

theorem registerInterface {place : Local} (hp : p.Named room) (href : ref < p.procedures.size)
    (hplace : place.Within p) :
    Safe room (Build.registerInterface ref place) p fun _ _ => True := by
  unfold Build.registerInterface
  cases hglobal : place.global with
  | none => exact .pure hp trivial
  | some global =>
    have hlt := hplace.2.2 global hglobal
    obtain ⟨entry, hentry⟩ := Program.globalAt_of_lt hlt
    obtain ⟨a, ha, -⟩ := Program.procedureAt_of_lt href
    refine .view_bind hp hentry (.view_bind hp ha ?_)
    by_cases hnew : (entry.direction.isInterface && !a.interface.contains global) = true
    · rw [if_pos hnew]
      refine .get ?_
      by_cases hroom : fits (p.interfacesUsed + 1) p.limits.interfaces = true
      · rw [if_pos hroom]
        have hle : p.AtMost { p with interfacesUsed := p.interfacesUsed + 1 } :=
          { Program.AtMost.refl p with }
        have hset : Safe room
            (set { p with interfacesUsed := p.interfacesUsed + 1 } : Build PUnit) p
            fun _ _ => True :=
          .set hp
            { hp.same with
              limited := congrArg (fun r : Program =>
                { r with interfacesUsed := r.interfacesUsed + 1 }) hp.limited
              atMost := hle } trivial
        refine hset.bind fun _ q hpq hq _ => ?_
        refine .mono (.modifyProcedure hq (fun a ha => ⟨ha.1, ha.2.1, ?_⟩) fun _ => rfl)
          fun _ _ _ _ => trivial
        intro other hother
        rw [Array.toList_push, mem_append, mem_singleton] at hother
        rcases hother with hold | rfl
        · exact ha.2.2 other hold
        · exact Nat.lt_of_lt_of_le hlt hpq.globals
      · rw [if_neg hroom]
        refine .throw ⟨(fun _ h => nomatch h), ?_⟩
        rw [hp.limits_eq]
        rfl
    · rw [if_neg hnew]
      exact .pure hp trivial

theorem openBlock (hp : p.Named room) (href : ref < p.procedures.size) :
    Safe room (Build.openBlock ref) p fun _ _ => True := by
  refine .procedure_bind hp href ((Safe.reserve hp).bind fun _ q _ hq _ => ?_)
  refine (Safe.freshId hq).bind fun label r _ hr _ => ?_
  exact .mono (.modifyProcedure hr (fun _ ha => ha) fun _ => rfl) fun _ _ _ _ => trivial

theorem declareVariable {pointer : TypeRef} (hp : p.Named room) (href : ref < p.procedures.size)
    (hpointer : pointer < p.types.size) :
    Safe room (Build.declareVariable ref pointer) p fun _ _ => True := by
  refine .procedure_bind hp href ((Safe.freshId hp).bind fun id q hpq hq _ => ?_)
  obtain ⟨type, htype⟩ := Program.typeId_of_lt (Nat.lt_of_lt_of_le hpointer hpq.types)
  refine .view_bind hq htype (.bind (.charge hq fun h => ?_) fun _ r _ hr _ => ?_)
  · cases h
  · exact .bind (.modifyProcedure hr (fun _ ha => ha) fun _ => rfl)
      fun _ s _ hs _ => .pure hs trivial

theorem store {pointer value : UInt32} (hp : p.Named room) (href : ref < p.procedures.size) :
    Safe room (Build.store ref pointer value) p fun _ _ => True :=
  .procedure_bind hp href (.emit_short hp (Nat.le_of_ble_eq_true rfl))

theorem exit (hp : p.Named room) (href : ref < p.procedures.size) :
    Safe room (Build.exit ref) p fun _ _ => True :=
  .procedure_bind hp href (.emit_short hp (Nat.le_of_ble_eq_true rfl))

theorem exitValue {value : UInt32} (hp : p.Named room) (href : ref < p.procedures.size) :
    Safe room (Build.exitValue ref value) p fun _ _ => True :=
  .procedure_bind hp href (.emit_short hp (Nat.le_of_ble_eq_true rfl))

theorem mapM {f : β → Build α} {xs : List β} (hp : p.Named room)
    (hf : ∀ x ∈ xs, ∀ q, p.AtMost q → q.Named room → Safe room (f x) q fun _ _ => True) :
    Safe room (xs.mapM f) p fun ys _ => ys.length = xs.length := by
  induction xs generalizing p with
  | nil =>
    rw [mapM_nil]
    exact .pure hp rfl
  | cons x rest ih =>
    rw [mapM_cons]
    refine .bind (hf x mem_cons_self p (.refl p) hp) fun y q hpq hq _ => ?_
    refine .bind (ih hq fun z hz r hqr hr => hf z (.tail _ hz) r (hpq.trans hqr) hr)
      fun ys r _ hr hlength => .pure hr ?_
    rw [length_cons, length_cons, hlength]

theorem hasFloats (hp : p.Named room) (htype : type < p.types.size) :
    Safe room (Build.hasFloats type) p fun _ _ => True := by
  obtain ⟨kind, hkind⟩ := hp.componentKind? htype
  exact .view_bind hp hkind (.pure hp trivial)

theorem oversized_literal {length : Nat} {values : List UInt32} {first second : UInt32}
    (h : room.AllowsLiteral length) (hlength : values.length = length)
    (hlong : Instruction.isEncodable ⟨.compositeConstruct, first :: second :: values⟩ = false) :
    (Fault.oversized .compositeConstruct).Allowed room := by
  have hwords : ¬ values.length + 1 + 1 + 1 ≤ 0xFFFF := of_decide_eq_false hlong
  rcases h with hshort | ⟨hmany, hexpressions, helements, htokens⟩
  · omega
  · exact ⟨rfl, by omega, by omega, by omega⟩

theorem expressionWithin (fuel : Nat) (hp : p.Named room) (href : ref < p.procedures.size)
    (hfuel : e < fuel) (he : e < p.expressions.size) :
    Safe room (Build.expressionWithin ref fuel e) p fun _ _ => True := by
  induction fuel generalizing p e with
  | zero => exact absurd hfuel (Nat.not_lt_zero _)
  | succ fuel ih =>
    obtain ⟨⟨kind, type⟩, hentry, htype, hkind⟩ := hp.expressionAt he
    have hoperand : ∀ operand, operand < e → ∀ q, p.AtMost q → q.Named room →
        Safe room (Build.expressionWithin ref fuel operand) q fun _ _ => True := by
      intro operand hlt q hpq hq
      exact ih hq (Nat.lt_of_lt_of_le href hpq.procedures)
        (Nat.lt_of_lt_of_le hlt (Nat.le_of_lt_succ hfuel))
        (Nat.lt_of_lt_of_le (Nat.lt_trans hlt he) hpq.expressions)
    refine .view_bind hp hentry ?_
    cases kind with
    | unknown => exact absurd hkind id
    | constant constant =>
      obtain ⟨c, hc⟩ := Program.constantAt_of_lt hkind
      exact .view_bind hp hc (.pure hp trivial)
    | load place =>
      refine .bind (.freshId hp) fun id q hpq hq _ => ?_
      have hplace : place.Within q := Local.Within.mono hkind hpq
      obtain ⟨typeId, htypeId⟩ := Program.typeId_of_lt hplace.1
      refine .view_bind hq htypeId (.bind (.emit_short hq (Nat.le_of_ble_eq_true rfl))
        fun _ r hqr hr _ => ?_)
      refine .bind (.registerInterface hr ?_ (hplace.mono hqr)) fun _ s _ hs _ =>
        .pure hs trivial
      exact Nat.lt_of_lt_of_le href (hpq.trans hqr).procedures
    | vector elements =>
      refine .bind (.mapM hp fun x hx q hpq hq => hoperand x (hkind.1 x hx) q hpq hq)
        fun values q hpq hq hlength => .bind (.freshId hq) fun id r hqr hr _ => ?_
      obtain ⟨typeId, htypeId⟩ :=
        Program.typeId_of_lt (Nat.lt_of_lt_of_le htype (hpq.trans hqr).types)
      refine .view_bind hr htypeId (.bind (.emit hr fun hlong => ?_)
        fun _ s _ hs _ => .pure hs trivial)
      exact oversized_literal hkind.2 hlength hlong
    | sum op left right =>
      refine .bind (hoperand left hkind.1 p (.refl p) hp) fun l q hpq hq _ => ?_
      refine .bind (hoperand right hkind.2 q hpq hq) fun r s hqs hs _ => ?_
      have hps := hpq.trans hqs
      refine .bind (.hasFloats hs (Nat.lt_of_lt_of_le htype hps.types))
        fun float t hst ht _ => ?_
      refine .bind (.freshId ht) fun id u htu hu _ => ?_
      obtain ⟨typeId, htypeId⟩ :=
        Program.typeId_of_lt (Nat.lt_of_lt_of_le htype (hps.trans (hst.trans htu)).types)
      exact .view_bind hu htypeId (.bind (.emit_short hu (Nat.le_of_ble_eq_true rfl))
        fun _ v _ hv _ => .pure hv trivial)
    | scale op scalar vector scalarFirst =>
      refine .bind (hoperand scalar hkind.1 p (.refl p) hp) fun l q hpq hq _ => ?_
      refine .bind (hoperand vector hkind.2 q hpq hq) fun r s hqs hs _ => ?_
      have hlt := Nat.lt_of_lt_of_le htype (hpq.trans hqs).types
      obtain ⟨typeId, htypeId⟩ := Program.typeId_of_lt hlt
      obtain ⟨component, hcomponent⟩ := hs.componentKind? hlt
      obtain ⟨found, hfound, hsize⟩ := hs.vector? hlt
      refine .view_bind hs htypeId (.view_bind hs hcomponent ?_)
      split
      · exact .bind (.freshId hs) fun id t _ ht _ =>
          .bind (.emit_short ht (Nat.le_of_ble_eq_true rfl)) fun _ u _ hu _ => .pure hu trivial
      · refine .view_bind hs hfound (.bind (.freshId hs) fun spread t _ ht _ =>
          .bind (.emit_short ht ?_) fun _ u _ hu _ => .bind (.freshId hu) fun id v _ hv _ =>
            .bind (.emit_short hv ?_) fun _ w _ hw _ => .pure hw trivial)
        · cases found with
          | none => exact Nat.le_of_ble_eq_true rfl
          | some inner =>
            obtain hsize | hsize | hsize := (hsize inner rfl).2 <;>
              simp [hsize]
        · cases scalarFirst <;> exact Nat.le_of_ble_eq_true rfl

theorem expression (hp : p.Named room) (href : ref < p.procedures.size)
    (he : e < p.expressions.size) : Safe room (Build.expression ref e) p fun _ _ => True :=
  .procedure_bind hp href (.get (.expressionWithin _ hp href (Nat.lt_succ_of_lt he) he))

end Build.Safe

end Shading
