import Shading.Proofs.Compilation
import Shading.Proofs.Limits.Start

/-!
The pools of types and constants. A call that fills them looks for what it is
asked for, adds it at the end where it is missing, and fails where there is no
room for it. What a search has found it finds again, since the pools only grow
at their ends; from this follow the facts about all sequences of calls.
-/

namespace Shading

open List Build

open Binary (idsFrom)

variable {e : Fault}

/-- The calls that fill the pools of types and constants. -/
inductive PoolCall where
  | vectorType (component : TypeRef) (size : UInt32)
  | pointerType (base : TypeRef) (storage : StorageClass)
  | procedureType (result : TypeRef)
  | recordType (name : Bytes) (members : List Member)
  | namedType (name : Bytes)
  | floatConstant (bits : UInt32)

inductive PoolEntry where
  | type (name : Bytes) (shape : Shape)
  | constant (bits : UInt32)

namespace Shape

/-- Whether types of this shape differ by their name. -/
def isRecord : Shape → Bool
  | .record _ => true
  | _ => false

/-- The types that a shape is made of. -/
def refs : Shape → List TypeRef
  | .void | .scalar _ => []
  | .vector inner _ | .pointer inner _ | .procedure inner => [inner]
  | .record members => members.map (·.type)

end Shape

namespace PoolCall

/-- Makes a call. It answers with an index, or with none for a name that means no type. -/
def run : PoolCall → Build (Option Nat)
  | .vectorType component size => some <$> Build.vectorType component size
  | .pointerType base storage => some <$> Build.pointerType base storage
  | .procedureType result => some <$> Build.procedureType result
  | .recordType name members => some <$> Build.addType name (.record members)
  | .namedType name => Build.namedType name
  | .floatConstant bits => some <$> Build.floatConstant bits

def after (call : PoolCall) (p : Program) : Program :=
  match call.run p with
  | .ok _ q => q
  | .error _ q => q

def refs : PoolCall → List TypeRef
  | .vectorType inner _ | .pointerType inner _ | .procedureType inner => [inner]
  | .recordType _ members => members.map (·.type)
  | .namedType _ | .floatConstant _ => []

def Refers (p : Program) (call : PoolCall) : Prop := ∀ ref ∈ call.refs, ref < p.types.size

instance (p : Program) (call : PoolCall) : Decidable (call.Refers p) :=
  inferInstanceAs (Decidable (∀ ref ∈ call.refs, ref < p.types.size))

/-- Whether a call is answered with an entry that is there already. Records are always new. -/
def isInterning : PoolCall → Bool
  | .recordType _ _ => false
  | _ => true

def found? (p : Program) : PoolCall → Option Nat
  | .vectorType component size => p.types.items.findIdx? (·.shape = .vector component size)
  | .pointerType base storage => p.types.items.findIdx? (·.shape = .pointer base storage)
  | .procedureType result => p.types.items.findIdx? (·.shape = .procedure result)
  | .recordType _ _ => none
  | .namedType name => p.types.items.findIdx? fun t => t.name ≠ [] ∧ t.name = name
  | .floatConstant bits => p.constants.items.findIdx? fun c => c.type = f32Type ∧ c.bits = bits

def missing? : PoolCall → Option PoolEntry
  | .vectorType component size => some (.type [] (.vector component size))
  | .pointerType base storage => some (.type [] (.pointer base storage))
  | .procedureType result => some (.type [] (.procedure result))
  | .recordType name members => some (.type name (.record members))
  | .namedType name => (ScalarKind.ofName? name).map fun kind => .type name (.scalar kind)
  | .floatConstant bits => some (.constant bits)

/-- The entry that a call asks for stands at an index. -/
def Names (p : Program) (ref : Nat) : PoolCall → Prop
  | .vectorType component size => p.shapeAt ref = some (.vector component size)
  | .pointerType base storage => p.shapeAt ref = some (.pointer base storage)
  | .procedureType result => p.shapeAt ref = some (.procedure result)
  | .recordType name members =>
    ∃ id, p.types.get? ref = some ⟨name, id, .record members⟩
  | .namedType name => (p.types.get? ref).map (·.name) = some name
  | .floatConstant bits => (p.constants.get? ref).map (·.bits) = some bits

end PoolCall

namespace Program

variable {p q r : Program}

def indexFor (p : Program) : PoolEntry → Nat
  | .type _ _ => p.types.size
  | .constant _ => p.constants.size

def withEntry (p : Program) : PoolEntry → Program
  | .type name shape => p.withType name shape
  | .constant bits => p.withConstant bits

/-- Calls lead from one program to another. Some of them may have failed. -/
inductive PoolReaches : Program → Program → Prop
  | refl (p : Program) : PoolReaches p p
  | call {p q : Program} {call : PoolCall} :
      p.PoolReaches q → call.Refers q → p.PoolReaches (call.after q)

/-- The pools of `p` are the beginnings of those of `q`. -/
structure PoolsPrecede (p q : Program) : Prop where
  types : p.types.toList <+: q.types.toList
  constants : p.constants.toList <+: q.constants.toList

theorem PoolsPrecede.refl (p : Program) : p.PoolsPrecede p :=
  ⟨prefix_refl _, prefix_refl _⟩

theorem PoolsPrecede.trans (hpq : p.PoolsPrecede q) (hqr : q.PoolsPrecede r) : p.PoolsPrecede r :=
  ⟨hpq.types.trans hqr.types, hpq.constants.trans hqr.constants⟩

theorem poolsPrecede_withEntry (p : Program) (entry : PoolEntry) :
    p.PoolsPrecede (p.withEntry entry) := by
  cases entry with
  | type name shape => exact ⟨Arena.prefix_add _ _, prefix_refl _⟩
  | constant bits => exact ⟨prefix_refl _, Arena.prefix_add _ _⟩

end Program

namespace Build

variable {α β : Type} {p : Program}

theorem push_cases (pool : Program → Arena α) (put : Program → Arena α → Program) (item : α) :
    push pool put item p = .ok (pool p).size (put p ((pool p).add item)) ∨
      ∃ e, push pool put item p = .error e p := by
  unfold push
  rw [bind_of_ok (x := get) (a := p) (q := p) rfl]
  by_cases hroom : (pool p).hasRoom = true
  · by_cases hindex : (pool p).hasIndex = true
    · rw [if_pos hroom, if_pos hindex]
      exact .inl rfl
    · rw [if_pos hroom, if_neg hindex]
      exact .inr ⟨_, rfl⟩
  · rw [if_neg hroom]
    exact .inr ⟨_, rfl⟩

theorem map_of_ok {x : Build α} {f : α → β} {a : α} {q : Program} (h : x p = .ok a q) :
    (f <$> x) p = .ok (f a) q := by
  change EStateM.map f x p = _
  unfold EStateM.map
  rw [h]

theorem map_of_error {x : Build α} {f : α → β} {q : Program} (h : x p = .error e q) :
    (f <$> x) p = .error e q := by
  change EStateM.map f x p = _
  unfold EStateM.map
  rw [h]

theorem addType_cases (name : Bytes) (shape : Shape) :
    addType name shape p = .ok p.types.size (p.withType name shape) ∨
      ∃ e, addType name shape p = .error e p := by
  unfold addType
  rw [bind_of_ok (x := get) (a := p) (q := p) rfl]
  rcases push_cases (p := p) (·.types) (fun program types => { program with types })
    ⟨name, p.nextId, shape⟩ with hadd | ⟨e, hfull⟩
  · rw [bind_of_ok hadd]
    exact .inl rfl
  · rw [bind_of_error hfull]
    exact .inr ⟨e, rfl⟩

end Build

namespace PoolCall

variable {p q : Program} {call : PoolCall} {ref : Nat}

theorem typeOfShape_run (shape : Shape) :
    (∃ ref, p.types.items.findIdx? (·.shape = shape) = some ref ∧
      (some <$> Build.typeOfShape shape) p = .ok (some ref) p) ∨
    (p.types.items.findIdx? (·.shape = shape) = none ∧
      ((some <$> Build.typeOfShape shape) p = .ok (some p.types.size) (p.withType [] shape) ∨
        ∃ e, (some <$> Build.typeOfShape shape) p = .error e p)) := by
  cases hfound : p.types.items.findIdx? (·.shape = shape) with
  | some ref =>
    refine .inl ⟨ref, rfl, map_of_ok ?_⟩
    unfold typeOfShape
    rw [bind_of_ok (x := get) (a := p) (q := p) rfl, hfound]
    rfl
  | none =>
    have hnext : typeOfShape shape p = addType [] shape p := by
      unfold typeOfShape
      rw [bind_of_ok (x := get) (a := p) (q := p) rfl, hfound]
    refine .inr ⟨rfl, ?_⟩
    rcases addType_cases (p := p) [] shape with hadd | ⟨e, hfull⟩
    · exact .inl (map_of_ok (hnext.trans hadd))
    · exact .inr ⟨e, map_of_error (hnext.trans hfull)⟩

theorem run_cases (call : PoolCall) (p : Program) :
    (∃ ref, call.found? p = some ref ∧ call.run p = .ok (some ref) p) ∨
    (call.found? p = none ∧ call.missing? = none ∧ call.run p = .ok none p) ∨
    ∃ entry, call.found? p = none ∧ call.missing? = some entry ∧
      (call.run p = .ok (some (p.indexFor entry)) (p.withEntry entry) ∨
        ∃ e, call.run p = .error e p) := by
  cases call with
  | vectorType component size =>
    exact (typeOfShape_run (.vector component size)).imp_right fun h => .inr ⟨_, h.1, rfl, h.2⟩
  | pointerType base storage =>
    exact (typeOfShape_run (.pointer base storage)).imp_right fun h => .inr ⟨_, h.1, rfl, h.2⟩
  | procedureType result =>
    exact (typeOfShape_run (.procedure result)).imp_right fun h => .inr ⟨_, h.1, rfl, h.2⟩
  | recordType name members =>
    refine .inr (.inr ⟨_, rfl, rfl, ?_⟩)
    rcases addType_cases (p := p) name (.record members) with hadd | ⟨e, hfull⟩
    · exact .inl (map_of_ok hadd)
    · exact .inr ⟨e, map_of_error hfull⟩
  | namedType name =>
    simp only [run, found?, missing?, Build.namedType]
    rw [Build.bind_of_ok (x := get) (a := p) (q := p) rfl]
    cases hfound : p.types.items.findIdx? fun t => decide (t.name ≠ [] ∧ t.name = name) with
    | some ref => exact .inl ⟨ref, rfl, rfl⟩
    | none =>
      cases hkind : ScalarKind.ofName? name with
      | none => exact .inr (.inl ⟨rfl, rfl, rfl⟩)
      | some kind =>
        refine .inr (.inr ⟨_, rfl, rfl, ?_⟩)
        rcases addType_cases (p := p) name (.scalar kind) with hadd | ⟨e, hfull⟩
        · exact .inl (map_of_ok hadd)
        · exact .inr ⟨e, map_of_error hfull⟩
  | floatConstant bits =>
    simp only [run, found?, missing?]
    cases hfound : p.constants.items.findIdx? fun c =>
        decide (c.type = f32Type ∧ c.bits = bits) with
    | some ref =>
      refine .inl ⟨ref, rfl, map_of_ok ?_⟩
      unfold Build.floatConstant
      rw [bind_of_ok (x := get) (a := p) (q := p) rfl, hfound]
      rfl
    | none =>
      have hnext : Build.floatConstant bits p = (do
          let ref ← push (·.constants)
            (fun program constants => { program with constants }) ⟨f32Type, p.nextId, bits⟩
          discard freshId
          pure ref : Build ConstantRef) p := by
        unfold Build.floatConstant
        rw [bind_of_ok (x := get) (a := p) (q := p) rfl, hfound]
        rfl
      refine .inr (.inr ⟨_, rfl, rfl, ?_⟩)
      rcases push_cases (p := p) (·.constants)
        (fun program constants => { program with constants }) ⟨f32Type, p.nextId, bits⟩ with
        hadd | ⟨e, hfull⟩
      · exact .inl (map_of_ok (hnext.trans (bind_of_ok hadd)))
      · exact .inr ⟨e, map_of_error (hnext.trans (bind_of_error hfull))⟩

theorem run_of_found (h : call.found? p = some ref) : call.run p = .ok (some ref) p := by
  rcases call.run_cases p with ⟨found, hfound, hrun⟩ | ⟨hnone, -⟩ | ⟨entry, hnone, -⟩
  · rw [h] at hfound
    cases hfound
    exact hrun
  · rw [h] at hnone
    cases hnone
  · rw [h] at hnone
    cases hnone

theorem eq_of_error (h : call.run p = .error e q) : q = p := by
  rcases call.run_cases p with ⟨ref, -, hrun⟩ | ⟨-, -, hrun⟩ | ⟨entry, -, -, hrun | ⟨e', hrun⟩⟩
  all_goals
    rw [h] at hrun
    cases hrun
  rfl

theorem after_cases (call : PoolCall) (p : Program) :
    call.after p = p ∨
      ∃ entry, call.found? p = none ∧ call.missing? = some entry ∧
        call.after p = p.withEntry entry := by
  unfold after
  rcases call.run_cases p with ⟨ref, -, hrun⟩ | ⟨-, -, hrun⟩ |
    ⟨entry, hnone, hentry, hrun | ⟨e, hrun⟩⟩
  · exact .inl (by rw [hrun])
  · exact .inl (by rw [hrun])
  · exact .inr ⟨entry, hnone, hentry, by rw [hrun]⟩
  · exact .inl (by rw [hrun])

theorem precede_after (call : PoolCall) (p : Program) : p.PoolsPrecede (call.after p) := by
  rcases call.after_cases p with hsame | ⟨entry, -, -, hadded⟩
  · rw [hsame]
    exact .refl p
  · rw [hadded]
    exact p.poolsPrecede_withEntry entry

theorem findIdx?_behind {α : Type} {xs ys : Array α} {P : α → Bool} {i : Nat}
    (h : xs.toList <+: ys.toList) (hfound : xs.findIdx? P = some i) : ys.findIdx? P = some i := by
  obtain ⟨rest, hrest⟩ := h
  have hys : ys = xs ++ rest.toArray := by
    apply Array.ext'
    simpa using hrest.symm
  rw [hys, Array.findIdx?_append, hfound]
  rfl

theorem found?_of_precede (h : p.PoolsPrecede q) (hfound : call.found? p = some ref) :
    call.found? q = some ref := by
  cases call with
  | recordType name members => cases hfound
  | floatConstant bits => exact findIdx?_behind h.constants hfound
  | vectorType component size => exact findIdx?_behind h.types hfound
  | pointerType base storage => exact findIdx?_behind h.types hfound
  | procedureType result => exact findIdx?_behind h.types hfound
  | namedType name => exact findIdx?_behind h.types hfound

theorem findIdx?_push {α : Type} {xs : Array α} {P : α → Bool} {x : α}
    (hnone : xs.findIdx? P = none) (hx : P x = true) : (xs.push x).findIdx? P = some xs.size := by
  rw [Array.findIdx?_push, hnone, hx]
  rfl

theorem found?_withEntry {entry : PoolEntry} (hinterning : call.isInterning = true)
    (hnone : call.found? p = none) (hentry : call.missing? = some entry) :
    call.found? (p.withEntry entry) = some (p.indexFor entry) := by
  cases call with
  | recordType name members => cases hinterning
  | namedType name =>
    obtain ⟨kind, hkind, rfl⟩ := Option.map_eq_some_iff.mp hentry
    have hname : name ≠ [] := by
      rw [← ScalarKind.name_of_ofName? hkind]
      cases kind <;> decide
    exact findIdx?_push hnone (decide_eq_true ⟨hname, rfl⟩)
  | vectorType component size =>
    cases hentry
    exact findIdx?_push hnone (decide_eq_true rfl)
  | pointerType base storage =>
    cases hentry
    exact findIdx?_push hnone (decide_eq_true rfl)
  | procedureType result =>
    cases hentry
    exact findIdx?_push hnone (decide_eq_true rfl)
  | floatConstant bits =>
    cases hentry
    exact findIdx?_push hnone (decide_eq_true ⟨rfl, rfl⟩)

theorem found?_of_run (hinterning : call.isInterning = true) (h : call.run p = .ok (some ref) q) :
    call.found? q = some ref := by
  rcases call.run_cases p with ⟨found, hfound, hrun⟩ | ⟨-, -, hrun⟩ |
    ⟨entry, hnone, hentry, hrun | ⟨e, hrun⟩⟩
  · rw [h] at hrun
    cases hrun
    exact hfound
  · rw [h] at hrun
    cases hrun
  · rw [h] at hrun
    cases hrun
    exact found?_withEntry hinterning hnone hentry
  · rw [h] at hrun
    cases hrun

theorem names_of_found (h : call.found? p = some ref) : call.Names p ref := by
  have hentry {α : Type} {a : Arena α} {P : α → Bool} (hfind : a.items.findIdx? P = some ref) :
      ∃ x, a.get? ref = some x ∧ P x = true := by
    obtain ⟨hlt, hx, -⟩ := Array.findIdx?_eq_some_iff_getElem.mp hfind
    exact ⟨_, Array.getElem?_eq_getElem hlt, hx⟩
  cases call with
  | recordType name members => cases h
  | namedType name =>
    obtain ⟨t, hget, ht⟩ := hentry h
    simpa [Names, hget] using (of_decide_eq_true ht).2
  | floatConstant bits =>
    obtain ⟨c, hget, hc⟩ := hentry h
    simpa [Names, hget] using (of_decide_eq_true hc).2
  | vectorType component size =>
    obtain ⟨t, hget, ht⟩ := hentry h
    simpa [Names, Program.shapeAt, hget] using ht
  | pointerType base storage =>
    obtain ⟨t, hget, ht⟩ := hentry h
    simpa [Names, Program.shapeAt, hget] using ht
  | procedureType result =>
    obtain ⟨t, hget, ht⟩ := hentry h
    simpa [Names, Program.shapeAt, hget] using ht

theorem names_of_run (h : call.run p = .ok (some ref) q) : call.Names q ref := by
  cases hinterning : call.isInterning with
  | true => exact names_of_found (found?_of_run hinterning h)
  | false =>
    cases call with
    | recordType name members =>
      obtain ⟨_, hadd, heq⟩ := map_ok.mp h
      obtain ⟨rfl, rfl⟩ := addType_ok hadd
      cases heq
      exact ⟨p.nextId, Arena.get?_add_size _ _⟩
    | _ => cases hinterning

end PoolCall

namespace Program

variable {p q r start : Program} {limits : Limits}

/-- The ids of the entries of the two pools. -/
def poolIds (p : Program) : List UInt32 :=
  p.types.toList.map (·.id) ++ p.constants.toList.map (·.id)

structure Pooled (p : Program) : Prop where
  shapes : p.types.toList.Pairwise fun a b => a.shape = b.shape → a.shape.isRecord = true
  scalars : ∀ t ∈ p.types.toList, ∀ kind, t.shape = .scalar kind → t.name = kind.name
  layered : ∀ ref t, p.types.get? ref = some t → ∀ inner ∈ t.shape.refs, inner < ref
  bits : p.constants.toList.Pairwise fun a b => a.bits ≠ b.bits
  floats : ∀ c ∈ p.constants.toList, c.type = f32Type
  ids : p.poolIds.Perm (idsFrom 2 (p.types.size + p.constants.size))
  nextId : p.nextId = 2 + UInt32.ofNat (p.types.size + p.constants.size)

theorem Fresh.pooled (h : p.Fresh) : p.Pooled := by
  have hsize : p.types.size + p.constants.size = 2 := by
    rw [← Arena.length_toList, ← Arena.length_toList, h.types, h.constants]
    rfl
  constructor
  case shapes => simp [h.types]
  case scalars => simp [h.types, ScalarKind.name]
  case layered =>
    intro ref t hget inner hinner
    have ht := Arena.mem_of_get? hget
    simp only [h.types, mem_cons, not_mem_nil, or_false] at ht
    rcases ht with rfl | rfl <;> cases hinner
  case bits => simp [h.constants]
  case floats => simp [h.constants]
  case ids =>
    rw [hsize, poolIds, h.types, h.constants]
    exact .refl _
  case nextId =>
    rw [hsize, h.nextId]
    rfl

namespace Pooled

theorem ids_concat {before after : List UInt32} {count : Nat}
    (hids : (before ++ after).Perm (idsFrom 2 count)) (hnext : p.nextId = 2 + UInt32.ofNat count) :
    (before ++ p.nextId :: after).Perm (idsFrom 2 (count + 1)) := by
  rw [Binary.idsFrom_add, ← hnext, Binary.idsFrom_one]
  have hlast : (before ++ p.nextId :: after).Perm ((before ++ after) ++ [p.nextId]) :=
    perm_middle.trans (perm_append_singleton _ _).symm
  exact hlast.trans (hids.append_right _)

theorem nextId_concat {count : Nat} (hnext : p.nextId = 2 + UInt32.ofNat count) :
    p.nextId + 1 = 2 + UInt32.ofNat (count + 1) := by
  rw [hnext, UInt32.ofNat_add, UInt32.add_assoc]
  rfl

theorem withType {name : Bytes} {shape : Shape} (h : p.Pooled)
    (hnew : ∀ t ∈ p.types.toList, t.shape = shape → shape.isRecord = true)
    (hscalar : ∀ kind, shape = .scalar kind → name = kind.name)
    (hrefs : ∀ inner ∈ shape.refs, inner < p.types.size) : (p.withType name shape).Pooled := by
  have htypes : (p.withType name shape).types.toList =
      p.types.toList ++ [⟨name, p.nextId, shape⟩] :=
    Arena.toList_add _ _
  have hsize : (p.withType name shape).types.size + p.constants.size =
      p.types.size + p.constants.size + 1 := by
    simp [Program.withType]
    omega
  constructor
  case shapes =>
    rw [htypes, pairwise_append]
    refine ⟨h.shapes, pairwise_singleton _ _, ?_⟩
    intro a ha b hb heq
    cases mem_singleton.mp hb
    rw [heq]
    exact hnew a ha heq
  case scalars =>
    rw [htypes]
    intro t ht kind hkind
    rcases mem_append.mp ht with hold | hlast
    · exact h.scalars t hold kind hkind
    · cases mem_singleton.mp hlast
      exact hscalar kind hkind
  case layered =>
    intro ref t hget inner hinner
    rcases Arena.get?_add hget with ⟨rfl, rfl⟩ | hold
    · exact hrefs inner hinner
    · exact h.layered ref t hold inner hinner
  case bits => exact h.bits
  case floats => exact h.floats
  case ids =>
    rw [poolIds, htypes, map_append, append_assoc]
    exact hsize ▸ ids_concat h.ids h.nextId
  case nextId => exact hsize ▸ nextId_concat h.nextId

theorem withConstant {bits : UInt32} (h : p.Pooled)
    (hnew : ∀ c ∈ p.constants.toList, c.bits ≠ bits) : (p.withConstant bits).Pooled := by
  have hconstants : (p.withConstant bits).constants.toList =
      p.constants.toList ++ [⟨f32Type, p.nextId, bits⟩] := Arena.toList_add _ _
  have hsize : p.types.size + (p.withConstant bits).constants.size =
      p.types.size + p.constants.size + 1 := by
    simp [Program.withConstant]
    omega
  constructor
  case shapes => exact h.shapes
  case scalars => exact h.scalars
  case layered => exact h.layered
  case bits =>
    rw [hconstants, pairwise_append]
    refine ⟨h.bits, pairwise_singleton _ _, ?_⟩
    intro a ha b hb
    cases mem_singleton.mp hb
    exact hnew a ha
  case floats =>
    rw [hconstants]
    intro c hc
    rcases mem_append.mp hc with hold | hlast
    · exact h.floats c hold
    · cases mem_singleton.mp hlast
      rfl
  case ids =>
    have hids := @ids_concat p p.poolIds [] _ (by simpa using h.ids) h.nextId
    rw [poolIds, hconstants, map_append, ← append_assoc]
    exact hsize ▸ hids
  case nextId => exact hsize ▸ nextId_concat h.nextId

theorem withEntry {call : PoolCall} {entry : PoolEntry} (h : p.Pooled) (hrefers : call.Refers p)
    (hnone : call.found? p = none) (hentry : call.missing? = some entry) :
    (p.withEntry entry).Pooled := by
  have habsent {shape : Shape} (hfind : p.types.items.findIdx? (·.shape = shape) = none) :
      ∀ t ∈ p.types.toList, t.shape = shape → shape.isRecord = true := by
    intro t ht heq
    have hneq := Array.findIdx?_eq_none_iff.mp hfind t (Array.mem_toList_iff.mp ht)
    exact absurd heq (of_decide_eq_false hneq)
  cases call with
  | vectorType component size =>
    cases hentry
    exact h.withType (habsent hnone) (fun _ hkind => by cases hkind) hrefers
  | pointerType base storage =>
    cases hentry
    exact h.withType (habsent hnone) (fun _ hkind => by cases hkind) hrefers
  | procedureType result =>
    cases hentry
    exact h.withType (habsent hnone) (fun _ hkind => by cases hkind) hrefers
  | recordType name members =>
    cases hentry
    exact h.withType (fun _ _ _ => rfl) (fun _ hkind => by cases hkind) hrefers
  | namedType name =>
    obtain ⟨kind, hkind, rfl⟩ := Option.map_eq_some_iff.mp hentry
    have hname : kind.name = name := ScalarKind.name_of_ofName? hkind
    refine h.withType ?_ (fun _ heq => by cases heq; exact hname.symm) (by simp [Shape.refs])
    -- A scalar of this kind has this name, by which the search would have found it.
    intro t ht hshape
    have hsame : t.name = name := (h.scalars t ht kind hshape).trans hname
    have hmissed := Array.findIdx?_eq_none_iff.mp hnone t (Array.mem_toList_iff.mp ht)
    have hempty : ¬(t.name ≠ [] ∧ t.name = name) := of_decide_eq_false hmissed
    have hnonempty : t.name ≠ [] := by
      rw [h.scalars t ht kind hshape]
      cases kind <;> decide
    exact absurd ⟨hnonempty, hsame⟩ hempty
  | floatConstant bits =>
    cases hentry
    apply h.withConstant
    intro c hc hbits
    have hmissed := Array.findIdx?_eq_none_iff.mp hnone c (Array.mem_toList_iff.mp hc)
    exact of_decide_eq_false hmissed ⟨h.floats c hc, hbits⟩

theorem after {call : PoolCall} (h : p.Pooled) (hrefers : call.Refers p) :
    (call.after p).Pooled := by
  rcases call.after_cases p with hsame | ⟨entry, hnone, hentry, hadded⟩
  · rw [hsame]
    exact h
  · rw [hadded]
    exact h.withEntry hrefers hnone hentry

theorem reaches (h : p.Pooled) (hreach : p.PoolReaches q) : q.Pooled := by
  induction hreach with
  | refl => exact h
  | call _ hrefers ih => exact ih.after hrefers

theorem distinct (h : p.Pooled) (hcount : p.types.size + p.constants.size + 2 < UInt32.size) :
    p.poolIds.Nodup ∧ ∀ id ∈ p.poolIds, id < p.nextId := by
  have hsize : UInt32.size = 4294967296 := rfl
  constructor
  · exact h.ids.nodup_iff.mpr (Binary.nodup_idsFrom 2 (by omega))
  · intro id hid
    obtain ⟨k, hk, rfl⟩ := mem_map.mp (h.ids.mem_iff.mp hid)
    have hlt : k < p.types.size + p.constants.size := mem_range.mp hk
    rw [h.nextId, UInt32.lt_iff_toNat_lt]
    simp only [UInt32.toNat_add, UInt32.toNat_ofNat', UInt32.reduceToNat]
    omega

end Pooled

theorem PoolReaches.precede (h : p.PoolReaches q) : p.PoolsPrecede q := by
  induction h with
  | refl => exact .refl _
  | call _ _ ih => exact ih.trans (PoolCall.precede_after _ _)

/-- The pools after any calls, some of which may have failed. Only records may share a shape, and
constants have different bits; types are made of earlier ones; ids are distinct and below the next
one; entries stay where they are; an answer is the index of what was asked for and is given again
at any later time, without a change; and a failing call changes nothing. -/
theorem pools_intern (hstart : new limits = .ok start) (hp : start.PoolReaches p) :
    (p.types.toList.Pairwise fun a b => a.shape = b.shape → a.shape.isRecord = true) ∧
    (p.constants.toList.Pairwise fun a b => a.bits ≠ b.bits) ∧
    (∀ ref t, p.types.get? ref = some t → ∀ inner ∈ t.shape.refs, inner < ref) ∧
    (p.types.size + p.constants.size + 2 < UInt32.size →
      p.poolIds.Nodup ∧ ∀ id ∈ p.poolIds, id < p.nextId) ∧
    (∀ q, p.PoolReaches q → p.PoolsPrecede q) ∧
    (∀ call ref q, PoolCall.run call p = .ok (some ref) q →
      call.Names q ref ∧
      (call.isInterning = true → ∀ r, q.PoolReaches r → call.run r = .ok (some ref) r)) ∧
    ∀ call e q, PoolCall.run call p = .error e q → q = p := by
  have hpooled : p.Pooled := (new_ok hstart).pooled.reaches hp
  refine ⟨hpooled.shapes, hpooled.bits, hpooled.layered, hpooled.distinct, fun q hq => hq.precede,
    ?_, ?_⟩
  · intro call ref q hrun
    constructor
    · exact PoolCall.names_of_run hrun
    · intro hinterning r hr
      have hfound := PoolCall.found?_of_run hinterning hrun
      exact PoolCall.run_of_found (PoolCall.found?_of_precede hr.precede hfound)
  · intro call e q hrun
    exact PoolCall.eq_of_error hrun

def crowdedLimits : Limits := { types := 5, constants := 1 }

/-- The program after calls that fill both pools, ask again and ask for too much. -/
def crowded : Program :=
  [PoolCall.vectorType 1 4, .floatConstant 0, .namedType (Text.utf8 "f64"), .pointerType 2 .input,
    .floatConstant 1, .procedureType 4, .vectorType 1 4].foldl (fun p call => call.after p)
    (seeded crowdedLimits.withDefaults)

theorem pools_intern_crowded :
    (crowded.types.size, crowded.constants.size) = (5, 1) ∧
    crowded.poolIds.Nodup ∧ (∀ id ∈ crowded.poolIds, id < crowded.nextId) ∧
    (∀ e q, (PoolCall.procedureType 4).run crowded = .error e q → q = crowded) ∧
    ∀ r, crowded.PoolReaches r → (PoolCall.pointerType 2 .input).run r = .ok (some 4) r := by
  have hstart : new crowdedLimits = .ok (seeded crowdedLimits.withDefaults) :=
    (new_eq _).trans (if_pos (by decide))
  have hreach : (seeded crowdedLimits.withDefaults).PoolReaches crowded := by
    iterate 7 apply PoolReaches.call
    · exact .refl _
    all_goals decide +kernel
  obtain ⟨-, -, -, hids, -, hanswers, hfails⟩ := pools_intern hstart hreach
  obtain ⟨hnodup, hbelow⟩ := hids (by decide +kernel)
  have hpointer : (PoolCall.pointerType 2 .input).run crowded = .ok (some 4) crowded :=
    PoolCall.run_of_found (by decide +kernel)
  exact ⟨by decide +kernel, hnodup, hbelow, hfails _, (hanswers _ _ _ hpointer).2 rfl⟩

end Program

end Shading
