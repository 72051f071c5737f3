import Shading.Proofs.Extension

/-!
The types of a program. A type refers only to types before it, a vector has
two to four components of a scalar type, and a name always means the same kind
of type. These facts are kept by every operation that registers a type.
-/

namespace Shading

open TypeEntry Program

open Binary (idsFrom)

def Shape.isValue : Shape → Bool
  | .scalar _ | .vector _ _ | .record _ => true
  | _ => false

def TypeEntry.NameSound (entry : TypeEntry) : Prop :=
  match entry.shape with
  | .void => entry.name = Text.utf8 "void"
  | .scalar kind => entry.name = kind.name
  | .record _ => isReservedType entry.name = false
  | _ => entry.name = []

theorem ScalarKind.name_injective {k l : ScalarKind} (h : k.name = l.name) : k = l := by
  cases k <;> cases l <;> first | rfl | exact absurd h (by decide)

theorem ScalarKind.ofName?_name (k : ScalarKind) : ofName? k.name = some k := by
  cases k <;> decide

theorem ScalarKind.name_of_ofName? {name : Bytes} {k : ScalarKind} (h : ofName? name = some k) :
    k.name = name := by
  have hk := List.find?_some h
  exact eq_of_beq hk

namespace Program

variable {ref : TypeRef} {kind : ScalarKind} {entry : TypeEntry} {size : UInt32} {name : Bytes}

def ShapeSound (p : Program) (ref : TypeRef) : Shape → Prop
  | .void => ref = voidType
  | .scalar _ => True
  | .vector component size =>
    component < ref ∧ (∃ kind, p.shapeAt component = some (.scalar kind)) ∧
      (size = 2 ∨ size = 3 ∨ size = 4)
  | .pointer base _ => base < ref
  | .procedure result => result < ref
  | .record members => ∀ m ∈ members, m.type < ref

/-- The pools of types and constants are in order. -/
structure Sound (p : Program) : Prop where
  void : p.shapeAt voidType = some .void
  f32 : p.shapeAt f32Type = some (.scalar .f32)
  shapes : ∀ ref entry, p.types.get? ref = some entry →
    p.ShapeSound ref entry.shape ∧ entry.NameSound
  constants : ∀ c ∈ p.constants.toList, c.type = f32Type

def IsValueType (p : Program) (ref : TypeRef) : Prop :=
  ∃ shape, p.shapeAt ref = some shape ∧ shape.isValue = true

variable {p q : Program} {kept : Region → Prop} {names : List Bytes}

theorem shapeAt_lt {shape : Shape} (h : p.shapeAt ref = some shape) :
    ref < p.types.size := by
  obtain ⟨entry, hentry, -⟩ := Option.map_eq_some_iff.mp h
  exact Arena.get?_lt hentry

theorem ShapeSound.mono (h : Extends kept names p q) {shape : Shape} (hs : p.ShapeSound ref shape) :
    q.ShapeSound ref shape := by
  cases shape with
  | vector component size =>
    obtain ⟨hlt, ⟨kind, hkind⟩, hsize⟩ := hs
    exact ⟨hlt, ⟨kind, h.shapeAt hkind⟩, hsize⟩
  | void => exact hs
  | scalar kind => exact hs
  | pointer base storage => exact hs
  | procedure result => exact hs
  | record members => exact hs

theorem IsValueType.mono (h : Extends kept names p q) (hv : p.IsValueType ref) :
    q.IsValueType ref := by
  obtain ⟨shape, hshape, hvalue⟩ := hv
  exact ⟨shape, h.shapeAt hshape, hvalue⟩

theorem Sound.shape (h : p.Sound) {shape : Shape} (hs : p.shapeAt ref = some shape) :
    p.ShapeSound ref shape := by
  obtain ⟨entry, hentry, rfl⟩ := Option.map_eq_some_iff.mp hs
  exact (h.shapes ref entry hentry).1

theorem Sound.size_ne_zero (h : p.Sound) {ref component : TypeRef}
    (hs : p.shapeAt ref = some (.vector component size)) : size ≠ 0 := by
  obtain ⟨-, -, rfl | rfl | rfl⟩ := h.shape hs <;> decide

theorem Sound.congr (h : p.Sound) (htypes : q.types = p.types)
    (hconstants : q.constants = p.constants) : q.Sound := by
  have hshape : ∀ ref, q.shapeAt ref = p.shapeAt ref := by
    intro ref
    rw [shapeAt, shapeAt, htypes]
  refine ⟨?_, ?_, ?_, ?_⟩
  · rw [hshape]
    exact h.void
  · rw [hshape]
    exact h.f32
  · intro ref entry hentry
    rw [htypes] at hentry
    obtain ⟨hsound, hname⟩ := h.shapes ref entry hentry
    refine ⟨?_, hname⟩
    cases hs : entry.shape with
    | vector component size =>
      rw [hs] at hsound
      obtain ⟨hlt, ⟨kind, hkind⟩, hsize⟩ := hsound
      exact ⟨hlt, ⟨kind, (hshape component).trans hkind⟩, hsize⟩
    | void => simpa [hs, ShapeSound] using hsound
    | scalar kind => trivial
    | pointer base storage => simpa [hs, ShapeSound] using hsound
    | procedure result => simpa [hs, ShapeSound] using hsound
    | record members => simpa [hs, ShapeSound] using hsound
  · rw [hconstants]
    exact h.constants

theorem typeAt_shape {shape : Shape} :
    p.shapeAt ref = some shape ↔ ∃ entry, p.typeAt ref = .ok entry ∧ entry.shape = shape := by
  unfold shapeAt
  rw [Option.map_eq_some_iff]
  simp only [typeAt_ok]

theorem scalarKind?_some :
    p.scalarKind? ref = .ok (some kind) ↔ p.shapeAt ref = some (.scalar kind) := by
  unfold scalarKind?
  rw [typeAt_shape]
  cases hentry : p.typeAt ref with
  | error e => simp [bind, Except.bind]
  | ok entry => cases hs : entry.shape <;> simp [bind, Except.bind, pure, Except.pure, hs]

theorem vector?_some {ref component : TypeRef} :
    p.vector? ref = .ok (some (component, size)) ↔
      p.shapeAt ref = some (.vector component size) := by
  unfold vector?
  rw [typeAt_shape]
  cases hentry : p.typeAt ref with
  | error e => simp [bind, Except.bind]
  | ok entry => cases hs : entry.shape <;> simp [bind, Except.bind, pure, Except.pure, hs]

theorem vector?_none :
    p.vector? ref = .ok none ↔
      ∃ shape, p.shapeAt ref = some shape ∧ ∀ component size, shape ≠ .vector component size := by
  unfold vector?
  simp only [typeAt_shape]
  cases hentry : p.typeAt ref with
  | error e => simp [bind, Except.bind]
  | ok entry => cases hs : entry.shape <;> simp [bind, Except.bind, pure, Except.pure, hs]

def Components (p : Program) (ref : TypeRef) (kind : ScalarKind) (count : Nat) : Prop :=
  (p.shapeAt ref = some (.scalar kind) ∧ count = 1) ∨
    ∃ component size, p.shapeAt ref = some (.vector component size) ∧
      p.shapeAt component = some (.scalar kind) ∧ count = size.toNat

theorem Components.mono (h : Extends kept names p q) {count : Nat}
    (hc : p.Components ref kind count) : q.Components ref kind count := by
  rcases hc with ⟨hscalar, hcount⟩ | ⟨component, size, hvector, hscalar, hcount⟩
  · exact .inl ⟨h.shapeAt hscalar, hcount⟩
  · exact .inr ⟨component, size, h.shapeAt hvector, h.shapeAt hscalar, hcount⟩

theorem Components.component {ref component : TypeRef} {count : Nat}
    (hc : p.Components ref kind count) (hshape : p.shapeAt ref = some (.vector component size)) :
    p.shapeAt component = some (.scalar kind) := by
  rcases hc with ⟨hscalar, -⟩ | ⟨component', size', hvector, hscalar, -⟩
  · rw [hshape] at hscalar
    cases hscalar
  · rw [hshape] at hvector
    cases hvector
    exact hscalar

theorem componentKind?_some :
    p.componentKind? ref = .ok (some kind) ↔ ∃ count, p.Components ref kind count := by
  unfold componentKind? Components
  cases hv : p.vector? ref with
  | error e =>
    have hshape : p.shapeAt ref = none := by
      cases hs : p.shapeAt ref with
      | none => rfl
      | some shape =>
        obtain ⟨entry, hentry, -⟩ := typeAt_shape.mp hs
        simp only [vector?, hentry, bind, Except.bind, pure, Except.pure] at hv
        split at hv <;> cases hv
    simp [bind, Except.bind, hshape]
  | ok found =>
    cases found with
    | none =>
      obtain ⟨shape, hshape, hne⟩ := vector?_none.mp hv
      simp only [bind, Except.bind]
      rw [scalarKind?_some]
      constructor
      · intro hscalar
        exact ⟨1, .inl ⟨hscalar, rfl⟩⟩
      · rintro ⟨count, ⟨hscalar, -⟩ | ⟨component, size, hvector, -⟩⟩
        · exact hscalar
        · rw [hshape] at hvector
          exact absurd (Option.some.inj hvector) (hne component size)
    | some found =>
      obtain ⟨component, size⟩ := found
      have hvector := vector?_some.mp hv
      simp only [bind, Except.bind]
      rw [scalarKind?_some]
      constructor
      · intro hscalar
        exact ⟨size.toNat, .inr ⟨component, size, hvector, hscalar, rfl⟩⟩
      · rintro ⟨count, ⟨hscalar, -⟩ | ⟨component', size', hvector', hscalar, -⟩⟩
        · rw [hvector] at hscalar
          cases hscalar
        · rw [hvector] at hvector'
          cases hvector'
          exact hscalar

theorem hasScalar_iff :
    p.hasScalar kind = true ↔ ∃ ref, p.shapeAt ref = some (.scalar kind) := by
  unfold hasScalar shapeAt
  simp only [Array.any_eq_true', decide_eq_true_eq]
  constructor
  · rintro ⟨entry, hmem, hshape⟩
    obtain ⟨ref, href⟩ := Arena.get?_of_mem (a := p.types) (Array.mem_toList_iff.mpr hmem)
    exact ⟨ref, Option.map_eq_some_iff.mpr ⟨entry, href, hshape⟩⟩
  · rintro ⟨ref, href⟩
    obtain ⟨entry, hentry, hshape⟩ := Option.map_eq_some_iff.mp href
    exact ⟨entry, Array.mem_toList_iff.mp (Arena.mem_of_get? hentry), hshape⟩

theorem Sound.named_isValue (h : p.Sound) (hget : p.types.get? ref = some entry)
    (hne : entry.name ≠ []) :
    ref = voidType ∨ p.IsValueType ref := by
  obtain ⟨hshape, hname⟩ := h.shapes ref entry hget
  have hat : p.shapeAt ref = some entry.shape := Option.map_eq_some_iff.mpr ⟨entry, hget, rfl⟩
  cases hs : entry.shape with
  | void =>
    rw [hs] at hshape
    exact .inl hshape
  | scalar kind => exact .inr ⟨_, hat, by rw [hs]; rfl⟩
  | record members => exact .inr ⟨_, hat, by rw [hs]; rfl⟩
  | vector component size => exact absurd (by simpa [NameSound, hs] using hname) hne
  | pointer base storage => exact absurd (by simpa [NameSound, hs] using hname) hne
  | procedure result => exact absurd (by simpa [NameSound, hs] using hname) hne

theorem Sound.scalar_of_name (h : p.Sound) (hget : p.types.get? ref = some entry)
    (hkind : entry.name = kind.name) :
    entry.shape = .scalar kind := by
  have hname := (h.shapes ref entry hget).2
  have hne : kind.name ≠ [] := by cases kind <;> decide
  cases hs : entry.shape with
  | scalar other =>
    simp only [NameSound, hs] at hname
    rw [ScalarKind.name_injective (hname.symm.trans hkind)]
  | void =>
    simp only [NameSound, hs] at hname
    exact absurd (hname.symm.trans hkind) (by cases kind <;> decide)
  | record members =>
    simp only [NameSound, hs, isReservedType, hkind, ScalarKind.ofName?_name] at hname
    simp at hname
  | vector component size =>
    simp only [NameSound, hs] at hname
    exact absurd (hkind.symm.trans hname) hne
  | pointer base storage =>
    simp only [NameSound, hs] at hname
    exact absurd (hkind.symm.trans hname) hne
  | procedure result =>
    simp only [NameSound, hs] at hname
    exact absurd (hkind.symm.trans hname) hne

theorem Sound.void_iff_name (h : p.Sound) {ref : TypeRef} (hget : p.types.get? ref = some entry) :
    ref = voidType ↔ entry.name = Text.utf8 "void" := by
  obtain ⟨hshape, hname⟩ := h.shapes ref entry hget
  constructor
  · rintro rfl
    obtain ⟨found, hfound, hs⟩ := Option.map_eq_some_iff.mp h.void
    obtain rfl : entry = found := Option.some.inj (hget.symm.trans hfound)
    simpa [NameSound, hs] using hname
  · intro hvoid
    cases hs : entry.shape with
    | void =>
      rw [hs] at hshape
      exact hshape
    | scalar kind =>
      simp only [NameSound, hs, hvoid] at hname
      exact absurd hname (by cases kind <;> decide)
    | _ =>
      simp only [NameSound, hs, hvoid] at hname
      exact absurd hname (by decide)

def IsPosition (p : Program) (ref : TypeRef) : Prop := p.shapeAt ref = some (.vector f32Type 4)

def withType (p : Program) (name : Bytes) (shape : Shape) : Program :=
  { p with types := p.types.add ⟨name, p.nextId, shape⟩, nextId := p.nextId + 1 }

theorem shapeAt_withType {shape : Shape} :
    (p.withType name shape).shapeAt p.types.size = some shape := by
  simp [shapeAt, withType]

theorem extends_withType {shape : Shape} (h : ∀ kind, shape = .scalar kind → kind.name ∈ names)
    (hrecord : kept .records → ∀ members, shape ≠ .record members) :
    Extends kept names p (p.withType name shape) := by
  have happends : p.Appends (p.withType name shape) { types := [⟨name, p.nextId, shape⟩] } := by
    constructor <;> simp [withType]
  refine happends.extends 1 rfl ?_ ?_ ?_ (fun _ => rfl) (fun _ _ => .inr rfl)
  · simp [Added.resultIds]
  · intro t ht
    obtain rfl := List.mem_singleton.mp ht
    exact h
  · intro hkept t ht
    obtain rfl := List.mem_singleton.mp ht
    cases shape with
    | record members => exact absurd rfl (hrecord hkept members)
    | _ => rfl

theorem Sound.withType (h : p.Sound) {shape : Shape} (hshape : p.ShapeSound p.types.size shape)
    (hname : (⟨name, p.nextId, shape⟩ : TypeEntry).NameSound) : (p.withType name shape).Sound := by
  have hext : Extends (fun _ => False) (ScalarKind.all.map (·.name)) p (p.withType name shape) := by
    refine extends_withType ?_ False.elim
    rintro kind -
    exact List.mem_map_of_mem (by cases kind <;> decide)
  refine ⟨hext.shapeAt h.void, hext.shapeAt h.f32, ?_, h.constants⟩
  intro ref entry hentry
  rcases Arena.get?_add hentry with ⟨rfl, rfl⟩ | hold
  · exact ⟨hshape.mono hext, hname⟩
  · obtain ⟨hsound, hnamed⟩ := h.shapes ref entry hold
    exact ⟨hsound.mono hext, hnamed⟩

end Program

namespace Build

variable {p q : Program} {ref : TypeRef} {shape : Shape} {name : Bytes}

theorem addType_ok (h : addType name shape p = .ok ref q) :
    ref = p.types.size ∧ q = p.withType name shape := by
  simp only [addType, bind_ok, get_ok, push_ok, discard_ok, freshId_ok, pure_ok] at h
  obtain ⟨_, _, ⟨rfl, rfl⟩, _, _, ⟨-, rfl, rfl⟩, _, _, ⟨_, rfl, rfl⟩, rfl, rfl⟩ := h
  exact ⟨rfl, rfl⟩

theorem typeOfShape_ok (h : typeOfShape shape p = .ok ref q) :
    q.shapeAt ref = some shape ∧ (q = p ∨ q = p.withType [] shape) := by
  simp only [typeOfShape, bind_ok, get_ok] at h
  obtain ⟨_, _, ⟨rfl, rfl⟩, h⟩ := h
  cases hfind : Array.findIdx? (fun t => decide (t.shape = shape)) p.types.items with
  | some found =>
    rw [hfind] at h
    obtain ⟨rfl, rfl⟩ := pure_ok.mp h
    obtain ⟨hlt, hshape, -⟩ := Array.findIdx?_eq_some_iff_getElem.mp hfind
    refine ⟨?_, .inl rfl⟩
    rw [shapeAt, Arena.get?, Array.getElem?_eq_getElem hlt]
    exact congrArg some (of_decide_eq_true hshape)
  | none =>
    rw [hfind] at h
    obtain ⟨rfl, rfl⟩ := addType_ok h
    exact ⟨shapeAt_withType, .inr rfl⟩

theorem typeOfShape_grows (h : typeOfShape shape p = .ok ref q)
    (hshape : (∀ kind, shape ≠ .scalar kind) ∧ ∀ members, shape ≠ .record members) :
    p.Grows [] q := by
  rcases (typeOfShape_ok h).2 with rfl | rfl
  · exact .refl _
  · exact extends_withType (fun kind hkind => absurd hkind (hshape.1 kind)) fun _ => hshape.2

theorem typeOfShape_sound (h : typeOfShape shape p = .ok ref q) (hp : p.Sound)
    (hshape : p.ShapeSound p.types.size shape)
    (hname : (⟨[], p.nextId, shape⟩ : TypeEntry).NameSound) : q.Sound := by
  rcases (typeOfShape_ok h).2 with rfl | rfl
  · exact hp
  · exact hp.withType hshape hname

/-- A name is looked up among the types there are, and only the name of a scalar type adds one. -/
theorem namedType_cases {found : Option TypeRef} (h : namedType name p = .ok found q) :
    (q = p ∧ found = p.types.items.findIdx? fun t => decide (t.name ≠ [] ∧ t.name = name)) ∨
    ∃ kind, ScalarKind.ofName? name = some kind ∧ found = some p.types.size ∧
      q = p.withType name (.scalar kind) := by
  simp only [namedType, bind_ok, get_ok] at h
  obtain ⟨_, _, ⟨rfl, rfl⟩, h⟩ := h
  cases hfind : Array.findIdx? (fun t : TypeEntry => decide (t.name ≠ [] ∧ t.name = name))
      p.types.items with
  | some ref =>
    rw [hfind] at h
    obtain ⟨rfl, rfl⟩ := pure_ok.mp h
    exact .inl ⟨rfl, rfl⟩
  | none =>
    rw [hfind] at h
    cases hkind : ScalarKind.ofName? name with
    | none =>
      rw [hkind] at h
      obtain ⟨rfl, rfl⟩ := pure_ok.mp h
      exact .inl ⟨rfl, rfl⟩
    | some kind =>
      rw [hkind] at h
      obtain ⟨_, hadd, rfl⟩ := map_ok.mp h
      obtain ⟨rfl, rfl⟩ := addType_ok hadd
      exact .inr ⟨kind, rfl, rfl, rfl⟩

theorem namedType_ok (hp : p.Sound) (h : namedType name p = .ok (some ref) q) :
    p.Grows [name] q ∧ q.Sound ∧ (ref = voidType ∨ q.IsValueType ref) ∧
      (∃ entry, q.types.get? ref = some entry ∧ entry.name = name) ∧
      ∀ kind : ScalarKind, kind.name = name → q.hasScalar kind = true := by
  obtain ⟨rfl, hfind⟩ | ⟨kind, hkind, hfound, rfl⟩ := namedType_cases h
  · obtain ⟨hlt, hentry, -⟩ := Array.findIdx?_eq_some_iff_getElem.mp hfind.symm
    obtain ⟨hne, hname⟩ := of_decide_eq_true hentry
    have hget := Array.getElem?_eq_getElem hlt
    refine ⟨.refl _, hp, hp.named_isValue hget hne, ⟨_, hget, hname⟩, ?_⟩
    intro kind hkind
    have hshape := hp.scalar_of_name hget (hname.trans hkind.symm)
    exact hasScalar_iff.mpr ⟨ref, Option.map_eq_some_iff.mpr ⟨_, hget, hshape⟩⟩
  · obtain rfl := Option.some.inj hfound
    have hname : kind.name = name := ScalarKind.name_of_ofName? hkind
    refine ⟨?_, hp.withType trivial hname.symm, .inr ⟨_, shapeAt_withType, rfl⟩,
      ⟨_, Arena.get?_add_size _ _, rfl⟩, ?_⟩
    · refine extends_withType ?_ fun _ _ heq => by cases heq
      intro other hother
      cases hother
      simp [hname]
    · intro other hother
      obtain rfl := ScalarKind.name_injective (hname.trans hother.symm)
      exact hasScalar_iff.mpr ⟨_, shapeAt_withType⟩

end Build

namespace TypeSyntax

def leaf : TypeSyntax → Bytes
  | .missing _ => []
  | .named name => name.text
  | .vector _ _ component _ => component.leaf

def isVoid : TypeSyntax → Bool
  | .named name => name.text = Text.utf8 "void"
  | _ => false

def Sized : TypeSyntax → Prop
  | .vector _ size component _ => (size = 2 ∨ size = 3 ∨ size = 4) ∧ component.Sized
  | _ => True

end TypeSyntax

mutual

def Stmt.types : Stmt → List TypeSyntax
  | .declare _ _ type _ _ _ => [type]
  | .group _ body _ => blockTypes body
  | _ => []

def blockTypes : List Stmt → List TypeSyntax
  | [] => []
  | stmt :: rest => stmt.types ++ blockTypes rest

end

def Item.types : Item → List TypeSyntax
  | .global _ _ _ type _ => [type]
  | .record _ _ members _ => members.map (·.type)
  | .procedure _ _ result body _ => result :: blockTypes body
  | _ => []

namespace Elaborate

variable {s t : Elaboration} {ref : TypeRef} {written : TypeSyntax}

theorem type_ok (h : type written s = .ok (ref, t)) (hs : s.program.Sound)
    (hsized : written.Sized) :
    ∃ q, t = { s with program := q } ∧ s.program.Grows [written.leaf] q ∧ q.Sound ∧
      (ref = voidType ∨ q.IsValueType ref) ∧ (ref = voidType ↔ written.isVoid = true) ∧
      ∀ kind : ScalarKind, kind.name = written.leaf → q.hasScalar kind = true := by
  induction written generalizing s t ref with
  | missing why => exact (throw_ok.mp h).elim
  | named name =>
    simp only [type, bind_ok, build_ok] at h
    obtain ⟨found, _, ⟨q, hnamed, rfl⟩, h⟩ := h
    cases found with
    | none => exact (refuse_ok.mp h).elim
    | some found =>
      obtain ⟨rfl, rfl⟩ := pure_ok.mp h
      obtain ⟨hgrows, hq, hvalue, ⟨entry, hentry, hname⟩, hscalars⟩ :=
        Build.namedType_ok hs hnamed
      refine ⟨q, rfl, hgrows, hq, hvalue, ?_, hscalars⟩
      rw [hq.void_iff_name hentry, hname]
      simp [TypeSyntax.isVoid]
  | vector pos size component close ih =>
    obtain ⟨hsize, hcomponent⟩ := hsized
    simp only [type, bind_ok, view_ok, ite_ok, refuse_ok, part_ok, build_ok, false_and, and_false,
      exists_false, false_or] at h
    obtain ⟨found, _, hfound, kind, _, ⟨hkind, rfl⟩, hscalar, close', _, ⟨-, rfl⟩, q, hq, rfl⟩ := h
    obtain ⟨r, rfl, hext, hr, -, -, hname⟩ := ih hfound hs hcomponent
    obtain ⟨kind, rfl⟩ := Option.ne_none_iff_exists'.mp (by simpa using hscalar)
    have hshape : r.shapeAt found = some (.scalar kind) := scalarKind?_some.mp hkind
    have hgrow : r.Grows [] q := Build.typeOfShape_grows hq (by simp)
    have hsound : q.Sound :=
      Build.typeOfShape_sound hq hr ⟨shapeAt_lt hshape, ⟨kind, hshape⟩, hsize⟩ rfl
    have hvector := (Build.typeOfShape_ok hq).1
    refine ⟨q, rfl, by simpa [TypeSyntax.leaf] using hext.trans hgrow, hsound,
      .inr ⟨_, hvector, rfl⟩, ⟨?_, fun hno => (Bool.false_ne_true hno).elim⟩, ?_⟩
    · rintro rfl
      rw [hsound.void] at hvector
      cases hvector
    · intro kind hkind
      exact hgrow.hasScalar (hname kind hkind)

theorem variableType_ok {name : Bytes} (h : variableType name written s = .ok (ref, t))
    (hs : s.program.Sound) (hsized : written.Sized) :
    ∃ q, t = { s with program := q } ∧ s.program.Grows [written.leaf] q ∧ q.Sound ∧
      q.IsValueType ref ∧
      ∀ kind : ScalarKind, kind.name = written.leaf → q.hasScalar kind = true := by
  simp only [variableType, bind_ok, ite_ok, refuse_ok, pure_ok, false_and, and_false, exists_false,
    false_or] at h
  obtain ⟨found, _, hfound, hne, rfl, rfl⟩ := h
  obtain ⟨q, rfl, hext, hq, hvalue, -, hname⟩ := type_ok hfound hs hsized
  exact ⟨q, rfl, hext, hq, hvalue.resolve_left hne, hname⟩

theorem checkPosition_ok {pos : Position} {u : Unit} (h : checkPosition ref pos s = .ok (u, t)) :
    t = s ∧ s.program.IsPosition ref := by
  simp only [checkPosition, bind_ok, view_ok, ite_ok, refuse_ok, pure_ok, and_false, false_or] at h
  obtain ⟨found, _, ⟨hfound, rfl⟩, hsame, -, rfl⟩ := h
  obtain rfl := Decidable.not_not.mp hsame
  exact ⟨rfl, vector?_some.mp hfound⟩

end Elaborate

end Shading
