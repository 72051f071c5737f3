import Shading.Proofs.Safety.Closed

/-!
The texts that show types. Void, scalars and records are shown by their names,
which are words; vectors, pointers and procedure types by the texts of what
they are made of, between marks that no word has. So a text tells the shape of
its type and the texts of its parts, and by induction on how the text is made,
in a program whose types are apart, it tells the type.
-/

namespace Shading

open Text List Arena

open Text (utf8 decimal OneLine)

variable {base other : TypeRef}

def Shape.hasName : Shape → Bool
  | .void | .scalar _ | .record _ => true
  | _ => false

namespace TypeEntry.Titled

variable {t : TypeEntry}

theorem continuesWord (h : t.Titled) (hname : t.shape.hasName = true) {b : UInt8}
    (hb : b ∈ t.name) : Lexeme.continuesWord b = true := by
  unfold Titled at h
  cases hshape : t.shape with
  | void =>
    rw [hshape] at h
    have hvoid : ∀ b ∈ utf8 "void", Lexeme.continuesWord b = true := by decide +kernel
    exact hvoid b (h ▸ hb)
  | scalar kind =>
    rw [hshape] at h
    have hscalars : ∀ b ∈ kind.name, Lexeme.continuesWord b = true := by
      cases kind <;> decide +kernel
    exact hscalars b (h ▸ hb)
  | record members =>
    rw [hshape] at h
    exact Lexeme.continuesWord_of_mem h hb
  | _ =>
    rw [hshape] at hname
    cases hname

theorem name_ne_nil (h : t.Titled) (hname : t.shape.hasName = true) : t.name ≠ [] := by
  unfold Titled at h
  cases hshape : t.shape with
  | void =>
    rw [hshape] at h
    rw [h]
    decide
  | scalar kind =>
    rw [hshape] at h
    rw [h]
    cases kind <;> decide
  | record members =>
    rw [hshape] at h
    intro hnil
    rw [hnil] at h
    cases h
  | _ =>
    rw [hshape] at hname
    cases hname

theorem name_eq_nil (h : t.Titled) (hname : t.shape.hasName = false) : t.name = [] := by
  unfold Titled at h
  cases hshape : t.shape with
  | pointer base storage =>
    rw [hshape] at h
    exact h.1
  | vector component size =>
    rw [hshape] at h
    exact h
  | procedure result =>
    rw [hshape] at h
    exact h
  | _ =>
    rw [hshape] at hname
    cases hname

theorem storage_isNamed (h : t.Titled) {storage : StorageClass}
    (hshape : t.shape = .pointer base storage) : storage.isNamed = true := by
  unfold Titled at h
  rw [hshape] at h
  exact h.2

end TypeEntry.Titled

theorem StorageClass.name_inj {storage storage' : StorageClass} (h : storage.isNamed = true)
    (h' : storage'.isNamed = true) (heq : utf8 storage.name = utf8 storage'.name) :
    storage = storage' := by
  cases storage <;> cases storage' <;>
    first
    | rfl
    | exact (Bool.false_ne_true h).elim
    | exact (Bool.false_ne_true h').elim
    | exact absurd heq (by decide)

theorem StorageClass.comma_notMem_name (storage : StorageClass) :
    byte ',' ∉ utf8 storage.name := by
  cases storage <;> (simp only [name]; decide)

namespace Text

def ofVector (size : UInt32) (inner : Bytes) : Bytes :=
  utf8 "vec" ++ decimal size.toNat ++ utf8 "<" ++ inner ++ utf8 ">"

def ofPointer (storage : StorageClass) (inner : Bytes) : Bytes :=
  utf8 "ptr<" ++ utf8 storage.name ++ utf8 ", " ++ inner ++ utf8 ">"

def ofProcedure (result : Bytes) : Bytes := utf8 "procedure() -> " ++ result

variable {size size' : UInt32} {storage storage' : StorageClass} {inner inner' : Bytes}

theorem ofVector_inj (h : ofVector size inner = ofVector size' inner') :
    size = size' ∧ inner = inner' := by
  unfold ofVector at h
  simp only [append_assoc] at h
  have hmark : ∀ n, byte '<' ∉ decimal n := by
    intro n hmem
    exact absurd (toNat_of_mem_decimal hmem).2 (by decide)
  obtain ⟨hsize, hrest⟩ := append_cons_inj (hmark _) (hmark _) (append_cancel_left h)
  exact ⟨UInt32.toNat_inj.mp (decimal_inj hsize), append_cancel_right hrest⟩

theorem ofPointer_inj (hnamed : storage.isNamed = true) (hnamed' : storage'.isNamed = true)
    (h : ofPointer storage inner = ofPointer storage' inner') :
    storage = storage' ∧ inner = inner' := by
  unfold ofPointer at h
  simp only [append_assoc] at h
  obtain ⟨hstorage, hrest⟩ := append_cons_inj storage.comma_notMem_name storage'.comma_notMem_name
    (append_cancel_left h)
  exact ⟨StorageClass.name_inj hnamed hnamed' hstorage,
    append_cancel_right (cons.inj hrest).2⟩

theorem ofProcedure_inj (h : ofProcedure inner = ofProcedure inner') : inner = inner' :=
  append_cancel_left h

/-! The first two bytes tell the kinds of texts apart. -/

theorem ofVector_ne_ofPointer : ofVector size inner ≠ ofPointer storage inner' := by
  intro h
  have htake : utf8 "ve" = utf8 "pt" := congrArg (take 2) h
  exact absurd htake (by decide)

theorem ofVector_ne_ofProcedure : ofVector size inner ≠ ofProcedure inner' := by
  intro h
  have htake : utf8 "ve" = utf8 "pr" := congrArg (take 2) h
  exact absurd htake (by decide)

theorem ofPointer_ne_ofProcedure : ofPointer storage inner ≠ ofProcedure inner' := by
  intro h
  have htake : utf8 "pt" = utf8 "pr" := congrArg (take 2) h
  exact absurd htake (by decide)

/-! Each kind has a byte that is in no word. -/

theorem mem_ofVector : byte '<' ∈ ofVector size inner := by
  have hmem : byte '<' ∈ utf8 "<" := by decide
  simp [ofVector, hmem]

theorem mem_ofPointer : byte '<' ∈ ofPointer storage inner := by
  have hmem : byte '<' ∈ utf8 "ptr<" := by decide
  simp [ofPointer, hmem]

theorem mem_ofProcedure : byte '(' ∈ ofProcedure inner := by
  have hmem : byte '(' ∈ utf8 "procedure() -> " := by decide
  simp [ofProcedure, hmem]

theorem oneLine_ofVector (h : OneLine inner) : OneLine (ofVector size inner) := by
  simp only [ofVector, oneLine_append, oneLine_decimal, h, and_true]
  decide

theorem oneLine_ofPointer (h : OneLine inner) : OneLine (ofPointer storage inner) := by
  have hstorage : OneLine (utf8 storage.name) := by
    cases storage <;> (simp only [StorageClass.name]; decide)
  simp only [ofPointer, oneLine_append, hstorage, h, and_true]
  decide

theorem oneLine_ofProcedure (h : OneLine inner) : OneLine (ofProcedure inner) := by
  simp only [ofProcedure, oneLine_append, h, and_true]
  decide

end Text

namespace Program

variable {p : Program} {ref : TypeRef}

inductive Depicts (p : Program) : TypeRef → Bytes → Prop
  | own {ref : TypeRef} {t : TypeEntry} : p.types.get? ref = some t → t.shape.hasName = true →
      Depicts p ref t.name
  | vector {ref component : TypeRef} {size : UInt32} {inner : Bytes} :
      p.shapeAt ref = some (.vector component size) → Depicts p component inner →
      Depicts p ref (ofVector size inner)
  | pointer {ref base : TypeRef} {storage : StorageClass} {inner : Bytes} :
      p.shapeAt ref = some (.pointer base storage) → Depicts p base inner →
      Depicts p ref (ofPointer storage inner)
  | procedure {ref result : TypeRef} {inner : Bytes} :
      p.shapeAt ref = some (.procedure result) → Depicts p result inner →
      Depicts p ref (ofProcedure inner)

theorem depicts_of_typeNameWithin {fuel : Nat} {text : Bytes}
    (h : p.typeNameWithin fuel ref = .ok text) : p.Depicts ref text := by
  induction fuel generalizing ref text with
  | zero => cases h
  | succ fuel ih =>
    unfold typeNameWithin at h
    cases hentry : p.typeAt ref with
    | error f =>
      rw [hentry] at h
      cases h
    | ok t =>
      have hget := typeAt_ok.mp hentry
      have hshape : p.shapeAt ref = some t.shape := by rw [shapeAt, hget]; rfl
      rw [hentry] at h
      simp only [bind, Except.bind] at h
      cases hs : t.shape with
      | vector component size =>
        simp only [hs] at h
        cases hinner : p.typeNameWithin fuel component with
        | error f =>
          rw [hinner] at h
          cases h
        | ok inner =>
          rw [hinner] at h
          cases h
          exact .vector (hshape.trans (congrArg some hs)) (ih hinner)
      | pointer base storage =>
        simp only [hs] at h
        cases hinner : p.typeNameWithin fuel base with
        | error f =>
          rw [hinner] at h
          cases h
        | ok inner =>
          rw [hinner] at h
          cases h
          exact .pointer (hshape.trans (congrArg some hs)) (ih hinner)
      | procedure result =>
        simp only [hs] at h
        cases hinner : p.typeNameWithin fuel result with
        | error f =>
          rw [hinner] at h
          cases h
        | ok inner =>
          rw [hinner] at h
          cases h
          exact .procedure (hshape.trans (congrArg some hs)) (ih hinner)
      | _ =>
        simp only [hs] at h
        cases h
        exact .own hget (by rw [hs]; rfl)

namespace TypesApart

theorem eq_of_get? (h : p.TypesApart) {i j : TypeRef} {t u : TypeEntry}
    (hi : p.types.get? i = some t) (hj : p.types.get? j = some u) (hname : t.name = u.name)
    (hshape : t.name = [] → t.shape = u.shape) : i = j := by
  have hpairwise := pairwise_iff_getElem.mp h.2
  rw [get?_eq] at hi hj
  obtain ⟨hilt, rfl⟩ := List.getElem?_eq_some_iff.mp hi
  obtain ⟨hjlt, rfl⟩ := List.getElem?_eq_some_iff.mp hj
  rcases Nat.lt_trichotomy i j with hlt | heq | hgt
  · obtain ⟨hnil, hne⟩ := hpairwise i j hilt hjlt hlt hname
    exact absurd (hshape hnil) hne
  · exact heq
  · obtain ⟨hnil, hne⟩ := hpairwise j i hjlt hilt hgt hname.symm
    exact absurd (hshape (hname.trans hnil)).symm hne

theorem eq_of_shapeAt (h : p.TypesApart) {i j : TypeRef} {shape : Shape}
    (hi : p.shapeAt i = some shape) (hj : p.shapeAt j = some shape)
    (hname : shape.hasName = false) : i = j := by
  obtain ⟨t, ht, rfl⟩ := Option.map_eq_some_iff.mp hi
  obtain ⟨u, hu, hshape⟩ := Option.map_eq_some_iff.mp hj
  have htnil := (h.1 t (mem_of_get? ht)).name_eq_nil hname
  have hunil := (h.1 u (mem_of_get? hu)).name_eq_nil (hshape ▸ hname)
  exact h.eq_of_get? ht hu (htnil.trans hunil.symm) fun _ => hshape.symm

theorem storage_isNamed (h : p.TypesApart) {storage : StorageClass}
    (hshape : p.shapeAt ref = some (.pointer base storage)) : storage.isNamed = true := by
  obtain ⟨t, ht, hs⟩ := Option.map_eq_some_iff.mp hshape
  exact (h.1 t (mem_of_get? ht)).storage_isNamed hs

end TypesApart

namespace Depicts

variable {text : Bytes}

theorem oneLine (h : p.TypesApart) (hs : p.Depicts ref text) : OneLine text := by
  induction hs with
  | own hget hname =>
    intro hmem
    have htitled := h.1 _ (mem_of_get? hget)
    exact absurd (htitled.continuesWord hname hmem) (by decide)
  | vector _ _ ih => exact oneLine_ofVector ih
  | pointer _ _ ih => exact oneLine_ofPointer ih
  | procedure _ _ ih => exact oneLine_ofProcedure ih

theorem eq_of_own (h : p.TypesApart) {t : TypeEntry} (hget : p.types.get? ref = some t)
    (hname : t.shape.hasName = true) (hs : p.Depicts other text) (heq : text = t.name) :
    ref = other := by
  have htitled := h.1 t (mem_of_get? hget)
  have hmark : ∀ mark ∈ text, Lexeme.continuesWord mark = true := by
    rw [heq]
    exact fun mark hmem => htitled.continuesWord hname hmem
  cases hs with
  | own hother hname' =>
    exact h.eq_of_get? hget hother heq.symm fun hnil =>
      absurd hnil (htitled.name_ne_nil hname)
  | vector => exact absurd (hmark _ mem_ofVector) (by decide)
  | pointer => exact absurd (hmark _ mem_ofPointer) (by decide)
  | procedure => exact absurd (hmark _ mem_ofProcedure) (by decide)

theorem inj (h : p.TypesApart) {i j : TypeRef} (hi : p.Depicts i text) (hj : p.Depicts j text) :
    i = j := by
  induction hi generalizing j with
  | own hget hname => exact eq_of_own h hget hname hj rfl
  | @vector i component size inner hshape hinner ih =>
    generalize hmade : ofVector size inner = made at hj
    cases hj with
    | own hget hname => exact (eq_of_own h hget hname (.vector hshape hinner) hmade).symm
    | vector hshape' hinner' =>
      obtain ⟨rfl, rfl⟩ := ofVector_inj hmade
      obtain rfl := ih hinner'
      exact h.eq_of_shapeAt hshape hshape' rfl
    | pointer => exact absurd hmade ofVector_ne_ofPointer
    | procedure => exact absurd hmade ofVector_ne_ofProcedure
  | @pointer i base storage inner hshape hinner ih =>
    generalize hmade : ofPointer storage inner = made at hj
    cases hj with
    | own hget hname => exact (eq_of_own h hget hname (.pointer hshape hinner) hmade).symm
    | vector => exact absurd hmade.symm ofVector_ne_ofPointer
    | pointer hshape' hinner' =>
      obtain ⟨rfl, rfl⟩ :=
        ofPointer_inj (h.storage_isNamed hshape) (h.storage_isNamed hshape') hmade
      obtain rfl := ih hinner'
      exact h.eq_of_shapeAt hshape hshape' rfl
    | procedure => exact absurd hmade ofPointer_ne_ofProcedure
  | @procedure i result inner hshape hinner ih =>
    generalize hmade : ofProcedure inner = made at hj
    cases hj with
    | own hget hname => exact (eq_of_own h hget hname (.procedure hshape hinner) hmade).symm
    | vector => exact absurd hmade.symm ofVector_ne_ofProcedure
    | pointer => exact absurd hmade.symm ofPointer_ne_ofProcedure
    | procedure hshape' hinner' =>
      obtain rfl := ofProcedure_inj hmade
      obtain rfl := ih hinner'
      exact h.eq_of_shapeAt hshape hshape' rfl

end Depicts

/-- Every type of a program is shown by a text, and no two types by the same. -/
def NamesIdentify (p : Program) : Prop :=
  (∀ ref < p.types.size, ∃ text, p.typeName ref = .ok text) ∧
    ∀ i < p.types.size, ∀ j < p.types.size, p.typeName i = p.typeName j → i = j

theorem TypesApart.namesIdentify (h : p.TypesApart)
    (hbelow : ∀ ref entry, p.types.get? ref = some entry → entry.shape.Below ref) :
    p.NamesIdentify := by
  refine ⟨fun ref href => typeName_of_below hbelow href, fun i hi j hj heq => ?_⟩
  obtain ⟨text, htext⟩ := typeName_of_below hbelow hi
  exact Depicts.inj h (depicts_of_typeNameWithin htext) (depicts_of_typeNameWithin (heq ▸ htext))

variable {room : Room}

theorem Named.typeName (h : p.Named room) (href : ref < p.types.size) :
    ∃ text, p.typeName ref = .ok text ∧ OneLine text := by
  obtain ⟨text, htext⟩ := typeName_of_below h.types href
  exact ⟨text, htext, (depicts_of_typeNameWithin htext).oneLine h.labelled.1⟩

theorem Named.typeName_inj (h : p.Named room) {text : Bytes} (href : p.typeName ref = .ok text)
    (hother : p.typeName other = .ok text) : ref = other :=
  Depicts.inj h.labelled.1 (depicts_of_typeNameWithin href) (depicts_of_typeNameWithin hother)

theorem Named.namesIdentify (h : p.Named room) {types : Arena TypeEntry}
    (htypes : types.toList <+: p.types.toList) : { p with types }.NamesIdentify := by
  have hapart : { p with types }.TypesApart :=
    ⟨fun t ht => h.labelled.1.1 t (htypes.subset ht), h.labelled.1.2.sublist htypes.sublist⟩
  exact hapart.namesIdentify fun ref entry hentry =>
    h.types ref entry (get?_mono htypes hentry)

end Program

end Shading
