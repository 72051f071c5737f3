import Shading.Proofs.Compilation

/-!
Attributes. An attribute waits for the item right behind it: a stage for a
procedure, a built-in meaning for a global variable. What waits is state that
every item has to deal with, so each step is followed to what it does with it.
In an accepted source no attribute is left over, and so each one is found
again in the program, at the declaration that it stands before.
-/

namespace Shading

open List Elaboration Elaborate

variable {tokens : List Token} {attributes : Nat} {p : Program}

/-- Whether an item is an attribute of the item behind it. -/
def Item.isAttribute : Item → Bool
  | .stage _ _ _ | .builtin _ _ _ => true
  | _ => false

def Item.stage? : Item → Option Stage
  | .stage _ found _ => some found
  | _ => none

def Item.isBuiltin : Item → Bool
  | .builtin _ _ _ => true
  | _ => false

def Item.Known : Item → Prop
  | .builtin _ found _ => found = .position
  | .global _ direction _ _ _ => (Grammar.directionKeyword direction).isSome = true
  | _ => True

theorem Grammar.TopLevel.known {item : Item} (h : TopLevel tokens item) : item.Known := by
  cases h with
  | builtin _ _ => rfl
  | global hkeyword _ _ _ => exact Option.isSome_of_eq_some hkeyword
  | _ => trivial

theorem Grammar.File.known {items : List Item} (h : File tokens items) :
    ∀ item ∈ items, item.Known := by
  induction h with
  | done => exact fun _ hitem => (not_mem_nil hitem).elim
  | next hitem _ ih => exact forall_mem_cons.mpr ⟨hitem.known, ih⟩

def withPrevious : Option Item → List Item → List (Option Item × Item)
  | _, [] => []
  | previous, item :: rest => (previous, item) :: withPrevious (some item) rest

def procedureTag? : Option Item × Item → Option (Option Bytes × Option Stage)
  | (previous, .procedure _ name _ _ _) =>
    some (name.toOption.map (·.text), previous.bind Item.stage?)
  | _ => none

def globalTag? : Option Item × Item → Option (Option Bytes × Direction × Builtin)
  | (previous, .global _ direction name _ _) =>
    some (name.toOption.map (·.text), direction,
      if previous.any Item.isBuiltin then .position else .absent)
  | _ => none

def recordTag? : Item → Option (Option Bytes × List (Option Bytes × Builtin))
  | .record _ name members _ => some (name.toOption.map (·.text), members.map MemberSyntax.tag)
  | _ => none

def entryPointsFrom (first : Nat) : List (Option Bytes × Option Stage) → List EntryPoint
  | [] => []
  | (some name, some stage) :: rest => ⟨name, stage, first⟩ :: entryPointsFrom (first + 1) rest
  | _ :: rest => entryPointsFrom (first + 1) rest

theorem entryPointsFrom_append (first : Nat) (tags more : List (Option Bytes × Option Stage)) :
    entryPointsFrom first (tags ++ more) =
      entryPointsFrom first tags ++ entryPointsFrom (first + tags.length) more := by
  induction tags generalizing first with
  | nil => rfl
  | cons tag rest ih =>
    have hsum : first + 1 + rest.length = first + (rest.length + 1) := by omega
    obtain ⟨name, stage⟩ := tag
    cases name <;> cases stage <;>
      simp [entryPointsFrom, ih, hsum]

def Global.tag (g : Global) : Option Bytes × Direction × Builtin :=
  (some g.name, g.direction, g.builtin)

theorem filterMap_cons_toList {α β : Type} (f : α → Option β) (a : α) (l : List α) :
    (a :: l).filterMap f = (f a).toList ++ l.filterMap f := by
  rw [filterMap_cons]
  cases f a <;> rfl

/-- Every attribute of some items is found in a program, and nothing else that attributes give. -/
structure Program.Attributed (items : List Item) (p : Program) : Prop where
  procedures : p.procedures.toList.map (some ·.name) =
    ((withPrevious none items).filterMap procedureTag?).map (·.1)
  entryPoints : p.entryPoints.toList =
    entryPointsFrom 0 ((withPrevious none items).filterMap procedureTag?)
  void : ∀ e ∈ p.entryPoints.toList, ∃ a, p.procedures.get? e.procedure = some a ∧
    a.name = e.name ∧ a.result = voidType
  distinct : (p.entryPoints.toList.map (·.name)).Nodup
  globals : p.globals.toList.map Global.tag = (withPrevious none items).filterMap globalTag?
  positions : ∀ g ∈ p.globals.toList, g.builtin = .position →
    (g.direction = .input ∨ g.direction = .output) ∧ p.IsPosition g.type
  records : p.records.map (fun r => (some r.1, r.2.map Member.tag)) = items.filterMap recordTag?
  memberPositions : ∀ r ∈ p.records, ∀ m ∈ r.2, m.builtin = .position → p.IsPosition m.type
  count : items.countP Item.isAttribute =
    p.entryPoints.size + p.globals.toList.countP (·.builtin = .position)

namespace Elaborate

variable {s t r : Elaboration} {item : Item} {previous : Option Item} {items : List Item}

inductive Chain : List Item → Elaboration → Elaboration → Prop
  | done (s : Elaboration) : Chain [] s s
  | next {item : Item} {items : List Item} {s r t : Elaboration} :
      Step item s r → Chain items r t → Chain (item :: items) s t

theorem chain_of_items {u : Unit} (h : items.forM Elaborate.item s = .ok (u, t)) (hs : Between s)
    (hsized : ∀ written ∈ items.flatMap Item.types, written.Sized) : Chain items s t := by
  induction items generalizing s with
  | nil =>
    obtain ⟨-, rfl⟩ := pure_ok.mp h
    exact .done s
  | cons x rest ih =>
    obtain ⟨_, r, hfirst, hrest⟩ := bind_ok.mp h
    simp only [flatMap_cons, mem_append] at hsized
    have hstep := item_ok x hfirst hs fun written hmem => hsized written (.inl hmem)
    exact .next hstep (ih hrest hstep.between fun written hmem => hsized written (.inr hmem))

theorem Tagged.one_waits (h : Tagged s t item) : s.stage = none ∨ s.builtin = none := by
  cases item with
  | stage pos stage close => exact .inl h.1
  | builtin pos builtin close => exact .inr h.1
  | global pos direction name type placement => exact .inl h.1
  | record pos name members close => exact .inl h.1
  | procedure pos name result body close => exact .inr h.1

theorem Chain.one_waits (h : Chain items s t) (hend : t.stage = none) :
    s.stage = none ∨ s.builtin = none := by
  cases h with
  | done => exact .inl hend
  | next hstep _ => exact hstep.tagged.one_waits

structure Waits (previous : Option Item) (s : Elaboration) : Prop where
  stage : s.stage.map (·.1) = previous.bind Item.stage?
  builtin : s.builtin.map (·.1) = if previous.any Item.isBuiltin then some .position else none

theorem Step.waits (h : Step item s t) (hknown : item.Known)
    (hone : t.stage = none ∨ t.builtin = none) : Waits (some item) t := by
  have htagged := h.tagged
  cases item with
  | stage pos stage close =>
    obtain ⟨-, hstage, hbuiltin, -⟩ := htagged
    have hnone : t.builtin = none := by
      refine hone.resolve_left fun hnone => ?_
      rw [hnone] at hstage
      cases hstage
    exact ⟨hstage, by rw [hnone]; rfl⟩
  | builtin pos builtin close =>
    obtain ⟨-, hbuiltin, hstage, -⟩ := htagged
    have hnone : t.stage = none := by
      refine hone.resolve_right fun hnone => ?_
      rw [hnone] at hbuiltin
      cases hbuiltin
    refine ⟨by rw [hnone]; rfl, ?_⟩
    rw [hbuiltin, show builtin = .position from hknown]
    rfl
  | global pos direction name type placement =>
    obtain ⟨-, hstage, hbuiltin, -⟩ := htagged
    exact ⟨by rw [hstage]; rfl, by rw [hbuiltin]; rfl⟩
  | record pos name members close =>
    obtain ⟨-, -, hstage, hbuiltin, -⟩ := htagged
    exact ⟨by rw [hstage]; rfl, by rw [hbuiltin]; rfl⟩
  | procedure pos name result body close =>
    obtain ⟨-, hstage, hbuiltin, -⟩ := htagged
    exact ⟨by rw [hstage]; rfl, by rw [hbuiltin]; rfl⟩

def waiting (s : Elaboration) : Nat := s.stage.toList.length + s.builtin.toList.length

def positions (p : Program) : Nat := p.globals.toList.countP (·.builtin = .position)

structure Attaches (procedureTags : List (Option Bytes × Option Stage))
    (globalTags : List (Option Bytes × Direction × Builtin))
    (recordTags : List (Option Bytes × List (Option Bytes × Builtin))) (attributes : Nat)
    (s t : Elaboration) : Prop where
  procedures : t.program.procedures.toList.map (some ·.name) =
    s.program.procedures.toList.map (some ·.name) ++ procedureTags.map (·.1)
  entryPoints : t.program.entryPoints.toList = s.program.entryPoints.toList ++
    entryPointsFrom s.program.procedures.toList.length procedureTags
  globals : t.program.globals.toList.map Global.tag =
    s.program.globals.toList.map Global.tag ++ globalTags
  records : t.program.records.map (fun r => (some r.1, r.2.map Member.tag)) =
    s.program.records.map (fun r => (some r.1, r.2.map Member.tag)) ++ recordTags
  count : attributes + waiting s + s.program.entryPoints.toList.length + positions s.program =
    waiting t + t.program.entryPoints.toList.length + positions t.program

theorem Attaches.of_program (h : t.program = s.program)
    (hwaiting : attributes + waiting s = waiting t) : Attaches [] [] [] attributes s t := by
  refine ⟨?_, ?_, ?_, ?_, ?_⟩
  · rw [h, map_nil, append_nil]
  · rw [h, entryPointsFrom, append_nil]
  · rw [h, append_nil]
  · rw [h, append_nil]
  · rw [h]
    omega

theorem Attaches.trans {procedureTags procedureTags' : List (Option Bytes × Option Stage)}
    {globalTags globalTags' : List (Option Bytes × Direction × Builtin)}
    {recordTags recordTags' : List (Option Bytes × List (Option Bytes × Builtin))}
    {attributes' : Nat} (h : Attaches procedureTags globalTags recordTags attributes s r)
    (h' : Attaches procedureTags' globalTags' recordTags' attributes' r t) :
    Attaches (procedureTags ++ procedureTags') (globalTags ++ globalTags')
      (recordTags ++ recordTags') (attributes + attributes') s t := by
  have hlength := congrArg length h.procedures
  simp only [length_map, length_append] at hlength
  have hcount := h.count
  have hcount' := h'.count
  refine ⟨?_, ?_, ?_, ?_, by omega⟩
  · rw [h'.procedures, h.procedures, map_append, append_assoc]
  · rw [h'.entryPoints, h.entryPoints, hlength, entryPointsFrom_append, append_assoc]
  · rw [h'.globals, h.globals, append_assoc]
  · rw [h'.records, h.records, append_assoc]

theorem Step.attaches (h : Step item s t) (hwaits : Waits previous s) :
    Attaches (procedureTag? (previous, item)).toList (globalTag? (previous, item)).toList
      (recordTag? item).toList (if item.isAttribute then 1 else 0) s t := by
  have htagged := h.tagged
  obtain ⟨globals, procedures, hglobals, hprocedures, hdeclared⟩ := h.declared
  cases item with
  | stage pos stage close =>
    obtain ⟨hnone, hstage, hbuiltin, hprogram⟩ := htagged
    obtain ⟨waits, hsome, -⟩ := Option.map_eq_some_iff.mp hstage
    refine .of_program hprogram ?_
    simp only [waiting, hnone, hsome, hbuiltin, Option.toList, length_nil,
      length_singleton, Nat.zero_add]
    rfl
  | builtin pos builtin close =>
    obtain ⟨hnone, hbuiltin, hstage, hprogram⟩ := htagged
    obtain ⟨waits, hsome, -⟩ := Option.map_eq_some_iff.mp hbuiltin
    refine .of_program hprogram ?_
    simp only [waiting, hnone, hsome, hstage, Option.toList, length_nil,
      length_singleton, Nat.add_zero]
    exact Nat.add_comm _ _
  | global pos direction name type placement =>
    obtain ⟨hstage, hstage', hbuiltin', hentries, hrecords, g, hg, hmeaning, -⟩ := htagged
    obtain ⟨rfl, g', found, rfl, rfl, hname, hdirection⟩ := hdeclared
    obtain rfl : g' = g := by
      rw [hg] at hglobals
      simpa using hglobals.symm
    have hmeaning' : g'.builtin = if previous.any Item.isBuiltin then .position else .absent := by
      rw [hmeaning, hwaits.builtin]
      split <;> rfl
    have hcount : s.builtin.toList.length = [g'].countP (·.builtin = .position) := by
      have hsome : s.builtin.isSome = previous.any Item.isBuiltin := by
        rw [← Option.isSome_map, hwaits.builtin]
        cases previous.any Item.isBuiltin <;> rfl
      rw [countP_singleton, hmeaning', ← hsome]
      cases s.builtin <;> rfl
    refine ⟨?_, ?_, ?_, ?_, ?_⟩
    · rw [hprocedures, append_nil]
      exact (append_nil _).symm
    · rw [hentries]
      exact (append_nil _).symm
    · rw [hglobals, map_append, map_singleton, Global.tag, hname, hdirection, hmeaning']
      rfl
    · rw [hrecords]
      exact (append_nil _).symm
    · simp only [waiting, positions, hstage, hstage', hbuiltin', hentries, hglobals,
        countP_append, hcount, Item.isAttribute, Option.toList_none, length_nil,
        Bool.false_eq_true, if_false]
      omega
  | record pos name members close =>
    obtain ⟨hstage, hbuiltin, hstage', hbuiltin', hentries, found, new, rfl, hrecords, htags, -⟩ :=
      htagged
    obtain ⟨rfl, rfl⟩ := hdeclared
    refine ⟨?_, ?_, ?_, ?_, ?_⟩
    · rw [hprocedures, append_nil]
      exact (append_nil _).symm
    · rw [hentries]
      exact (append_nil _).symm
    · rw [hglobals, append_nil]
      exact (append_nil _).symm
    · rw [hrecords, map_append, map_singleton, htags]
      rfl
    · simp only [waiting, positions, hstage, hstage', hbuiltin, hbuiltin', hentries, hglobals,
        append_nil, Item.isAttribute, Bool.false_eq_true, if_false]
      omega
  | procedure pos name result body close =>
    obtain ⟨hbuiltin, hstage', hbuiltin', hrecords, new, hnew, -, hentries, -⟩ := htagged
    obtain ⟨rfl, procedure, found, rfl, rfl, hname, -⟩ := hdeclared
    obtain rfl : procedure = new := by
      rw [hnew] at hprocedures
      simpa using hprocedures.symm
    refine ⟨?_, ?_, ?_, ?_, ?_⟩
    · rw [hprocedures, map_append, map_singleton, hname]
      rfl
    · rw [hentries, ← Arena.length_toList, hname]
      have hstage : previous.bind Item.stage? = s.stage.map (·.1) := hwaits.stage.symm
      simp only [procedureTag?, hstage, Option.toList]
      cases s.stage <;> rfl
    · rw [hglobals, append_nil]
      exact (append_nil _).symm
    · rw [hrecords]
      exact (append_nil _).symm
    · simp only [waiting, positions, hstage', hbuiltin, hbuiltin', hentries, hglobals,
        append_nil, length_append, Item.isAttribute, Bool.false_eq_true, if_false]
      cases s.stage <;> simp [Nat.add_comm]

theorem Chain.attaches (h : Chain items s t) (hwaits : Waits previous s)
    (hknown : ∀ item ∈ items, item.Known) (hend : t.stage = none) :
    Attaches ((withPrevious previous items).filterMap procedureTag?)
      ((withPrevious previous items).filterMap globalTag?) (items.filterMap recordTag?)
      (items.countP Item.isAttribute) s t := by
  induction h generalizing previous with
  | done s => exact .of_program rfl (Nat.zero_add _)
  | @next item items s r t hstep hrest ih =>
    obtain ⟨hitem, hitems⟩ := forall_mem_cons.mp hknown
    have hfirst := hstep.attaches hwaits
    have hothers := ih (hstep.waits hitem (hrest.one_waits hend)) hitems hend
    rw [withPrevious, filterMap_cons_toList, filterMap_cons_toList, filterMap_cons_toList,
      countP_cons, Nat.add_comm]
    exact hfirst.trans hothers

structure Orderly (s : Elaboration) : Prop where
  void : ∀ e ∈ s.program.entryPoints.toList, ∃ a,
    s.program.procedures.toList[e.procedure]? = some a ∧ a.name = e.name ∧ a.result = voidType
  named : (s.program.entryPoints.toList.map (·.name)).Sublist
    (s.program.procedures.toList.map (·.name))
  distinct : (s.program.procedures.toList.map (·.name)).Nodup
  positions : ∀ g ∈ s.program.globals.toList, g.builtin = .position →
    (g.direction = .input ∨ g.direction = .output) ∧ s.program.IsPosition g.type
  members : ∀ r ∈ s.program.records, ∀ m ∈ r.2, s.program.MemberSound m

theorem Orderly.extend {kept : Program.Region → Prop} {names : List Bytes}
    {procedures : List Procedure} {entryPoints : List EntryPoint} {globals : List Global}
    {records : List (Bytes × List Member)} (hs : Orderly s)
    (hgrows : s.program.Extends kept names t.program)
    (hprocedures : t.program.procedures.toList = s.program.procedures.toList ++ procedures)
    (hentries : t.program.entryPoints.toList = s.program.entryPoints.toList ++ entryPoints)
    (hglobals : t.program.globals.toList = s.program.globals.toList ++ globals)
    (hrecords : t.program.records = s.program.records ++ records)
    (hvoid : ∀ e ∈ entryPoints, ∃ a, t.program.procedures.toList[e.procedure]? = some a ∧
      a.name = e.name ∧ a.result = voidType)
    (hnamed : (entryPoints.map (·.name)).Sublist (procedures.map (·.name)))
    (hdistinct : (t.program.procedures.toList.map (·.name)).Nodup)
    (hpositions : ∀ g ∈ globals, g.builtin = .position →
      (g.direction = .input ∨ g.direction = .output) ∧ t.program.IsPosition g.type)
    (hmembers : ∀ r ∈ records, ∀ m ∈ r.2, t.program.MemberSound m) : Orderly t := by
  refine ⟨?_, ?_, hdistinct, ?_, ?_⟩
  · rw [hentries]
    refine forall_mem_append.mpr ⟨fun e he => ?_, hvoid⟩
    obtain ⟨a, ha, hname, hresult⟩ := hs.void e he
    refine ⟨a, ?_, hname, hresult⟩
    rw [hprocedures, List.getElem?_append_left (List.getElem?_eq_some_iff.mp ha).1, ha]
  · rw [hentries, hprocedures, map_append, map_append]
    exact hs.named.append hnamed
  · rw [hglobals]
    refine forall_mem_append.mpr ⟨fun g hg hposition => ?_, hpositions⟩
    obtain ⟨hdirection, htype⟩ := hs.positions g hg hposition
    exact ⟨hdirection, hgrows.shapeAt htype⟩
  · rw [hrecords]
    exact forall_mem_append.mpr ⟨fun r hr m hm => (hs.members r hr m hm).mono hgrows, hmembers⟩

theorem Step.orderly (h : Step item s t) (hs : Orderly s) (hknown : item.Known) : Orderly t := by
  have htagged := h.tagged
  obtain ⟨globals, procedures, hglobals, hprocedures, hdeclared⟩ := h.declared
  cases item with
  | stage pos stage close =>
    obtain ⟨void, named, distinct, positions, members⟩ := hs
    rw [← htagged.2.2.2] at void named distinct positions members
    exact ⟨void, named, distinct, positions, members⟩
  | builtin pos builtin close =>
    obtain ⟨void, named, distinct, positions, members⟩ := hs
    rw [← htagged.2.2.2] at void named distinct positions members
    exact ⟨void, named, distinct, positions, members⟩
  | global pos direction name type placement =>
    obtain ⟨-, -, -, hentries, hrecords, g, hg, hmeaning, hfits⟩ := htagged
    obtain ⟨rfl, g', found, rfl, rfl, hname, hdirection⟩ := hdeclared
    obtain rfl : g' = g := by
      rw [hg] at hglobals
      simpa using hglobals.symm
    refine hs.extend h.grows hprocedures (hentries.trans (append_nil _).symm) hglobals
      (hrecords.trans (append_nil _).symm) (fun _ he => (not_mem_nil he).elim) .slnil
      (by rw [hprocedures, append_nil]; exact hs.distinct) ?_
      (fun _ hr => (not_mem_nil hr).elim)
    intro new hnew hposition
    obtain rfl := mem_singleton.mp hnew
    have hwaits : s.builtin.isSome = true := by
      cases hbuiltin : s.builtin with
      | some _ => rfl
      | none =>
        rw [hbuiltin] at hmeaning
        rw [hmeaning] at hposition
        cases hposition
    obtain ⟨hne, htype⟩ := hfits hwaits
    refine ⟨?_, htype⟩
    rw [hdirection] at hne ⊢
    cases direction with
    | input => exact .inl rfl
    | output => exact .inr rfl
    | internal => exact absurd rfl hne
    | other code => cases hknown
  | record pos name members close =>
    obtain ⟨-, -, -, -, hentries, found, new, -, hrecords, -, hsound⟩ := htagged
    obtain ⟨rfl, rfl⟩ := hdeclared
    refine hs.extend h.grows hprocedures (hentries.trans (append_nil _).symm) hglobals hrecords
      (fun _ he => (not_mem_nil he).elim) .slnil
      (by rw [hprocedures, append_nil]; exact hs.distinct)
      (fun _ hg => (not_mem_nil hg).elim) ?_
    intro record hrecord
    obtain rfl := mem_singleton.mp hrecord
    exact hsound
  | procedure pos name result body close =>
    obtain ⟨-, -, -, hrecords, new, hnew, hfresh, hentries, hvoid⟩ := htagged
    obtain ⟨rfl, -⟩ := hdeclared
    refine hs.extend h.grows hnew hentries hglobals (hrecords.trans (append_nil _).symm) ?_ ?_ ?_
      (fun _ hg => (not_mem_nil hg).elim) (fun _ hr => (not_mem_nil hr).elim)
    · intro e he
      obtain ⟨waits, hstage, rfl⟩ := Option.map_eq_some_iff.mp (Option.mem_toList.mp he)
      refine ⟨new, ?_, rfl, hvoid (Option.isSome_of_eq_some hstage)⟩
      rw [hnew, ← Arena.length_toList, getElem?_concat_length]
    · cases s.stage with
      | none => exact nil_sublist _
      | some _ => exact Sublist.refl _
    · rw [hnew, map_append, map_singleton]
      refine nodup_append.mpr ⟨hs.distinct, pairwise_singleton _ _, ?_⟩
      intro first hfirst last hlast
      obtain ⟨a, ha, rfl⟩ := mem_map.mp hfirst
      rw [mem_singleton.mp hlast]
      exact hfresh a ha

theorem Chain.orderly (h : Chain items s t) (hs : Orderly s) (hknown : ∀ item ∈ items, item.Known) :
    Orderly t := by
  induction h with
  | done s => exact hs
  | next hstep _ ih =>
    obtain ⟨hitem, hitems⟩ := forall_mem_cons.mp hknown
    exact ih (hstep.orderly hs hitem) hitems

end Elaborate

namespace Program

theorem Fresh.records (h : p.Fresh) : p.records = [] := by
  rw [Program.records, h.types]
  rfl

theorem Fresh.orderly (h : p.Fresh) : Elaborate.Orderly (.ofProgram p) := by
  have hprocedures : (ofProgram p).program.procedures.toList = [] := h.procedures
  have hentries : (ofProgram p).program.entryPoints.toList = [] := h.entryPoints
  have hglobals : (ofProgram p).program.globals.toList = [] := h.globals
  have hrecords : (ofProgram p).program.records = [] := h.records
  refine ⟨?_, ?_, ?_, ?_, ?_⟩ <;> simp [hprocedures, hentries, hglobals, hrecords]

/-- No attribute of an accepted source is lost, given twice or given to something else. The items
are those that the tokens of the source spell; each attribute is found at what stands right behind
it, and only there, and fits it. -/
theorem ofSource_attributed {source : Bytes} {limits : Limits} {p : Program}
    (h : ofSource source limits = .ok p) :
    Grammar.File (Tokens.ofSource source).tokens (SourceTree.ofSource source).items ∧
      p.Attributed (SourceTree.ofSource source).items := by
  obtain ⟨start, t, hstart, hrun, rfl⟩ := ofSource_elaborates h
  have hfresh := new_ok hstart
  obtain ⟨hitems, ⟨last, hlast⟩, hstage, hbuiltin⟩ := sourceTree_ok hrun
  have hfile := Grammar.file_ofSource hlast
  have hchain := chain_of_items hitems hfresh.between (SourceTree.sized_ofSource source)
  have horderly := hchain.orderly hfresh.orderly hfile.known
  have hwaits : Waits none (ofProgram start) := ⟨rfl, rfl⟩
  have hattaches := hchain.attaches hwaits hfile.known hstage
  have hprocedures : (ofProgram start).program.procedures.toList = [] :=
    hfresh.procedures
  have hentries : (ofProgram start).program.entryPoints.toList = [] :=
    hfresh.entryPoints
  have hglobals : (ofProgram start).program.globals.toList = [] := hfresh.globals
  have hrecords : (ofProgram start).program.records = [] := hfresh.records
  refine ⟨hfile, ?_, ?_, ?_, ?_, ?_, horderly.positions, ?_, ?_, ?_⟩
  · rw [hattaches.procedures, hprocedures]
    rfl
  · rw [hattaches.entryPoints, hentries, hprocedures]
    rfl
  · intro e he
    rw [Arena.get?_eq]
    exact horderly.void e he
  · exact horderly.distinct.sublist horderly.named
  · rw [hattaches.globals, hglobals]
    rfl
  · rw [hattaches.records, hrecords]
    rfl
  · intro r hr m hm hposition
    exact (horderly.members r hr m hm).2 hposition
  · have hcount := hattaches.count
    have hwaiting : waiting t = 0 := by
      rw [waiting, hstage, hbuiltin]
      rfl
    have hwaiting' : waiting (.ofProgram start) = 0 := rfl
    rw [hwaiting, hwaiting', hentries, positions, hglobals, Arena.length_toList] at hcount
    simpa [positions] using hcount

def taggedSource : Bytes :=
  Text.utf8 "record r [builtin(position)] a: vec4<f32>; b: f32; end
    in b: f32 [builtin(position)] out a: vec4<f32> procedure f() -> f32 return b; end
    [entry_point(vertex)] procedure main() -> void end"

theorem taggedSource_attributed : ∃ p, ofSource taggedSource {} = .ok p ∧
    p.entryPoints.toList = [⟨Text.utf8 "main", .vertex, 1⟩] ∧
    (∃ a, p.procedures.get? 1 = some a ∧ a.name = Text.utf8 "main" ∧ a.result = voidType) ∧
    p.globals.toList.map Global.tag =
      [(some (Text.utf8 "b"), .input, .absent), (some (Text.utf8 "a"), .output, .position)] ∧
    p.records.map (fun r => (some r.1, r.2.map Member.tag)) = [(some (Text.utf8 "r"),
      [(some (Text.utf8 "a"), .position), (some (Text.utf8 "b"), .absent)])] ∧
    (SourceTree.ofSource taggedSource).items.countP Item.isAttribute = 2 := by
  have haccepted : (ofSource taggedSource {}).isOk = true := by decide +kernel
  have htags : entryPointsFrom 0 ((withPrevious none
          (SourceTree.ofSource taggedSource).items).filterMap procedureTag?) =
        [⟨Text.utf8 "main", .vertex, 1⟩] ∧
      (withPrevious none (SourceTree.ofSource taggedSource).items).filterMap globalTag? =
        [(some (Text.utf8 "b"), .input, .absent), (some (Text.utf8 "a"), .output, .position)] ∧
      (SourceTree.ofSource taggedSource).items.filterMap recordTag? = [(some (Text.utf8 "r"),
        [(some (Text.utf8 "a"), .position), (some (Text.utf8 "b"), .absent)])] ∧
      (SourceTree.ofSource taggedSource).items.countP Item.isAttribute = 2 := by
    decide +kernel
  obtain ⟨hentries, hglobals, hrecords, hcount⟩ := htags
  cases h : ofSource taggedSource {} with
  | error e =>
    rw [h] at haccepted
    cases haccepted
  | ok p =>
    obtain ⟨-, hp⟩ := ofSource_attributed h
    rw [← hp.entryPoints] at hentries
    refine ⟨p, rfl, hentries, ?_, hp.globals.trans hglobals, hp.records.trans hrecords, hcount⟩
    exact hp.void ⟨Text.utf8 "main", .vertex, 1⟩ (by rw [hentries]; exact mem_singleton_self _)

end Program

end Shading
