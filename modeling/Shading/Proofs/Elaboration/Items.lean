import Shading.Proofs.Elaboration.Statements

/-!
Elaborating the items of a source file. Between items the globals declared so
far are exactly what is visible, and each item appends what it declares to the
pools of the program.
-/

namespace Shading

open List Build Arena Program

open Binary (Instruction idsFrom results)

variable {close : Part Position} {p q : Program} {pos : Position} {result : TypeRef} {α : Type}
  {m : Member} {direction : Direction} {ref : ProcedureRef} {earlier : List Member}

def Program.Region.before (count : Nat) : Program.Region → Prop
  | .procedure ref => ref < count
  | _ => False

def Program.Region.around (count : Nat) : Program.Region → Prop
  | .procedure ref => ref < count
  | .records => True
  | _ => False

theorem Program.Region.around_of_before {count : Nat} :
    ∀ region, Region.before count region → Region.around count region
  | .procedure _, h => h

theorem modify_concat (l : List α) (a : α) (change : α → α) :
    (l ++ [a]).modify l.length change = l ++ [change a] := by
  induction l with
  | nil => rfl
  | cons x xs ih => simpa using ih

def MemberSyntax.tag (written : MemberSyntax) : Option Bytes × Builtin :=
  (written.name.toOption.map (·.text), written.builtin)

/-- A member and the attribute it has. -/
def Member.tag (m : Member) : Option Bytes × Builtin := (some m.name, m.builtin)

def Program.MemberSound (p : Program) (m : Member) : Prop :=
  p.IsValueType m.type ∧ (m.builtin = .position → p.IsPosition m.type)

theorem Program.MemberSound.mono {kept : Program.Region → Prop} {names : List Bytes}
    (h : p.Extends kept names q) (hm : p.MemberSound m) : q.MemberSound m :=
  ⟨hm.1.mono h, fun hposition => h.shapeAt (hm.2 hposition)⟩

namespace Elaborate

variable {s t : Elaboration} {u : Unit} {name : Part Name} {written : TypeSyntax}
  {placement : Part (Option Placement)} {body : List Stmt} {vars code : List Instruction}

def entries (p : Program) : List (Stage × Bytes) :=
  p.entryPoints.toList.map fun e => (e.stage, e.name)

structure Between (s : Elaboration) : Prop where
  sound : s.program.Sound
  scope : s.scopes.locals.toList = aliases s.program.globals.toList
  globals : ∀ g ∈ s.program.globals.toList, s.program.GlobalSound g

def Tagged (s t : Elaboration) : Item → Prop
  | .stage _ stage _ => s.stage = none ∧ t.stage.map (·.1) = some stage ∧
      t.builtin = s.builtin ∧ t.program = s.program
  | .builtin _ builtin _ => s.builtin = none ∧ t.builtin.map (·.1) = some builtin ∧
      t.stage = s.stage ∧ t.program = s.program
  | .global _ _ _ _ _ => s.stage = none ∧ t.stage = none ∧ t.builtin = none ∧
      t.program.entryPoints.toList = s.program.entryPoints.toList ∧
      t.program.records = s.program.records ∧
      ∃ g, t.program.globals.toList = s.program.globals.toList ++ [g] ∧
        g.builtin = (s.builtin.map (·.1)).getD .absent ∧
        (s.builtin.isSome = true → g.direction ≠ .internal ∧ t.program.IsPosition g.type)
  | .record _ name written _ => s.stage = none ∧ s.builtin = none ∧ t.stage = none ∧
      t.builtin = none ∧ t.program.entryPoints.toList = s.program.entryPoints.toList ∧
      ∃ found members, name = .ok found ∧
        t.program.records = s.program.records ++ [(found.text, members)] ∧
        members.map Member.tag = written.map MemberSyntax.tag ∧
        ∀ m ∈ members, t.program.MemberSound m
  | .procedure _ _ _ _ _ => s.builtin = none ∧ t.stage = none ∧ t.builtin = none ∧
      t.program.records = s.program.records ∧
      ∃ new, t.program.procedures.toList = s.program.procedures.toList ++ [new] ∧
        (∀ a ∈ s.program.procedures.toList, a.name ≠ new.name) ∧
        t.program.entryPoints.toList = s.program.entryPoints.toList ++
          (s.stage.map fun waiting => ⟨new.name, waiting.1, s.program.procedures.size⟩).toList ∧
        (s.stage.isSome = true → new.result = voidType)

structure Step (item : Item) (s t : Elaboration) : Prop where
  between : Between t
  grows : Program.Extends (Program.Region.before s.program.procedures.size)
    (item.types.map TypeSyntax.leaf) s.program t.program
  declared : ∃ globals procedures,
    t.program.globals.toList = s.program.globals.toList ++ globals ∧
    t.program.procedures.toList = s.program.procedures.toList ++ procedures ∧
    t.program.Declared s.program.globals.toList globals procedures item
  entryPoints : ∀ rest, entries t.program ++ stagedProcedures (t.stage.map (·.1)) rest =
    entries s.program ++ stagedProcedures (s.stage.map (·.1)) (item :: rest)
  named : ∀ written ∈ item.types, ∀ kind : ScalarKind, kind.name = written.leaf →
    t.program.hasScalar kind = true
  tagged : Tagged s t item

theorem noneWaits_ok {waiting : Elaboration → Option (α × Position)} {cause : Cause}
    (h : noneWaits waiting cause s = .ok (u, t)) : waiting s = none ∧ s = t := by
  simp only [noneWaits, bind_ok, get_ok] at h
  obtain ⟨_, _, ⟨rfl, rfl⟩, h⟩ := h
  cases hwaiting : waiting s with
  | none =>
    rw [hwaiting] at h
    exact ⟨rfl, (pure_ok.mp h).2⟩
  | some found =>
    rw [hwaiting] at h
    exact (refuse_ok.mp h).elim

theorem stageAttribute_ok {stage : Stage} (h : stageAttribute pos stage close s = .ok (u, t))
    (hs : Between s) : Step (.stage pos stage close) s t := by
  simp only [stageAttribute, bind_ok, get_ok, ite_ok, refuse_ok, modify_ok, discard_ok, part_ok,
    false_and, and_false, exists_false, false_or] at h
  obtain ⟨_, _, ⟨rfl, rfl⟩, hfree, _, _, rfl, _, -, rfl⟩ := h
  refine ⟨⟨hs.sound, hs.scope, hs.globals⟩, .refl _, ⟨[], [], by simp, by simp, rfl, rfl⟩,
    ?_, fun _ hmem => (not_mem_nil hmem).elim, by simpa using hfree, rfl, rfl, rfl⟩
  intro rest
  simp [stagedProcedures]

theorem builtinAttribute_ok {builtin : Builtin}
    (h : builtinAttribute pos builtin close s = .ok (u, t)) (hs : Between s) :
    Step (.builtin pos builtin close) s t := by
  simp only [builtinAttribute, bind_ok, get_ok, ite_ok, refuse_ok, modify_ok, discard_ok, part_ok,
    false_and, and_false, exists_false, false_or] at h
  obtain ⟨_, _, ⟨rfl, rfl⟩, hfree, _, _, rfl, _, -, rfl⟩ := h
  refine ⟨⟨hs.sound, hs.scope, hs.globals⟩, .refl _, ⟨[], [], by simp, by simp, rfl, rfl⟩,
    ?_, fun _ hmem => (not_mem_nil hmem).elim, by simpa using hfree, rfl, rfl, rfl⟩
  intro rest
  cases s.stage <;> simp [stagedProcedures]

theorem location_ok {placement : Option Placement} {found : Option UInt32}
    (h : location direction placement s = .ok (found, t)) : s = t := by
  cases placement with
  | none => exact (pure_ok.mp h).2
  | some placement =>
    simp only [location, bind_ok, ite_ok, refuse_ok, part_ok, pure_ok, false_and, and_false,
      exists_false, false_or, or_false] at h
    obtain ⟨-, _, _, ⟨-, rfl⟩, -, -, rfl⟩ := h
    rfl

theorem addGlobal_ok {g : Global} {ref : GlobalRef} (h : Build.addGlobal g p = .ok ref q) :
    ref = p.globals.size ∧ p.Appends q { globals := [{ g with id := p.nextId }] } ∧
      q.nextId = p.nextId + 1 ∧ q.constants = p.constants ∧ q.types = p.types := by
  simp only [Build.addGlobal, Build.bind_ok, Build.push_ok, Build.freshId_ok, Build.modify_ok,
    Build.pure_ok] at h
  obtain ⟨_, _, ⟨-, rfl, rfl⟩, _, _, ⟨rfl, rfl⟩, _, _, rfl, rfl, rfl⟩ := h
  refine ⟨rfl, ⟨rfl, by simp, ?_, by simp, rfl, rfl, by simp⟩, rfl, rfl, rfl⟩
  rw [Arena.toList_modify, Arena.toList_add, ← Arena.length_toList]
  exact modify_concat _ _ _

theorem global_steps (h : global pos direction name written placement s = .ok (u, t)) :
    s.stage = none ∧ ∃ ref q₁ found type s₂ pointer q₂ g scopes location,
      Build.addGlobal ⟨[], direction, none, .absent, voidType, voidType, 0⟩ s.program = .ok ref q₁ ∧
      name = .ok found ∧
      variableType found.text written { s with program := q₁, builtin := none } = .ok (type, s₂) ∧
      Build.pointerType type direction.storageClass s₂.program = .ok pointer q₂ ∧
      q₂.globals.get? ref = some g ∧
      s₂.scopes.add ⟨found.text, type, pointer, g.id, some ref⟩ = .ok scopes ∧
      (s.builtin.isSome = true → direction ≠ .internal ∧ q₂.IsPosition type) ∧
      t = { s₂ with
        program := { q₂ with globals := q₂.globals.modify ref fun _ => ⟨found.text, direction,
          location, (s.builtin.map (·.1)).getD .absent, type, pointer, g.id⟩ }
        scopes } := by
  simp only [global, bind_ok] at h
  obtain ⟨_, _, hwaiting, builtin, _, hbuiltin, h⟩ := h
  obtain ⟨hstage, rfl⟩ := noneWaits_ok hwaiting
  simp only [takeBuiltin, bind_ok, get_ok, modify_ok, pure_ok] at hbuiltin
  obtain ⟨_, _, ⟨rfl, rfl⟩, _, _, rfl, rfl, rfl⟩ := hbuiltin
  have hdeclare : (s.builtin.isSome = true → direction ≠ .internal) ∧ declareGlobal pos direction
      name written placement s.builtin { s with builtin := none } = .ok (u, t) := by
    cases hb : s.builtin with
    | none =>
      rw [hb] at h
      exact ⟨fun hsome => absurd hsome Bool.false_ne_true, h⟩
    | some waiting =>
      simp only [hb, ite_ok, bind_ok, refuse_ok, false_and, and_false, exists_false, false_or] at h
      exact ⟨fun _ => h.1, h.2⟩
  obtain ⟨hdirection, h⟩ := hdeclare
  simp only [declareGlobal, bind_ok, get_ok, build_ok, part_ok, ite_ok, refuse_ok, view_ok,
    scope_ok, globalAt_ok, modifyGlobal, Build.modify_ok, false_and, and_false, exists_false,
    false_or] at h
  obtain ⟨_, _, ⟨rfl, rfl⟩, ref, _, ⟨q₁, hadd, rfl⟩, found, _, ⟨rfl, rfl⟩, -, type, s₂, htype,
    pointer, _, ⟨q₂, hpointer, rfl⟩, g, _, ⟨hg, rfl⟩, _, _, ⟨scopes, hscopes, rfl⟩, placed, _,
    ⟨-, rfl⟩, location, _, hlocation, h⟩ := h
  obtain rfl := location_ok hlocation
  refine ⟨hstage, ref, q₁, found, type, s₂, pointer, q₂, g, scopes, location, hadd, rfl, htype,
    hpointer, hg, hscopes, ?_⟩
  rcases h with ⟨-, _, _, hposition, _, rfl, rfl⟩ | ⟨hnone, _, rfl, rfl⟩
  · obtain ⟨rfl, hvector⟩ := checkPosition_ok hposition
    exact ⟨fun hsome => ⟨hdirection hsome, hvector⟩, rfl⟩
  · exact ⟨fun hsome => absurd hsome hnone, rfl⟩

theorem extends_with_globals {kept : Program.Region → Prop} {names : List Bytes}
    (h : p.Extends kept names q) (globals : Arena Global)
    (hstart : p.globals.toList <+: globals.toList)
    (hids : globals.toList.map (·.id) = q.globals.toList.map (·.id)) (hkept : ¬kept .globals) :
    p.Extends kept names { q with globals } := by
  obtain ⟨count, hnext, hperm⟩ := h.ids
  refine { h with globals := hstart, keptGlobals := fun hk => absurd hk hkept,
                  ids := ⟨count, hnext, ?_⟩ }
  have hsame : ({ q with globals } : Program).resultIds = q.resultIds := by
    simp only [resultIds, hids]
  rw [hsame]
  exact hperm

theorem global_ok (h : global pos direction name written placement s = .ok (u, t)) (hs : Between s)
    (hsized : written.Sized) : Step (.global pos direction name written placement) s t := by
  obtain ⟨hstage, ref, q₁, found, type, s₂, pointer, q₂, g, scopes, location, hadd, rfl, htype,
    hpointer, hg, hscopes, hfits, rfl⟩ := global_steps h
  obtain ⟨rfl, happends, hnext, hconstants, htypes⟩ := addGlobal_ok hadd
  have hext₁ : s.program.Extends (Region.around s.program.procedures.size) [] q₁ :=
    happends.extends 1 hnext (by simp [Added.resultIds]) nofun (fun _ => nofun) nofun
      (fun _ h => .inl h)
  have hsound₁ : q₁.Sound := hs.sound.congr htypes hconstants
  obtain ⟨q, rfl, hnamed, hsound, hisValue, hscalars⟩ := variableType_ok htype hsound₁ hsized
  have hgrows₂ : q.Grows [] q₂ := typeOfShape_grows hpointer (by simp)
  have hsound₂ : q₂.Sound := by
    obtain ⟨shape, hshape, -⟩ := hisValue
    exact typeOfShape_sound hpointer hsound (shapeAt_lt hshape) rfl
  have hext : s.program.Extends (Region.around s.program.procedures.size) [written.leaf] q₂ :=
    hext₁.trans (.of_grows (hnamed.trans hgrows₂))
  have hglobals : q₂.globals.toList = s.program.globals.toList ++
      [⟨[], direction, none, .absent, voidType, voidType, s.program.nextId⟩] := by
    rw [hgrows₂.keptGlobals trivial, hnamed.keptGlobals trivial]
    exact happends.globals
  obtain rfl : g = ⟨[], direction, none, .absent, voidType, voidType, s.program.nextId⟩ := by
    rw [get?_eq, hglobals, ← length_toList, getElem?_concat_length] at hg
    exact (Option.some.inj hg).symm
  have hlast : (q₂.globals.modify s.program.globals.size fun _ => ⟨found.text, direction, location,
      (s.builtin.map (·.1)).getD .absent, type, pointer, s.program.nextId⟩).toList =
      s.program.globals.toList ++ [⟨found.text, direction, location,
        (s.builtin.map (·.1)).getD .absent, type, pointer, s.program.nextId⟩] := by
    rw [toList_modify, hglobals, ← length_toList]
    exact modify_concat _ _ _
  have hgrows := extends_with_globals hext _ (by rw [hlast]; exact prefix_append _ _)
    (by rw [hlast, hglobals]; simp) id
  have hentries : q₂.entryPoints.toList = s.program.entryPoints.toList := by
    rw [hgrows₂.keptEntryPoints trivial, hnamed.keptEntryPoints trivial, happends.entryPoints]
  refine ⟨⟨hsound₂.congr rfl rfl, ?_, ?_⟩, hgrows.mono Region.around_of_before, ?_, ?_, ?_,
    hstage, hstage, rfl, hentries, hgrows.keptRecords trivial, _, hlast, rfl, hfits⟩
  · rw [(Scopes.add_ok hscopes).1, hlast, aliases_concat, length_toList]
    exact congrArg (· ++ _) hs.scope
  · intro g hg
    rw [hlast, mem_append] at hg
    rcases hg with hold | hnew
    · exact (hs.globals g hold).mono hgrows
    · obtain rfl := mem_singleton.mp hnew
      have hvalue := hisValue.mono hgrows₂
      exact ⟨hvalue, (typeOfShape_ok hpointer).1⟩
  · refine ⟨_, [], hlast, ?_, rfl, _, found, rfl, rfl, rfl, rfl⟩
    exact hgrows₂.procedures_eq.trans (hnamed.procedures_eq.trans happends.procedures)
  · intro rest
    change q₂.entryPoints.toList.map _ ++ stagedProcedures (s.stage.map (·.1)) rest = _
    rw [hentries, hstage]
    rfl
  · intro written' hwritten kind hkind
    obtain rfl := mem_singleton.mp hwritten
    exact hgrows₂.hasScalar (hscalars kind hkind)

theorem member_ok {record : Bytes} {written : MemberSyntax}
    (h : member record earlier written s = .ok (m, t)) (hs : s.program.Sound)
    (hsized : written.type.Sized) :
    (t.scopes = s.scopes ∧ t.stage = s.stage ∧ t.builtin = s.builtin) ∧
      s.program.Grows [written.type.leaf] t.program ∧ t.program.Sound ∧
      (m.tag = written.tag ∧ t.program.MemberSound m) ∧
      ∀ kind : ScalarKind, kind.name = written.type.leaf → t.program.hasScalar kind = true := by
  simp only [member, countMember, bind_ok, part_ok, ite_ok, refuse_ok, get_ok, set_ok, pure_ok,
    false_and, and_false, exists_false, false_or, or_false] at h
  obtain ⟨name, _, ⟨hname, rfl⟩, -, type, s₁, htype, h⟩ := h
  obtain ⟨q, rfl, hgrows, hsound, hisValue, hscalars⟩ := variableType_ok htype hs hsized
  have htag : ∀ type, Member.tag ⟨name.text, type, written.builtin⟩ = written.tag := by
    intro type
    rw [MemberSyntax.tag, hname]
    rfl
  rcases h with ⟨-, _, _, hposition, _, _, ⟨-, rfl⟩, _, _, ⟨_, _, ⟨rfl, rfl⟩, -, rfl⟩, rfl, rfl⟩ |
    ⟨hplain, _, _, ⟨-, rfl⟩, _, _, ⟨_, _, ⟨rfl, rfl⟩, -, rfl⟩, rfl, rfl⟩
  · obtain ⟨rfl, hvector⟩ := checkPosition_ok hposition
    exact ⟨⟨rfl, rfl, rfl⟩, hgrows, hsound, ⟨htag type, hisValue, fun _ => hvector⟩, hscalars⟩
  · exact ⟨⟨rfl, rfl, rfl⟩, hgrows, hsound, ⟨htag type, hisValue, fun h => absurd h hplain⟩,
      hscalars⟩

theorem members_ok {record : Bytes} {found : List Member} {written : List MemberSyntax}
    (h : members record earlier written s = .ok (found, t)) (hs : s.program.Sound)
    (hsized : ∀ m ∈ written, m.type.Sized) (hearlier : ∀ m ∈ earlier, s.program.MemberSound m) :
    (t.scopes = s.scopes ∧ t.stage = s.stage ∧ t.builtin = s.builtin) ∧
      s.program.Grows (written.map (·.type.leaf)) t.program ∧ t.program.Sound ∧
      (found.map Member.tag = earlier.reverse.map Member.tag ++ written.map MemberSyntax.tag ∧
        ∀ m ∈ found, t.program.MemberSound m) ∧
      ∀ m ∈ written, ∀ kind : ScalarKind, kind.name = m.type.leaf →
        t.program.hasScalar kind = true := by
  induction written generalizing s earlier with
  | nil =>
    obtain ⟨rfl, rfl⟩ := pure_ok.mp h
    exact ⟨⟨rfl, rfl, rfl⟩, .refl _, hs,
      ⟨(append_nil _).symm, fun m hm => hearlier m (mem_reverse.mp hm)⟩,
      fun _ hm => (not_mem_nil hm).elim⟩
  | cons first rest ih =>
    simp only [members, bind_ok] at h
    obtain ⟨m, s₁, hmember, hrest⟩ := h
    obtain ⟨⟨hscopes, hstage, hbuiltin⟩, hgrows, hsound, ⟨htag, hmember⟩, hscalars⟩ :=
      member_ok hmember hs (hsized first mem_cons_self)
    obtain ⟨⟨hscopes', hstage', hbuiltin'⟩, hgrows', hsound', ⟨htags, hfound⟩, hscalars'⟩ :=
      ih hrest hsound (fun m hm => hsized m (mem_cons_of_mem _ hm))
        (forall_mem_cons.mpr ⟨hmember, fun m hm => (hearlier m hm).mono hgrows⟩)
    refine ⟨⟨hscopes'.trans hscopes, hstage'.trans hstage, hbuiltin'.trans hbuiltin⟩,
      hgrows.trans hgrows', hsound', ⟨?_, hfound⟩, ?_⟩
    · rw [htags, reverse_cons, map_append, append_assoc, map_singleton, htag]
      rfl
    · exact forall_mem_cons.mpr
        ⟨fun kind hkind => hgrows'.hasScalar (hscalars kind hkind), hscalars'⟩

theorem record_ok {written : List MemberSyntax} (h : record name written close s = .ok (u, t))
    (hs : Between s) (hsized : ∀ m ∈ written, m.type.Sized) :
    Step (.record pos name written close) s t := by
  simp only [record, bind_ok, part_ok, ite_ok, refuse_ok, get_ok, discard_ok, build_ok, false_and,
    and_false, exists_false, false_or] at h
  obtain ⟨_, _, hwaiting, _, _, hwaiting', found, _, ⟨rfl, rfl⟩, hreserved, _, _, ⟨rfl, rfl⟩, -, ms,
    s₁, hmembers, _, _, ⟨-, rfl⟩, _, q, hadd, rfl⟩ := h
  obtain ⟨hstage, rfl⟩ := noneWaits_ok hwaiting
  obtain ⟨hbuiltin, rfl⟩ := noneWaits_ok hwaiting'
  obtain ⟨⟨hscopes, hstage₁, hbuiltin₁⟩, hgrows, hsound, ⟨htags, hvalues⟩, hscalars⟩ :=
    members_ok hmembers hs.sound hsized fun _ hm => (not_mem_nil hm).elim
  obtain ⟨rfl, rfl⟩ := addType_ok hadd
  have hname : isReservedType found.text = false := by
    simp only [Bool.or_eq_true, not_or, Bool.not_eq_true] at hreserved
    exact hreserved.1
  have hrecord : s₁.program.Extends (· ≠ .records) []
      (s₁.program.withType found.text (.record ms)) :=
    extends_withType (fun _ hscalar => by cases hscalar) fun hkept => absurd rfl hkept
  have hrecords : (s₁.program.withType found.text (.record ms)).records =
      s.program.records ++ [(found.text, ms)] := by
    rw [← hgrows.keptRecords trivial]
    simp [records, withType, TypeEntry.record?]
  have hext : s.program.Extends (· ≠ .records) (written.map (·.type.leaf))
      (s₁.program.withType found.text (.record ms)) := by
    simpa using (Extends.of_grows hgrows).trans hrecord
  have hglobals := hext.keptGlobals fun heq => by cases heq
  have hentries := hext.keptEntryPoints fun heq => by cases heq
  refine ⟨⟨hsound.withType ?_ hname, ?_, ?_⟩, (hext.mono ?_).names_mono ?_,
    ⟨[], [], ?_, ?_, rfl, rfl⟩, ?_, ?_, hstage, hbuiltin, hstage₁.trans hstage,
    hbuiltin₁.trans hbuiltin, hentries, found, ms, rfl, hrecords, htags,
    fun m hm => (hvalues m hm).mono hrecord⟩
  · intro m hm
    obtain ⟨⟨shape, hshape, -⟩, -⟩ := hvalues m hm
    exact shapeAt_lt hshape
  · exact hscopes ▸ hglobals ▸ hs.scope
  · intro g hg
    exact (hs.globals g (hglobals ▸ hg)).mono hext
  · rintro region hregion rfl
    exact hregion
  · simp [Item.types]
  · rw [hglobals, append_nil]
  · exact hgrows.procedures_eq.trans (append_nil _).symm
  · intro rest
    change map _ _ ++ stagedProcedures (s₁.stage.map (·.1)) rest = _
    rw [hentries, hstage₁, hstage]
    rfl
  · intro written' hwritten kind hkind
    obtain ⟨m, hm, rfl⟩ := mem_map.mp hwritten
    exact hrecord.hasScalar (hscalars m hm kind hkind)

def Closes (ref : ProcedureRef) (result : TypeRef) (p q : Program) : Prop :=
  ∃ found, p.procedures.get? ref = some found ∧
    ((found.returned = true ∧ p = q) ∨
      (found.returned = false ∧ result = voidType ∧ Build.exit ref p = .ok () q))

def Enters (waiting : Option Stage) (name : Bytes) (ref : ProcedureRef) (p q : Program) : Prop :=
  match waiting with
  | none => p = q
  | some stage => ∃ index, Build.addEntryPoint ⟨name, stage, ref⟩ p = .ok index q

theorem closeProcedure_ok {name : Bytes} {stage : Option Stage}
    (h : closeProcedure pos name stage ref s = .ok (u, t)) :
    ∃ scopes q, s.scopes.pop = .ok scopes ∧ Enters stage name ref s.program q ∧
      t = { s with program := q, scopes } := by
  simp only [closeProcedure, bind_ok, scope_ok] at h
  obtain ⟨_, _, ⟨scopes, hpop, rfl⟩, h⟩ := h
  cases stage with
  | none => exact ⟨scopes, _, hpop, rfl, (pure_ok.mp h).2.symm⟩
  | some stage =>
    simp only [discard_ok, build_ok] at h
    obtain ⟨index, q, henter, rfl⟩ := h
    exact ⟨scopes, q, hpop, ⟨index, henter⟩, rfl⟩

theorem procedureItem_steps (h : procedureItem name written body close s = .ok (u, t)) :
    ∃ found result s₁ ref q₁ scopes q₂ s₂ q₃ scopes' q₄,
      name = .ok found ∧ (s.builtin = none ∧ (s.stage.isSome = true → result = voidType) ∧
        ∀ a ∈ s.program.procedures.toList, a.name ≠ found.text) ∧
      type written { s with stage := none } = .ok (result, s₁) ∧
      Build.addProcedure found.text result s₁.program = .ok ref q₁ ∧
      s₁.scopes.push = .ok scopes ∧ Build.openBlock ref q₁ = .ok () q₂ ∧
      block ref body { s₁ with program := q₂, scopes } = .ok ((), s₂) ∧
      Closes ref result s₂.program q₃ ∧ s₂.scopes.pop = .ok scopes' ∧
      Enters (s.stage.map (·.1)) found.text ref q₃ q₄ ∧
      t = { s₂ with program := q₄, scopes := scopes' } := by
  simp only [procedureItem, takeStage, bind_ok, get_ok, modify_ok, pure_ok, part_ok, ite_ok,
    refuse_ok, build_ok, scope_ok, procedure, view_ok, procedureAt_ok, false_and, and_false,
    exists_false, false_or] at h
  obtain ⟨_, _, hnone, waiting, _, ⟨_, _, ⟨rfl, rfl⟩, _, _, rfl, hwaiting, rfl⟩, found, _,
    ⟨rfl, rfl⟩, _, _, ⟨rfl, rfl⟩, hnew, result, s₁, htype, hvoid, ref, _, ⟨q₁, hadd, rfl⟩, _, _,
    ⟨scopes, hpush, rfl⟩, _, _, ⟨q₂, hopen, rfl⟩, _, s₂, hblock, _, _, ⟨-, rfl⟩, last, _,
    ⟨hlast, rfl⟩, h⟩ := h
  obtain ⟨hbuiltin, rfl⟩ := noneWaits_ok hnone
  have hchecks : s.builtin = none ∧ (s.stage.isSome = true → result = voidType) ∧
      ∀ a ∈ s.program.procedures.toList, a.name ≠ found.text := by
    refine ⟨hbuiltin, fun hsome => ?_, fun a ha hsame => hnew ?_⟩
    · rw [← Option.isSome_map, hwaiting] at hsome
      simpa [hsome] using hvoid
    · exact Array.any_eq_true'.mpr ⟨a, Array.mem_toList_iff.mp ha, decide_eq_true hsame⟩
  rw [hwaiting]
  rcases h with ⟨hreturned, hclose⟩ | ⟨hreturned, hresult, _, _, ⟨q₃, hexit, rfl⟩, hclose⟩ <;>
    obtain ⟨scopes', q₄, hpop, henters, rfl⟩ := closeProcedure_ok hclose
  · exact ⟨found, result, s₁, ref, q₁, scopes, q₂, s₂, s₂.program, scopes', q₄, rfl, hchecks, htype,
      hadd, hpush, hopen, hblock, ⟨last, hlast, .inl ⟨hreturned, rfl⟩⟩, hpop, henters, rfl⟩
  · exact ⟨found, result, s₁, ref, q₁, scopes, q₂, s₂, q₃, scopes', q₄, rfl, hchecks, htype, hadd,
      hpush, hopen, hblock, ⟨last, hlast, .inr ⟨by simpa using hreturned,
        Decidable.not_not.mp hresult, hexit⟩⟩, hpop, henters, rfl⟩

def bareProcedure (name : Bytes) (id : UInt32) (type result : TypeRef) (label : UInt32) :
    Procedure :=
  ⟨name, id, type, result, label, #[], #[], false, #[]⟩

theorem addProcedure_ok {name : Bytes} (h : Build.addProcedure name result p = .ok ref q)
    (hp : p.Sound) (hresult : result < p.types.size) :
    ref = p.procedures.size ∧ q.Sound ∧ ∃ type types, q.shapeAt type = some (.procedure result) ∧
      p.Appends q ⟨types, [], [], [bareProcedure name p.nextId type result 0]⟩ ∧
      ((types = [] ∧ q.nextId = p.nextId + 1) ∨
        (types = [⟨[], p.nextId + 1, .procedure result⟩] ∧ q.nextId = p.nextId + 1 + 1)) := by
  simp only [Build.addProcedure, Build.modifyProcedure, Build.bind_ok, Build.push_ok,
    Build.freshId_ok, Build.modify_ok, Build.pure_ok] at h
  obtain ⟨_, q₀, ⟨-, rfl, hq₀⟩, _, q₁, ⟨rfl, hq₁⟩, _, q₂, hq₂, type, q₃, htype, _, q₄, rfl, rfl,
    rfl⟩ := h
  have happends : p.Appends q₂ ⟨[], [], [], [bareProcedure name p.nextId voidType result 0]⟩ := by
    subst hq₂ hq₁ hq₀
    refine ⟨rfl, by simp, by simp, by simp, rfl, rfl, ?_⟩
    rw [Arena.toList_modify, Arena.toList_add, ← Arena.length_toList]
    exact modify_concat _ _ _
  have htypes : q₂.types = p.types := by subst hq₂ hq₁ hq₀; rfl
  have hconstants : q₂.constants = p.constants := by subst hq₂ hq₁ hq₀; rfl
  have hnext : q₂.nextId = p.nextId + 1 := by subst hq₂ hq₁ hq₀; rfl
  have hsound₂ : q₂.Sound := hp.congr htypes hconstants
  have hsound₃ : q₃.Sound :=
    Build.typeOfShape_sound htype hsound₂ (by rw [htypes]; exact hresult) rfl
  have hlast : (q₃.procedures.modify p.procedures.size fun a => { a with type }).toList =
      p.procedures.toList ++ [bareProcedure name p.nextId type result 0] := by
    have hgrows : q₂.Grows [] q₃ := Build.typeOfShape_grows htype (by simp)
    rw [Arena.toList_modify, hgrows.procedures_eq, happends.procedures, ← Arena.length_toList]
    exact modify_concat _ _ _
  obtain ⟨hshape, rfl | rfl⟩ := Build.typeOfShape_ok htype
  · exact ⟨rfl, hsound₃.congr rfl rfl, type, [], hshape,
      { happends with procedures := hlast }, .inl ⟨rfl, hnext⟩⟩
  · refine ⟨rfl, hsound₃.congr rfl rfl, type, _, hshape,
      { happends with types := ?_, procedures := hlast }, .inr ⟨rfl, ?_⟩⟩
    · simp only [Program.withType, Arena.toList_add, htypes, hnext]
    · simp only [Program.withType, hnext]

theorem openProcedure_ok {r : Program} {name : Bytes}
    (hadd : Build.addProcedure name result p = .ok ref q) (hopen : Build.openBlock ref q = .ok u r)
    (hp : p.Sound) (hresult : result < p.types.size) :
    ref = p.procedures.size ∧ r.Sound ∧ r.globals.toList = p.globals.toList ∧
      r.entryPoints = p.entryPoints ∧
      p.Extends (Program.Region.around p.procedures.size) [] r ∧
      ∃ id type label,
        r.procedures.toList = p.procedures.toList ++ [bareProcedure name id type result label] ∧
        r.shapeAt type = some (.procedure result) := by
  obtain ⟨rfl, hq, type, types, hshape, happends, hnext⟩ := addProcedure_ok hadd hp hresult
  simp only [Build.openBlock, Build.modifyProcedure, Build.bind_ok, Build.discard_ok,
    Build.procedure_ok, Build.freshId_ok, Build.modify_ok] at hopen
  obtain ⟨_, _, ⟨_, -, rfl⟩, _, _, hreserve, _, _, ⟨rfl, rfl⟩, hr⟩ := hopen
  obtain ⟨words, rfl⟩ := Build.reserve_ok hreserve
  have hopened :
      p.Appends r ⟨types, [], [], [bareProcedure name p.nextId type result q.nextId]⟩ := by
    subst hr
    refine { happends with procedures := ?_ }
    rw [Arena.toList_modify, happends.procedures, ← Arena.length_toList]
    exact modify_concat _ _ _
  have hshape' : r.shapeAt type = some (.procedure result) := by
    subst hr
    exact hshape
  have hsound : r.Sound := by
    subst hr
    exact hq.congr rfl rfl
  have hlater : r.nextId = q.nextId + 1 := by
    subst hr
    rfl
  refine ⟨rfl, hsound, by simpa using hopened.globals, hopened.entryPoints, ?_, _, type, _,
    hopened.procedures, hshape'⟩
  -- The ids are those of the procedure, of its type if that is new, and of the label.
  rcases hnext with ⟨rfl, hnext⟩ | ⟨rfl, hnext⟩
  · refine hopened.extends 2 ?_ (.of_eq ?_) (fun _ ht => (List.not_mem_nil ht).elim)
      (fun _ _ ht => (List.not_mem_nil ht).elim) (fun _ => rfl) (fun _ h => .inl h)
    · rw [hlater, hnext, UInt32.add_assoc]
      rfl
    · rw [hnext]
      simp [Program.Added.resultIds, Procedure.resultIds, bareProcedure, idsFrom, List.range_succ]
  · refine hopened.extends 3 ?_ ?_ ?_ ?_ (fun _ => rfl) (fun _ h => .inl h)
    · rw [hlater, hnext, UInt32.add_assoc, UInt32.add_assoc]
      rfl
    · have hthree : idsFrom p.nextId 3 = [p.nextId, p.nextId + 1, p.nextId + 1 + 1] := by
        simp [idsFrom, range_succ, UInt32.add_assoc]
      rw [hnext, hthree]
      exact .swap _ _ _
    · intro t ht kind hkind
      obtain rfl := mem_singleton.mp ht
      cases hkind
    · intro _ t ht
      obtain rfl := mem_singleton.mp ht
      rfl

theorem writes_last {names : List Bytes} {returned : Bool} {before : List Procedure}
    {old : Procedure} (h : p.Writes ref names vars code returned q)
    (hp : p.procedures.toList = before ++ [old]) (href : ref = before.length) :
    ∃ new, q.procedures.toList = before ++ [new] ∧ old.Continues new vars code returned := by
  subst href
  obtain ⟨old', new, hold, hnew, hcontinues⟩ := h.procedure
  have hlast : p.procedures.get? before.length = some old := by
    rw [get?_eq, hp, getElem?_concat_length]
  obtain rfl : old = old' := Option.some.inj (hlast.symm.trans hold)
  refine ⟨new, ?_, hcontinues⟩
  apply ext_getElem?
  intro i
  by_cases hi : i = before.length
  · rw [hi, ← get?_eq, hnew, getElem?_concat_length]
  · have hkept : q.procedures.get? i = p.procedures.get? i :=
      h.grows.procedures i fun heq => hi (Region.procedure.inj heq)
    rw [← get?_eq, hkept, get?_eq, hp, getElem?_append, getElem?_append]
    split
    · rfl
    · next hge =>
        have hpast : i - before.length ≠ 0 := by omega
        rw [getElem?_singleton, getElem?_singleton, if_neg hpast, if_neg hpast]

theorem Enters.extends {waiting : Option Stage} {name : Bytes} (h : Enters waiting name ref p q) :
    p.Extends (· ≠ .entryPoints) [] q ∧ (p.Sound → q.Sound) ∧ q.procedures = p.procedures ∧
      q.entryPoints.toList = p.entryPoints.toList ++
        (waiting.map fun stage => (⟨name, stage, ref⟩ : EntryPoint)).toList := by
  cases waiting with
  | none =>
    obtain rfl : p = q := h
    exact ⟨.refl _, id, rfl, by simp⟩
  | some stage =>
    obtain ⟨index, h⟩ := h
    simp only [addEntryPoint, push_ok] at h
    obtain ⟨-, -, rfl⟩ := h
    refine ⟨⟨rfl, prefix_refl _, prefix_refl _, prefix_refl _, prefix_refl _,
      prefix_add _ _,
      fun _ => rfl, fun hne => absurd rfl hne, fun _ => rfl, fun _ _ => rfl, fun _ h => .inl h, 0,
      by simp, by simp [resultIds]⟩, fun hp => hp.congr rfl rfl, rfl, toList_add _ _⟩

theorem Closes.writes {found : Procedure} (h : Closes ref result p q)
    (hfound : p.procedures.get? ref = some found) :
    p.Writes ref [] [] (if found.returned then [] else [⟨.exit, []⟩]) false q ∧
      (found.returned = false → result = voidType) := by
  obtain ⟨found', hfound', hcases⟩ := h
  obtain rfl : found = found' := Option.some.inj (hfound.symm.trans hfound')
  rcases hcases with ⟨hreturned, rfl⟩ | ⟨hreturned, hvoid, hexit⟩
  · rw [hreturned]
    exact ⟨.refl hfound, nofun⟩
  · rw [hreturned]
    exact ⟨Build.exit_ok hexit, fun _ => hvoid⟩

theorem Lowers.compiled {returned : Bool} {before : List Procedure} {name : Bytes}
    {id label : UInt32} {type : TypeRef} (h : Lowers ref result s t body vars code returned)
    (hbare : s.program.procedures.toList = before ++ [bareProcedure name id type result label])
    (href : ref = before.length) (hcloses : Closes ref result t.program q)
    (hshape : s.program.shapeAt type = some (.procedure result))
    (hresult : result = voidType ∨ s.program.IsValueType result) :
    ∃ code' new,
      s.program.Writes ref ((blockTypes body).map TypeSyntax.leaf) vars code' returned q ∧
      q.procedures.toList = before ++ [new] ∧ new.name = name ∧ new.result = result ∧
      q.Compiled s.scopes.locals.toList body new := by
  obtain ⟨mid, hmid, hmidContinues⟩ := writes_last h.writes hbare href
  have hget : t.program.procedures.get? ref = some mid := by
    rw [get?_eq, hmid, href, getElem?_concat_length]
  have hreturned : mid.returned = returned := by
    rw [hmidContinues.returned]
    rfl
  obtain ⟨hclosing, hvoid⟩ := hcloses.writes hget
  rw [hreturned] at hclosing hvoid
  have hwrites := h.writes.trans hclosing
  rw [append_nil, append_nil, Bool.or_false] at hwrites
  obtain ⟨new, hnew, hcontinues⟩ := writes_last hwrites hbare href
  have hresult' : new.result = result := hcontinues.result
  refine ⟨_, new, hwrites, hnew, hcontinues.name, hresult', ?_⟩
  have hlocals : new.locals.toList = vars := by simpa [bareProcedure] using hcontinues.locals
  have hbody : new.body.toList = code ++ (if returned then [] else [⟨.exit, []⟩]) := by
    simpa [bareProcedure] using hcontinues.body
  refine ⟨?_, ?_, t.scopes.locals.toList, code, returned, ?_, hbody, ?_⟩
  · rw [hcontinues.type, hresult']
    exact hwrites.grows.shapeAt hshape
  · rw [hresult']
    exact hresult.imp_right (·.mono hwrites.grows)
  · rw [hresult', hlocals]
    exact h.lowered.mono hclosing.grows
  · rw [hresult']
    exact hvoid

theorem procedureItem_ok (h : procedureItem name written body close s = .ok (u, t)) (hs : Between s)
    (hsized : ∀ type ∈ written :: blockTypes body, type.Sized) :
    Step (.procedure pos name written body close) s t := by
  obtain ⟨found, result, s₁, ref, q₁, scopes, q₂, s₂, q₃, closed, q₄, rfl, hchecks, htype, hadd,
    hpush, hopen, hblock, hcloses, hpop, henters, rfl⟩ := procedureItem_steps h
  obtain ⟨hbuiltin, hentry, hfresh⟩ := hchecks
  obtain ⟨hsizedResult, hsizedBody⟩ := forall_mem_cons.mp hsized
  obtain ⟨q, rfl, hnamed, hsound, hresult, hvoid, hscalars⟩ := type_ok htype hs.sound hsizedResult
  have hlt : result < q.types.size := by
    rcases hresult with rfl | ⟨shape, hshape, -⟩
    · exact shapeAt_lt hsound.void
    · exact shapeAt_lt hshape
  obtain ⟨rfl, hsound₂, hglobals₂, hentries₂, hext₂, id, type, label, hprocedures₂, hshape₂⟩ :=
    openProcedure_ok hadd hopen hsound hlt
  have hcount : q.procedures.toList = s.program.procedures.toList := hnamed.procedures_eq
  have hready : Ready q.procedures.size result
      { s with program := q₂, scopes := scopes, stage := none } := by
    refine ⟨hsound₂, bareProcedure found.text id type result label, ?_, rfl⟩
    rw [get?_eq, hprocedures₂, ← length_toList, getElem?_concat_length]
  obtain ⟨vars, code, returned, hlowers⟩ := block_ok body hblock hready hsizedBody
  obtain ⟨code', new, hwrites, hnew, hname, rfl, hcompiled⟩ := hlowers.compiled hprocedures₂
    (length_toList _).symm hcloses hshape₂ (hresult.imp_right (·.mono hext₂))
  obtain ⟨henter, hsound₄, hprocedures₄, hentries₄⟩ := henters.extends
  have hsize : q.procedures.size = s.program.procedures.size := by
    rw [← length_toList, hcount, length_toList]
  -- Only procedures before the new one are kept all along.
  have hgrows : s.program.Extends (Region.around s.program.procedures.size)
      ([written.leaf] ++ ([] ++ ((blockTypes body).map TypeSyntax.leaf ++ []))) q₄ := by
    rw [hsize] at hext₂ hwrites
    refine (Extends.of_grows hnamed).trans (hext₂.trans (.trans (hwrites.grows.mono ?_)
      (henter.mono ?_)))
    · rintro region hregion rfl
      exact Nat.lt_irrefl _ hregion
    · rintro region hregion rfl
      exact hregion
  have hglobals : q₄.globals.toList = s.program.globals.toList := by
    rw [henter.keptGlobals nofun, hwrites.grows.keptGlobals nofun, hglobals₂,
      hnamed.keptGlobals trivial]
  have hscope : scopes.locals.toList = aliases s.program.globals.toList := by
    rw [(Scopes.push_ok hpush).1]
    exact hs.scope
  have hprocedures : q₄.procedures.toList = s.program.procedures.toList ++ [new] := by
    rw [hprocedures₄, hnew, hcount]
  have hentries :
      q₄.entryPoints.toList = s.program.entryPoints.toList ++ (s.stage.map fun waiting =>
      (⟨new.name, waiting.1, s.program.procedures.size⟩ : EntryPoint)).toList := by
    rw [hentries₄, hwrites.grows.keptEntryPoints nofun, hentries₂, hnamed.keptEntryPoints trivial,
      hname, hsize, Option.map_map]
    rfl
  refine ⟨⟨hsound₄ (hwrites.sound hsound₂), ?_, ?_⟩,
    (hgrows.mono Region.around_of_before).names_mono ?_, ⟨[], [new], ?_, hprocedures, rfl,
    new, found, rfl, rfl, hname, hvoid, ?_⟩, ?_, ?_, hbuiltin, hlowers.stage, ?_,
    hgrows.keptRecords trivial, new, hprocedures, hname ▸ hfresh, hentries, hentry⟩
  · rw [(hlowers.scope_back hpush hpop).1, hglobals]
    exact hs.scope
  · intro g hg
    rw [hglobals] at hg
    exact (hs.globals g hg).mono hgrows
  · simp [Item.types]
  · rw [hglobals, append_nil]
  · rw [← hscope]
    exact hcompiled.mono henter
  · intro rest
    rw [entries, entries, hentries, hlowers.stage, hname]
    cases s.stage with
    | none => simp [stagedProcedures]
    | some stage => simp [stagedProcedures]
  · obtain ⟨last, hlast⟩ : ∃ last, s₂.program.procedures.get? q.procedures.size = some last :=
      hcloses.imp fun _ h => h.1
    have hclosing := (hcloses.writes hlast).1
    refine forall_mem_cons.mpr ⟨fun kind hkind => ?_, fun type htype kind hkind => ?_⟩
    · exact henter.hasScalar (hwrites.grows.hasScalar (hext₂.hasScalar (hscalars kind hkind)))
    · exact henter.hasScalar (hclosing.grows.hasScalar (hlowers.named type htype kind hkind))
  · exact hlowers.builtin.trans hbuiltin

theorem item_ok (x : Item) (h : item x s = .ok (u, t)) (hs : Between s)
    (hsized : ∀ written ∈ x.types, written.Sized) : Step x s t := by
  cases x with
  | stage pos stage close => exact stageAttribute_ok h hs
  | builtin pos builtin close => exact builtinAttribute_ok h hs
  | global pos direction name type placement =>
    exact global_ok h hs (hsized type mem_cons_self)
  | record pos name members close =>
    exact record_ok h hs fun m hm => hsized m.type (mem_map_of_mem hm)
  | procedure pos name result body close => exact procedureItem_ok h hs hsized

structure Steps (items : List Item) (s t : Elaboration) : Prop where
  between : Between t
  grows : s.program.Extends (Program.Region.before s.program.procedures.size)
    ((items.flatMap Item.types).map TypeSyntax.leaf) t.program
  declared : ∃ globals procedures,
    t.program.globals.toList = s.program.globals.toList ++ globals ∧
    t.program.procedures.toList = s.program.procedures.toList ++ procedures ∧
    t.program.DeclaredAll s.program.globals.toList items globals procedures
  entryPoints : entries t.program ++ stagedProcedures (t.stage.map (·.1)) [] =
    entries s.program ++ stagedProcedures (s.stage.map (·.1)) items
  named : ∀ written ∈ items.flatMap Item.types, ∀ kind : ScalarKind, kind.name = written.leaf →
    t.program.hasScalar kind = true

theorem items_ok (items : List Item) (h : items.forM item s = .ok (u, t)) (hs : Between s)
    (hsized : ∀ written ∈ items.flatMap Item.types, written.Sized) : Steps items s t := by
  induction items generalizing s with
  | nil =>
    obtain ⟨-, rfl⟩ := pure_ok.mp h
    exact ⟨hs, .refl _, ⟨[], [], by simp, by simp, .done⟩, rfl, nofun⟩
  | cons x rest ih =>
    obtain ⟨_, s₁, hfirst, hrest⟩ := bind_ok.mp h
    simp only [flatMap_cons, mem_append] at hsized
    have hstep := item_ok x hfirst hs fun written hmem => hsized written (.inl hmem)
    have hsteps := ih hrest hstep.between fun written hmem => hsized written (.inr hmem)
    obtain ⟨globals, procedures, hglobals, hprocedures, hdeclared⟩ := hstep.declared
    obtain ⟨globals', procedures', hglobals', hprocedures', hdeclared'⟩ := hsteps.declared
    have hsize : s.program.procedures.size ≤ s₁.program.procedures.size := by
      simp only [← length_toList, hprocedures, length_append]
      omega
    have hkept : s₁.program.Extends (Region.before s.program.procedures.size)
        ((rest.flatMap Item.types).map TypeSyntax.leaf) t.program := by
      refine hsteps.grows.mono ?_
      intro region hregion
      cases region with
      | procedure ref => exact Nat.lt_of_lt_of_le hregion hsize
      | globals | entryPoints | records => exact hregion
    refine ⟨hsteps.between, ?_, ⟨globals ++ globals', procedures ++ procedures', ?_, ?_, ?_⟩, ?_,
      ?_⟩
    · rw [flatMap_cons, map_append]
      exact hstep.grows.trans hkept
    · rw [hglobals', hglobals, append_assoc]
    · rw [hprocedures', hprocedures, append_assoc]
    · rw [hglobals] at hdeclared'
      exact .next (hdeclared.mono hkept) hdeclared'
    · rw [hsteps.entryPoints]
      exact hstep.entryPoints rest
    · intro written hwritten kind hkind
      rw [flatMap_cons, mem_append] at hwritten
      rcases hwritten with hmem | hmem
      · exact hkept.hasScalar (hstep.named written hmem kind hkind)
      · exact hsteps.named written hmem kind hkind

theorem sourceTree_ok {tree : SourceTree} (h : sourceTree tree s = .ok (u, t)) :
    tree.items.forM item s = .ok ((), t) ∧ (∃ pos, tree.ending = .ok pos) ∧ t.stage = none ∧
      t.builtin = none := by
  simp only [sourceTree, bind_ok, discard_ok, part_ok] at h
  obtain ⟨_, s₁, hitems, _, _, ⟨pos, hending, rfl⟩, _, _, hwaiting, hwaiting'⟩ := h
  obtain ⟨hstage, rfl⟩ := noneWaits_ok hwaiting
  obtain ⟨hbuiltin, rfl⟩ := noneWaits_ok hwaiting'
  exact ⟨hitems, ⟨pos, hending⟩, hstage, hbuiltin⟩

end Elaborate

end Shading
