import Shading.Proofs.Packing
import Shading.Proofs.Safety.Closed

/-!
Assembling a program whose indices are those of its pools. Nothing but an entry
point or a record can need more words than an instruction has, and how many it
needs is told by its name, its interface and its members. If none does, the
buffer that was asked for is filled exactly.
-/

namespace Shading

open List

open Binary (Instruction Opcode Sink)

variable {entry : EntryPoint} {t : TypeEntry} {i : Instruction}

theorem mapM_ok_of_forall {ε α β : Type} {f : α → Except ε β} {xs : List α}
    (h : ∀ x ∈ xs, ∃ y, f x = .ok y) : ∃ ys, xs.mapM f = .ok ys := by
  induction xs with
  | nil => exact ⟨[], rfl⟩
  | cons x xs ih =>
    obtain ⟨⟨y, hy⟩, hxs⟩ := forall_mem_cons.mp h
    obtain ⟨ys, hys⟩ := ih hxs
    exact ⟨y :: ys, mapM_ok_cons.mpr ⟨y, ys, hy, hys, rfl⟩⟩

def Shape.parts : Shape → List TypeRef
  | .vector component _ => [component]
  | .pointer base _ => [base]
  | .procedure result => [result]
  | .record members => members.map (·.type)
  | _ => []

namespace Program

variable {p : Program} {s : Sections}

/-- Every index that an entry holds is one of its pool. -/
structure Resolves (p : Program) : Prop where
  types : ∀ t ∈ p.types.toList, ∀ part ∈ t.shape.parts, part < p.types.size
  constants : ∀ c ∈ p.constants.toList, c.type < p.types.size
  globals : ∀ g ∈ p.globals.toList, g.pointer < p.types.size
  procedures : ∀ a ∈ p.procedures.toList, a.Within p
  entryPoints : ∀ entry ∈ p.entryPoints.toList, entry.procedure < p.procedures.size

namespace Resolves

theorem entryPoint (h : p.Resolves) (hentry : entry ∈ p.entryPoints.toList) :
    ∃ i, p.entryPoint entry = .ok i := by
  obtain ⟨a, ha, hmem⟩ := procedureAt_of_lt (h.entryPoints entry hentry)
  have hids : ∃ ids,
      (a.interface.toList.mapM fun ref => (p.globalAt ref).map (·.id)) = .ok ids := by
    refine mapM_ok_of_forall fun ref href => ?_
    obtain ⟨g, hg⟩ := globalAt_of_lt ((h.procedures a hmem).2.2 ref href)
    exact ⟨g.id, by rw [hg]; rfl⟩
  obtain ⟨ids, hids⟩ := hids
  exact ⟨_, except_bind_ok.mpr ⟨a, ha, except_bind_ok.mpr ⟨ids, hids, rfl⟩⟩⟩

theorem executionMode (h : p.Resolves) (hentry : entry ∈ p.entryPoints.toList) :
    ∃ modes, p.executionMode entry = .ok modes := by
  obtain ⟨a, ha, -⟩ := procedureAt_of_lt (h.entryPoints entry hentry)
  unfold Program.executionMode
  split
  · exact ⟨_, except_bind_ok.mpr ⟨a, ha, rfl⟩⟩
  · exact ⟨[], rfl⟩

theorem typeDeclaration (h : p.Resolves) (ht : t ∈ p.types.toList) :
    ∃ i, p.typeDeclaration t = .ok i := by
  have hid : ∀ part ∈ t.shape.parts, ∃ id, p.typeId part = .ok id :=
    fun part hpart => typeId_of_lt (h.types t ht part hpart)
  unfold Program.typeDeclaration
  cases hshape : t.shape with
  | void => exact ⟨_, rfl⟩
  | scalar kind => cases kind <;> exact ⟨_, rfl⟩
  | vector component size =>
    rw [hshape] at hid
    obtain ⟨id, hid⟩ := hid component mem_cons_self
    exact ⟨_, except_bind_ok.mpr ⟨id, hid, rfl⟩⟩
  | pointer base storage =>
    rw [hshape] at hid
    obtain ⟨id, hid⟩ := hid base mem_cons_self
    exact ⟨_, except_bind_ok.mpr ⟨id, hid, rfl⟩⟩
  | procedure result =>
    rw [hshape] at hid
    obtain ⟨id, hid⟩ := hid result mem_cons_self
    exact ⟨_, except_bind_ok.mpr ⟨id, hid, rfl⟩⟩
  | record members =>
    rw [hshape] at hid
    obtain ⟨ids, hids⟩ := mapM_ok_of_forall fun (member : Member) hmember =>
      hid member.type (mem_map_of_mem hmember)
    exact ⟨_, except_bind_ok.mpr ⟨ids, hids, rfl⟩⟩

theorem globalDeclaration (h : p.Resolves) {g : Global} (hg : g ∈ p.globals.toList) :
    ∃ i, p.globalDeclaration g = .ok i := by
  obtain ⟨id, hid⟩ := typeId_of_lt (h.globals g hg)
  exact ⟨_, except_bind_ok.mpr ⟨id, hid, rfl⟩⟩

theorem constantDeclaration (h : p.Resolves) {c : Constant} (hc : c ∈ p.constants.toList) :
    ∃ i, p.constantDeclaration c = .ok i := by
  obtain ⟨id, hid⟩ := typeId_of_lt (h.constants c hc)
  exact ⟨_, except_bind_ok.mpr ⟨id, hid, rfl⟩⟩

theorem function (h : p.Resolves) {a : Procedure} (ha : a ∈ p.procedures.toList) :
    ∃ code, p.function a = .ok code := by
  obtain ⟨htype, hresult, -⟩ := h.procedures a ha
  obtain ⟨result, hresult⟩ := typeId_of_lt hresult
  obtain ⟨type, htype⟩ := typeId_of_lt htype
  exact ⟨_, except_bind_ok.mpr ⟨result, hresult, except_bind_ok.mpr ⟨type, htype, rfl⟩⟩⟩

theorem assembles (h : p.Resolves) : ∃ s, p.Assembles s := by
  obtain ⟨entryPoints, hentryPoints⟩ := mapM_ok_of_forall fun _ => h.entryPoint
  obtain ⟨modes, hmodes⟩ := mapM_ok_of_forall fun _ => h.executionMode
  obtain ⟨types, htypes⟩ := mapM_ok_of_forall fun _ => h.typeDeclaration
  obtain ⟨globals, hglobals⟩ := mapM_ok_of_forall fun _ => h.globalDeclaration
  obtain ⟨constants, hconstants⟩ := mapM_ok_of_forall fun _ => h.constantDeclaration
  obtain ⟨functions, hfunctions⟩ := mapM_ok_of_forall fun _ => h.function
  exact ⟨⟨entryPoints, modes, types, globals, constants, functions⟩,
    ⟨hentryPoints, hmodes, htypes, hglobals, hconstants, hfunctions⟩⟩

end Resolves

def entryPointNeed (p : Program) (entry : EntryPoint) : Opcode × Nat :=
  let interface := ((p.procedures.get? entry.procedure).map (·.interface.size)).getD 0
  (.entryPoint, 3 + (entry.name.length / 4 + 1) + interface)

def recordNeed? (t : TypeEntry) : Option (Opcode × Nat) :=
  match t.shape with
  | .record members => some (.typeStruct, 2 + members.length)
  | _ => none

def needs (p : Program) : List (Opcode × Nat) :=
  p.entryPoints.toList.map p.entryPointNeed ++ p.types.toList.filterMap recordNeed?

def overlong? (need : Opcode × Nat) : Option AssembleError :=
  if Binary.maxInstructionWords < need.2 then some (.oversized need.1 need.2) else none

/-- The error of the first entry point or record that is too long. -/
def firstOverlong? (p : Program) : Option AssembleError := p.needs.findSome? overlong?

theorem oversized?_eq (i : Instruction) : i.oversized? = overlong? (i.opcode, i.wordCount) := by
  unfold Instruction.oversized? Instruction.isEncodable overlong?
  by_cases h : i.wordCount ≤ Binary.maxInstructionWords
  · rw [if_pos (decide_eq_true h), if_neg (Nat.not_lt.mpr h)]
  · rw [if_neg (by simpa using h), if_pos (Nat.lt_of_not_le h)]

theorem entryPoint_oversized? (h : p.entryPoint entry = .ok i) :
    i.oversized? = overlong? (p.entryPointNeed entry) := by
  simp only [entryPoint, except_bind_ok, except_pure_ok] at h
  obtain ⟨a, ha, interface, hinterface, rfl⟩ := h
  have hlength : interface.length = a.interface.size := by
    rw [mapM_ok_length hinterface, Array.length_toList]
  have hwords : 1 + (2 + (entry.name.length / 4 + 1 + interface.length)) =
      3 + (entry.name.length / 4 + 1) + a.interface.size := by omega
  rw [oversized?_eq, entryPointNeed, procedureAt_ok.mp ha]
  simp only [Instruction.wordCount, length_cons, length_append, Binary.length_packString,
    Binary.stringWordCount, Option.map_some, Option.getD_some, ← hwords]
  congr 2
  omega

theorem typeDeclaration_oversized? (h : p.typeDeclaration t = .ok i) :
    i.oversized? = (recordNeed? t).bind overlong? := by
  unfold typeDeclaration at h
  unfold recordNeed?
  split at h
  case h_10 members hshape =>
      simp only [except_bind_ok, except_pure_ok] at h
      obtain ⟨ids, hids, rfl⟩ := h
      have hwords : (⟨.typeStruct, t.id :: ids⟩ : Instruction).wordCount = 2 + members.length := by
        rw [Instruction.wordCount, length_cons, mapM_ok_length hids]
        omega
      rw [oversized?_eq, hwords, hshape]
      rfl
  all_goals
    next hshape =>
      simp only [except_bind_ok, except_pure_ok, Except.ok.injEq] at h
      rw [hshape]
      first
      | obtain rfl := h
        rfl
      | obtain ⟨_, -, rfl⟩ := h
        rfl

theorem firstOversized_mapM {α : Type} {look : α → Except Fault Instruction} {l : List α}
    {found : List Instruction} {need? : α → Option (Opcode × Nat)} (h : l.mapM look = .ok found)
    (hneed : ∀ {a i}, look a = .ok i → i.oversized? = (need? a).bind overlong?) :
    firstOversized found = (l.filterMap need?).findSome? overlong? := by
  induction l generalizing found with
  | nil =>
    obtain rfl := mapM_ok_nil.mp h
    rfl
  | cons a rest ih =>
    obtain ⟨i, others, hi, hrest, rfl⟩ := mapM_ok_cons.mp h
    have hothers : others.findSome? Instruction.oversized? =
        (rest.filterMap need?).findSome? overlong? := ih hrest
    rw [firstOversized, findSome?_cons, hneed hi, hothers]
    cases hcase : need? a with
    | none =>
      rw [filterMap_cons_none hcase]
      rfl
    | some need =>
      rw [filterMap_cons_some hcase, findSome?_cons]
      rfl

theorem Assembles.firstOversized_eq (h : p.Assembles s) :
    firstOversized (p.declarations s) = p.firstOverlong? := by
  have hentryPoints : firstOversized s.entryPoints =
      (p.entryPoints.toList.filterMap (some ∘ p.entryPointNeed)).findSome? overlong? :=
    firstOversized_mapM h.entryPoints entryPoint_oversized?
  rw [h.firstOversized_declarations, hentryPoints,
    firstOversized_mapM h.types typeDeclaration_oversized?, firstOverlong?, needs,
    findSome?_append, filterMap_eq_map]

/-- Assembling a program whose indices are those of its pools fails only for an entry point or a
record that needs more words than an instruction has, and then with the first one, the entry points
before the records; what was written never differs from what was counted. Otherwise it gives four
bytes for every word that a visit sends, which are those of the header and of all sections. -/
theorem assemble_counts_exactly (h : p.Resolves) :
    (∀ packed counted, p.assemble ≠ .error (.miscounted packed counted)) ∧
    (∀ e, p.assemble = .error e ↔ p.firstOverlong? = some e) ∧
    (p.firstOverlong? = none → ∃ s words, p.Assembles s ∧
      words = p.header.words ++ Binary.wordsOf (p.declarations s ++ s.functions.flatten) ∧
      p.sendTo Sink.collector [] = .ok words ∧ p.sendTo Sink.counter 0 = .ok words.length ∧
      p.assemble = .ok (Binary.bytesOfWords words) ∧
      (Binary.bytesOfWords words).length = 4 * words.length) := by
  obtain ⟨s, hs⟩ := h.assembles
  have hsend := hs.sendTo
  have hassemble := hs.assemble
  rw [hs.firstOversized_eq] at hsend hassemble
  cases hfirst : p.firstOverlong? with
  | some e =>
    simp only [hfirst] at hassemble
    obtain ⟨need, -, hneed⟩ := exists_of_findSome?_eq_some hfirst
    have he : e = .oversized need.1 need.2 := by
      unfold overlong? at hneed
      split at hneed
      · exact (Option.some.inj hneed).symm
      · cases hneed
    rw [hassemble]
    refine ⟨fun packed counted heq => ?_, fun e' => by simp, nofun⟩
    rw [he] at heq
    cases heq
  | none =>
    simp only [hfirst] at hsend hassemble
    have hcount := sendTo_eq Sink.lawful_counter p 0
    rw [hsend] at hcount
    rw [hassemble]
    refine ⟨nofun, fun e => by simp, fun _ => ⟨s, _, hs, rfl, hsend, ?_, rfl, ?_⟩⟩
    · rw [hcount, Except.map, Sink.counter_words]
    · exact Binary.length_bytesOfWords _

/-- A program with a record of some members and an entry point whose interface holds one variable
some times over. -/
def laden (members touched : Nat) : Program where
  limits := {}
  nextId := 8
  types := ⟨#[⟨Text.utf8 "void", 2, .void⟩, ⟨Text.utf8 "f32", 3, .scalar .f32⟩,
    ⟨Text.utf8 "r", 4, .record (List.replicate members ⟨Text.utf8 "m", 1, .absent⟩)⟩], .types, 3⟩
  globals := ⟨#[⟨Text.utf8 "g", .input, some 0, .absent, 1, 1, 5⟩], .globals, 1⟩
  constants := .empty .constants 0
  expressions := .empty .expressions 0
  procedures := ⟨#[⟨Text.utf8 "p", 6, 0, 0, 7, #[], #[], true, Array.replicate touched 0⟩],
    .procedures, 1⟩
  entryPoints := ⟨#[⟨Text.utf8 "main", .fragment, 0⟩], .entryPoints, 1⟩
  words := ⟨0, 0⟩
  interfacesUsed := touched

theorem laden_resolves (members touched : Nat) : (laden members touched).Resolves := by
  refine ⟨?_, nofun, ?_, ?_, ?_⟩ <;>
    simp [laden, Arena.toList, Arena.size, Shape.parts, Procedure.Within]

theorem firstOverlong?_laden (members touched : Nat) : (laden members touched).firstOverlong? =
    (overlong? (.entryPoint, 5 + touched)).or (overlong? (.typeStruct, 2 + members)) := by
  have hname : (Text.utf8 "main").length = 4 := by decide
  have hneeds : (laden members touched).needs =
      [(.entryPoint, 5 + touched), (.typeStruct, 2 + members)] := by
    simp [needs, entryPointNeed, laden, Arena.toList, Arena.get?, hname, filterMap,
      recordNeed?]
  rw [firstOverlong?, hneeds, findSome?_cons, findSome?_singleton]
  cases overlong? (.entryPoint, 5 + touched) <;> rfl

/-- The entry point is reported before the record, and both fit up to their last word. -/
theorem laden_counts_exactly :
    ((laden 70000 65531).Resolves ∧
      (laden 70000 65531).assemble = .error (.oversized .entryPoint 65536)) ∧
    ((laden 65534 65530).Resolves ∧
      (laden 65534 65530).assemble = .error (.oversized .typeStruct 65536)) ∧
    (laden 65533 65530).Resolves ∧ ∃ words,
      (laden 65533 65530).sendTo Sink.counter 0 = .ok words ∧
      (laden 65533 65530).assemble.map List.length = .ok (4 * words) := by
  have hfits : (laden 65533 65530).firstOverlong? = none := firstOverlong?_laden 65533 65530
  obtain ⟨s, words, -, -, -, hcount, hassemble, hlength⟩ :=
    (assemble_counts_exactly (laden_resolves 65533 65530)).2.2 hfits
  refine ⟨⟨laden_resolves _ _, ?_⟩, ⟨laden_resolves _ _, ?_⟩, laden_resolves _ _,
    words.length, hcount, ?_⟩
  · exact ((assemble_counts_exactly (laden_resolves 70000 65531)).2.1 _).mpr
      (firstOverlong?_laden 70000 65531)
  · exact ((assemble_counts_exactly (laden_resolves 65534 65530)).2.1 _).mpr
      (firstOverlong?_laden 65534 65530)
  · rw [hassemble, Except.map, hlength]

end Program

end Shading
