import Shading.Compile
import Shading.Proofs.Elaboration.Items
import Shading.Proofs.Reading.Items

/-!
The program of a source file. It starts with void and the 32-bit float, and
every item of the file adds what it declares. `Program.Built` collects what is
known of the program once the end of the file is reached.
-/

namespace Shading

open Binary (idsFrom)

variable {limits : Limits} {source : Bytes}

namespace Program

structure Built (tree : SourceTree) (p : Program) : Prop where
  sound : p.Sound
  globals : ∀ g ∈ p.globals.toList, p.GlobalSound g
  declared : p.DeclaredAll [] tree.items p.globals.toList p.procedures.toList
  ids : ∃ count, p.nextId = 1 + UInt32.ofNat count ∧ p.resultIds.Perm (idsFrom 1 count)
  scalars : ∀ kind, p.hasScalar kind = true ↔
    kind = .f32 ∨ ∃ written ∈ tree.items.flatMap Item.types, written.leaf = kind.name
  entryPoints : Elaborate.entries p = stagedProcedures none tree.items
  ending : ∃ pos, tree.ending = .ok pos

theorem Built.nodup {tree : SourceTree} {p : Program} (h : p.Built tree)
    (hids : p.resultIds.length < UInt32.size) : p.resultIds.Nodup := by
  obtain ⟨count, -, hperm⟩ := h.ids
  have hcount : p.resultIds.length = count := by rw [hperm.length_eq, Binary.length_idsFrom]
  exact hperm.nodup_iff.mpr (Binary.nodup_idsFrom 1 (by omega))

structure Fresh (p : Program) : Prop where
  types : p.types.toList = [⟨Text.utf8 "void", 2, .void⟩, ⟨Text.utf8 "f32", 3, .scalar .f32⟩]
  globals : p.globals.toList = []
  constants : p.constants.toList = []
  procedures : p.procedures.toList = []
  entryPoints : p.entryPoints.toList = []
  nextId : p.nextId = 4

theorem new_ok {p : Program} (h : new limits = .ok p) : p.Fresh := by
  simp only [new] at h
  split at h
  · next u q hseed =>
      cases h
      simp only [EStateM.run, Build.bind_ok, Build.discard_ok] at hseed
      obtain ⟨_, r, ⟨_, hvoid⟩, _, hf32⟩ := hseed
      obtain ⟨-, rfl⟩ := Build.addType_ok hvoid
      obtain ⟨-, rfl⟩ := Build.addType_ok hf32
      exact ⟨rfl, rfl, rfl, rfl, rfl, rfl⟩
  · cases h

namespace Fresh

variable {p : Program}

theorem shapeAt (h : p.Fresh) (ref : TypeRef) :
    p.shapeAt ref = ([.void, .scalar .f32] : List Shape)[ref]? := by
  rw [Program.shapeAt, Arena.get?_eq, h.types, ← List.getElem?_map]
  rfl

theorem sound (h : p.Fresh) : p.Sound := by
  refine ⟨by rw [h.shapeAt]; rfl, by rw [h.shapeAt]; rfl, ?_, ?_⟩
  · intro ref entry hentry
    rw [Arena.get?_eq, h.types] at hentry
    match ref with
    | 0 =>
      cases hentry
      exact ⟨rfl, rfl⟩
    | 1 =>
      cases hentry
      exact ⟨trivial, rfl⟩
    | ref + 2 => cases hentry
  · rw [h.constants]
    nofun

theorem hasScalar_iff (h : p.Fresh) (kind : ScalarKind) :
    p.hasScalar kind = true ↔ kind = .f32 := by
  rw [Program.hasScalar_iff]
  constructor
  · rintro ⟨ref, href⟩
    rw [h.shapeAt] at href
    match ref with
    | 0 => cases href
    | 1 =>
      cases href
      rfl
    | ref + 2 => cases href
  · rintro rfl
    exact ⟨1, by rw [h.shapeAt]; rfl⟩

theorem resultIds (h : p.Fresh) : p.resultIds = idsFrom 1 3 := by
  rw [Program.resultIds, h.types, h.globals, h.constants, h.procedures]
  rfl

theorem between (h : p.Fresh) : Elaborate.Between (.ofProgram p) := by
  refine ⟨h.sound, ?_, ?_⟩
  · change [] = aliases p.globals.toList
    rw [h.globals]
    rfl
  · change ∀ g ∈ p.globals.toList, _
    rw [h.globals]
    nofun

end Fresh

theorem ofSource_elaborates {p : Program} (h : ofSource source limits = .ok p) :
    ∃ start t, new limits = .ok start ∧
      Elaborate.sourceTree (.ofSource source) (.ofProgram start) = .ok ((), t) ∧ t.program = p := by
  unfold ofSource at h
  split at h
  · cases h
  · next start hstart =>
      unfold ofOutcome at h
      split at h
      · next u t hrun => exact ⟨start, t, hstart, hrun, Except.ok.inj h⟩
      · cases h
      · cases h

theorem ofSource_built {p : Program} (h : ofSource source limits = .ok p) :
    p.Built (.ofSource source) := by
  obtain ⟨start, t, hstart, hrun, rfl⟩ := ofSource_elaborates h
  have hfresh := new_ok hstart
  obtain ⟨hitems, hending, hstage, -⟩ := Elaborate.sourceTree_ok hrun
  have hbetween := hfresh.between
  have hsized := SourceTree.sized_ofSource source
  have hsteps := Elaborate.items_ok _ hitems hbetween hsized
  obtain ⟨globals, procedures, hglobals, hprocedures, hdeclared⟩ := hsteps.declared
  have hnoGlobals : (Elaboration.ofProgram start).program.globals.toList = [] := hfresh.globals
  have hnoProcedures : (Elaboration.ofProgram start).program.procedures.toList = [] :=
    hfresh.procedures
  rw [hnoGlobals, List.nil_append] at hglobals
  rw [hnoProcedures, List.nil_append] at hprocedures
  rw [hnoGlobals, ← hglobals, ← hprocedures] at hdeclared
  refine ⟨hsteps.between.sound, hsteps.between.globals, hdeclared, ?_, ?_, ?_, hending⟩
  · obtain ⟨count, hnext, hids⟩ := hsteps.grows.ids
    have hstartIds : (Elaboration.ofProgram start).program.resultIds = idsFrom 1 3 :=
      hfresh.resultIds
    have hstartNext : (Elaboration.ofProgram start).program.nextId = 4 := hfresh.nextId
    rw [hstartNext] at hnext hids
    rw [hstartIds] at hids
    refine ⟨3 + count, ?_, ?_⟩
    · rw [hnext, UInt32.ofNat_add, ← UInt32.add_assoc]
      rfl
    · rw [Binary.idsFrom_add]
      exact hids
  · intro kind
    constructor
    · intro hkind
      rcases hsteps.grows.scalars kind hkind with hstart | hnamed
      · exact .inl ((hfresh.hasScalar_iff kind).mp hstart)
      · obtain ⟨written, hwritten, hname⟩ := List.mem_map.mp hnamed
        exact .inr ⟨written, hwritten, hname⟩
    · rintro (rfl | ⟨written, hwritten, hname⟩)
      · exact hsteps.grows.hasScalar ((hfresh.hasScalar_iff _).mpr rfl)
      · exact hsteps.named written hwritten kind hname.symm
  · have hentries := hsteps.entryPoints
    have hnoEntries : Elaborate.entries (Elaboration.ofProgram start).program = [] := by
      change start.entryPoints.toList.map _ = []
      rw [hfresh.entryPoints]
      rfl
    rw [hnoEntries, hstage] at hentries
    simpa [stagedProcedures, Elaboration.ofProgram] using hentries

end Program

end Shading
