import Mathlib.Logic.Equiv.Basic
import Shading.Proofs.Limits.Usage
import Shading.Proofs.Packing
import Shading.Proofs.Renaming.Elaborating
import Shading.Proofs.Renaming.Lexing

/-!
Compilation under other names. A binary does not tell the names of a source,
those of its entry points apart, nor where its tokens stand: two sources with
the same lexemes are compiled alike, and so are two whose names correspond.
-/

namespace Shading

open Program Renaming

variable {source : Bytes} {limits : Limits}

namespace Renaming

variable (ρ : Renaming) (p : Program)

section Assembling

theorem mapM_map {α β γ : Type} {f : β → Except Fault γ} {g : α → Except Fault γ} {h : α → β}
    (l : List α) (heq : ∀ a ∈ l, f (h a) = g a) : (l.map h).mapM f = l.mapM g := by
  induction l with
  | nil => rfl
  | cons first rest ih =>
    rw [List.map_cons, List.mapM_cons, List.mapM_cons, heq first List.mem_cons_self,
      ih fun a ha => heq a (List.mem_cons_of_mem _ ha)]

theorem entryPoint_declaration {entry : EntryPoint} (h : ρ.word entry.name = entry.name) :
    (ρ.program p).entryPoint (ρ.entryPoint entry) = p.entryPoint entry := by
  have hids : ∀ refs : List GlobalRef,
      (refs.mapM fun ref => ((ρ.program p).globalAt ref).map (·.id)) =
        refs.mapM fun ref => (p.globalAt ref).map (·.id) := by
    intro refs
    congr 1
    funext ref
    rw [globalAt]
    cases p.globalAt ref <;> rfl
  simp only [Program.entryPoint, Renaming.entryPoint, procedureAt, h, hids]
  cases p.procedureAt entry.procedure <;> rfl

theorem executionMode (entry : EntryPoint) :
    (ρ.program p).executionMode (ρ.entryPoint entry) = p.executionMode entry := by
  simp only [Program.executionMode, Renaming.entryPoint, procedureAt]
  cases p.procedureAt entry.procedure <;> rfl

theorem typeDeclaration (t : TypeEntry) :
    (ρ.program p).typeDeclaration (ρ.typeEntry t) = p.typeDeclaration t := by
  obtain ⟨name, id, shape⟩ := t
  cases shape with
  | record members =>
    have hmembers : (members.map ρ.field).mapM (fun m => (ρ.program p).typeId m.type) =
        members.mapM fun m => p.typeId m.type := mapM_map members fun m _ => ρ.typeId p m.type
    simp only [Program.typeDeclaration, typeEntry, Renaming.shape, hmembers]
  | scalar kind => cases kind <;> rfl
  | _ => simp only [Program.typeDeclaration, typeEntry, Renaming.shape, typeId]

theorem memberDecorations (t : TypeEntry) :
    Program.memberDecorations (ρ.typeEntry t) = Program.memberDecorations t := by
  obtain ⟨name, id, shape⟩ := t
  cases shape with
  | record members =>
    simp only [Program.memberDecorations, typeEntry, Renaming.shape, List.zipIdx_map,
      List.filterMap_map]
    rfl
  | _ => rfl

theorem hasScalar (kind : ScalarKind) : (ρ.program p).hasScalar kind = p.hasScalar kind := by
  refine Array.any_map.trans ?_
  rw [Program.hasScalar]
  congr 1
  funext t
  exact decide_eq_decide.mpr (ρ.shape_eq_iff fun _ h => by cases h)

theorem declarations (s : Sections) : (ρ.program p).declarations s = p.declarations s := by
  have htypes : (ρ.program p).types.toList = p.types.toList.map ρ.typeEntry := Arena.toList_map _ _
  have hglobals : (ρ.program p).globals.toList = p.globals.toList.map ρ.global :=
    Arena.toList_map _ _
  have hmembers : (p.types.toList.map ρ.typeEntry).flatMap Program.memberDecorations =
      p.types.toList.flatMap Program.memberDecorations := by
    rw [List.flatMap_map]
    congr 1
    funext t
    exact ρ.memberDecorations t
  have hplaces : (p.globals.toList.map ρ.global).flatMap Program.globalDecorations =
      p.globals.toList.flatMap Program.globalDecorations := by
    rw [List.flatMap_map]
    rfl
  simp only [Program.declarations, Program.annotations, Program.capabilities, hasScalar, htypes,
    hglobals, hmembers, hplaces]

theorem assembles_iff (h : ∀ entry ∈ p.entryPoints.toList, ρ.word entry.name = entry.name)
    {s : Sections} : (ρ.program p).Assembles s ↔ p.Assembles s := by
  have hentryPoints : (ρ.program p).entryPoints.toList.mapM (ρ.program p).entryPoint =
      p.entryPoints.toList.mapM p.entryPoint :=
    (congrArg _ (Arena.toList_map _ _)).trans
      (mapM_map _ fun entry hentry => ρ.entryPoint_declaration p (h entry hentry))
  have hmodes : (ρ.program p).entryPoints.toList.mapM (ρ.program p).executionMode =
      p.entryPoints.toList.mapM p.executionMode :=
    (congrArg _ (Arena.toList_map _ _)).trans (mapM_map _ fun entry _ => ρ.executionMode p entry)
  have htypes : (ρ.program p).types.toList.mapM (ρ.program p).typeDeclaration =
      p.types.toList.mapM p.typeDeclaration :=
    (congrArg _ (Arena.toList_map _ _)).trans (mapM_map _ fun t _ => ρ.typeDeclaration p t)
  have hglobals : (ρ.program p).globals.toList.mapM (ρ.program p).globalDeclaration =
      p.globals.toList.mapM p.globalDeclaration := by
    refine (congrArg _ (Arena.toList_map _ _)).trans (mapM_map _ fun g _ => ?_)
    simp only [globalDeclaration, global, typeId]
  have hconstants : (ρ.program p).constants.toList.mapM (ρ.program p).constantDeclaration =
      p.constants.toList.mapM p.constantDeclaration := by
    congr 1
    funext c
    simp only [constantDeclaration, typeId]
  have hfunctions : (ρ.program p).procedures.toList.mapM (ρ.program p).function =
      p.procedures.toList.mapM p.function := by
    refine (congrArg _ (Arena.toList_map _ _)).trans (mapM_map _ fun a _ => ?_)
    simp only [function, procedure, typeId]
  constructor
  · intro hs
    exact ⟨hentryPoints.symm.trans hs.entryPoints, hmodes.symm.trans hs.modes,
      htypes.symm.trans hs.types, hglobals.symm.trans hs.globals,
      hconstants.symm.trans hs.constants, hfunctions.symm.trans hs.functions⟩
  · intro hs
    exact ⟨hentryPoints.trans hs.entryPoints, hmodes.trans hs.modes, htypes.trans hs.types,
      hglobals.trans hs.globals, hconstants.trans hs.constants, hfunctions.trans hs.functions⟩

theorem assemble (h : ∀ entry ∈ p.entryPoints.toList, ρ.word entry.name = entry.name) :
    (ρ.program p).assemble = p.assemble := by
  obtain ⟨s, hs⟩ | ⟨hnone, herror⟩ := assemble_cases p
  · rw [hs.assemble, ((ρ.assembles_iff p h).mpr hs).assemble, ρ.declarations]
    rfl
  · obtain ⟨s, hs⟩ | ⟨-, herror'⟩ := assemble_cases (ρ.program p)
    · exact absurd ((ρ.assembles_iff p h).mp hs) (hnone s)
    · rw [herror, herror']

end Assembling

theorem program_seeded (limits : Limits) :
    ρ.program (Program.seeded limits) = Program.seeded limits := by
  have hvoid : ρ.word (Text.utf8 "void") = Text.utf8 "void" := ρ.reserved _ (by decide)
  have hfloat : ρ.word (Text.utf8 "f32") = Text.utf8 "f32" := ρ.reserved _ (by decide)
  have htypes : (seeded limits).types.map ρ.typeEntry = (seeded limits).types := by
    simp only [Arena.map, seeded, List.map_toArray, List.map_cons, List.map_nil, typeEntry,
      shape, hvoid, hfloat]
  rw [program, htypes]
  simp only [seeded, bare, Arena.map_empty]

theorem elaboration_ofProgram (limits : Limits) :
    ρ.elaboration (.ofProgram (Program.seeded limits)) = .ofProgram (Program.seeded limits) := by
  simp only [elaboration, Elaboration.ofProgram, ρ.program_seeded, scopes, Scopes.ofLimits,
    Arena.map_empty, Option.map_none]

end Renaming

theorem Stop.Alike.of_keep {ρ : Renaming} {stop stop' other : Stop} (h : stop.Alike ρ other)
    (h' : stop'.Alike .keep other) : stop.Alike ρ stop' := by
  cases h with
  | refused hcause =>
    cases h' with
    | refused hcause' =>
      refine .refused fun hkeeps => ?_
      rw [← hcause' fun _ => rfl, hcause hkeeps]
  | fault f =>
    cases h' with
    | fault => exact .fault f

theorem Elaborate.sourceTree_alike {ρ : Renaming} {tree tree' : SourceTree}
    (h : ρ.tree tree = Renaming.keep.tree tree') (limits : Limits) :
    (∃ s s', sourceTree tree (.ofProgram (.seeded limits)) = .ok ((), s) ∧
        sourceTree tree' (.ofProgram (.seeded limits)) = .ok ((), s') ∧
        s'.program = ρ.program s.program) ∨
      ∃ stop stop', sourceTree tree (.ofProgram (.seeded limits)) = .error stop ∧
        sourceTree tree' (.ofProgram (.seeded limits)) = .error stop' ∧ stop.Alike ρ stop' := by
  -- both are compared with the tree that has the other names and no places
  have hrun := ((Walk.sourceTree (ρ := ρ) tree).mirrors (.ofProgram (.seeded limits))).cases
  have hrun' := ((Walk.sourceTree (ρ := .keep) tree').mirrors (.ofProgram (.seeded limits))).cases
  rw [elaboration_ofProgram, h] at hrun
  rw [elaboration_ofProgram] at hrun'
  obtain ⟨_, s, hs, hother⟩ | ⟨stop, other, hstop, hother, halike⟩ := hrun
  · rw [hother] at hrun'
    obtain ⟨_, s', hs', hsame⟩ | ⟨_, _, _, hsame, _⟩ := hrun'
    · have hprogram : ρ.program s.program = keep.program s'.program :=
        congrArg (fun x => x.2.program) (Except.ok.inj hsame)
      rw [program_keeps (ρ := .keep) fun _ => rfl] at hprogram
      exact .inl ⟨s, s', hs, hs', hprogram.symm⟩
    · cases hsame
  · rw [hother] at hrun'
    obtain ⟨_, _, _, hsame⟩ | ⟨stop', _, hstop', hsame, halike'⟩ := hrun'
    · cases hsame
    · cases hsame
      exact .inr ⟨stop, stop', hstop, hstop', halike.of_keep halike'⟩

inductive CompileError.Alike (ρ : Renaming) : CompileError → CompileError → Prop
  | refused {d d' : Diagnostic} (h : ρ.Keeps → d'.cause = d.cause) :
    Alike ρ (.refused d) (.refused d')
  | same (e : CompileError) : Alike ρ e e

namespace Program

theorem ofSource_alike {ρ : Renaming} {source' : Bytes}
    (h : ρ.tokens (.ofSource source) = Renaming.keep.tokens (.ofSource source')) (limits : Limits) :
    (∃ p, ofSource source limits = .ok p ∧ ofSource source' limits = .ok (ρ.program p)) ∨
      ∃ e e', ofSource source limits = .error e ∧ ofSource source' limits = .error e' ∧
        e.Alike ρ e' := by
  have htree : ρ.tree (.ofSource source) = keep.tree (.ofSource source') := by
    rw [SourceTree.ofSource, SourceTree.ofSource, ← SourceTree.ofTokens_rename,
      ← SourceTree.ofTokens_rename, h]
  unfold ofSource
  rw [new_eq]
  cases fits 2 limits.withDefaults.types with
  | false => exact .inr ⟨_, _, rfl, rfl, .same _⟩
  | true =>
    simp only [if_true, StateT.run]
    obtain ⟨s, s', hs, hs', hprogram⟩ | ⟨stop, stop', hstop, hstop', halike⟩ :=
      Elaborate.sourceTree_alike htree limits.withDefaults
    · rw [hs, hs']
      exact .inl ⟨s.program, rfl, congrArg _ hprogram⟩
    · rw [hstop, hstop']
      cases halike with
      | refused hcause => exact .inr ⟨_, _, rfl, rfl, .refused hcause⟩
      | fault f => exact .inr ⟨_, _, rfl, rfl, .same _⟩

end Program

theorem compile_of_ok {p : Program} (h : Program.ofSource source limits = .ok p) :
    compile source limits = p.assemble.mapError .assembly := by
  simp only [compile, h]
  cases hassemble : p.assemble <;> simp only [bind, Except.bind, hassemble] <;> rfl

theorem compile_of_error {e : CompileError} (h : Program.ofSource source limits = .error e) :
    compile source limits = .error e := by
  simp only [compile, h]
  rfl

/-- A binary tells of names only those of entry points. Two sources have the same binary or none if
one has the names of the other changed: to other identifiers, different ones for different names,
with reserved words and the names of entry points kept. -/
theorem compile_rename {source source' : Bytes} {rename : Bytes → Bytes}
    (hword : ∀ w, Lexeme.isIdentifier w = true → Lexeme.isIdentifier (rename w) = true)
    (hinjective : ∀ v w, Lexeme.isIdentifier v = true → Lexeme.isIdentifier w = true →
      rename v = rename w → v = w)
    (hreserved : ∀ w ∈ reservedWords, rename w = w)
    (hentries : ∀ entry ∈ stagedProcedures none (SourceTree.ofSource source).items,
      rename entry.2 = entry.2)
    (htokens : (Tokens.ofSource source).failure? = none)
    (htokens' : (Tokens.ofSource source').failure? = none)
    (hlexemes : (Tokens.ofSource source').lexemes =
      (Tokens.ofSource source).lexemes.map (Lexeme.mapName rename))
    (limits : Limits) (binary : Bytes) :
    compile source' limits = .ok binary ↔ compile source limits = .ok binary := by
  let ρ := ofIdentifiers rename hword hinjective hreserved
  have hsame : ρ.tokens (.ofSource source) = keep.tokens (.ofSource source') := by
    apply ρ.tokens_ofSource
    · rw [hlexemes, lexemes_ofIdentifiers source hword hinjective hreserved]
    · rw [htokens, htokens']
  obtain ⟨p, hp, hp'⟩ | ⟨e, e', he, he', -⟩ := ofSource_alike hsame limits
  · have hkept : ∀ entry ∈ p.entryPoints.toList, ρ.word entry.name = entry.name := by
      intro entry hentry
      have hstaged : (entry.stage, entry.name) ∈
          stagedProcedures none (SourceTree.ofSource source).items := by
        rw [← (ofSource_built hp).entryPoints]
        exact List.mem_map.mpr ⟨entry, hentry, rfl⟩
      change (if Lexeme.isIdentifier entry.name then rename entry.name else entry.name) = entry.name
      rw [hentries _ hstaged, ite_self]
    rw [compile_of_ok hp, compile_of_ok hp', ρ.assemble p hkept]
  · rw [compile_of_error he, compile_of_error he']
    constructor
    · intro h
      cases h
    · intro h
      cases h

def tintedSource : Bytes :=
  Text.utf8 "in tint: f32 at 0; out o: f32 at 0;
    [entry_point(vertex)] procedure main() -> void
    var k: f32 = tint; do var tint: f32 = k + 1.0; o := tint - k; end end"

def exchangedSource : Bytes :=
  Text.utf8 "in k: f32 at 0; out o: f32 at 0;
    [entry_point(vertex)] procedure main() -> void
    var tint: f32 = k; do var k: f32 = tint + 1.0; o := k - tint; end end"

/-- The exchange of the two names. -/
def exchange : Bytes → Bytes := Equiv.swap (Text.utf8 "tint") (Text.utf8 "k")

theorem compile_exchange :
    (Tokens.ofSource exchangedSource).lexemes =
      (Tokens.ofSource tintedSource).lexemes.map (Lexeme.mapName exchange) ∧
    ∃ binary, compile tintedSource {} = .ok binary ∧ compile exchangedSource {} = .ok binary := by
  have hlexemes : (Tokens.ofSource exchangedSource).lexemes =
      (Tokens.ofSource tintedSource).lexemes.map (Lexeme.mapName exchange) := by
    decide +kernel
  have hcompiles : (compile tintedSource {}).toOption.isSome = true := by
    decide +kernel
  have hentries : ∀ entry ∈ stagedProcedures none (SourceTree.ofSource tintedSource).items,
      exchange entry.2 = entry.2 := by
    decide +kernel
  have hword : ∀ w, Lexeme.isIdentifier w = true → Lexeme.isIdentifier (exchange w) = true := by
    intro w hw
    rw [exchange, Equiv.swap_apply_def]
    split_ifs
    · decide
    · decide
    · exact hw
  obtain ⟨binary, hbinary⟩ := Option.isSome_iff_exists.mp hcompiles
  have hbinary := toOption_eq_some.mp hbinary
  refine ⟨hlexemes, binary, hbinary, ?_⟩
  exact (compile_rename hword (fun _ _ _ _ h => (Equiv.swap _ _).injective h) (by decide) hentries
    (by decide +kernel) (by decide +kernel) hlexemes {} binary).mpr hbinary

/-- The message of a compile error, without the place that it is about. -/
def CompileError.plainMessage : CompileError → Bytes
  | .limit e => e.message
  | .refused why => why.message
  | .fault f => f.message
  | .assembly e => e.message
  | .listing e => e.message

/-- Where tokens stand does not matter. Two sources with the same lexemes and the same lexical
error, if any, have the same binary, or fail with the same message and on the same limit, if any. -/
theorem compile_of_lexemes {source source' : Bytes}
    (hlexemes : (Tokens.ofSource source').lexemes = (Tokens.ofSource source).lexemes)
    (hfailure : (Tokens.ofSource source').failure? = (Tokens.ofSource source).failure?)
    (limits : Limits) :
    (∃ binary, compile source limits = .ok binary ∧ compile source' limits = .ok binary) ∨
      ∃ e e', compile source limits = .error e ∧ compile source' limits = .error e' ∧
        e'.plainMessage = e.plainMessage ∧ e'.limit? = e.limit? := by
  have hsame : keep.tokens (.ofSource source) = keep.tokens (.ofSource source') := by
    apply keep.tokens_ofSource _ hfailure
    rw [hlexemes, mapName_keep, List.map_id]
  obtain ⟨p, hp, hp'⟩ | ⟨e, e', he, he', halike⟩ := ofSource_alike hsame limits
  · rw [program_keeps fun _ => rfl] at hp'
    rw [compile_of_ok hp, compile_of_ok hp']
    cases p.assemble with
    | ok binary => exact .inl ⟨binary, rfl, rfl⟩
    | error why => exact .inr ⟨_, _, rfl, rfl, rfl, rfl⟩
  · refine .inr ⟨e, e', compile_of_error he, compile_of_error he', ?_⟩
    cases halike with
    | refused hcause =>
      have hcause := hcause fun _ => rfl
      simp only [CompileError.plainMessage, Diagnostic.message, CompileError.limit?,
        Diagnostic.limit?, hcause, and_self]
    | same => exact ⟨rfl, rfl⟩

def closeSource : Bytes :=
  Text.utf8 "procedure p() -> void var a: f32 = 1.0; var b: f32 = a; end"

def spreadSource : Bytes :=
  Text.utf8 "procedure p ( ) -> void // two variables
    var a : f32 = 1.0;
    var b : f32 = a;
    end"

theorem compile_spreadSource :
    (Tokens.ofSource spreadSource).lexemes = (Tokens.ofSource closeSource).lexemes ∧
    ∃ e e', compile closeSource { locals := 1 } = .error e ∧
      compile spreadSource { locals := 1 } = .error e' ∧
      e'.plainMessage = e.plainMessage ∧ e'.limit? = e.limit? ∧ e.limit? = some ⟨.locals, 1⟩ := by
  have hlexemes :
      (Tokens.ofSource spreadSource).lexemes = (Tokens.ofSource closeSource).lexemes := by
    decide +kernel
  have hfailure :
      (Tokens.ofSource spreadSource).failure? = (Tokens.ofSource closeSource).failure? := by
    decide +kernel
  have hfull : compile closeSource { locals := 1 } =
      .error (.refused ⟨⟨1, 55⟩, .limit ⟨.locals, 1⟩⟩) := by
    decide +kernel
  refine ⟨hlexemes, ?_⟩
  obtain ⟨binary, hbinary, -⟩ | ⟨e, e', he, he', hmessage, hlimit⟩ :=
    compile_of_lexemes hlexemes hfailure { locals := 1 }
  · rw [hfull] at hbinary
    cases hbinary
  · refine ⟨e, e', he, he', hmessage, hlimit, ?_⟩
    rw [hfull] at he
    cases he
    rfl

end Shading
