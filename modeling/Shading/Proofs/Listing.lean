import Shading.Proofs.Binary.Legibility
import Shading.Proofs.Renaming.Lexing
import Shading.Proofs.TypeCorrectness

/-!
Listings of compiled sources. The compiler writes legible instructions only: the
operands that a line leaves out are always the same, and the names that it
quotes are words. So a listing tells the binary that it was made of.
-/

namespace Shading

open Text List Binary

variable {items : List Item} {source : Bytes} {t : TypeEntry}

namespace Binary

theorem flatMap_lines_inj {lines lines' : List Bytes} (h : OneLines lines) (h' : OneLines lines')
    (heq : lines.flatMap (· ++ [newline]) = lines'.flatMap (· ++ [newline])) : lines = lines' := by
  induction lines generalizing lines' with
  | nil =>
    cases lines' with
    | nil => rfl
    | cons line rest => simp at heq
  | cons line rest ih =>
    cases lines' with
    | nil => simp at heq
    | cons line' rest' =>
      obtain ⟨hline, hrest⟩ := oneLines_cons.mp h
      obtain ⟨hline', hrest'⟩ := oneLines_cons.mp h'
      rw [flatMap_cons, flatMap_cons, append_assoc, append_assoc] at heq
      have hends : newline ∉ line ∧ newline ∉ line' := ⟨hline, hline'⟩
      obtain ⟨rfl, hmore⟩ := append_cons_inj hends.1 hends.2 heq
      rw [ih hrest hrest' hmore]

theorem lines_inj {instructions instructions' : List Instruction}
    (h : ∀ i ∈ instructions, i.Legible) (h' : ∀ i ∈ instructions', i.Legible)
    (heq : instructions.map Instruction.line = instructions'.map Instruction.line) :
    instructions = instructions' := by
  induction instructions generalizing instructions' with
  | nil => exact (map_eq_nil_iff.mp heq.symm).symm
  | cons i rest ih =>
    cases instructions' with
    | nil => cases heq
    | cons i' rest' =>
      obtain ⟨hi, hrest⟩ := forall_mem_cons.mp h
      obtain ⟨hi', hrest'⟩ := forall_mem_cons.mp h'
      obtain ⟨hline, hlines⟩ := cons.inj heq
      rw [hi.line_inj hi' hline, ih hrest hrest' hlines]

theorem Decoded.listing_inj {d d' : Decoded} (h : ∀ i ∈ d.instructions, i.Legible)
    (h' : ∀ i ∈ d'.instructions, i.Legible) (heq : d.listing = d'.listing) :
    d.header.bound = d'.header.bound ∧ d.instructions = d'.instructions := by
  have hlines : ∀ d : Decoded, OneLines (d.header.lines ++ d.instructions.map Instruction.line) :=
    fun d => oneLines_append.mpr
      ⟨oneLine_header _, forall_mem_map.mpr fun i _ => i.oneLine_line⟩
  have hall := flatMap_lines_inj (hlines d) (hlines d') heq
  obtain ⟨hheader, hinstructions⟩ := append_inj hall rfl
  refine ⟨?_, lines_inj h h' hinstructions⟩
  simp only [Header.lines, cons.injEq] at hheader
  obtain ⟨-, -, -, hbound, -⟩ := hheader
  exact numberText_inj.mp (append_cancel_left hbound)

end Binary

theorem Lexeme.visible_identifier {text : Bytes} (h : isIdentifier text = true) : Visible text := by
  have hbyte := forall_byte (P := fun b => startsWord b = true ∨ continuesWord b = true →
    isVisible b = true) (by decide +kernel)
  cases text with
  | nil => cases h
  | cons b rest =>
    simp only [isIdentifier, Bool.and_eq_true, all_eq_true] at h
    obtain ⟨⟨hb, hrest⟩, -⟩ := h
    exact forall_mem_cons.mpr ⟨hbyte b (.inl hb), fun c hc => hbyte c (.inr (hrest c hc))⟩

theorem Grammar.File.procedure_name {tokens : List Token} (h : File tokens items) {pos : Position}
    {name : Name} {result : TypeSyntax} {body : List Stmt} {close : Part Position}
    (hitem : .procedure pos (.ok name) result body close ∈ items) :
    ⟨.sym name.text, name.pos⟩ ∈ tokens := by
  induction h with
  | done => exact (not_mem_nil hitem).elim
  | next htop _ ih =>
    rcases mem_cons.mp hitem with rfl | hrest
    · cases htop
      simp
    · exact mem_append_right _ (ih hrest)

theorem exists_of_mem_stagedProcedures {waiting : Option Stage} {entry : Stage × Bytes}
    (h : entry ∈ stagedProcedures waiting items) :
    ∃ pos name result body close, .procedure pos (.ok name) result body close ∈ items ∧
      name.text = entry.2 := by
  fun_induction stagedProcedures waiting items with
  | case1 => exact (not_mem_nil h).elim
  | case3 stage pos name result body close rest ih =>
    rcases mem_cons.mp h with rfl | h
    · exact ⟨pos, name, result, body, close, mem_cons_self, rfl⟩
    · obtain ⟨pos, name, result, body, close, hmem, hname⟩ := ih h
      exact ⟨pos, name, result, body, close, mem_cons_of_mem _ hmem, hname⟩
  | _ =>
    rename_i ih
    obtain ⟨pos, name, result, body, close, hmem, hname⟩ := ih h
    exact ⟨pos, name, result, body, close, mem_cons_of_mem _ hmem, hname⟩

theorem Binary.WellTyped.legible {types code : List Instruction} {result : UInt32} {i : Instruction}
    (h : WellTyped types code result i) : i.Legible := by
  cases h with
  | var _ => exact ⟨_, _, _, rfl⟩
  | operation hworks _ _ _ =>
    have hop := Opcode.mem_of_worksOn hworks
    simp only [mem_cons, not_mem_nil, or_false] at hop
    rcases hop with rfl | rfl | rfl | rfl | rfl | rfl | rfl | rfl <;> trivial
  | exit _ => rfl
  | _ => trivial

namespace Program

open Binary (Instruction)

variable {p : Program} {s : Sections} {i : Instruction} {tree : SourceTree}

theorem Built.visible_entryPoint (h : p.Built (.ofSource source)) {entry : EntryPoint}
    (hentry : entry ∈ p.entryPoints.toList) : Visible entry.name := by
  have hstaged : (entry.stage, entry.name) ∈
      stagedProcedures none (SourceTree.ofSource source).items := by
    rw [← h.entryPoints]
    exact mem_map.mpr ⟨entry, hentry, rfl⟩
  obtain ⟨pos, name, result, body, close, hitem, hname⟩ := exists_of_mem_stagedProcedures hstaged
  obtain ⟨last, hlast⟩ := h.ending
  have htoken := (Grammar.file_ofSource hlast).procedure_name hitem
  have hidentifier := Tokens.readFrom_names _ (fun _ h => (not_mem_nil h).elim) _ htoken _ rfl
  rw [← show name.text = entry.name from hname]
  exact Lexeme.visible_identifier hidentifier

theorem globalDecorations_legible {g : Global} (h : i ∈ globalDecorations g) : i.Legible := by
  unfold globalDecorations at h
  rcases mem_append.mp h with h | h
  · split at h
    · split at h
      · rw [mem_singleton.mp h]
        exact ⟨_, _, _, rfl⟩
      · cases h
    · cases h
  · split at h
    · rw [mem_singleton.mp h]
      exact ⟨_, _, _, rfl⟩
    · cases h

theorem memberDecorations_legible (h : i ∈ memberDecorations t) : i.Legible := by
  unfold memberDecorations at h
  split at h
  · obtain ⟨_, -, hi⟩ := mem_filterMap.mp h
    obtain ⟨_, -, rfl⟩ := Option.map_eq_some_iff.mp hi
    exact ⟨_, _, _, _, rfl⟩
  · cases h

theorem typeDeclaration_legible (h : p.typeDeclaration t = .ok i) : i.Legible := by
  unfold typeDeclaration at h
  split at h
  all_goals
    simp only [except_bind_ok, except_pure_ok, Except.ok.injEq] at h
    first
    | obtain rfl := h
    | obtain ⟨_, -, rfl⟩ := h
    first
    | exact ⟨_, rfl⟩
    | exact ⟨_, _, rfl⟩
    | exact ⟨_, _, _, rfl⟩

theorem Built.legible (h : p.Built (.ofSource source)) (hs : p.Assembles s) :
    ∀ i ∈ p.declarations s ++ s.functions.flatten, i.Legible := by
  intro i hi
  simp only [declarations, annotations, mem_append] at hi
  rcases hi with ((((((((hi | hi) | hi) | hi) | hi) | hi) | hi) | hi) | hi) | hi
  · unfold capabilities at hi
    split at hi
    · simp only [mem_cons, not_mem_nil, or_false] at hi
      rcases hi with rfl | rfl <;> exact ⟨_, rfl⟩
    · rw [mem_singleton.mp hi]
      exact ⟨_, rfl⟩
  · simp only [preamble, mem_cons, not_mem_nil, or_false] at hi
    rcases hi with rfl | rfl
    · exact ⟨_, extendedSetName, by decide +kernel, rfl⟩
    · exact ⟨_, _, rfl⟩
  · obtain ⟨entry, hentry, hok⟩ := mapM_ok_mem hs.entryPoints hi
    obtain ⟨procedure, interface, -, rfl⟩ := entryPoint_ok hok
    exact ⟨_, _, entry.name, interface, h.visible_entryPoint hentry, rfl⟩
  · obtain ⟨modes, hmodes, hi⟩ := mem_flatten.mp hi
    obtain ⟨entry, -, hok⟩ := mapM_ok_mem hs.modes hmodes
    obtain ⟨-, id, rfl⟩ | ⟨-, rfl⟩ := executionMode_ok hok
    · rw [mem_singleton.mp hi]
      exact ⟨_, _, _, rfl⟩
    · cases hi
  · obtain ⟨g, -, hg⟩ := mem_flatMap.mp hi
    exact globalDecorations_legible hg
  · obtain ⟨t, -, ht⟩ := mem_flatMap.mp hi
    exact memberDecorations_legible ht
  · obtain ⟨t, -, hok⟩ := mapM_ok_mem hs.types hi
    exact typeDeclaration_legible hok
  · obtain ⟨g, -, hok⟩ := mapM_ok_mem hs.globals hi
    obtain ⟨pointer, -, rfl⟩ := globalDeclaration_ok hok
    exact ⟨_, _, _, rfl⟩
  · obtain ⟨c, -, hok⟩ := mapM_ok_mem hs.constants hi
    obtain ⟨type, -, rfl⟩ := constantDeclaration_ok hok
    exact ⟨_, _, _, rfl⟩
  · obtain ⟨code, hcode, hi⟩ := mem_flatten.mp hi
    obtain ⟨procedure, -, result, type, rfl, -, htyped⟩ := h.function hs hcode
    simp only [mem_cons, mem_append, not_mem_nil, or_false] at hi
    rcases hi with rfl | rfl | hi | rfl
    · exact ⟨_, _, _, rfl⟩
    · exact ⟨_, rfl⟩
    · obtain ⟨before, after, hsplit⟩ := append_of_mem (mem_append.mpr hi)
      rw [hsplit] at htyped
      exact htyped.split.legible
    · rfl

end Program

/-- A listing tells a compiled binary. Whatever the sources and limits, two compiled binaries have
the same listing only if they are the same. -/
theorem listing_faithful {source source' binary binary' : Bytes} {limits limits' : Limits}
    (h : compile source limits = .ok binary) (h' : compile source' limits' = .ok binary') :
    ∃ text text', Binary.listing binary = .ok text ∧ Binary.listing binary' = .ok text' ∧
      (text = text' ↔ binary = binary') := by
  obtain ⟨p, s, hbuilt, hs, hdecode⟩ := compile_assembles h
  obtain ⟨p', s', hbuilt', hs', hdecode'⟩ := compile_assembles h'
  have hlisting : ∀ {binary : Bytes}, (decode binary).failure = none →
      listing binary = .ok (decode binary).listing := by
    intro binary hfailure
    simp only [listing, hfailure]
  have hfailure : (decode binary).failure = none := by rw [hdecode]
  have hfailure' : (decode binary').failure = none := by rw [hdecode']
  refine ⟨_, _, hlisting hfailure, hlisting hfailure', ?_, fun heq => by rw [heq]⟩
  intro heq
  obtain ⟨hbound, hinstructions⟩ := Decoded.listing_inj
    (by rw [hdecode]; exact hbuilt.legible hs) (by rw [hdecode']; exact hbuilt'.legible hs') heq
  have hheader : (decode binary).header = (decode binary').header := by
    rw [hdecode, hdecode'] at hbound ⊢
    simp only [Program.header] at hbound ⊢
    rw [hbound]
  rw [← (bytesOfWords_decode hfailure).2, ← (bytesOfWords_decode hfailure').2, hheader,
    hinstructions]

def entrySource (name : String) : Bytes :=
  Text.utf8 "[entry_point(vertex)] procedure " ++ Text.utf8 name ++ Text.utf8 "() -> void end"

theorem entrySource_faithful : ∃ binary binary' text text',
    compile (entrySource "a") {} = .ok binary ∧ compile (entrySource "b") {} = .ok binary' ∧
    Binary.listing binary = .ok text ∧ Binary.listing binary' = .ok text' ∧ text ≠ text' := by
  have hcompiles : (compile (entrySource "a") {}).isOk = true ∧
      (compile (entrySource "b") {}).isOk = true ∧
      (compile (entrySource "a") {}).toOption ≠ (compile (entrySource "b") {}).toOption := by
    decide +kernel
  obtain ⟨hok, hok', hne⟩ := hcompiles
  cases h : compile (entrySource "a") {} with
  | error e =>
    rw [h] at hok
    cases hok
  | ok binary =>
    cases h' : compile (entrySource "b") {} with
    | error e =>
      rw [h'] at hok'
      cases hok'
    | ok binary' =>
      rw [h, h'] at hne
      obtain ⟨text, text', htext, htext', hiff⟩ := listing_faithful h h'
      exact ⟨binary, binary', text, text', rfl, rfl, htext, htext',
        fun heq => hne (congrArg some (hiff.mp heq))⟩

end Shading
