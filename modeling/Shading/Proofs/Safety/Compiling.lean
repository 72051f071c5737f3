import Shading.Proofs.Safety.Assembling
import Shading.Proofs.Safety.Diagnostics

/-!
Compilation comes to an end with a binary or with an error that it reports. A
closed program has every entry that assembling it looks for, and neither the
lexer nor a reader stops for want of fuel. What is left is one fault, of a
source that has a thousand million tokens.
-/

namespace Shading

namespace Program.Closed

variable {room : Room} {p : Program}

theorem resolves (h : p.Closed room) : p.Resolves := by
  refine ⟨fun t ht part hpart => ?_, h.constants, h.globals, h.procedures, h.entryPoints⟩
  obtain ⟨ref, href⟩ := Arena.get?_of_mem ht
  have hbelow := h.types ref t href
  -- the types that a type is made of come before it
  have hlt : part < ref := by
    cases hshape : t.shape with
    | vector component size =>
      rw [hshape] at hbelow hpart
      rw [List.mem_singleton.mp hpart]
      exact hbelow.1
    | record members =>
      rw [hshape] at hbelow hpart
      obtain ⟨member, hmember, rfl⟩ := List.mem_map.mp hpart
      exact hbelow member hmember
    | pointer base storage =>
      rw [hshape] at hbelow hpart
      rw [List.mem_singleton.mp hpart]
      exact hbelow
    | procedure result =>
      rw [hshape] at hbelow hpart
      rw [List.mem_singleton.mp hpart]
      exact hbelow
    | void =>
      rw [hshape] at hpart
      cases hpart
    | scalar kind =>
      rw [hshape] at hpart
      cases hpart
  exact Nat.lt_trans hlt (Arena.get?_lt href)

theorem assemble (h : p.Closed room) :
    (∃ binary, p.assemble = .ok binary) ∨
      ∃ op count, p.assemble = .error (.oversized op count) := by
  obtain ⟨s, hs⟩ := h.resolves.assembles
  rw [hs.assemble]
  cases hfirst : firstOversized (p.declarations s) with
  | none => exact .inl ⟨_, rfl⟩
  | some e =>
    obtain ⟨i, -, hi⟩ := List.exists_of_findSome?_eq_some hfirst
    unfold Binary.Instruction.oversized? at hi
    split at hi
    · cases hi
    · cases hi
      exact .inr ⟨_, _, rfl⟩

end Program.Closed

/-- Compiling ends with a binary or an error that is reported, and the program of an accepted
source is closed: every index is one of its pool, and what an entry is made of comes before it.
Neither the lexer nor a reader could go on with more fuel than it is given. The one fault that is
left is a literal too long for an instruction, in a source of 2³⁰ bytes or more under limits that
allow it. -/
theorem compile_ends (source : Bytes) (limits : Limits) :
    ((∃ binary, compile source limits = .ok binary) ∨
      (∃ e, compile source limits = .error e ∧ e.isReported = true) ∨
      compile source limits = .error (.fault (.oversized .compositeConstruct)) ∧
        (Room.ofSource source limits).AllowsOverlong) ∧
    (∀ p, Program.ofSource source limits = .ok p → p.Closed (Room.ofSource source limits)) ∧
    (∀ more, Tokens.readFrom (source.length + 1 + more) [] (.ofSource source) = .ofSource source) ∧
    ∀ fuel n, (Tokens.ofSource source).tokens.length < fuel →
      (Tokens.ofSource source).tokens.length ≤ n →
      (Reading.items fuel [] n (.ofSource source)).1 = .ofSource source := by
  have hallowed := Program.ofSource_allowed limits (SourceTree.marked_ofSource source)
  refine ⟨?_, fun p hp => ?_, fun more => ?_, fun fuel n hfuel hn => ?_⟩
  · unfold compile
    cases hrun : Program.ofSource source limits with
    | ok p =>
      rw [hrun] at hallowed
      obtain ⟨binary, hbinary⟩ | ⟨op, count, herror⟩ := hallowed.assemble
      · exact .inl ⟨binary, by simp [bind, Except.bind, hbinary]; rfl⟩
      · exact .inr (.inl ⟨_, by simp [bind, Except.bind, herror]; rfl, rfl⟩)
    | error e =>
      rw [hrun] at hallowed
      cases e with
      | limit e => exact .inr (.inl ⟨_, rfl, rfl⟩)
      | refused why => exact .inr (.inl ⟨_, rfl, rfl⟩)
      | fault f =>
        obtain ⟨rfl, hroom⟩ := hallowed
        exact .inr (.inr ⟨rfl, hroom⟩)
      | assembly e => exact hallowed.elim
      | listing e => exact hallowed.elim
  · rw [hp] at hallowed
    exact hallowed
  · exact Tokens.readFrom_enough _ more (Nat.lt_succ_self _)
  · exact SourceTree.ofTokens_enough _ hfuel hn

end Shading
