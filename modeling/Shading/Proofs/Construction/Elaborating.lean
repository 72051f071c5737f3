import Shading.Proofs.Elaboration.Walking

/-!
Elaboration builds its program by calls. Whatever a step does to the program is
followed to the calls that do it; reading the program, the scopes and the
waiting attributes takes none.
-/

namespace Shading

open Elaborate

/-- Whatever an elaboration makes of a program is reached by calls. -/
theorem Elaborate.Walk.reaches {α β : Type} {ρ : Renaming} {effect : Gauge → Gauge} {f : α → β}
    {x : Elaborate α} {y : Elaborate β} (h : Walk ρ effect f x y) {s t : Elaboration} {a : α}
    (hrun : x s = .ok (a, t)) : s.program.Reaches t.program := by
  induction h generalizing s t with
  | pure _ =>
    obtain ⟨-, rfl⟩ := pure_ok.mp hrun
    exact .refl _
  | bind _ _ ihx ihk =>
    obtain ⟨b, r, hfirst, hrest⟩ := bind_ok.mp hrun
    exact (ihx hfirst).trans (ihk b hrest)
  | stop hx =>
    rw [hx] at hrun
    cases hrun
  | read _ _ ih => exact ih s hrun
  | wait _ _ hprogram =>
    obtain rfl := modify_ok.mp hrun
    rw [hprogram]
    exact .refl _
  | count hcounts pos pos' _ ih =>
    obtain ⟨_, _, ⟨rfl, rfl⟩, hrun⟩ := bind_ok.mp hrun
    obtain ⟨-, hrun⟩ | ⟨-, hrun⟩ := ite_ok.mp hrun
    · obtain ⟨_, _, hset, hrun⟩ := bind_ok.mp hrun
      obtain rfl := set_ok.mp hset
      rw [← hcounts.program]
      exact ih hrun
    · obtain ⟨_, _, hrefuse, -⟩ := bind_ok.mp hrun
      exact (refuse_ok.mp hrefuse).elim
  | build h _ =>
    obtain ⟨q, hoperation, rfl⟩ := build_ok.mp hrun
    exact h.calls _ _ q hoperation
  | add _ | push | pop =>
    obtain ⟨scopes, -, rfl⟩ := scope_ok.mp hrun
    exact .refl _

theorem Program.ofSource_reaches {source : Bytes} {limits : Limits} {p : Program}
    (h : ofSource source limits = .ok p) : ∃ start, new limits = .ok start ∧ start.Reaches p := by
  obtain ⟨start, t, hstart, hrun, rfl⟩ := ofSource_elaborates h
  obtain ⟨hitems, -, -⟩ := sourceTree_ok hrun
  exact ⟨start, hstart, (Walk.items (ρ := .keep) _).reaches hitems⟩

end Shading
