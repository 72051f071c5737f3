import Shading.Proofs.Elaboration.Walking

/-!
Elaboration under other names. A renamed tree is elaborated step by step as the
tree is, with renamed states in between; where it is refused, so is the tree,
and for the same cause if every name is kept.
-/

namespace Shading

open Renaming Elaborate

open Position (nowhere)

variable {pos pos' : Position}

namespace Elaborate

variable {α β α' β' : Type} {ρ : Renaming}

inductive Agree (ρ : Renaming) (f : α → β) :
    Except Stop (α × Elaboration) → Except Stop (β × Elaboration) → Prop
  | ok (a : α) (s : Elaboration) : Agree ρ f (.ok (a, s)) (.ok (f a, ρ.elaboration s))
  | error {stop stop' : Stop} (h : stop.Alike ρ stop') : Agree ρ f (.error stop) (.error stop')

theorem Agree.cases {f : α → β} {x : Except Stop (α × Elaboration)}
    {y : Except Stop (β × Elaboration)} (h : Agree ρ f x y) :
    (∃ a s, x = .ok (a, s) ∧ y = .ok (f a, ρ.elaboration s)) ∨
      ∃ stop stop', x = .error stop ∧ y = .error stop' ∧ stop.Alike ρ stop' := by
  cases h with
  | ok a s => exact .inl ⟨a, s, rfl, rfl⟩
  | error hstop => exact .inr ⟨_, _, rfl, rfl, hstop⟩

def Mirrors (ρ : Renaming) (f : α → β) (x : Elaborate α) (y : Elaborate β) : Prop :=
  ∀ s, Agree ρ f (x s) (y (ρ.elaboration s))

namespace Mirrors

variable {f : α → β} {g : α' → β'}

protected theorem bind {x : Elaborate α} {y : Elaborate β} {k : α → Elaborate α'}
    {l : β → Elaborate β'} (hx : Mirrors ρ f x y) (hk : ∀ a, Mirrors ρ g (k a) (l (f a))) :
    Mirrors ρ g (x >>= k) (y >>= l) := by
  intro s
  have hs := hx s
  change Agree ρ g (Except.bind (x s) _) (Except.bind (y (ρ.elaboration s)) _)
  generalize x s = found, y (ρ.elaboration s) = found' at hs
  cases hs with
  | ok a t => exact hk a t
  | error h => exact .error h

theorem build {operation : Build α} {operation' : Build β} (h : operation.Mirrors ρ f operation') :
    Mirrors ρ f (build pos operation) (build pos' operation') := by
  intro s
  have hrun : operation'.ending (ρ.elaboration s).program = _ := h s.program
  rw [build_eq, build_eq, hrun]
  cases operation.ending s.program with
  | ok r => exact .ok r.1 { s with program := r.2 }
  | error e =>
    cases e with
    | limit e => exact .error (.refused fun _ => rfl)
    | indexOverflow pool => exact .error (.refused fun _ => rfl)
    | _ => exact .error (.fault _)

theorem scope {operation operation' : Scopes → Except ScopeError Scopes}
    (h : ∀ s, operation' (ρ.scopes s) = (operation s).map ρ.scopes) :
    Mirrors ρ id (scope pos operation) (scope pos' operation') := by
  intro s
  have hrun : operation' (ρ.elaboration s).scopes = _ := h s.scopes
  rw [scope_eq, scope_eq, hrun]
  cases operation s.scopes with
  | ok scopes => exact .ok () { s with scopes }
  | error e =>
    cases e with
    | limit e => exact .error (.refused fun _ => rfl)
    | indexOverflow pool => exact .error (.refused fun _ => rfl)
    | _ => exact .error (.fault _)

theorem add (place : Local) :
    Mirrors ρ id (Elaborate.scope pos (·.add place))
      (Elaborate.scope pos' (·.add (ρ.binding place))) := by
  refine .scope fun s => ?_
  simp only [Scopes.add_eq, scopes, Arena.hasRoom_map, Arena.hasIndex_map, Arena.add_map]
  cases s.locals.hasRoom <;> cases s.locals.hasIndex <;> rfl

theorem push : Mirrors ρ id (Elaborate.scope pos (·.push)) (Elaborate.scope pos' (·.push)) := by
  refine .scope fun s => ?_
  have hsize : (ρ.scopes s).locals.size = s.locals.size := Arena.size_map _ _
  have hfits :
      fits ((ρ.scopes s).depth + 1) (ρ.scopes s).maxDepth = fits (s.depth + 1) s.maxDepth :=
    rfl
  rw [Scopes.push_eq, Scopes.push_eq, hsize, hfits]
  split <;> rfl

theorem pop : Mirrors ρ id (Elaborate.scope pos (·.pop)) (Elaborate.scope pos' (·.pop)) := by
  refine .scope fun s => ?_
  cases hmarks : s.marks with
  | nil =>
    have hmarks' : (ρ.scopes s).marks = [] := hmarks
    rw [Scopes.pop_nil hmarks, Scopes.pop_nil hmarks']
    rfl
  | cons mark marks =>
    have hmarks' : (ρ.scopes s).marks = mark :: marks := hmarks
    have hsize : (ρ.scopes s).locals.size = s.locals.size := Arena.size_map _ _
    rw [Scopes.pop_cons hmarks, Scopes.pop_cons hmarks', hsize]
    split
    · simp only [scopes, Arena.map, Except.map, Array.take_eq_extract, Array.map_extract]
    · rfl

theorem count {pool : Pool} {effect : Gauge → Gauge} {n : Elaboration → Nat}
    {put : Elaboration → Elaboration} {x : Elaborate α} {y : Elaborate β}
    {k : Elaboration → Unit → Elaborate α} {l : Elaboration → Unit → Elaborate β}
    (h : Counts ρ pool effect n put) (hx : Mirrors ρ f x y) :
    Mirrors ρ f
      (do
        let state ← get
        if fits (n state) (state.program.limits.of pool) then do
          set (put state)
          x
        else do
          let r ← refuse pos (.limit ⟨pool, state.program.limits.of pool⟩)
          k state r)
      (do
        let state ← get
        if fits (n state) (state.program.limits.of pool) then do
          set (put state)
          y
        else do
          let r ← refuse pos' (.limit ⟨pool, state.program.limits.of pool⟩)
          l state r) := by
  intro s
  obtain ⟨hn, hput⟩ := h.renamed s
  change Agree ρ f ((if fits (n s) (s.program.limits.of pool) then _ else _ : Elaborate α) s)
    ((if fits (n (ρ.elaboration s)) (s.program.limits.of pool) then _ else _ : Elaborate β) _)
  rw [hn]
  cases fits (n s) (s.program.limits.of pool) with
  | true =>
    change Agree ρ f (x (put s)) (y (put (ρ.elaboration s)))
    rw [hput]
    exact hx (put s)
  | false => exact .error (.refused fun _ => rfl)

end Mirrors

/-- Under other names an elaboration comes to the same end. -/
theorem Walk.mirrors {effect : Gauge → Gauge} {f : α → β} {x : Elaborate α} {y : Elaborate β}
    (h : Walk ρ effect f x y) : Mirrors ρ f x y := by
  induction h with
  | pure h =>
    intro s
    rw [h]
    exact .ok _ s
  | bind _ _ ihx ihk => exact ihx.bind ihk
  | stop hx hy h =>
    intro s
    rw [hx, hy]
    exact .error h
  | read _ _ ih => exact fun s => ih s s
  | @wait change change' _ hrenamed _ _ =>
    intro s
    change Agree ρ id _ (.ok ((), change' (ρ.elaboration s)))
    rw [hrenamed]
    exact .ok () (change s)
  | count hcounts _ _ _ ih => exact .count hcounts ih
  | build h _ => exact .build h.mirrors
  | add place => exact .add place
  | push => exact .push
  | pop => exact .pop

end Elaborate

end Shading
