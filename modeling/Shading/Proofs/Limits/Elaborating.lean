import Shading.Proofs.Elaboration.Walking

/-!
Elaboration makes demands in the order of the source. What it asks of each
pool can be told from the tree and from the program that comes out: the gauge
walks over the tree and notes how many variables are visible and how many
scopes are open at once.
-/

namespace Shading

theorem Scopes.pop_under (s : Scopes) (limits : Limits) :
    (s.under limits).pop = s.pop.map (·.under limits) := by
  cases hmarks : s.marks with
  | nil =>
    have hmarks' : (s.under limits).marks = [] := hmarks
    rw [pop_nil hmarks, pop_nil hmarks']
    rfl
  | cons mark marks =>
    have hmarks' : (s.under limits).marks = mark :: marks := hmarks
    have hsize : (s.under limits).locals.size = s.locals.size := rfl
    rw [pop_cons hmarks, pop_cons hmarks', hsize]
    split <;> rfl

namespace Elaborate

variable {α β : Type} {s t : Elaboration}

def Uniform (effect : Gauge → Gauge) (x : Elaborate α) : Prop :=
  ∀ s g, s.Shows g →
    ∃ demands outcome, Follows x s demands outcome ∧
      ∀ a t, outcome = .ok (a, t) → t.Shows (effect g) ∧
        ∀ pool, Rises (demands.map (·.1)) pool (s.program.count g pool)
          (t.program.count (effect g) pool)

namespace Uniform

variable {effect effect' : Gauge → Gauge} {x : Elaborate α} {f : α → Elaborate β}

protected theorem bind (hx : Uniform effect x) (hf : ∀ a, Uniform effect' (f a)) :
    Uniform (effect' ∘ effect) (x >>= f) := by
  intro s g hs
  obtain ⟨demands, outcome, hfollows, hrises⟩ := hx s g hs
  cases outcome with
  | error e => exact ⟨demands, .error e, hfollows.bind_error, fun _ _ h => nomatch h⟩
  | ok r =>
    obtain ⟨a, t⟩ := r
    obtain ⟨ht, hfirst⟩ := hrises a t rfl
    obtain ⟨more, outcome', hfollows', hrises'⟩ := hf a t _ ht
    refine ⟨demands ++ more, outcome', hfollows.bind hfollows', ?_⟩
    intro b u hu
    obtain ⟨hshows, hsecond⟩ := hrises' b u hu
    refine ⟨hshows, fun pool => ?_⟩
    rw [List.map_append]
    exact (hfirst pool).trans (hsecond pool)

protected theorem get {f : Elaboration → Elaborate α}
    (hf : ∀ s limits, f (s.under limits) = f s) (h : ∀ s, Uniform effect (f s)) :
    Uniform effect (get >>= f) := by
  intro s g hs
  obtain ⟨demands, outcome, hfollows, hrises⟩ := h s s g hs
  refine ⟨demands, outcome, fun limits => ?_, hrises⟩
  rw [← hfollows limits, ← hf s limits]
  rfl

theorem build {operation : Build α} (pos : Position) (h : Build.Uniform 0 effect operation)
    (hkeeps : ∀ g, (effect g).elements = g.elements ∧ (effect g).members = g.members ∧
      (effect g).live = g.live ∧ (effect g).marks = g.marks) :
    Uniform effect (build pos operation) := by
  intro s g hs
  obtain ⟨demands, outcome, hfollows, hrises⟩ := h s.program g hs.program (Nat.zero_le _)
  have hdemands : (demands.map (·, pos)).map (·.1) = demands := by
    rw [List.map_map]
    exact List.map_id demands
  refine ⟨demands.map (·, pos), reported pos s outcome, ?_, ?_⟩
  · intro limits
    have hrun : operation.ending (s.under limits).program = _ := hfollows limits
    rw [build_eq, hrun]
    unfold settle
    have hfind : (demands.map (·, pos)).find? (fun d => !d.1.isMet limits) =
        (demands.find? fun d => !d.isMet limits).map (·, pos) := by
      rw [List.find?_map]
      rfl
    rw [hfind]
    cases demands.find? fun d => !d.isMet limits with
    | some d => rfl
    | none =>
      cases outcome with
      | ok r => rfl
      | error f => rfl
  · intro a t ht
    rw [hdemands]
    cases outcome with
    | error f => cases ht
    | ok r =>
      obtain ⟨b, q⟩ := r
      obtain ⟨rfl, rfl⟩ := Prod.mk.inj (Except.ok.inj ht)
      obtain ⟨hq, hcounts⟩ := hrises b q rfl
      obtain ⟨helements, hmembers, hlive, hmarks⟩ := hkeeps g
      exact ⟨⟨hq, hs.elements.trans helements.symm, hs.members.trans hmembers.symm,
        hs.live.trans hlive.symm, hs.marks.trans hmarks.symm⟩, hcounts⟩

theorem of_ok (change : Elaboration → Elaboration) (a : α)
    (h : ∀ s limits, x (s.under limits) = .ok (a, (change s).under limits))
    (hprogram : ∀ s, (change s).program = s.program)
    (hshows : ∀ s g, s.Shows g → (change s).Shows g) : Uniform id x := by
  intro s g hs
  refine ⟨[], .ok (a, change s), fun limits => h s limits, ?_⟩
  rintro b t heq
  obtain ⟨rfl, rfl⟩ := Prod.mk.inj (Except.ok.inj heq)
  refine ⟨hshows s g hs, fun pool => ?_⟩
  rw [hprogram s]
  exact .nil _ _

theorem add (pos : Position) (place : Local) : Uniform Gauge.declare (scope pos (·.add place)) := by
  intro s g hs
  have hadd : ∀ limits, (s.under limits).scopes.add place =
      if Demand.isMet limits ⟨.locals, s.scopes.locals.size + 1⟩ then
        if s.scopes.locals.hasIndex then
          .ok (({ s.scopes with locals := s.scopes.locals.add place } : Scopes).under limits)
        else .error (.indexOverflow .locals)
      else .error (.limit ⟨.locals, limits.locals⟩) := fun _ => Scopes.add_eq _ _
  refine ⟨[(⟨.locals, s.scopes.locals.size + 1⟩, pos)],
    if s.scopes.locals.hasIndex then
      .ok ((), { s with scopes := { s.scopes with locals := s.scopes.locals.add place } })
    else .error (.refused ⟨pos, .indexOverflow .locals⟩), ?_, ?_⟩
  · intro limits
    rw [scope_eq, hadd, Build.settle_single]
    cases Demand.isMet limits ⟨.locals, s.scopes.locals.size + 1⟩ with
    | false => rfl
    | true => cases s.scopes.locals.hasIndex <;> rfl
  · intro a t ht
    cases hindex : s.scopes.locals.hasIndex with
    | false => simp [hindex] at ht
    | true =>
      rw [hindex] at ht
      obtain ⟨-, rfl⟩ := Prod.mk.inj (Except.ok.inj ht)
      have hlive : (s.scopes.locals.add place).size = g.live + 1 := by
        rw [Arena.size_add, hs.live]
      refine ⟨⟨⟨hs.program.1, hs.program.2, hs.program.3, hs.program.4, hs.program.5,
        hs.program.6⟩, hs.elements, hs.members, hlive, hs.marks⟩, ?_⟩
      rw [hs.live]
      refine rises_raise .locals (g.live + 1) rfl ?_
      intro other hother
      cases other <;> trivial

theorem push (pos : Position) : Uniform Gauge.openScope (scope pos (·.push)) := by
  intro s g hs
  have hpush : ∀ limits, (s.under limits).scopes.push =
      if Demand.isMet limits ⟨.scopes, s.scopes.depth + 1⟩ then
        .ok (({ s.scopes with
          marks := s.scopes.locals.size :: s.scopes.marks } : Scopes).under limits)
      else .error (.limit ⟨.scopes, limits.scopeDepth⟩) := fun _ => Scopes.push_eq _
  refine ⟨[(⟨.scopes, s.scopes.depth + 1⟩, pos)], .ok ((), { s with
    scopes := { s.scopes with marks := s.scopes.locals.size :: s.scopes.marks } }), ?_, ?_⟩
  · intro limits
    rw [scope_eq, hpush, Build.settle_single]
    cases Demand.isMet limits ⟨.scopes, s.scopes.depth + 1⟩ <;> rfl
  · intro a t ht
    obtain ⟨-, rfl⟩ := Prod.mk.inj (Except.ok.inj ht)
    have hmarks : s.scopes.locals.size :: s.scopes.marks = g.live :: g.marks := by
      rw [hs.live, hs.marks]
    refine ⟨⟨⟨hs.program.1, hs.program.2, hs.program.3, hs.program.4, hs.program.5,
      hs.program.6⟩, hs.elements, hs.members, hs.live, hmarks⟩, ?_⟩
    have hdepth : s.scopes.depth = g.marks.length := by rw [Scopes.depth, hs.marks]
    rw [hdepth]
    refine rises_raise .scopes (g.marks.length + 1) rfl ?_
    intro other hother
    cases other <;> trivial

theorem pop (pos : Position) : Uniform Gauge.closeScope (scope pos (·.pop)) := by
  intro s g hs
  refine ⟨[], rescoped pos s s.scopes.pop, ?_, ?_⟩
  · intro limits
    have hpop : (s.under limits).scopes.pop = s.scopes.pop.map (·.under limits) :=
      s.scopes.pop_under limits
    rw [scope_eq, hpop]
    cases s.scopes.pop with
    | ok scopes => rfl
    | error e => cases e <;> rfl
  · intro a t ht
    cases hpop : s.scopes.pop with
    | error e =>
      rw [hpop] at ht
      cases e <;> cases ht
    | ok scopes =>
      rw [hpop] at ht
      obtain ⟨-, rfl⟩ := Prod.mk.inj (Except.ok.inj ht)
      obtain ⟨mark, hmarks, hsize, -⟩ := Scopes.pop_ok hpop
      have hclose : g.closeScope = { g with live := mark, marks := scopes.marks } := by
        rw [Gauge.closeScope, ← hs.marks, hmarks]
      rw [hclose]
      refine ⟨⟨⟨hs.program.1, hs.program.2, hs.program.3, hs.program.4, hs.program.5,
        hs.program.6⟩, hs.elements, hs.members, hsize, rfl⟩, fun pool => ?_⟩
      have hcount : s.program.count { g with live := mark, marks := scopes.marks } pool =
          s.program.count g pool := by cases pool <;> rfl
      rw [hcount]
      exact .nil _ _

theorem count {ρ : Renaming} {pool : Pool} {n : Elaboration → Nat}
    {put : Elaboration → Elaboration} {k : Elaboration → Unit → Elaborate α}
    (h : Counts ρ pool effect n put) (pos : Position) (hx : Uniform effect' x) :
    Uniform (effect' ∘ effect) (do
      let state ← get
      if fits (n state) (state.program.limits.of pool) then do
        set (put state)
        x
      else do
        let r ← refuse pos (.limit ⟨pool, state.program.limits.of pool⟩)
        k state r) := by
  intro s g hs
  obtain ⟨demands, outcome, hfollows, hrises⟩ := hx (put s) (effect g) (h.shows s g hs)
  refine ⟨(⟨pool, n s⟩, pos) :: demands, outcome, fun limits => ?_, fun a t ht => ?_⟩
  · have hmet : Demand.isMet limits ⟨pool, n s⟩ = fits (n s) (limits.of pool) :=
      if_neg h.notWords
    obtain ⟨hn, hput⟩ := h.under s limits
    have hrun := hfollows limits
    rw [← hput] at hrun
    rw [← List.singleton_append, settle_append, ← hrun, Build.settle_single, hmet]
    change (if fits (n (s.under limits)) (limits.of pool) then _ else _ : Elaborate α) _ = _
    rw [hn]
    cases fits (n s) (limits.of pool) <;> rfl
  · obtain ⟨hshows, hcounts⟩ := hrises a t ht
    refine ⟨hshows, fun other => ?_⟩
    have hfirst : Rises [⟨pool, n s⟩] other (s.program.count g other)
        (s.program.count (effect g) other) :=
      rises_raise pool (n s) (h.count s g hs) (fun other => h.other s g other) other
    rw [h.program] at hcounts
    exact hfirst.trans (hcounts other)

end Uniform

/-- Every elaboration makes its demands whatever the limits are. -/
theorem Walk.uniform {ρ : Renaming} {effect : Gauge → Gauge} {f : α → β} {x : Elaborate α}
    {y : Elaborate β} (h : Walk ρ effect f x y) : Uniform effect x := by
  induction h with
  | pure _ => exact .of_ok id _ (fun _ _ => rfl) (fun _ => rfl) fun _ _ h => h
  | bind _ _ ihx ihk => exact ihx.bind ihk
  | stop hx => exact fun _ _ _ => ⟨[], .error _, fun _ => hx _, fun _ _ h => nomatch h⟩
  | read hunder _ ih => exact .get hunder ih
  | @wait change _ hunder _ hprogram hshows =>
    refine .of_ok change () (fun s limits => ?_) hprogram hshows
    exact congrArg (fun s => Except.ok ((), s)) (hunder s limits)
  | count hcounts pos _ _ ih => exact .count hcounts pos ih
  | build h hkeeps => exact .build _ h.uniform hkeeps
  | add place => exact .add _ place
  | push => exact .push _
  | pop => exact .pop _

end Elaborate

end Shading
