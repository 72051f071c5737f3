import Shading.Proofs.Limits.Start
import Shading.Proofs.Limits.Words

/-!
Limits are monotone and exact. What a source uses of each pool does not depend
on the limits it is read under; it is accepted under exactly those limits that
leave room for what it uses, and greater limits never change what is found.
-/

namespace Shading

variable {p : Program} {l : Limits} {tree : SourceTree} {bound : Int}

namespace Limits

end Limits

def Gauge.start : Gauge := ⟨0, 0, 0, 0, 0, 0, [], 0, 0⟩

namespace Program

theorem Built.words_lt (h : p.Built tree) (hshows : p.Shows (itemsGauge tree.items .start)) :
    p.count (itemsGauge tree.items .start) .words < 2 ^ 63 := by
  have hcode : p.tally Procedure.words + 0 ≤
      18 * (itemsGauge tree.items .start).expressions + 2 * p.procedures.size := by
    rw [← Arena.length_toList]
    exact h.declared.words_le h.sound .start
  have hlabels := labels_items tree.items .start
  have hprocedures := hshows.procedures
  have hexpressions := hshows.expressions
  have hprocedures_le := hshows.procedures_le
  have hexpressions_le := hshows.expressions_le
  simp only [Gauge.start] at *
  simp only [count]
  omega

theorem Shows.under {g : Gauge} (h : p.Shows g) (limits : Limits) :
    (p.under limits).Shows g := ⟨h.1, h.2, h.3, h.4, h.5, h.6⟩

/-- What a source uses of each pool: the entries that its program has in the end, and the greatest
numbers of variables that were visible and of scopes that were open at once. -/
def usage (p : Program) (tree : SourceTree) : Pool → Int
  | .types => p.types.size
  | .procedures => p.procedures.size
  | .entryPoints => p.entryPoints.size
  | .globals => p.globals.size
  | .expressions => p.expressions.size
  | .constants => p.constants.size
  | .interfaces => p.tally fun a => a.interface.size
  | .words => p.words.used.toInt
  | .locals => (itemsGauge tree.items .start).peakLive
  | .scopes => (itemsGauge tree.items .start).peakDepth
  | .recordMembers => (itemsGauge tree.items .start).members
  | .vectorElements => (itemsGauge tree.items .start).elements
  | .named _ => 0

theorem usage_eq_count (h : p.Built tree) (hshows : p.Shows (itemsGauge tree.items .start))
    (pool : Pool) : p.usage tree pool = p.count (itemsGauge tree.items .start) pool := by
  cases pool with
  | words =>
    have hlt := h.words_lt hshows
    change p.words.used.toInt = _
    rw [hshows.words]
    exact Int64.toInt_ofNat_of_lt hlt
  | interfaces => exact congrArg Int.ofNat hshows.interfaces.symm
  | _ => rfl

end Program

/-- The full pool that a compilation failed on, if it failed on a limit. -/
def CompileError.limit? : CompileError → Option Exhausted
  | .limit e => some e
  | .refused why => why.limit?
  | _ => none

namespace Demand

variable {d : Demand} {limits limits' : Limits}

end Demand

namespace Program

def given : Pool → Nat
  | .types => 2
  | _ => 0

structure Course (source : Bytes) (demands : List (Demand × Position))
    (outcome : Except CompileError Program) : Prop where
  run : ∀ limits : Limits, ofSource source limits =
    if fits 2 limits.withDefaults.types then
      settle (fun d => !d.1.isMet limits.withDefaults)
        (fun d => .refused ⟨d.2, .limit (d.1.exhausted limits.withDefaults)⟩) demands
        (outcome.map (·.under limits.withDefaults))
    else .error (.limit ⟨.types, limits.withDefaults.types⟩)
  counts : ∀ p, outcome = .ok p →
    p.Shows (itemsGauge (SourceTree.ofSource source).items .start) ∧
    ∀ pool, Rises (demands.map (·.1)) pool (given pool)
      (p.count (itemsGauge (SourceTree.ofSource source).items .start) pool)

theorem exists_course (source : Bytes) : ∃ demands outcome, Course source demands outcome := by
  let tree := SourceTree.ofSource source
  let start := Elaboration.ofProgram (seeded .default)
  have hstart : start.Shows .start := by
    refine ⟨⟨rfl, rfl, rfl, rfl, Nat.zero_le _, Nat.zero_le _⟩, rfl, rfl, rfl, rfl⟩
  have hunder : ∀ limits, start.under limits = .ofProgram (seeded limits) := fun _ => rfl
  have hcount : ∀ pool, start.program.count .start pool = given pool := by
    intro pool
    cases pool <;> rfl
  obtain ⟨demands, outcome, hfollows, hrises⟩ :=
    (Elaborate.Walk.sourceTree (ρ := .keep) tree).uniform start .start hstart
  refine ⟨demands, ofOutcome outcome, ?_, ?_⟩
  · intro limits
    unfold ofSource
    rw [new_eq]
    cases fits 2 limits.withDefaults.types with
    | false => rfl
    | true =>
      have hrun := hfollows limits.withDefaults
      rw [hunder] at hrun
      change ofOutcome (Elaborate.sourceTree tree (.ofProgram (seeded limits.withDefaults))) = _
      rw [hrun, if_pos (Eq.refl true)]
      unfold settle
      cases demands.find? fun d => !d.1.isMet limits.withDefaults with
      | some d => rfl
      | none =>
        cases outcome with
        | ok r => rfl
        | error e => cases e <;> rfl
  · intro p hp
    cases outcome with
    | error e => cases e <;> cases hp
    | ok r =>
      obtain ⟨u, t⟩ := r
      cases hp
      obtain ⟨hshows, hcounts⟩ := hrises u t rfl
      refine ⟨hshows.program, fun pool => ?_⟩
      rw [← hcount]
      exact hcounts pool

namespace Course

variable {source : Bytes} {demands : List (Demand × Position)}
  {outcome : Except CompileError Program} {limits limits' : Limits}

theorem run_of_met (h : Course source demands outcome)
    (htypes : fits 2 limits.withDefaults.types = true)
    (hmet : ∀ d ∈ demands, d.1.isMet limits.withDefaults = true) :
    ofSource source limits = outcome.map (·.under limits.withDefaults) := by
  rw [h.run, if_pos htypes]
  refine settle_of_forall _ ?_
  intro d hd
  rw [hmet d hd]
  rfl

theorem run_of_unmet (h : Course source demands outcome)
    (htypes : fits 2 limits.withDefaults.types = true)
    (hunmet : ¬∀ d ∈ demands, d.1.isMet limits.withDefaults = true) :
    ∃ d ∈ demands, d.1.isMet limits.withDefaults = false ∧ ofSource source limits =
      .error (.refused ⟨d.2, .limit (d.1.exhausted limits.withDefaults)⟩) := by
  have hexists : ∃ d ∈ demands, (!d.1.isMet limits.withDefaults) = true := by
    simpa using hunmet
  have hrun := h.run limits
  rw [if_pos htypes] at hrun
  obtain ⟨d, hd, hfalse, hfirst⟩ := settle_of_exists _ hexists
  exact ⟨d, hd, by simpa using hfalse, hrun.trans hfirst⟩

theorem met_of_run (h : Course source demands outcome)
    (hrun : ∀ e, ofSource source limits = .error e → e.limit? = none) :
    fits 2 limits.withDefaults.types = true ∧
      ∀ d ∈ demands, d.1.isMet limits.withDefaults = true := by
  have htypes : fits 2 limits.withDefaults.types = true := by
    refine Classical.byContradiction fun hfull => ?_
    have herror := h.run limits
    rw [if_neg hfull] at herror
    exact absurd (hrun _ herror) (Option.some_ne_none _)
  refine ⟨htypes, Classical.byContradiction fun hunmet => ?_⟩
  obtain ⟨d, -, -, herror⟩ := h.run_of_unmet htypes hunmet
  exact absurd (hrun _ herror) (Option.some_ne_none _)

theorem of_ok (h : Course source demands outcome) (hp : ofSource source limits = .ok p) :
    (fits 2 limits.withDefaults.types = true ∧
      ∀ d ∈ demands, d.1.isMet limits.withDefaults = true) ∧
    ∃ q, outcome = .ok q ∧ q.under limits.withDefaults = p := by
  have hmet := h.met_of_run fun e he => by rw [hp] at he; cases he
  refine ⟨hmet, ?_⟩
  have hrun := h.run_of_met hmet.1 hmet.2
  rw [hp] at hrun
  cases outcome with
  | error e => cases hrun
  | ok q => exact ⟨q, rfl, (Except.ok.inj hrun).symm⟩

end Course

end Program

end Shading
