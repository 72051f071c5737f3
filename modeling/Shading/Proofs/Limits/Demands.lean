import Mathlib.Algebra.Ring.Int.Defs
import Mathlib.Algebra.Ring.Nat
import Shading.Proofs.Extension

/-!
Demands on the limits of a compilation. Limits are only ever compared with the
number of entries that a pool would hold, so a run under one set of limits is
a run under any other up to the first comparison that fails. `Follows` says
this of one step: under all limits at once it makes the same demands and comes
to the same outcome, which is reached if every demand is met.
-/

namespace Shading

/-- The limit of a pool. -/
def Limits.of (l : Limits) : Pool → Int64
  | .types => l.types
  | .procedures => l.procedures
  | .entryPoints => l.entryPoints
  | .globals => l.globals
  | .locals => l.locals
  | .expressions => l.expressions
  | .constants => l.constants
  | .interfaces => l.interfaces
  | .words => l.words
  | .scopes => l.scopeDepth
  | .recordMembers => l.recordMembers
  | .vectorElements => l.vectorElements
  | .named _ => 0

structure Demand where
  pool : Pool
  count : Nat

namespace Demand

def isMet (limits : Limits) (d : Demand) : Bool :=
  if d.pool = .words then Int64.ofNat d.count ≤ limits.words
  else fits d.count (limits.of d.pool)

def exhausted (limits : Limits) (d : Demand) : Exhausted := ⟨d.pool, limits.of d.pool⟩

end Demand

def settle {δ ε β : Type} (unmet : δ → Bool) (fail : δ → ε) (demands : List δ)
    (outcome : Except ε β) : Except ε β :=
  match demands.find? unmet with
  | some d => .error (fail d)
  | none => outcome

section Settle

variable {δ ε β γ : Type} {unmet : δ → Bool} {fail : δ → ε}

theorem settle_append (demands more : List δ) (o : Except ε β) :
    settle unmet fail (demands ++ more) o =
      settle unmet fail demands (settle unmet fail more o) := by
  unfold settle
  rw [List.find?_append]
  cases demands.find? unmet with
  | none => rfl
  | some d => rfl

theorem settle_bind (demands : List δ) (o : Except ε β) (f : β → Except ε γ) :
    (settle unmet fail demands o).bind f = settle unmet fail demands (o.bind f) := by
  unfold settle
  cases demands.find? unmet with
  | none => rfl
  | some d => rfl

theorem settle_of_forall {demands : List δ} (o : Except ε β)
    (h : ∀ d ∈ demands, unmet d = false) : settle unmet fail demands o = o := by
  have hnone : demands.find? unmet = none := by
    apply List.find?_eq_none.mpr
    intro d hd
    simp [h d hd]
  rw [settle, hnone]

theorem settle_of_exists {demands : List δ} (o : Except ε β) (h : ∃ d ∈ demands, unmet d = true) :
    ∃ d ∈ demands, unmet d = true ∧ settle unmet fail demands o = .error (fail d) := by
  cases hfind : demands.find? unmet with
  | none =>
    obtain ⟨d, hd, hunmet⟩ := h
    exact absurd hunmet (List.find?_eq_none.mp hfind d hd)
  | some d =>
    refine ⟨d, List.mem_of_find?_eq_some hfind, List.find?_some hfind, ?_⟩
    rw [settle, hfind]

end Settle

def Arena.under {α : Type} (a : Arena α) (pool : Pool) (limit : Int64) : Arena α :=
  ⟨a.items, pool, limit⟩

def Program.under (p : Program) (limits : Limits) : Program where
  limits := limits
  nextId := p.nextId
  types := p.types.under .types limits.types
  globals := p.globals.under .globals limits.globals
  constants := p.constants.under .constants limits.constants
  expressions := p.expressions.under .expressions limits.expressions
  procedures := p.procedures.under .procedures limits.procedures
  entryPoints := p.entryPoints.under .entryPoints limits.entryPoints
  words := ⟨p.words.used, limits.words⟩
  interfacesUsed := p.interfacesUsed

def Scopes.under (s : Scopes) (limits : Limits) : Scopes :=
  ⟨s.locals.under .locals limits.locals, s.marks, limits.scopeDepth⟩

def Elaboration.under (s : Elaboration) (limits : Limits) : Elaboration :=
  { s with program := s.program.under limits, scopes := s.scopes.under limits }

namespace Build

variable {α β : Type} {p q : Program} {demands more : List Demand}

def Follows (x : Build α) (p : Program) (demands : List Demand)
    (outcome : Except Fault (α × Program)) : Prop :=
  ∀ limits, x.ending (p.under limits) =
    settle (fun d => !d.isMet limits) (fun d => .limit (d.exhausted limits)) demands
      (outcome.map fun r => (r.1, r.2.under limits))

namespace Follows

variable {x : Build α} {f : α → Build β} {o : Except Fault (β × Program)} {a : α}

theorem bind (hx : Follows x p demands (.ok (a, q))) (hf : Follows (f a) q more o) :
    Follows (x >>= f) p (demands ++ more) o := by
  intro limits
  rw [ending_bind, hx limits, settle_bind, settle_append]
  exact congrArg _ (hf limits)

theorem bind_error {e : Fault} (hx : Follows x p demands (.error e)) :
    Follows (x >>= f) p demands (.error e) := by
  intro limits
  rw [ending_bind, hx limits, settle_bind]
  rfl

end Follows

end Build

namespace Elaborate

variable {α β : Type} {s t : Elaboration} {demands more : List (Demand × Position)}

def Follows (x : Elaborate α) (s : Elaboration) (demands : List (Demand × Position))
    (outcome : Except Stop (α × Elaboration)) : Prop :=
  ∀ limits, x (s.under limits) =
    settle (fun d => !d.1.isMet limits)
      (fun d => .refused ⟨d.2, .limit (d.1.exhausted limits)⟩) demands
      (outcome.map fun r => (r.1, r.2.under limits))

namespace Follows

variable {x : Elaborate α} {f : α → Elaborate β} {o : Except Stop (β × Elaboration)} {a : α}

theorem bind (hx : Follows x s demands (.ok (a, t))) (hf : Follows (f a) t more o) :
    Follows (x >>= f) s (demands ++ more) o := by
  intro limits
  change (x (s.under limits)).bind (fun r => f r.1 r.2) = _
  rw [hx limits, settle_bind, settle_append]
  exact congrArg _ (hf limits)

theorem bind_error {e : Stop} (hx : Follows x s demands (.error e)) :
    Follows (x >>= f) s demands (.error e) := by
  intro limits
  change (x (s.under limits)).bind (fun r => f r.1 r.2) = _
  rw [hx limits, settle_bind]
  rfl

end Follows

end Elaborate

end Shading
