import Shading.Proofs.Emission
import Shading.Proofs.Limits.Demands

/-!
The operations on a program make their demands one at a time, each for one
entry more than the pool has, so what a pool holds at the end is the greatest
number that was asked for. The words that are charged are those of the code
that is kept, together with those of the labels.
-/

namespace Shading

open Arena Program Build

open Binary (Instruction Opcode)

variable {i : Nat} {before after : Pool → Nat}

def codeWords (code : List Instruction) : Nat := (code.map Instruction.wordCount).sum

@[simp] theorem codeWords_nil : codeWords [] = 0 := rfl

@[simp] theorem codeWords_cons (i : Instruction) (code : List Instruction) :
    codeWords (i :: code) = i.wordCount + codeWords code := rfl

@[simp] theorem codeWords_append (before after : List Instruction) :
    codeWords (before ++ after) = codeWords before + codeWords after := by
  simp [codeWords]

def Procedure.words (a : Procedure) : Nat := codeWords a.locals.toList + codeWords a.body.toList

structure Gauge where
  procedures : Nat
  expressions : Nat
  elements : Nat
  members : Nat
  labels : Nat
  live : Nat
  marks : List Nat
  peakLive : Nat
  peakDepth : Nat

variable {g : Gauge}

namespace Gauge

def express (g : Gauge) : Gauge := { g with expressions := g.expressions + 1 }

def procedure (g : Gauge) : Gauge := { g with procedures := g.procedures + 1 }

def label (g : Gauge) : Gauge := { g with labels := g.labels + 2 }

end Gauge

theorem sum_map_modify {α : Type} (f : α → Nat) (change : α → α) {l : List α} {a : α}
    (h : l[i]? = some a) :
    ((l.modify i change).map f).sum + f a = (l.map f).sum + f (change a) := by
  induction l generalizing i with
  | nil => simp at h
  | cons x xs ih =>
    cases i with
    | zero =>
      obtain rfl : x = a := by simpa using h
      simp only [List.modify_zero_cons, List.map_cons, List.sum_cons]
      omega
    | succ i =>
      have hrest := ih (i := i) (by simpa using h)
      simp only [List.modify_succ_cons, List.map_cons, List.sum_cons]
      omega

namespace Program

/-- The sum of a number over the procedures of a program. -/
def tally (p : Program) (f : Procedure → Nat) : Nat := (p.procedures.toList.map f).sum

def count (p : Program) (g : Gauge) : Pool → Nat
  | .types => p.types.size
  | .procedures => p.procedures.size
  | .entryPoints => p.entryPoints.size
  | .globals => p.globals.size
  | .expressions => p.expressions.size
  | .constants => p.constants.size
  | .interfaces => p.interfacesUsed
  | .words => p.tally Procedure.words + g.labels
  | .locals => g.peakLive
  | .scopes => g.peakDepth
  | .recordMembers => g.members
  | .vectorElements => g.elements
  | .named _ => 0

theorem tally_modify {p : Program} {ref : ProcedureRef} {old : Procedure}
    (hold : p.procedures.get? ref = some old) (change : Procedure → Procedure)
    (f : Procedure → Nat) :
    ({ p with procedures := p.procedures.modify ref change } : Program).tally f + f old =
      p.tally f + f (change old) := by
  simp only [tally, toList_modify]
  exact sum_map_modify f change (by rw [← get?_eq]; exact hold)

theorem tally_modify_same (p : Program) (ref : ProcedureRef) (change : Procedure → Procedure)
    (f : Procedure → Nat) (hf : ∀ a, f (change a) = f a) :
    ({ p with procedures := p.procedures.modify ref change } : Program).tally f = p.tally f := by
  cases hold : p.procedures.get? ref with
  | some old =>
    have hsum := tally_modify hold change f
    rw [hf old] at hsum
    omega
  | none =>
    rw [get?_eq] at hold
    simp only [tally, toList_modify]
    rw [List.modify_eq_self (List.getElem?_eq_none_iff.mp hold)]

structure Shows (p : Program) (g : Gauge) : Prop where
  procedures : p.procedures.size = g.procedures
  expressions : p.expressions.size = g.expressions
  words : p.words.used = Int64.ofNat (p.tally Procedure.words + g.labels)
  interfaces : p.interfacesUsed = p.tally fun a => a.interface.size
  procedures_le : p.procedures.size ≤ 2 ^ 32
  expressions_le : p.expressions.size ≤ 2 ^ 32

end Program

def Rises (demands : List Demand) (pool : Pool) (low high : Nat) : Prop :=
  ∀ bound, high ≤ bound ↔ low ≤ bound ∧ ∀ d ∈ demands, d.pool = pool → d.count ≤ bound

namespace Rises

variable {demands more : List Demand} {pool : Pool} {low mid high : Nat}

theorem le (h : Rises demands pool low high) : low ≤ high := ((h high).mp (Nat.le_refl _)).1

theorem nil (pool : Pool) (n : Nat) : Rises [] pool n n := by
  intro bound
  simp

theorem trans (hlow : Rises demands pool low mid) (hhigh : Rises more pool mid high) :
    Rises (demands ++ more) pool low high := by
  intro bound
  rw [hhigh bound, hlow bound, List.forall_mem_append, and_assoc]

end Rises

theorem rises_raise (pool : Pool) (n : Nat) (h : after pool = max (before pool) n)
    (hother : ∀ other, pool ≠ other → after other = before other) (other : Pool) :
    Rises [⟨pool, n⟩] other (before other) (after other) := by
  intro bound
  simp only [List.mem_singleton, forall_eq]
  by_cases heq : pool = other
  · subst heq
    rw [h, Nat.max_le]
    simp
  · rw [hother other heq]
    simp [heq]

theorem rises_single (pool : Pool) (h : before pool ≤ after pool)
    (hother : ∀ other, pool ≠ other → after other = before other) (other : Pool) :
    Rises [⟨pool, after pool⟩] other (before other) (after other) :=
  rises_raise pool (after pool) (Nat.max_eq_right h).symm hother other

namespace Build

variable {α β : Type} {p q : Program}

def Uniform (least : Nat) (effect : Gauge → Gauge) (x : Build α) : Prop :=
  ∀ p g, p.Shows g → least ≤ p.procedures.size →
    ∃ demands outcome, Follows x p demands outcome ∧
      ∀ a q, outcome = .ok (a, q) → q.Shows (effect g) ∧
        ∀ pool, Rises demands pool (p.count g pool) (q.count (effect g) pool)

namespace Uniform

variable {least : Nat} {effect effect' : Gauge → Gauge}

protected theorem bind {x : Build α} {f : α → Build β} (hx : Uniform least effect x)
    (hf : ∀ a, Uniform least effect' (f a)) : Uniform least (effect' ∘ effect) (x >>= f) := by
  intro p g hp hleast
  obtain ⟨demands, outcome, hfollows, hrises⟩ := hx p g hp hleast
  cases outcome with
  | error e => exact ⟨demands, .error e, hfollows.bind_error, fun _ _ h => nomatch h⟩
  | ok r =>
    obtain ⟨a, q⟩ := r
    obtain ⟨hq, hfirst⟩ := hrises a q rfl
    have hleast' : least ≤ q.procedures.size := Nat.le_trans hleast (hfirst .procedures).le
    obtain ⟨more, outcome', hfollows', hrises'⟩ := hf a q _ hq hleast'
    refine ⟨demands ++ more, outcome', hfollows.bind hfollows', ?_⟩
    intro b r hr
    obtain ⟨hshows, hsecond⟩ := hrises' b r hr
    exact ⟨hshows, fun pool => (hfirst pool).trans (hsecond pool)⟩

theorem of_ok {x : Build α} (change : Program → Program) (give : Program → α)
    (h : ∀ p limits, x.ending (p.under limits) = .ok (give p, (change p).under limits))
    (hshows : ∀ p g, p.Shows g → least ≤ p.procedures.size → (change p).Shows (effect g))
    (hcount : ∀ p g pool, least ≤ p.procedures.size →
      (change p).count (effect g) pool = p.count g pool) : Uniform least effect x := by
  intro p g hp hleast
  refine ⟨[], .ok (give p, change p), fun limits => h p limits, ?_⟩
  rintro a q heq
  obtain ⟨rfl, rfl⟩ := Prod.mk.inj (Except.ok.inj heq)
  refine ⟨hshows p g hp hleast, fun pool => ?_⟩
  rw [hcount p g pool hleast]
  exact .nil _ _

protected theorem pure (a : α) : Uniform least id (pure a : Build α) :=
  of_ok id (fun _ => a) (fun _ _ => rfl) (fun _ _ h _ => h) (fun _ _ _ _ => rfl)

protected theorem throw (f : Fault) : Uniform least effect (throw f : Build α) :=
  fun _ _ _ _ => ⟨[], .error f, fun _ => rfl, fun _ _ h => nomatch h⟩

protected theorem get {f : Program → Build α} (hf : ∀ p limits, f (p.under limits) = f p)
    (h : ∀ p, Uniform least effect (f p)) : Uniform least effect (get >>= f) := by
  intro p g hp hleast
  obtain ⟨demands, outcome, hfollows, hrises⟩ := h p p g hp hleast
  refine ⟨demands, outcome, fun limits => ?_, hrises⟩
  rw [← hfollows limits, ← hf p limits]
  rfl

end Uniform

theorem typeNameWithin_under (fuel : Nat) (ref : TypeRef) (p : Program) (limits : Limits) :
    (p.under limits).typeNameWithin fuel ref = p.typeNameWithin fuel ref := by
  induction fuel generalizing ref with
  | zero => rfl
  | succ fuel ih =>
    have htype : (p.under limits).typeAt ref = p.typeAt ref := rfl
    simp only [typeNameWithin, htype, ih]

theorem settle_single {δ ε : Type} (unmet : δ → Bool) (fail : δ → ε) (d : δ) (o : Except ε β) :
    settle unmet fail [d] o = if unmet d then .error (fail d) else o := by
  unfold settle
  cases h : unmet d <;> simp [h]

theorem ending_push {pool : Program → Arena α} {put : Program → Arena α → Program} {item : α}
    (p : Program) : (push pool put item).ending p =
      if (pool p).hasRoom then
        if (pool p).hasIndex then .ok ((pool p).size, put p ((pool p).add item))
        else .error (.indexOverflow (pool p).pool)
      else .error (.limit (pool p).exhausted) := by
  unfold push
  rw [ending_bind]
  change ending (if (pool p).hasRoom then _ else _) p = _
  cases (pool p).hasRoom with
  | false => rfl
  | true =>
    cases (pool p).hasIndex with
    | false => rfl
    | true => rfl

theorem ending_view (read : Program → Except Fault α) (p : Program) :
    (view read).ending p = (read p).map (·, p) := by
  have hget : (get : Build Program).ending p = .ok (p, p) := rfl
  unfold view
  rw [ending_bind, hget]
  simp only [Except.bind]
  cases read p <;> rfl

/-- How a pool of a program is counted and put back with one more entry. -/
structure Counted (kind : Pool) (effect : Gauge → Gauge) (pool : Program → Arena α)
    (put : Program → Arena α → Program) (item : α) : Prop where
  notWords : kind ≠ .words := by nofun
  pool_under : ∀ p limits, pool (p.under limits) = (pool p).under kind (limits.of kind) := by
    exact fun _ _ => rfl
  put_under : ∀ p limits, put (p.under limits) (((pool p).add item).under kind (limits.of kind)) =
      (put p ((pool p).add item)).under limits := by
    exact fun _ _ => rfl
  shows : ∀ p g, p.Shows g → (pool p).size < 2 ^ 32 →
      (put p ((pool p).add item)).Shows (effect g) := by
    exact fun _ _ h _ => ⟨h.1, h.2, h.3, h.4, h.5, h.6⟩
  size : ∀ p g, p.count g kind = (pool p).size := by exact fun _ _ => rfl
  after : ∀ p g, (put p ((pool p).add item)).count (effect g) kind = (pool p).size + 1 := by
    exact fun _ _ => size_add _ _
  other : ∀ p g other, kind ≠ other →
      (put p ((pool p).add item)).count (effect g) other = p.count g other := by
    intro _ _ other hother
    cases other <;> trivial

namespace Uniform

variable {least : Nat} {effect : Gauge → Gauge}

theorem push {kind : Pool} {pool : Program → Arena α} {put : Program → Arena α → Program} {item : α}
    (h : Counted kind effect pool put item) : Uniform least effect (push pool put item) := by
  intro p g hp _
  by_cases hindex : (pool p).hasIndex = true
  · refine ⟨[⟨kind, (pool p).size + 1⟩], .ok ((pool p).size, put p ((pool p).add item)), ?_,
      ?_⟩
    · intro limits
      rw [ending_push, h.pool_under, settle_single]
      have hroom : ((pool p).under kind (limits.of kind)).hasRoom =
          Demand.isMet limits ⟨kind, (pool p).size + 1⟩ := (if_neg h.notWords).symm
      have hindex' : ((pool p).under kind (limits.of kind)).hasIndex = true := hindex
      rw [hroom, hindex', if_pos rfl]
      cases Demand.isMet limits ⟨kind, (pool p).size + 1⟩ with
      | false => rfl
      | true =>
        change Except.ok ((pool p).size, _) = Except.ok ((pool p).size, _)
        rw [← h.put_under]
        rfl
    · rintro a q heq
      obtain ⟨rfl, rfl⟩ := Prod.mk.inj (Except.ok.inj heq)
      refine ⟨h.shows p g hp (of_decide_eq_true hindex), fun other => ?_⟩
      rw [← h.after p g]
      refine rises_single kind ?_ (fun other => h.other p g other) other
      rw [h.size, h.after]
      exact Nat.le_succ _
  · refine ⟨[⟨kind, (pool p).size + 1⟩], .error (.indexOverflow kind), ?_,
      (fun _ _ hok => nomatch hok)⟩
    intro limits
    rw [ending_push, h.pool_under, settle_single]
    have hroom : ((pool p).under kind (limits.of kind)).hasRoom =
        Demand.isMet limits ⟨kind, (pool p).size + 1⟩ := (if_neg h.notWords).symm
    have hindex' : ¬((pool p).under kind (limits.of kind)).hasIndex = true := hindex
    rw [hroom, if_neg hindex']
    cases Demand.isMet limits ⟨kind, (pool p).size + 1⟩ <;> rfl

theorem freshId : Uniform least id freshId :=
  of_ok (fun p => { p with nextId := p.nextId + 1 }) (·.nextId) (fun _ _ => rfl)
    (fun _ _ h _ => ⟨h.1, h.2, h.3, h.4, h.5, h.6⟩) (fun _ _ pool _ => by cases pool <;> rfl)

theorem modifyGlobal (ref : GlobalRef) (change : Global → Global) :
    Uniform least id (modifyGlobal ref change) := by
  refine of_ok (fun p => { p with globals := p.globals.modify ref change }) (fun _ => ())
    (fun _ _ => rfl) (fun _ _ h _ => ⟨h.1, h.2, h.3, h.4, h.5, h.6⟩) ?_
  intro p g pool _
  cases pool with
  | globals => simp [Program.count, Arena.size, Arena.modify]
  | _ => rfl

theorem modifyProcedure (ref : ProcedureRef) {change : Procedure → Procedure}
    (hwords : ∀ a, (change a).words = a.words)
    (hinterface : ∀ a, (change a).interface = a.interface) :
    Uniform least id (modifyProcedure ref change) := by
  have hsame : ∀ p : Program,
      ({ p with procedures := p.procedures.modify ref change } : Program).tally Procedure.words =
        p.tally Procedure.words := fun p => p.tally_modify_same ref _ _ hwords
  refine of_ok (fun p => { p with procedures := p.procedures.modify ref change }) (fun _ => ())
    (fun _ _ => rfl) ?_ ?_
  · intro p g h _
    refine ⟨?_, h.2, ?_, ?_, ?_, h.6⟩
    · exact (size_modify _ _ _).trans h.1
    · rw [hsame p]
      exact h.3
    · rw [p.tally_modify_same ref _ _ fun a => by rw [hinterface a]]
      exact h.4
    · exact (size_modify _ _ _).symm ▸ h.5
  · intro p g pool _
    cases pool with
    | procedures => exact size_modify _ _ _
    | words => exact congrArg (· + g.labels) (hsame p)
    | _ => rfl

end Uniform

theorem ending_reserve (count : Int64) (p : Program) :
    (reserve count).ending p =
      match p.words.reserve count with
      | .ok words => .ok ((), { p with words })
      | .error e => .error (.limit e) := by
  unfold reserve
  rw [ending_bind]
  change ending (match p.words.reserve count with
    | .ok words => set { p with words }
    | .error e => throw (.limit e)) p = _
  cases p.words.reserve count <;> rfl

theorem follows_reserve (hp : p.Shows g) (n : Nat) :
    Follows (reserve (.ofNat n)) p [⟨.words, p.count g .words + n⟩]
      (.ok ((), { p with words := ⟨.ofNat (p.count g .words + n), p.words.limit⟩ })) := by
  intro limits
  have hused : p.words.used + Int64.ofNat n = Int64.ofNat (p.count g .words + n) := by
    rw [Int64.ofNat_add]
    exact congrArg (· + Int64.ofNat n) hp.words
  have hreserve : (p.under limits).words.reserve (.ofNat n) =
      if Int64.ofNat (p.count g .words + n) > limits.words then .error ⟨.words, limits.words⟩
      else .ok ⟨.ofNat (p.count g .words + n), limits.words⟩ := by
    rw [← hused]
    rfl
  have hmet : Demand.isMet limits ⟨.words, p.count g .words + n⟩ =
      decide (Int64.ofNat (p.count g .words + n) ≤ limits.words) := rfl
  rw [settle_single, hmet, ending_reserve, hreserve]
  by_cases hroom : Int64.ofNat (p.count g .words + n) ≤ limits.words
  · rw [if_neg (Int64.not_lt.mpr hroom), decide_eq_true hroom]
    rfl
  · rw [if_pos (Int64.not_le.mp hroom), decide_eq_false hroom]
    rfl

theorem follows_charge (hp : p.Shows g) (i : Instruction) :
    Follows (charge i) p [⟨.words, p.count g .words + i.wordCount⟩]
      (if i.isEncodable then
        .ok ((), { p with
          words := ⟨.ofNat (p.count g .words + i.wordCount), p.words.limit⟩ })
      else .error (.oversized i.opcode)) := by
  have hreserve := follows_reserve hp i.wordCount
  unfold charge
  cases i.isEncodable with
  | true =>
    have hpass : ∀ q, Follows (pure () : Build Unit) q [] (.ok ((), q)) := fun _ _ => rfl
    exact hreserve.bind (hpass _)
  | false =>
    have hfail : ∀ q, Follows (throw (.oversized i.opcode) : Build Unit) q []
        (.error (.oversized i.opcode)) := fun _ _ => rfl
    exact hreserve.bind (hfail _)

namespace Uniform

variable {least : Nat} {ref : ProcedureRef}

theorem charged (i : Instruction) {change : Procedure → Procedure}
    (hwords : ∀ a, (change a).words = a.words + i.wordCount)
    (hinterface : ∀ a, (change a).interface = a.interface) :
    Uniform (ref + 1) id (Build.charge i >>= fun _ => Build.modifyProcedure ref change) := by
  intro p g hp hleast
  have hcharge := follows_charge hp i
  cases hencodable : i.isEncodable with
  | false =>
    rw [hencodable] at hcharge
    exact ⟨_, _, hcharge.bind_error, (fun _ _ h => nomatch h)⟩
  | true =>
    rw [hencodable] at hcharge
    have hmodify : ∀ q, Follows (Build.modifyProcedure ref change) q []
        (.ok ((), { q with procedures := q.procedures.modify ref change })) := fun _ _ => rfl
    refine ⟨_, _, hcharge.bind (hmodify _), ?_⟩
    rintro a q heq
    obtain ⟨-, rfl⟩ := Prod.mk.inj (Except.ok.inj heq)
    obtain ⟨old, hold⟩ := get?_of_lt (show ref < p.procedures.size from hleast)
    have hcode := tally_modify hold change Procedure.words
    rw [hwords] at hcode
    have htotal : p.count g .words + i.wordCount =
        ({ p with procedures := p.procedures.modify ref change } : Program).tally
          Procedure.words + g.labels := by
      simp only [count]
      omega
    refine ⟨⟨?_, hp.2, congrArg Int64.ofNat htotal, ?_, ?_, hp.6⟩, ?_⟩
    · exact (size_modify _ _ _).trans hp.1
    · have hsame := p.tally_modify_same ref change (·.interface.size) fun a => by
        rw [hinterface a]
      exact hp.4.trans hsame.symm
    · exact (size_modify _ _ _).symm ▸ hp.5
    · rw [htotal]
      refine rises_single .words (Nat.le_trans (Nat.le_add_right _ _) (Nat.le_of_eq htotal)) ?_
      intro other hother
      cases other with
      | words => exact absurd rfl hother
      | procedures => exact size_modify _ _ _
      | _ => rfl

theorem checked {effect : Gauge → Gauge} {f : Procedure → Build α}
    (h : ∀ a, Uniform (ref + 1) effect (f a)) :
    Uniform least effect (procedure ref >>= f) := by
  intro p g hp _
  cases hfound : p.procedures.get? ref with
  | none =>
    refine ⟨[], .error .outOfRange, fun limits => ?_, (fun _ _ h => nomatch h)⟩
    have hlook : (p.under limits).procedureAt ref = .error .outOfRange :=
      procedureAt_error.mpr ⟨hfound, rfl⟩
    rw [ending_bind, procedure, ending_view, hlook]
    rfl
  | some a =>
    obtain ⟨demands, outcome, hfollows, hrises⟩ := h a p g hp (get?_lt hfound)
    refine ⟨demands, outcome, fun limits => ?_, hrises⟩
    have hlook : (p.under limits).procedureAt ref = .ok a := procedureAt_ok.mpr hfound
    rw [ending_bind, procedure, ending_view, hlook]
    exact hfollows limits

theorem reserve_label : Uniform least Gauge.label (reserve 2) := by
  intro p g hp _
  refine ⟨_, _, follows_reserve hp 2, ?_⟩
  rintro a q heq
  obtain ⟨-, rfl⟩ := Prod.mk.inj (Except.ok.inj heq)
  refine ⟨⟨hp.1, hp.2, rfl, hp.4, hp.5, hp.6⟩, ?_⟩
  refine rises_single .words (Nat.le_add_right (p.count g .words) 2) ?_
  intro other hother
  cases other <;> trivial

theorem touch (global : GlobalRef) :
    Uniform (ref + 1) id (do
      let program ← get
      if fits (program.interfacesUsed + 1) program.limits.interfaces then
        set { program with interfacesUsed := program.interfacesUsed + 1 }
        Build.modifyProcedure ref fun p => { p with interface := p.interface.push global }
      else throw (.limit ⟨.interfaces, program.limits.interfaces⟩) : Build Unit) := by
  intro p g hp hleast
  refine ⟨[⟨.interfaces, p.interfacesUsed + 1⟩], .ok ((), { p with
    procedures := p.procedures.modify ref fun p => { p with interface := p.interface.push global }
    interfacesUsed := p.interfacesUsed + 1 }), ?_, ?_⟩
  · intro limits
    rw [settle_single, ending_bind]
    change ending (if fits (p.interfacesUsed + 1) limits.interfaces then _ else _)
      (p.under limits) = if !fits (p.interfacesUsed + 1) limits.interfaces then _ else _
    cases fits (p.interfacesUsed + 1) limits.interfaces with
    | true => rfl
    | false => rfl
  · rintro a q heq
    obtain ⟨-, rfl⟩ := Prod.mk.inj (Except.ok.inj heq)
    obtain ⟨old, hold⟩ := get?_of_lt (show ref < p.procedures.size from hleast)
    have hentries := tally_modify hold
      (fun p => { p with interface := p.interface.push global }) (·.interface.size)
    have hcode := p.tally_modify_same ref (fun p => { p with interface := p.interface.push global })
      Procedure.words (fun _ => rfl)
    refine ⟨⟨?_, hp.2, ?_, ?_, ?_, hp.6⟩, ?_⟩
    · exact (size_modify _ _ _).trans hp.1
    · exact hp.3.trans (congrArg (fun n => Int64.ofNat (n + g.labels)) hcode.symm)
    · have hused := hp.4
      simp only [Array.size_push] at hentries
      change p.interfacesUsed + 1 = _
      rw [hused]
      change _ = ({ p with procedures := _ } : Program).tally _
      omega
    · exact (size_modify _ _ _).symm ▸ hp.5
    · refine rises_single .interfaces (Nat.le_succ _) ?_
      intro other hother
      cases other with
      | interfaces => exact absurd rfl hother
      | procedures => exact size_modify _ _ _
      | words => exact congrArg (· + g.labels) hcode
      | _ => rfl

end Uniform

end Build

end Shading
