import Shading.Elaborate.Items

/-!
Runs. A step of a build or of an elaboration that succeeds is taken apart into
the steps it consists of, and each primitive step is described by the state it
leaves. Of a failed step only the reason is told, and how it is reported: it
leaves no program behind.
-/

namespace Shading

variable {u : PUnit} {c : Prop} {stop : Stop} {pos : Position}

theorem toOption_eq_some {ε α : Type} {x : Except ε α} {a : α} :
    x.toOption = some a ↔ x = .ok a := by
  cases x <;> simp [Except.toOption]

namespace Build

variable {α β : Type} {p q : Program} {x : Build α}

@[simp] theorem bind_ok {f : α → Build β} {b : β} :
    (x >>= f) p = .ok b q ↔ ∃ a r, x p = .ok a r ∧ f a r = .ok b q := by
  change EStateM.bind x f p = _ ↔ _
  unfold EStateM.bind
  cases hx : x p with
  | ok a r =>
    constructor
    · intro h
      exact ⟨a, r, rfl, h⟩
    · rintro ⟨a', r', h, hf⟩
      cases h
      exact hf
  | error e r => simp

@[simp] theorem pure_ok {a b : α} : (pure a : Build α) p = .ok b q ↔ a = b ∧ p = q := by
  change EStateM.Result.ok a p = _ ↔ _
  simp

@[simp] theorem throw_ok {e : Fault} {b : α} : (throw e : Build α) p = .ok b q ↔ False := by
  change EStateM.Result.error e p = _ ↔ _
  simp

@[simp] theorem map_ok {f : α → β} {b : β} :
    (f <$> x) p = .ok b q ↔ ∃ a, x p = .ok a q ∧ f a = b := by
  change EStateM.map f x p = _ ↔ _
  unfold EStateM.map
  cases hx : x p with
  | ok a r =>
    constructor
    · intro h
      cases h
      exact ⟨a, rfl, rfl⟩
    · rintro ⟨a', ha, rfl⟩
      cases ha
      rfl
  | error e r => simp

@[simp] theorem discard_ok : discard x p = .ok u q ↔ ∃ a, x p = .ok a q := by
  change (Function.const α PUnit.unit <$> x) p = _ ↔ _
  simp

@[simp] theorem get_ok {a : Program} : (get : Build Program) p = .ok a q ↔ p = a ∧ p = q := by
  change EStateM.Result.ok p p = _ ↔ _
  simp

@[simp] theorem set_ok {r : Program} : (set r : Build PUnit) p = .ok u q ↔ r = q := by
  change EStateM.Result.ok PUnit.unit r = _ ↔ _
  simp

@[simp] theorem modify_ok {f : Program → Program} :
    (modify f : Build PUnit) p = .ok u q ↔ f p = q := by
  change EStateM.Result.ok PUnit.unit (f p) = _ ↔ _
  simp

@[simp] theorem ite_ok [Decidable c] {x y : Build α} {a : α} :
    (if c then x else y) p = .ok a q ↔ (c ∧ x p = .ok a q) ∨ (¬c ∧ y p = .ok a q) := by
  by_cases h : c <;> simp [h]

@[simp] theorem view_ok {read : Program → Except Fault α} {a : α} :
    view read p = .ok a q ↔ read p = .ok a ∧ p = q := by
  unfold view
  simp only [bind_ok, get_ok]
  constructor
  · rintro ⟨r, r', ⟨rfl, rfl⟩, h⟩
    cases hr : read p with
    | ok b =>
      rw [hr] at h
      obtain ⟨rfl, rfl⟩ := pure_ok.mp h
      exact ⟨rfl, rfl⟩
    | error e =>
      rw [hr] at h
      exact (throw_ok.mp h).elim
  · rintro ⟨hr, rfl⟩
    refine ⟨p, p, ⟨rfl, rfl⟩, ?_⟩
    rw [hr]
    exact pure_ok.mpr ⟨rfl, rfl⟩

theorem push_ok {pool : Program → Arena α} {put : Program → Arena α → Program} {item : α}
    {index : Nat} :
    push pool put item p = .ok index q ↔
      ((pool p).hasRoom = true ∧ (pool p).hasIndex = true) ∧ (pool p).size = index ∧
        put p ((pool p).add item) = q := by
  unfold push
  simp only [bind_ok, get_ok]
  constructor
  · rintro ⟨r, r', ⟨rfl, rfl⟩, h⟩
    simp only [ite_ok, bind_ok, set_ok, pure_ok, throw_ok, and_false, or_false] at h
    obtain ⟨hroom, hindex, _, _, rfl, rfl, rfl⟩ := h
    exact ⟨⟨hroom, hindex⟩, rfl, rfl⟩
  · rintro ⟨⟨hroom, hindex⟩, rfl, rfl⟩
    refine ⟨p, p, ⟨rfl, rfl⟩, ?_⟩
    simp [hroom, hindex]

@[simp] theorem freshId_ok {id : UInt32} :
    freshId p = .ok id q ↔ p.nextId = id ∧ { p with nextId := p.nextId + 1 } = q := by
  unfold freshId
  simp only [bind_ok, get_ok, set_ok, pure_ok]
  constructor
  · rintro ⟨r, r', ⟨rfl, rfl⟩, _, _, rfl, rfl, rfl⟩
    exact ⟨rfl, rfl⟩
  · rintro ⟨rfl, rfl⟩
    exact ⟨p, p, ⟨rfl, rfl⟩, ⟨⟩, _, rfl, rfl, rfl⟩

theorem discard_eq (x : Build α) : discard x = (x >>= fun _ => pure PUnit.unit) := by
  funext p
  change EStateM.map _ x p = EStateM.bind x _ p
  unfold EStateM.map EStateM.bind
  cases x p with
  | ok a q => rfl
  | error e q => rfl

def ending (x : Build α) (p : Program) : Except Fault (α × Program) :=
  match x p with
  | .ok a q => .ok (a, q)
  | .error f _ => .error f

theorem ending_bind (x : Build α) (f : α → Build β) (p : Program) :
    (x >>= f).ending p = (x.ending p).bind fun r => (f r.1).ending r.2 := by
  unfold ending
  change (match EStateM.bind x f p with | .ok a q => _ | .error e _ => _) = _
  unfold EStateM.bind
  cases x p with
  | ok a q => rfl
  | error e q => rfl

theorem ending_eq_ok {a : α} : x.ending p = .ok (a, q) ↔ x p = .ok a q := by
  unfold ending
  cases x p with
  | ok b r => simp
  | error e r => simp

end Build

namespace Scopes

variable {s t : Scopes}

namespace Change

theorem push_run (s : Scopes) : push s =
    if fits (s.depth + 1) s.maxDepth then .ok () { s with marks := s.locals.size :: s.marks }
    else .error (.limit ⟨.scopes, s.maxDepth⟩) s := by
  change (if _ then _ else _ : Change Unit) s = _
  split <;> rfl

theorem pop_nil (h : s.marks = []) : pop s = .error .underflow s := by
  cases s
  cases h
  rfl

theorem pop_cons {mark : Nat} {marks : List Nat} (h : s.marks = mark :: marks) :
    pop s = if mark ≤ s.locals.size then
      .ok () ⟨{ s.locals with items := s.locals.items.take mark }, marks, s.maxDepth⟩
    else .error (.shrunk s.locals.size mark) s := by
  obtain ⟨locals, _, maxDepth⟩ := s
  cases h
  have htruncate : locals.truncate? mark = if mark ≤ locals.size then
      some { locals with items := locals.items.take mark } else none := by
    simp [Arena.truncate?]
  have hget (f : Scopes → Change Unit) (s : Scopes) : (get >>= f) s = f s s := rfl
  rw [pop, hget]
  simp only [htruncate]
  by_cases hmark : mark ≤ locals.size
  · rw [if_pos hmark, if_pos hmark]
    rfl
  · rw [if_neg hmark, if_neg hmark]
    rfl

theorem add_run (s : Scopes) (place : Local) : add place s =
    if s.locals.hasRoom then
      if s.locals.hasIndex then .ok () { s with locals := s.locals.add place }
      else .error (.indexOverflow s.locals.pool) s
    else .error (.limit s.locals.exhausted) s := by
  change (if _ then (if _ then _ else _ : Change Unit) else _ : Change Unit) s = _
  split
  · split <;> rfl
  · rfl

end Change

theorem push_eq (s : Scopes) : s.push =
    if fits (s.depth + 1) s.maxDepth then .ok { s with marks := s.locals.size :: s.marks }
    else .error (.limit ⟨.scopes, s.maxDepth⟩) := by
  rw [push, Change.after, Change.push_run]
  cases fits (s.depth + 1) s.maxDepth <;> rfl

theorem pop_nil (h : s.marks = []) : s.pop = .error .underflow := by
  rw [pop, Change.after, Change.pop_nil h]

theorem pop_cons {mark : Nat} {marks : List Nat} (h : s.marks = mark :: marks) :
    s.pop = if mark ≤ s.locals.size then
      .ok ⟨{ s.locals with items := s.locals.items.take mark }, marks, s.maxDepth⟩
    else .error (.shrunk s.locals.size mark) := by
  rw [pop, Change.after, Change.pop_cons h]
  by_cases hmark : mark ≤ s.locals.size
  · rw [if_pos hmark, if_pos hmark]
  · rw [if_neg hmark, if_neg hmark]

theorem add_eq (s : Scopes) (place : Local) : s.add place =
    if s.locals.hasRoom then
      if s.locals.hasIndex then .ok { s with locals := s.locals.add place }
      else .error (.indexOverflow s.locals.pool)
    else .error (.limit s.locals.exhausted) := by
  rw [add, Change.after, Change.add_run]
  cases s.locals.hasRoom <;> cases s.locals.hasIndex <;> rfl

theorem pop_ok (h : s.pop = .ok t) : ∃ mark, s.marks = mark :: t.marks ∧ t.locals.size = mark ∧
    t.locals.toList = s.locals.toList.take mark := by
  cases hmarks : s.marks with
  | nil =>
    rw [pop_nil hmarks] at h
    cases h
  | cons mark marks =>
    rw [pop_cons hmarks] at h
    split at h
    · next hmark =>
        cases h
        refine ⟨mark, rfl, ?_, by simp [Arena.toList]⟩
        simp only [Arena.size] at hmark ⊢
        simp [hmark]
    · cases h

end Scopes

def Stop.ofFault (pos : Position) : Fault → Stop
  | .limit e => .refused ⟨pos, .limit e⟩
  | .indexOverflow pool => .refused ⟨pos, .indexOverflow pool⟩
  | f => .fault f

namespace Elaborate

variable {α β : Type} {s t : Elaboration} {x : Elaborate α} {f : α → Elaborate β} {a : α}

@[simp] theorem bind_ok {b : β} :
    (x >>= f) s = .ok (b, t) ↔ ∃ a r, x s = .ok (a, r) ∧ f a r = .ok (b, t) := by
  change Except.bind (x s) (fun ar => f ar.1 ar.2) = _ ↔ _
  cases hx : x s with
  | ok ar =>
    obtain ⟨a, r⟩ := ar
    constructor
    · intro h
      exact ⟨a, r, rfl, h⟩
    · rintro ⟨a', r', h, hf⟩
      cases h
      exact hf
  | error e => simp [Except.bind]

theorem bind_of_ok (h : x s = .ok (a, t)) :
    (x >>= f) s = f a t := by
  change Except.bind (x s) _ = _
  rw [h]
  rfl

theorem bind_of_error (h : x s = .error stop) :
    (x >>= f) s = .error stop := by
  change Except.bind (x s) _ = _
  rw [h]
  rfl

@[simp] theorem pure_ok {a b : α} : (pure a : Elaborate α) s = .ok (b, t) ↔ a = b ∧ s = t := by
  change Except.ok (a, s) = _ ↔ _
  simp

@[simp] theorem throw_ok {e : Stop} {b : α} : (throw e : Elaborate α) s = .ok (b, t) ↔ False := by
  change Except.error e = _ ↔ _
  simp

@[simp] theorem discard_ok :
    discard x s = .ok (u, t) ↔ ∃ a, x s = .ok (a, t) := by
  change Except.bind (x s) (fun ar => Except.ok (PUnit.unit, ar.2)) = _ ↔ _
  cases hx : x s with
  | ok ar =>
    obtain ⟨a, r⟩ := ar
    constructor
    · intro h
      cases h
      exact ⟨a, rfl⟩
    · rintro ⟨a', h⟩
      cases h
      rfl
  | error e => simp [Except.bind]

theorem discard_eq (x : Elaborate α) : discard x = (x >>= fun _ => pure PUnit.unit) := by
  funext s
  change Except.bind _ _ = Except.bind _ _
  cases x s <;> rfl

theorem discard_of_error (h : x s = .error stop) : discard x s = .error stop := by
  change Except.bind (x s) (fun ar => Except.ok (PUnit.unit, ar.2)) = _
  rw [h]
  rfl

@[simp] theorem get_ok {a : Elaboration} :
    (get : Elaborate Elaboration) s = .ok (a, t) ↔ s = a ∧ s = t := by
  change Except.ok (s, s) = _ ↔ _
  simp

@[simp] theorem set_ok {r : Elaboration} : (set r : Elaborate PUnit) s = .ok (u, t) ↔ r = t := by
  change Except.ok (PUnit.unit, r) = _ ↔ _
  simp

@[simp] theorem modify_ok {f : Elaboration → Elaboration} :
    (modify f : Elaborate PUnit) s = .ok (u, t) ↔ f s = t := by
  change Except.ok (PUnit.unit, f s) = _ ↔ _
  simp

@[simp] theorem ite_ok [Decidable c] {x y : Elaborate α} :
    (if c then x else y) s = .ok (a, t) ↔
      (c ∧ x s = .ok (a, t)) ∨ (¬c ∧ y s = .ok (a, t)) := by
  by_cases h : c <;> simp [h]

@[simp] theorem refuse_ok {cause : Cause} :
    refuse pos cause s = .ok (a, t) ↔ False := throw_ok

@[simp] theorem part_ok {x : Part α} : part x s = .ok (a, t) ↔ x = .ok a ∧ s = t := by
  cases x with
  | ok b => simp [part]
  | error why => simp [part]

@[simp] theorem view_ok {read : Program → Except Fault α} :
    view read s = .ok (a, t) ↔ read s.program = .ok a ∧ s = t := by
  unfold view
  simp only [bind_ok, get_ok]
  constructor
  · rintro ⟨r, r', ⟨rfl, rfl⟩, h⟩
    cases hr : read s.program with
    | ok b =>
      rw [hr] at h
      obtain ⟨rfl, rfl⟩ := pure_ok.mp h
      exact ⟨rfl, rfl⟩
    | error e =>
      rw [hr] at h
      exact (throw_ok.mp h).elim
  · rintro ⟨hr, rfl⟩
    refine ⟨s, s, ⟨rfl, rfl⟩, ?_⟩
    rw [hr]
    exact pure_ok.mpr ⟨rfl, rfl⟩

@[simp] theorem build_ok {operation : Build α} :
    build pos operation s = .ok (a, t) ↔
      ∃ q, operation s.program = .ok a q ∧ { s with program := q } = t := by
  obtain ⟨program, scopes, stage, builtin, recordMembers, vectorElements⟩ := s
  unfold build
  simp only [EStateM.run]
  cases hrun : operation program with
  | ok b q =>
    constructor
    · intro h
      cases h
      exact ⟨q, rfl, rfl⟩
    · rintro ⟨q', h, rfl⟩
      cases h
      rfl
  | error f q => cases f <;> simp

@[simp] theorem scope_ok {operation : Scopes → Except ScopeError Scopes} {u : Unit} :
    scope pos operation s = .ok (u, t) ↔
      ∃ scopes, operation s.scopes = .ok scopes ∧ { s with scopes } = t := by
  unfold scope
  simp only [bind_ok, get_ok]
  constructor
  · rintro ⟨r, r', ⟨rfl, rfl⟩, h⟩
    cases hrun : operation s.scopes with
    | ok scopes =>
      rw [hrun] at h
      exact ⟨scopes, rfl, set_ok.mp h⟩
    | error e =>
      rw [hrun] at h
      cases e with
      | limit e => exact (refuse_ok.mp h).elim
      | indexOverflow pool => exact (refuse_ok.mp h).elim
      | underflow => exact (throw_ok.mp h).elim
      | shrunk size mark => exact (throw_ok.mp h).elim
  · rintro ⟨scopes, hrun, rfl⟩
    refine ⟨s, s, ⟨rfl, rfl⟩, ?_⟩
    rw [hrun]
    exact set_ok.mpr rfl

def reported (pos : Position) (s : Elaboration) :
    Except Fault (α × Program) → Except Stop (α × Elaboration)
  | .ok (a, q) => .ok (a, { s with program := q })
  | .error f => .error (.ofFault pos f)

theorem build_eq (pos : Position) (operation : Build α) (s : Elaboration) :
    build pos operation s = reported pos s (operation.ending s.program) := by
  obtain ⟨program, scopes, stage, builtin, recordMembers, vectorElements⟩ := s
  unfold build Build.ending
  simp only [EStateM.run]
  cases operation program with
  | ok a q => rfl
  | error f q => cases f <;> rfl

def rescoped (pos : Position) (s : Elaboration) :
    Except ScopeError Scopes → Except Stop (Unit × Elaboration)
  | .ok scopes => .ok ((), { s with scopes })
  | .error (.limit e) => .error (.refused ⟨pos, .limit e⟩)
  | .error (.indexOverflow pool) => .error (.refused ⟨pos, .indexOverflow pool⟩)
  | .error _ => .error (.fault .outOfRange)

theorem scope_eq (pos : Position) (operation : Scopes → Except ScopeError Scopes)
    (s : Elaboration) : scope pos operation s = rescoped pos s (operation s.scopes) := by
  change (match operation s.scopes with
    | .ok scopes => set { s with scopes }
    | .error (.limit e) => refuse pos (.limit e)
    | .error (.indexOverflow pool) => refuse pos (.indexOverflow pool)
    | .error _ => throw (.fault .outOfRange) : Elaborate Unit) s = _
  cases operation s.scopes with
  | ok scopes => rfl
  | error e => cases e <;> rfl

end Elaborate

end Shading
