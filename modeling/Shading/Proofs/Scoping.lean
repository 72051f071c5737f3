import Shading.Proofs.Compilation
import Shading.Proofs.Safety.Diagnostics

/-!
Nested frames. The visible variables are kept in one list, and an open scope is
the length the list had when it was opened. Operations on that list answer as
operations on a stack of frames do, where every scope has a list of its own, as
long as there are indices for all variables. Elaboration closes what it opens:
between the items of a source no scope is open, and what is visible are the
globals.
-/

namespace Shading

open List

variable {items : List Item}

/-- An operation on the visible variables. -/
inductive ScopeOperation where
  | push
  | pop
  | add (place : Local)
  | lookup (name : Bytes)

/-- What an operation has done that leaves things as they were if it fails. -/
def ScopeOperation.kept {σ : Type} (s : σ) :
    Except ScopeError σ → EStateM.Result ScopeError σ (Option Local)
  | .ok t => .ok none t
  | .error e => .error e s

namespace Scopes.Change

/-- An operation, as the scopes perform it. -/
def perform : ScopeOperation → Change (Option Local)
  | .push => do
    push
    pure none
  | .pop => do
    pop
    pure none
  | .add place => do
    add place
    pure none
  | .lookup name => do pure ((← get).lookup name)

variable {s t : Scopes} {e : ScopeError}

theorem push_failed (h : push s = .error e t) : t = s := by
  rw [push_run] at h
  split at h <;> cases h
  rfl

theorem pop_failed (h : pop s = .error e t) : t = s := by
  cases hmarks : s.marks with
  | nil =>
    rw [pop_nil hmarks] at h
    cases h
    rfl
  | cons mark marks =>
    rw [pop_cons hmarks] at h
    split at h <;> cases h
    rfl

theorem add_failed {place : Local} (h : add place s = .error e t) : t = s := by
  rw [add_run] at h
  split at h
  · split at h <;> cases h
    rfl
  · cases h
    rfl

theorem then_none {change : Change Unit} (h : ∀ {e t}, change s = .error e t → t = s) :
    (change >>= fun _ => pure none : Change (Option Local)) s =
      ScopeOperation.kept s (change.after s) := by
  change EStateM.bind change _ s = _
  unfold EStateM.bind after
  cases hrun : change s with
  | ok u t => rfl
  | error e t =>
    obtain rfl := h hrun
    rfl

theorem perform_eq (s : Scopes) (operation : ScopeOperation) : perform operation s =
    match operation with
    | .push => ScopeOperation.kept s s.push
    | .pop => ScopeOperation.kept s s.pop
    | .add place => ScopeOperation.kept s (s.add place)
    | .lookup name => .ok (s.lookup name) s := by
  cases operation with
  | push => exact then_none push_failed
  | pop => exact then_none pop_failed
  | add place => exact then_none add_failed
  | lookup name => rfl

theorem perform_failed {operation : ScopeOperation} (h : perform operation s = .error e t) :
    t = s := by
  have hkept : ∀ {r : Except ScopeError Scopes},
      ScopeOperation.kept s r = EStateM.Result.error e t → t = s := by
    rintro (e | t) ⟨⟩
    rfl
  rw [perform_eq] at h
  cases operation with
  | lookup name => cases h
  | _ => exact hkept h

end Scopes.Change

/-- Bindings in frames: one frame for every open scope, the innermost first, and a base frame below
them. The latest binding of a frame stands first. -/
structure Frames where
  opened : List (List Local)
  base : List Local
  limit : Int64
  maxDepth : Int64

namespace Frames

/-- An empty base frame, under some limits. -/
def ofLimits (limits : Limits) : Frames := ⟨[], [], limits.locals, limits.scopeDepth⟩

def all (f : Frames) : List (List Local) := f.opened ++ [f.base]

def live (f : Frames) : Nat := f.all.flatten.length

def push (f : Frames) : Except ScopeError Frames :=
  if f.maxDepth.toInt ≤ f.opened.length then .error (.limit ⟨.scopes, f.maxDepth⟩)
  else .ok { f with opened := [] :: f.opened }

def pop (f : Frames) : Except ScopeError Frames :=
  match f.opened with
  | [] => .error .underflow
  | _ :: outer => .ok { f with opened := outer }

/-- A binding is refused exactly if there are as many as the limit allows. -/
def add (f : Frames) (place : Local) : Except ScopeError Frames :=
  if f.limit.toInt ≤ f.live then .error (.limit ⟨.locals, f.limit⟩)
  else match f.opened with
    | [] => .ok { f with base := place :: f.base }
    | frame :: outer => .ok { f with opened := (place :: frame) :: outer }

def lookup (f : Frames) (name : Bytes) : Option Local :=
  f.all.findSome? fun frame => frame.find? fun place => place.name = name

/-- A binding is refused also if all indices are taken, though the limit allows for more. -/
def addIndexed (f : Frames) (place : Local) : Except ScopeError Frames :=
  if f.live < f.limit.toInt ∧ UInt32.size ≤ f.live then .error (.indexOverflow .locals)
  else f.add place

/-- An operation on frames, with a way to add a binding. -/
def perform (add : Frames → Local → Except ScopeError Frames) (operation : ScopeOperation)
    (f : Frames) : EStateM.Result ScopeError Frames (Option Local) :=
  match operation with
  | .push => ScopeOperation.kept f f.push
  | .pop => ScopeOperation.kept f f.pop
  | .add place => ScopeOperation.kept f (add f place)
  | .lookup name => .ok (f.lookup name) f

/-- How many bindings there are below every frame. -/
def heights (base : List Local) : List (List Local) → List Nat
  | [] => []
  | _ :: outer => (outer ++ [base]).flatten.length :: heights base outer

/-- Scopes that stand for the frames: all bindings in one list, and for every frame how many there
are below it. -/
structure Holds (f : Frames) (s : Scopes) : Prop where
  locals : s.locals.toList.reverse = f.all.flatten
  marks : s.marks = heights f.base f.opened
  pool : s.locals.pool = .locals
  limit : s.locals.limit = f.limit
  maxDepth : s.maxDepth = f.maxDepth

inductive Alike : Except ScopeError Scopes → Except ScopeError Frames → Prop where
  | failed (e : ScopeError) : Alike (.error e) (.error e)
  | done {s : Scopes} {f : Frames} (h : f.Holds s) : Alike (.ok s) (.ok f)

end Frames

namespace Frames

variable {f : Frames} {s : Scopes}

theorem holds_ofLimits (limits : Limits) : (ofLimits limits).Holds (.ofLimits limits) :=
  ⟨rfl, rfl, rfl, rfl, rfl⟩

theorem Holds.size (h : f.Holds s) : s.locals.size = f.live := by
  rw [← Arena.length_toList, ← length_reverse, h.locals, live]

theorem length_heights (base : List Local) (opened : List (List Local)) :
    (heights base opened).length = opened.length := by
  induction opened with
  | nil => rfl
  | cons frame outer ih => rw [heights, length_cons, ih, length_cons]

theorem push_alike (h : f.Holds s) : Alike s.push f.push := by
  have hdepth : s.depth = f.opened.length := by rw [Scopes.depth, h.marks, length_heights]
  rw [Scopes.push_eq, push, hdepth, h.maxDepth]
  by_cases hfull : f.maxDepth.toInt ≤ f.opened.length
  · have hfits : fits (f.opened.length + 1) f.maxDepth = false := decide_eq_false (by omega)
    rw [if_pos hfull, if_neg (by simp [hfits])]
    exact .failed _
  · have hfits : fits (f.opened.length + 1) f.maxDepth = true := decide_eq_true (by omega)
    rw [if_neg hfull, if_pos hfits]
    exact .done ⟨h.locals, by rw [h.size, h.marks]; rfl, h.pool, h.limit, rfl⟩

theorem pop_alike (h : f.Holds s) : Alike s.pop f.pop := by
  obtain ⟨opened, base, limit, maxDepth⟩ := f
  cases opened with
  | nil =>
    rw [Scopes.pop_nil h.marks]
    exact .failed _
  | cons frame outer =>
    -- the variables are those below the frame, and then those of the frame
    have hflat : s.locals.toList = (outer ++ [base]).flatten.reverse ++ frame.reverse := by
      rw [← reverse_reverse s.locals.toList, h.locals, ← reverse_append]
      rfl
    have hsize := congrArg length hflat
    rw [Arena.length_toList, length_append, length_reverse] at hsize
    have hmarks : s.marks = (outer ++ [base]).flatten.length :: heights base outer := h.marks
    rw [Scopes.pop_cons hmarks, if_pos (by omega)]
    refine .done ⟨?_, rfl, h.pool, h.limit, h.maxDepth⟩
    have htake : (s.locals.items.take (outer ++ [base]).flatten.length).toList =
        s.locals.toList.take (outer ++ [base]).flatten.length := by
      simp [Arena.toList]
    rw [Arena.toList, htake, hflat, take_left' length_reverse, reverse_reverse]
    rfl

theorem add_alike (h : f.Holds s) (place : Local) : Alike (s.add place) (f.addIndexed place) := by
  have hlocals : (s.locals.add place).toList.reverse = place :: f.all.flatten := by
    rw [← h.locals]
    simp [Arena.add, Arena.toList]
  rw [Scopes.add_eq, addIndexed, add,
    show s.locals.hasRoom = fits (f.live + 1) f.limit by rw [Arena.hasRoom, h.size, h.limit],
    show s.locals.hasIndex = decide (f.live < UInt32.size) by rw [Arena.hasIndex, h.size],
    show s.locals.exhausted = ⟨.locals, f.limit⟩ by rw [Arena.exhausted, h.pool, h.limit], h.pool]
  by_cases hfull : f.limit.toInt ≤ f.live
  · have hfits : fits (f.live + 1) f.limit = false := decide_eq_false (by omega)
    have hfew : ¬(f.live < f.limit.toInt ∧ UInt32.size ≤ f.live) := by omega
    rw [hfits, if_neg hfew, if_pos hfull]
    exact .failed _
  have hfits : fits (f.live + 1) f.limit = true := decide_eq_true (by omega)
  rw [hfits]
  by_cases hindex : UInt32.size ≤ f.live
  · have hfew : f.live < f.limit.toInt ∧ UInt32.size ≤ f.live := ⟨by omega, hindex⟩
    rw [decide_eq_false (by omega), if_pos hfew]
    exact .failed _
  have hfew : ¬(f.live < f.limit.toInt ∧ UInt32.size ≤ f.live) := fun h => hindex h.2
  rw [decide_eq_true (by omega), if_neg hfew, if_neg hfull]
  obtain ⟨opened, base, limit, maxDepth⟩ := f
  cases opened with
  | nil => exact .done ⟨hlocals, h.marks, h.pool, h.limit, h.maxDepth⟩
  | cons frame outer => exact .done ⟨hlocals, h.marks, h.pool, h.limit, h.maxDepth⟩

theorem lookup_eq (h : f.Holds s) (name : Bytes) : s.lookup name = f.lookup name := by
  rw [Scopes.lookup, h.locals, lookup, find?_flatten]

theorem limit_perform (f : Frames) (operation : ScopeOperation) :
    match perform add operation f with
    | .ok _ g | .error _ g => g.limit = f.limit := by
  have hkept : ∀ {r : Except ScopeError Frames}, (∀ {g}, r = .ok g → g.limit = f.limit) →
      match ScopeOperation.kept f r with
      | .ok _ g | .error _ g => g.limit = f.limit := by
    rintro (e | g) h
    · rfl
    · exact h rfl
  cases operation with
  | push =>
    refine hkept fun h => ?_
    rw [push] at h
    split at h <;> cases h
    rfl
  | pop =>
    refine hkept fun h => ?_
    rw [pop] at h
    split at h <;> cases h
    rfl
  | add place =>
    refine hkept fun h => ?_
    rw [add] at h
    split at h
    · cases h
    split at h <;> cases h <;> rfl
  | lookup name => rfl

end Frames

namespace ScopeOperation

/-- The answers to operations, one after the other. Each one goes on from what the one before has
left, whether that failed or not. -/
def answers {σ : Type} (perform : ScopeOperation → EStateM ScopeError σ (Option Local)) (s : σ) :
    List ScopeOperation → List (Except ScopeError (Option Local))
  | [] => []
  | operation :: rest =>
    match perform operation s with
    | .ok found t => .ok found :: answers perform t rest
    | .error e t => .error e :: answers perform t rest

variable {f : Frames} {s : Scopes}

theorem answers_eq (h : f.Holds s) (operations : List ScopeOperation) :
    answers Scopes.Change.perform s operations =
      answers (Frames.perform Frames.addIndexed) f operations := by
  induction operations generalizing f s with
  | nil => rfl
  | cons operation rest ih =>
    have halike : ∀ {x : Except ScopeError Scopes} {y : Except ScopeError Frames},
        Frames.Alike x y → Scopes.Change.perform operation s = kept s x →
        Frames.perform Frames.addIndexed operation f = kept f y →
        answers Scopes.Change.perform s (operation :: rest) =
          answers (Frames.perform Frames.addIndexed) f (operation :: rest) := by
      intro x y hxy hs hf
      simp only [answers, hs, hf]
      cases hxy with
      | failed e => exact congrArg _ (ih h)
      | done ht => exact congrArg _ (ih ht)
    have hrun := Scopes.Change.perform_eq s operation
    cases operation with
    | push => exact halike (Frames.push_alike h) hrun rfl
    | pop => exact halike (Frames.pop_alike h) hrun rfl
    | add place => exact halike (Frames.add_alike h place) hrun rfl
    | lookup name =>
      simp only [answers, hrun, Frames.perform]
      rw [Frames.lookup_eq h, ih h]

theorem answers_not_shrunk (f : Frames) (operations : List ScopeOperation) (size mark : Nat) :
    .error (.shrunk size mark) ∉ answers (Frames.perform Frames.addIndexed) f operations := by
  induction operations generalizing f with
  | nil => exact not_mem_nil
  | cons operation rest ih =>
    have hperform : ∀ t, Frames.perform Frames.addIndexed operation f ≠
        .error (.shrunk size mark) t := by
      intro t
      cases operation with
      | push =>
        rw [Frames.perform, Frames.push]
        split <;> nofun
      | pop =>
        rw [Frames.perform, Frames.pop]
        split <;> nofun
      | add place =>
        rw [Frames.perform, Frames.addIndexed, Frames.add]
        split
        · nofun
        split
        · nofun
        split <;> nofun
      | lookup name => nofun
    simp only [answers]
    split
    · exact not_mem_cons_of_ne_of_not_mem nofun (ih _)
    · next e t he =>
      refine not_mem_cons_of_ne_of_not_mem (fun hshrunk => hperform t ?_) (ih _)
      rw [he, Except.error.inj hshrunk]

theorem answers_indexed (hfew : f.limit.toInt ≤ UInt32.size) (operations : List ScopeOperation) :
    answers (Frames.perform Frames.addIndexed) f operations =
      answers (Frames.perform Frames.add) f operations := by
  induction operations generalizing f with
  | nil => rfl
  | cons operation rest ih =>
    have hperform : Frames.perform Frames.addIndexed operation f =
        Frames.perform Frames.add operation f := by
      cases operation with
      | add place => rw [Frames.perform, Frames.addIndexed, if_neg (by omega), Frames.perform]
      | _ => rfl
    simp only [answers, hperform]
    have hlimit := Frames.limit_perform f operation
    split <;> next hrun =>
      rw [hrun] at hlimit
      rw [ih (hlimit.symm ▸ hfew)]

end ScopeOperation

/-- The name of the global variable that an item declares. -/
def Item.globalName? : Item → Option Bytes
  | .global _ _ (.ok name) _ _ => some name.text
  | _ => none

theorem Program.DeclaredAll.names {p : Program} {before globals : List Global}
    {procedures : List Procedure} (h : p.DeclaredAll before items globals procedures) :
    globals.map (·.name) = items.filterMap Item.globalName? := by
  induction h with
  | done => rfl
  | @next before globals globals' item rest procedures procedures' hitem _ ih =>
    have hhere : globals.map (·.name) = item.globalName?.toList := by
      cases item with
      | global pos direction name type placement =>
        obtain ⟨-, g, found, rfl, rfl, hname, -⟩ := hitem
        exact congrArg (fun name => [name]) hname
      | procedure pos name result body close => rw [hitem.1]; rfl
      | _ => rw [hitem.1]; rfl
    rw [map_append, ih, hhere]
    cases hname : item.globalName? with
    | none => rw [filterMap_cons_none hname]; rfl
    | some name => rw [filterMap_cons_some hname]; rfl

theorem Elaborate.items_marks {source : Bytes} {limits : Limits} {start : Program} {t : Elaboration}
    (hstart : Program.new limits = .ok start)
    (hsource : items <+: (SourceTree.ofSource source).items)
    (h : items.forM item (.ofProgram start) = .ok ((), t)) : t.scopes.marks = [] := by
  rw [Program.new_eq] at hstart
  split at hstart
  · cases hstart
    have hmarked := (SourceTree.marked_ofSource source).1
    have hsafe := Safe.items (Program.closed_ofProgram (.ofSource source) limits.withDefaults)
      fun x hx => hmarked x (hsource.subset hx)
    unfold Safe Ends at hsafe
    rw [h] at hsafe
    exact hsafe.1.marks
  · cases hstart

namespace Scopes

open ScopeOperation

/-- The visible variables behave as nested frames do. Whatever the operations, they answer alike, as
long as there is an index for every variable that the limit allows; beyond that they answer as
frames that refuse a variable without an index. Closing a scope never finds too few variables, and
an operation that fails changes nothing. After any items of a source that are elaborated, no scope
is open, and what is visible are the globals that the items declare, in their order. -/
theorem refines_frames (limits : Limits) :
    (∀ operations,
      (limits.locals.toInt ≤ UInt32.size →
        answers Change.perform (ofLimits limits) operations =
          answers (Frames.perform Frames.add) (.ofLimits limits) operations) ∧
      answers Change.perform (ofLimits limits) operations =
        answers (Frames.perform Frames.addIndexed) (.ofLimits limits) operations ∧
      ∀ size mark, .error (.shrunk size mark) ∉
        answers Change.perform (ofLimits limits) operations) ∧
    (∀ operation s e t, Change.perform operation s = .error e t → t = s) ∧
    ∀ source start items t, Program.new limits = .ok start →
      items <+: (SourceTree.ofSource source).items →
      items.forM Elaborate.item (.ofProgram start) = .ok ((), t) →
      t.scopes.marks = [] ∧ t.scopes.locals.toList = aliases t.program.globals.toList ∧
        t.program.globals.toList.map (·.name) = items.filterMap Item.globalName? := by
  refine ⟨fun operations => ?_, fun _ _ _ _ => Change.perform_failed, ?_⟩
  · have heq := answers_eq (Frames.holds_ofLimits limits) operations
    refine ⟨fun hfew => heq.trans (answers_indexed hfew operations), heq, fun size mark => ?_⟩
    rw [heq]
    exact answers_not_shrunk _ operations size mark
  · intro source start items t hstart hsource h
    have hfresh := Program.new_ok hstart
    have hsteps := Elaborate.items_ok items h hfresh.between fun written hwritten =>
      have ⟨x, hx, hwritten⟩ := mem_flatMap.mp hwritten
      SourceTree.sized_ofSource source written (mem_flatMap.mpr ⟨x, hsource.subset hx, hwritten⟩)
    refine ⟨Elaborate.items_marks hstart hsource h, hsteps.between.scope, ?_⟩
    obtain ⟨globals, procedures, hglobals, -, hdeclared⟩ := hsteps.declared
    have hnone : (Elaboration.ofProgram start).program.globals.toList = [] := hfresh.globals
    rw [hglobals, hnone, nil_append]
    exact hdeclared.names

end Scopes

/-- Limits on which there may be twice as many variables as there are indices. -/
def Limits.crowded : Limits := { locals := 8589934592 }

/-- Frames with equal bindings, all of them in the base frame. -/
def Frames.crowd (place : Local) (count : Nat) : Frames :=
  ⟨[], replicate count place, Limits.crowded.locals, Limits.crowded.scopeDepth⟩

section Crowd

variable {place : Local} {count : Nat}

theorem Frames.live_crowd : (crowd place count).live = count := by simp [crowd, live, all]

theorem Frames.limit_crowd : (crowd place count).limit.toInt = 8589934592 :=
  show (8589934592 : Int64).toInt = 8589934592 by decide

theorem Frames.add_crowd (h : count < 8589934592) :
    (crowd place count).add place = .ok (crowd place (count + 1)) := by
  rw [add, live_crowd, limit_crowd, if_neg (by omega)]
  rfl

theorem Frames.addIndexed_crowd (h : count < UInt32.size) :
    (crowd place count).addIndexed place = .ok (crowd place (count + 1)) := by
  rw [addIndexed, live_crowd, if_neg (by omega), add_crowd (Nat.lt_trans h (by decide))]

theorem Frames.addIndexed_full (hfull : UInt32.size ≤ count) (h : count < 8589934592) :
    (crowd place count).addIndexed place = .error (.indexOverflow .locals) := by
  rw [addIndexed, live_crowd, limit_crowd, if_pos ⟨by omega, hfull⟩]

theorem ScopeOperation.answers_crowd {add : Frames → Local → Except ScopeError Frames} {more : Nat}
    (h : ∀ n < count + more, add (.crowd place n) place = .ok (.crowd place (n + 1))) :
    answers (Frames.perform add) (.crowd place count)
        (replicate more (.add place) ++ [.add place]) =
      replicate more (.ok none) ++
        [(add (.crowd place (count + more)) place).map fun _ => none] := by
  induction more generalizing count with
  | zero =>
    simp only [replicate_zero, nil_append, answers, Frames.perform, Nat.add_zero]
    cases add (.crowd place count) place <;> rfl
  | succ more ih =>
    have hadd := h count (by omega)
    have hmore := @ih (count + 1) fun n hn => h n (by omega)
    simp only [replicate_succ, cons_append, answers, Frames.perform, hadd, kept, hmore]
    rw [Nat.add_right_comm, Nat.add_assoc]

end Crowd

open ScopeOperation in
/-- One variable more than there are indices is refused, though the limit allows for it. -/
theorem Scopes.refuses_unindexed : ∃ operations,
    answers Change.perform (ofLimits .crowded) operations =
      replicate UInt32.size (.ok none) ++ [.error (.indexOverflow .locals)] ∧
    answers (Frames.perform Frames.add) (.ofLimits .crowded) operations =
      replicate UInt32.size (.ok none) ++ [.ok none] := by
  have hstart : ∀ place, Frames.ofLimits .crowded = .crowd place 0 := fun _ => rfl
  have hroom : UInt32.size < 8589934592 := by decide
  -- As a variable, the number of indices is never counted out.
  generalize hsize : UInt32.size = size at hroom ⊢
  refine ⟨replicate size (.add ⟨[], 0, 0, 0, none⟩) ++ [.add ⟨[], 0, 0, 0, none⟩], ?_, ?_⟩
  · rw [answers_eq (Frames.holds_ofLimits .crowded), hstart,
      answers_crowd fun n hn => Frames.addIndexed_crowd (by omega),
      Frames.addIndexed_full (by omega) (by omega)]
    rfl
  · rw [hstart, answers_crowd fun n hn => Frames.add_crowd (by omega),
      Frames.add_crowd (by omega)]
    rfl

end Shading
