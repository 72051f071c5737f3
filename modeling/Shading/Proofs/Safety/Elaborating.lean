import Shading.Proofs.Safety.Building
import Shading.Proofs.TypeNames

/-!
Elaboration of a tree that is marked. It never looks for what is not there, it
keeps types apart by their names, and it stops only at a part that is missing,
or at a place of the tree for a reason of its own: a rule of the language is
broken or a pool is full. What such a reason names is within a line.
-/

namespace Shading

open List

variable {pos opPos : Position} {found : Member} {earlier : List Member} {e : ExprRef}
  {direction : Direction}

def Cause.Semantic (limits : Limits) : Cause → Prop
  | .limit e => e.pool.IsOwn ∧ e.limit = limits.of e.pool
  | .indexOverflow pool => pool.IsOwn
  | .componentNotScalar text | .unknownType text | .voidVariable text | .globalRedeclared text
  | .typeReserved text | .typeRedeclared text | .procedureRedeclared text | .returnFromVoid text
  | .assignmentToInput text | .operandType _ text | .unknownVariable text | .elementType text =>
    Text.OneLine text
  | .memberRedeclared text other | .entryPointReturns text other | .returnNeedsValue text other =>
    Text.OneLine text ∧ Text.OneLine other
  | .initializerType name declared given =>
    Text.OneLine name ∧ (Text.OneLine declared ∧ Text.OneLine given) ∧ declared ≠ given
  | .returnType given declared => (Text.OneLine given ∧ Text.OneLine declared) ∧ given ≠ declared
  | cause => cause.isSyntactic = false

theorem Cause.Semantic.isSyntactic {limits : Limits} {cause : Cause} (h : cause.Semantic limits) :
    cause.isSyntactic = false := by
  cases cause <;> first | rfl | exact h

def Marks.room (m : Marks) (limits : Limits) : Room := ⟨limits, m.size⟩

def Stop.Allowed (m : Marks) (limits : Limits) : Stop → Prop
  | .refused why => m.hole why ∨ m.place why.pos ∧ why.cause.Semantic limits
  | .fault f => f = .oversized .compositeConstruct ∧ (m.room limits).AllowsOverlong

namespace Elaboration

structure Closed (m : Marks) (limits : Limits) (s : Elaboration) : Prop where
  program : s.program.Named (m.room limits)
  scopes : s.scopes.under limits = s.scopes
  visible : ∀ place ∈ s.scopes.locals.toList, place.Within s.program
  stage : ∀ waiting ∈ s.stage, m.place waiting.2
  builtin : ∀ waiting ∈ s.builtin, m.place waiting.2

structure Onward (s t : Elaboration) : Prop where
  program : s.program.AtMost t.program
  marks : t.scopes.marks = s.scopes.marks
  locals : s.scopes.locals.size ≤ t.scopes.locals.size

theorem Onward.refl (s : Elaboration) : s.Onward s := ⟨.refl _, rfl, Nat.le_refl _⟩

theorem Onward.trans {s t u : Elaboration} (hst : s.Onward t) (htu : t.Onward u) : s.Onward u :=
  ⟨hst.program.trans htu.program, htu.marks.trans hst.marks, Nat.le_trans hst.locals htu.locals⟩

end Elaboration

namespace Elaborate

variable {α β : Type} {m : Marks} {limits : Limits} {s t : Elaboration}

def Ends (m : Marks) (limits : Limits) (x : Elaborate α) (s : Elaboration)
    (good : α → Elaboration → Prop) : Prop :=
  match x s with
  | .ok (a, t) => good a t
  | .error stop => stop.Allowed m limits

def Safe (m : Marks) (limits : Limits) (x : Elaborate α) (s : Elaboration)
    (good : α → Elaboration → Prop) : Prop :=
  Ends m limits x s fun a t => s.Onward t ∧ t.Closed m limits ∧ good a t

theorem Ends.bind {x : Elaborate β} {f : β → Elaborate α} {mid : β → Elaboration → Prop}
    {good : α → Elaboration → Prop} (hx : Ends m limits x s mid)
    (hf : ∀ b t, mid b t → Ends m limits (f b) t good) : Ends m limits (x >>= f) s good := by
  unfold Ends at hx ⊢
  change match Except.bind (x s) (fun r => f r.1 r.2) with | .ok (a, t) => _ | .error e => _
  cases h : x s with
  | error e =>
    rw [h] at hx
    exact hx
  | ok r =>
    rw [h] at hx
    exact hf r.1 r.2 hx

theorem Ends.mono {x : Elaborate α} {good good' : α → Elaboration → Prop}
    (hx : Ends m limits x s good) (h : ∀ a t, good a t → good' a t) : Ends m limits x s good' := by
  unfold Ends at hx ⊢
  cases hrun : x s with
  | error e =>
    rw [hrun] at hx
    exact hx
  | ok r =>
    rw [hrun] at hx
    exact h r.1 r.2 hx

namespace Safe

variable {good good' : α → Elaboration → Prop} {f : β → Elaborate α} {mid : β → Elaboration → Prop}
  {x : Elaborate β}

protected theorem pure {a : α} (hs : s.Closed m limits) (h : good a s) :
    Safe m limits (pure a : Elaborate α) s good := ⟨.refl s, hs, h⟩

protected theorem bind (hx : Safe m limits x s mid)
    (hf : ∀ b t, s.Onward t → t.Closed m limits → mid b t → Safe m limits (f b) t good) :
    Safe m limits (x >>= f) s good :=
  Ends.bind hx fun b t ht => (hf b t ht.1 ht.2.1 ht.2.2).mono fun _ _ hu =>
    ⟨ht.1.trans hu.1, hu.2⟩

theorem mono {x : Elaborate α} (hx : Safe m limits x s good)
    (h : ∀ a t, s.Onward t → good a t → good' a t) : Safe m limits x s good' :=
  Ends.mono hx fun a t ht => ⟨ht.1, ht.2.1, h a t ht.1 ht.2.2⟩

theorem quiet_bind {x : Elaborate β} {f : β → Elaborate α} {mid : β → Prop}
    (hx : Safe m limits x s fun b t => t = s ∧ mid b)
    (hf : ∀ b, mid b → Safe m limits (f b) s good) : Safe m limits (x >>= f) s good := by
  refine hx.bind ?_
  rintro b _ _ _ ⟨rfl, hb⟩
  exact hf b hb

protected theorem throw {stop : Stop} (h : stop.Allowed m limits) :
    Safe m limits (throw stop : Elaborate α) s good := h

theorem refuse {cause : Cause} (hpos : m.place pos) (hcause : cause.Semantic limits) :
    Safe m limits (refuse pos cause : Elaborate α) s good :=
  .throw (.inr ⟨hpos, hcause⟩)

theorem refuse_bind {cause : Cause} (hpos : m.place pos) (hcause : cause.Semantic limits) :
    Safe m limits (Elaborate.refuse pos cause >>= f) s good := by
  have hrefused : Safe m limits (Elaborate.refuse pos cause : Elaborate β) s fun _ _ => False :=
    .refuse hpos hcause
  exact hrefused.bind fun _ _ _ _ h => h.elim

protected theorem get {f : Elaboration → Elaborate α} (h : Safe m limits (f s) s good) :
    Safe m limits (get >>= f) s good := h

protected theorem ite {c : Prop} [Decidable c] {x y : Elaborate α}
    (hx : c → Safe m limits x s good) (hy : ¬c → Safe m limits y s good) :
    Safe m limits (if c then x else y) s good := by
  by_cases hc : c
  · rw [if_pos hc]
    exact hx hc
  · rw [if_neg hc]
    exact hy hc

theorem run {x : Elaborate α} (hx : Safe m limits x s good) :
    Safe m limits x s fun a t => good a t ∧ x s = .ok (a, t) := by
  unfold Safe Ends at hx ⊢
  cases h : x s with
  | error e =>
    rw [h] at hx
    exact hx
  | ok r =>
    rw [h] at hx
    exact ⟨hx.1, hx.2.1, hx.2.2, rfl⟩

theorem discard_bind {f : PUnit → Elaborate α} (hx : Safe m limits x s mid)
    (hf : ∀ b t, s.Onward t → t.Closed m limits → mid b t → Safe m limits (f ⟨⟩) t good) :
    Safe m limits (discard x >>= f) s good := by
  have heq : (discard x >>= f) = (x >>= fun _ => f ⟨⟩) := by
    funext s
    change Except.bind (Except.bind _ _) _ = Except.bind _ _
    cases x s with
    | ok r => rfl
    | error e => rfl
  rw [heq]
  exact hx.bind hf

protected theorem discard (hx : Safe m limits x s mid) :
    Safe m limits (discard x) s fun _ _ => True := by
  have hbind : Safe m limits (discard x >>= pure) s fun _ _ => True :=
    hx.discard_bind fun _ _ _ ht _ => .pure ht trivial
  rw [bind_pure] at hbind
  exact hbind

theorem part {x : Part α} {mid : α → Prop} (hs : s.Closed m limits) (hx : m.part mid x) :
    Safe m limits (part x) s fun a t => t = s ∧ mid a := by
  cases x with
  | ok a => exact .pure hs ⟨rfl, hx⟩
  | error why => exact .throw (.inl hx)

theorem closing {close : Part Position} (hs : s.Closed m limits) (hclose : m.part m.place close) :
    Safe m limits (Elaborate.part close) s fun pos t => t = s ∧ m.place pos ∧ close = .ok pos := by
  cases close with
  | ok pos => exact .pure hs ⟨rfl, hclose, rfl⟩
  | error why => exact .throw (.inl hclose)

theorem view {read : Program → Except Fault α} {a : α} {mid : α → Prop} (hs : s.Closed m limits)
    (hread : read s.program = .ok a) (h : mid a) :
    Safe m limits (view read) s fun a t => t = s ∧ mid a := by
  refine .get ?_
  rw [hread]
  exact .pure hs ⟨rfl, h⟩

theorem view_bind {read : Program → Except Fault β} {b : β} (hs : s.Closed m limits)
    (hread : read s.program = .ok b) (h : Safe m limits (f b) s good) :
    Safe m limits (Elaborate.view read >>= f) s good := by
  have hview : Safe m limits (Elaborate.view read) s fun found t => t = s ∧ found = b :=
    .view hs hread rfl
  refine hview.quiet_bind ?_
  rintro _ rfl
  exact h

theorem build {operation : Build α} {mid : α → Program → Prop} (hs : s.Closed m limits)
    (hpos : m.place pos) (h : Build.Safe (m.room limits) operation s.program mid) :
    Safe m limits (build pos operation) s fun a t => mid a t.program := by
  unfold Safe Ends
  rw [build_eq]
  unfold Build.Safe at h
  unfold Build.ending
  cases hrun : operation s.program with
  | ok a q =>
    rw [hrun] at h
    obtain ⟨hle, hq, hmid⟩ := h
    exact ⟨⟨hle, rfl, Nat.le_refl _⟩,
      ⟨hq, hs.scopes, fun place hplace => (hs.visible place hplace).mono hle, hs.stage,
        hs.builtin⟩, hmid⟩
  | error f q =>
    rw [hrun] at h
    cases f with
    | limit e => exact .inr ⟨hpos, h⟩
    | indexOverflow pool => exact .inr ⟨hpos, h⟩
    | oversized op => exact ⟨congrArg Fault.oversized h.1, h.2⟩
    | _ => exact h.elim

theorem add {place : Local} (hs : s.Closed m limits) (hpos : m.place pos)
    (hplace : place.Within s.program) :
    Safe m limits (scope pos (·.add place)) s fun _ _ => True := by
  unfold Safe Ends
  rw [scope_eq]
  rw [Scopes.add_eq]
  have hpool : s.scopes.locals.pool = .locals := (congrArg (·.locals.pool) hs.scopes).symm
  by_cases hroom : s.scopes.locals.hasRoom = true
  · rw [if_pos hroom]
    by_cases hindex : s.scopes.locals.hasIndex = true
    · rw [if_pos hindex]
      refine ⟨⟨.refl _, rfl, by simp⟩, ⟨hs.program, ?_, ?_, hs.stage, hs.builtin⟩, trivial⟩
      · exact congrArg (fun r : Scopes => { r with locals := r.locals.add place }) hs.scopes
      · intro other hother
        rw [Arena.toList_add, mem_append, mem_singleton] at hother
        rcases hother with hold | rfl
        · exact hs.visible other hold
        · exact hplace
    · rw [if_neg hindex, hpool]
      exact .inr ⟨hpos, fun _ h => nomatch h⟩
  · have hlimit : s.scopes.locals.limit = limits.locals :=
      (congrArg (·.locals.limit) hs.scopes).symm
    rw [if_neg hroom, Arena.exhausted, hpool, hlimit]
    exact .inr ⟨hpos, (fun _ h => nomatch h), rfl⟩

end Safe

theorem Ends.push (hs : s.Closed m limits) (hpos : m.place pos) :
    Ends m limits (scope pos (·.push)) s fun _ t => t.Closed m limits ∧ t.program = s.program ∧
      t.scopes.marks = s.scopes.locals.size :: s.scopes.marks ∧
      t.scopes.locals.size = s.scopes.locals.size := by
  unfold Ends
  rw [scope_eq]
  rw [Scopes.push_eq]
  by_cases hroom : fits (s.scopes.depth + 1) s.scopes.maxDepth = true
  · rw [if_pos hroom]
    refine ⟨⟨hs.program, ?_, hs.visible, hs.stage, hs.builtin⟩, rfl, rfl, rfl⟩
    exact congrArg (fun r : Scopes => { r with marks := r.locals.size :: r.marks }) hs.scopes
  · rw [if_neg hroom]
    exact .inr ⟨hpos, (fun _ h => nomatch h), (congrArg (·.maxDepth) hs.scopes).symm⟩

theorem Ends.pop {mark : Nat} {marks : List Nat} (hs : s.Closed m limits)
    (hmarks : s.scopes.marks = mark :: marks) (hmark : mark ≤ s.scopes.locals.size) :
    Ends m limits (scope pos (·.pop)) s fun _ t => t.Closed m limits ∧ t.program = s.program ∧
      t.scopes.marks = marks ∧ t.scopes.locals.size = mark := by
  unfold Ends
  rw [scope_eq, Scopes.pop_cons hmarks, if_pos hmark]
  refine ⟨⟨hs.program, ?_, ?_, hs.stage, hs.builtin⟩, rfl, rfl, ?_⟩
  · exact congrArg (fun r : Scopes => (⟨{ r.locals with items := r.locals.items.take mark }, marks,
      r.maxDepth⟩ : Scopes)) hs.scopes
  · intro place hplace
    refine hs.visible place (mem_of_mem_take (i := mark) ?_)
    simpa [Arena.toList] using hplace
  · simp only [Arena.size] at hmark ⊢
    simp [hmark]

end Elaborate

def Program.AddsTypes (p q : Program) : Prop :=
  ∀ t ∈ q.types.toList, t ∈ p.types.toList ∨ t.name = [] ∨ isReservedType t.name = true

namespace Program.AddsTypes

variable {p q r : Program}

theorem refl (p : Program) : p.AddsTypes p := fun _ ht => .inl ht

theorem trans (hpq : p.AddsTypes q) (hqr : q.AddsTypes r) : p.AddsTypes r :=
  fun t ht => (hqr t ht).elim (hpq t) .inr

theorem withType {name : Bytes} {shape : Shape} (h : name = [] ∨ isReservedType name = true) :
    p.AddsTypes (p.withType name shape) :=
  Arena.mem_add_or h

theorem typeOfShape {shape : Shape} {ref : TypeRef} (h : Build.typeOfShape shape p = .ok ref q) :
    p.AddsTypes q := by
  rcases (Build.typeOfShape_ok h).2 with rfl | rfl
  · exact .refl _
  · exact .withType (.inl rfl)

theorem namedType {name : Bytes} {found : Option TypeRef}
    (h : Build.namedType name p = .ok found q) : p.AddsTypes q := by
  obtain ⟨rfl, -⟩ | ⟨kind, hkind, -, rfl⟩ := Build.namedType_cases h
  · exact .refl _
  · refine .withType (.inr ?_)
    simp [isReservedType, hkind]

end Program.AddsTypes

namespace Elaborate.Safe

variable {α β : Type} {m : Marks} {limits : Limits} {s t : Elaboration}
  {good : α → Elaboration → Prop} {written : TypeSyntax} {close : Part Position} {name : Part Name}
  {placement : Part (Option Placement)} {count : UInt32} {f : PUnit → Elaborate α}

theorem refuseNaming {type : TypeRef} {cause : Bytes → Cause} {f : β → Elaborate α}
    (hs : s.Closed m limits) (htype : type < s.program.types.size) (hpos : m.place pos)
    (hcause : ∀ name, s.program.typeName type = .ok name →
      Text.OneLine name → (cause name).Semantic limits) :
    Safe m limits
      (Elaborate.typeName type >>= fun name => Elaborate.refuse pos (cause name) >>= f) s good := by
  obtain ⟨name, hname, hline⟩ := hs.program.typeName htype
  exact .view_bind hs hname (.refuse_bind hpos (hcause name hname hline))

theorem typeOf (hs : s.Closed m limits) (he : e < s.program.expressions.size) :
    Safe m limits (Elaborate.typeOf e) s fun type t => t = s ∧ type < s.program.types.size := by
  obtain ⟨entry, hentry, htype, -⟩ := hs.program.expressionAt he
  have hread : (s.program.expressionAt e).map (·.type) = .ok entry.type := by rw [hentry]; rfl
  exact .view hs hread htype

theorem type (hs : s.Closed m limits) (hwritten : m.type written) :
    Safe m limits (Elaborate.type written) s fun ref t =>
      ref < t.program.types.size ∧ m.place written.start ∧ m.place written.last ∧
        s.program.AddsTypes t.program := by
  induction written generalizing s with
  | missing why => exact .throw (.inl hwritten)
  | named name =>
    obtain ⟨hpos, hname⟩ := hwritten
    refine .bind (.run (.build hs hpos (.namedType hs.program))) fun found t _ ht hfound => ?_
    obtain ⟨hfound, hrun⟩ := hfound
    obtain ⟨q, hnamed, rfl⟩ := build_ok.mp hrun
    cases found with
    | some ref => exact .pure ht ⟨hfound ref rfl, hpos, hpos, .namedType hnamed⟩
    | none => exact .refuse hpos hname
  | vector pos size component close ih =>
    obtain ⟨hpos, hsize, hcomponent, hclose⟩ := hwritten
    refine .bind (ih hs hcomponent) fun found t _ ht hfound => ?_
    obtain ⟨hfound, hstart, -, hadds⟩ := hfound
    obtain ⟨kind, hkind⟩ := Program.scalarKind?_of_lt hfound
    refine .view_bind ht hkind (.ite (fun _ => ?_) fun _ => ?_)
    · exact .refuseNaming ht hfound hstart fun _ _ hline => hline
    · refine .quiet_bind (.closing ht hclose) ?_
      rintro last ⟨hlast, rfl⟩
      have hshape : Shape.Below t.program.types.size (.vector found size) := ⟨hfound, hsize⟩
      refine .mono (.run (.build ht hlast (.typeOfShape ht.program hshape fun _ => rfl)))
        fun _ _ _ h => ?_
      obtain ⟨q, hrun, rfl⟩ := build_ok.mp h.2
      exact ⟨h.1, hpos, hlast, hadds.trans (.typeOfShape hrun)⟩

theorem variableType {name : Bytes} (hs : s.Closed m limits) (hname : Text.OneLine name)
    (hwritten : m.type written) :
    Safe m limits (Elaborate.variableType name written) s fun ref t =>
      ref < t.program.types.size ∧ m.place written.start ∧ m.place written.last ∧
        s.program.AddsTypes t.program :=
  .bind (.type hs hwritten) fun _ _ _ ht hfound =>
    .ite (fun _ => .refuse_bind hfound.2.1 hname) fun _ => .pure ht hfound

theorem checkPosition {type : TypeRef} (hs : s.Closed m limits)
    (htype : type < s.program.types.size) (hpos : m.place pos) :
    Safe m limits (Elaborate.checkPosition type pos) s fun _ t => t = s ∧ True := by
  obtain ⟨found, hfound, -⟩ := hs.program.vector? htype
  exact .view_bind hs hfound (.ite (fun _ => .refuse hpos rfl) fun _ => .pure hs ⟨rfl, trivial⟩)

theorem isNumeric {type : TypeRef} (hs : s.Closed m limits) (htype : type < s.program.types.size) :
    Safe m limits (Elaborate.isNumeric type) s fun _ t => t = s ∧ True := by
  obtain ⟨kind, hkind⟩ := hs.program.componentKind? htype
  refine .view_bind hs hkind ?_
  cases kind with
  | none => exact .pure hs ⟨rfl, trivial⟩
  | some kind => exact .pure hs ⟨rfl, trivial⟩

theorem isVectorOf {type component : TypeRef} (hs : s.Closed m limits)
    (htype : type < s.program.types.size) :
    Safe m limits (Elaborate.isVectorOf type component) s fun _ t => t = s ∧ True := by
  obtain ⟨found, hfound, -⟩ := hs.program.vector? htype
  exact .view_bind hs hfound (.pure hs ⟨rfl, trivial⟩)

def Expresses (s : Elaboration) (ref : ExprRef) (t : Elaboration) : Prop :=
  ref < t.program.expressions.size ∧ s.program.expressions.size < t.program.expressions.size

theorem buildExpression {kind : ExprKind} {type : TypeRef} (hs : s.Closed m limits)
    (hpos : m.place pos) (htype : type < s.program.types.size)
    (hkind : kind.Within (m.room limits) s.program s.program.expressions.size) :
    Safe m limits (Elaborate.build pos (Build.addExpression kind type)) s (Expresses s) := by
  refine .mono (.build hs hpos (.addExpression hs.program htype fun _ => hkind))
    fun ref t _ h => ?_
  obtain ⟨rfl, hsize⟩ := h
  have hlt : s.program.expressions.size < t.program.expressions.size := by omega
  exact ⟨hlt, hlt⟩

theorem sum {op : SumOperator} {opPos last : Position} {left right : ExprRef}
    (hs : s.Closed m limits) (hop : m.place opPos) (hlast : m.place last)
    (hleft : left < s.program.expressions.size) (hright : right < s.program.expressions.size) :
    Safe m limits (Elaborate.sum op opPos last left right) s (Expresses s) :=
  .quiet_bind (.typeOf hs hleft) fun _ htype => .quiet_bind (.typeOf hs hright) fun _ _ =>
    .ite (fun _ => .refuse_bind hop rfl) fun _ => .quiet_bind (.isNumeric hs htype) fun _ _ =>
      .ite (fun _ => .buildExpression hs hlast htype ⟨hleft, hright⟩)
        fun _ => .refuseNaming hs htype hop fun _ _ hline => hline

theorem scale {op : ScaleOperator} {last : Position} {left right : ExprRef} (hs : s.Closed m limits)
    (hop : m.place opPos) (hlast : m.place last) (hleft : left < s.program.expressions.size)
    (hright : right < s.program.expressions.size) :
    Safe m limits (Elaborate.scale op opPos last left right) s (Expresses s) := by
  refine .quiet_bind (.typeOf hs hleft) fun leftType hleftType =>
    .quiet_bind (.typeOf hs hright) fun rightType hrightType =>
    .quiet_bind (.isVectorOf hs hleftType) fun _ _ => .ite (fun _ => ?_) fun _ => ?_
  · exact .quiet_bind (.isNumeric hs hleftType) fun _ _ =>
      .ite (fun _ => .buildExpression hs hlast hleftType ⟨hright, hleft⟩)
        fun _ => .refuseNaming hs hleftType hop fun _ _ hline => hline
  · refine .quiet_bind (.isVectorOf hs hrightType) fun _ _ =>
      .ite (fun _ => ?_) fun _ => .refuse hop rfl
    exact .quiet_bind (.isNumeric hs hrightType) fun _ _ =>
      .ite (fun _ => .buildExpression hs hlast hrightType ⟨hleft, hright⟩)
        fun _ => .refuseNaming hs hrightType hop fun _ _ hline => hline

def IsSize (count : UInt32) : Prop := 1 ≤ count.toNat ∧ count.toNat ≤ 4

theorem isSize_of_vector {size : UInt32} (h : size = 2 ∨ size = 3 ∨ size = 4) : IsSize size := by
  obtain rfl | rfl | rfl := h <;> exact ⟨by decide, by decide⟩

theorem isSize_one : IsSize 1 := ⟨by decide, by decide⟩

theorem firstElement (hs : s.Closed m limits) (he : e < s.program.expressions.size)
    (hpos : m.place pos) :
    Safe m limits (Elaborate.firstElement e pos) s
      fun found t => t = s ∧ found.1 < s.program.types.size ∧ IsSize found.2 := by
  refine .quiet_bind (.typeOf hs he) fun type htype => ?_
  obtain ⟨found, hfound, hvector⟩ := hs.program.vector? htype
  have hfirst : (found.getD (type, 1)).1 < s.program.types.size ∧
      IsSize (found.getD (type, 1)).2 := by
    cases found with
    | none => exact ⟨htype, isSize_one⟩
    | some inner =>
      obtain ⟨hinner, hsize⟩ := hvector inner rfl
      exact ⟨Nat.lt_trans hinner htype, isSize_of_vector hsize⟩
  obtain ⟨kind, hkind⟩ := Program.scalarKind?_of_lt hfirst.1
  refine .view_bind hs hfound (.view_bind hs hkind (.ite (fun _ => ?_) fun _ => ?_))
  · exact .refuseNaming hs hfirst.1 hpos fun _ _ hline => hline
  · exact .pure hs ⟨rfl, hfirst⟩

theorem elementSize {component : TypeRef} (hs : s.Closed m limits)
    (he : e < s.program.expressions.size) (hpos : m.place pos) :
    Safe m limits (Elaborate.elementSize component e pos) s
      fun size t => t = s ∧ IsSize size := by
  refine .quiet_bind (.typeOf hs he) fun type htype => ?_
  obtain ⟨found, hfound, hvector⟩ := hs.program.vector? htype
  refine .view_bind hs hfound ?_
  have hscalar : Safe m limits
      (if type = component then pure 1 else Elaborate.refuse pos .elementsDiffer) s
      fun size t => t = s ∧ IsSize size :=
    .ite (fun _ => .pure hs ⟨rfl, isSize_one⟩) fun _ => .refuse hpos rfl
  cases found with
  | none => exact hscalar
  | some inner =>
    exact .ite (fun _ => .pure hs ⟨rfl, isSize_of_vector (hvector inner rfl).2⟩) fun _ => hscalar

def Counts (length : Nat) (count : UInt32) : Prop :=
  ∃ total, length ≤ total ∧ total ≤ 4 * length ∧ count = UInt32.ofNat total

theorem Counts.first (h : IsSize count) : Counts 1 count :=
  ⟨count.toNat, h.1, h.2, (UInt32.ofNat_toNat).symm⟩

theorem Counts.next {length : Nat} {count size : UInt32} (h : Counts length count)
    (hsize : IsSize size) : Counts (length + 1) (count + size) := by
  obtain ⟨total, hlow, hhigh, rfl⟩ := h
  obtain ⟨hmin, hmax⟩ := hsize
  refine ⟨total + size.toNat, by omega, by omega, ?_⟩
  rw [UInt32.ofNat_add, UInt32.ofNat_toNat]

theorem Counts.cases {length : Nat} (h : Counts length count) (hmin : 2 ≤ count.toNat)
    (hmax : count.toNat ≤ 4) : length ≤ 4 ∨ 2 ^ 30 < length := by
  obtain ⟨total, hlow, hhigh, rfl⟩ := h
  rw [UInt32.toNat_ofNat'] at hmin hmax
  omega

theorem vectorLiteral {opened closed : Position} {component : TypeRef} {elements : List ExprRef}
    (hs : s.Closed m limits) (hopened : m.place opened) (hclosed : m.place closed)
    (hcomponent : component < s.program.types.size)
    (helements : ∀ e ∈ elements, e < s.program.expressions.size)
    (hmany : elements.length ≤ s.program.expressions.size) (hcount : Counts elements.length count)
    (hwritten : elements.length ≤ m.size + 1) :
    Safe m limits (Elaborate.vectorLiteral opened closed component count elements) s
      (Expresses s) := by
  refine .ite (fun _ => .refuse_bind hopened rfl) fun hsize => ?_
  have hsize : 2 ≤ count.toNat ∧ count.toNat ≤ 4 := by
    simp only [Bool.or_eq_true, decide_eq_true_eq, not_or, UInt32.not_lt,
      UInt32.le_iff_toNat_le] at hsize
    exact hsize
  have hlimit : s.program.limits.vectorElements = limits.vectorElements :=
    congrArg Limits.vectorElements hs.program.limits_eq
  refine .get (.ite (fun hroom => ?_) fun _ => ?_)
  · have hset : Safe m limits (set { s with vectorElements := s.vectorElements + elements.length } :
        Elaborate PUnit) s fun _ t => t.program = s.program :=
      ⟨⟨.refl _, rfl, Nat.le_refl _⟩,
        ⟨hs.program, hs.scopes, hs.visible, hs.stage, hs.builtin⟩, rfl⟩
    refine .bind hset fun _ t _ ht hprogram => ?_
    rw [← hprogram] at hcomponent helements hmany
    have hroom : (elements.length : Int) ≤ limits.vectorElements.toInt := by
      have hfits := of_decide_eq_true hroom
      rw [hlimit] at hfits
      omega
    have hvector : Shape.Below t.program.types.size (.vector component count) := by
      refine ⟨hcomponent, ?_⟩
      simp only [← UInt32.toNat_inj, UInt32.toNat_ofNat]
      omega
    have hbuild : Build.Safe (m.room limits) (do
        let type ← Build.vectorType component count
        Build.addExpression (.vector elements) type) t.program
        fun ref q => ref < q.expressions.size ∧
          t.program.expressions.size < q.expressions.size := by
      refine .bind (.typeOfShape ht.program hvector fun _ => rfl) fun type q hle hq htype => ?_
      refine .mono (.addExpression hq htype fun hfits => ?_) fun ref r _ h => ?_
      · have hle := hle.expressions
        have hfits : _ ≤ limits.expressions.toInt := of_decide_eq_true hfits
        refine ⟨fun e he => Nat.lt_of_lt_of_le (helements e he) hle, ?_⟩
        rcases hcount.cases hsize.1 hsize.2 with hshort | hlong
        · exact .inl hshort
        · have hlt : (elements.length : Int) < limits.expressions.toInt := by omega
          exact .inr ⟨hlong, hlt, hroom, hwritten⟩
      · obtain ⟨rfl, hgrown⟩ := h
        have hlt : q.expressions.size < r.expressions.size := by omega
        exact ⟨hlt, Nat.lt_of_le_of_lt hle.expressions hlt⟩
    refine .mono (.build ht hclosed hbuild) fun ref u _ h => ?_
    rw [hprogram] at h
    exact h
  · exact .refuse_bind hclosed ⟨(fun _ h => nomatch h), hlimit⟩

mutual

theorem expr {m : Marks} {limits : Limits} {s : Elaboration} (x : Expr) (hs : s.Closed m limits)
    (hx : m.expr x) : Safe m limits (Elaborate.expr x) s fun ref t =>
      Expresses s ref t ∧ m.place x.start ∧ m.place x.last := by
  unfold Elaborate.expr
  cases x with
  | missing why => exact .throw (.inl hx)
  | stopped operand why =>
    exact .discard_bind (expr operand hs hx.1) fun _ _ _ _ _ => .throw (.inl hx.2)
  | var name =>
    refine .get ?_
    obtain ⟨hpos, hname⟩ := hx
    cases hlookup : s.scopes.lookup name.text with
    | none => exact .refuse hpos (Lexeme.oneLine_identifier hname)
    | some place =>
      have hplace := hs.visible place (mem_reverse.mp (mem_of_find?_eq_some hlookup))
      exact .mono (.buildExpression hs hpos hplace.1 hplace) fun _ _ _ h => ⟨h, hpos, hpos⟩
  | number bits pos =>
    have hbuild : Build.Safe (m.room limits) (do
        let constant ← Build.floatConstant bits
        Build.addExpression (.constant constant) f32Type) s.program
        fun ref q => ref < q.expressions.size ∧
          s.program.expressions.size < q.expressions.size := by
      refine .bind (.floatConstant hs.program) fun constant q hle hq hconstant => ?_
      refine .mono (.addExpression hq hq.seeded fun _ => hconstant) fun ref r _ h => ?_
      obtain ⟨rfl, hgrown⟩ := h
      have hlt : q.expressions.size < r.expressions.size := by omega
      exact ⟨hlt, Nat.lt_of_le_of_lt hle.expressions hlt⟩
    exact .mono (.build hs hx hbuild) fun _ _ _ h => ⟨h, hx, hx⟩
  | paren pos inner close =>
    refine .bind (expr inner hs hx.2.1) fun e t _ ht he => ?_
    refine .discard_bind (.closing ht hx.2.2) fun _ u _ hu hclose => ?_
    obtain ⟨rfl, hlast, rfl⟩ := hclose
    exact .pure hu ⟨he.1, hx.1, hlast⟩
  | sum op opPos left right =>
    obtain ⟨hop, hleft, hright⟩ := hx
    refine .bind (expr left hs hleft) fun l t _ ht hl => ?_
    refine .bind (expr right ht hright) fun r u htu hu hr => ?_
    obtain ⟨hl, hstart, -⟩ := hl
    obtain ⟨hr, -, hlast⟩ := hr
    refine .mono (.sum hu hop hlast
      (Nat.lt_of_lt_of_le hl.1 htu.program.expressions) hr.1) fun _ _ _ h => ?_
    exact ⟨⟨h.1, Nat.lt_trans hl.2 (Nat.lt_trans hr.2 h.2)⟩, hstart, hlast⟩
  | scale op opPos left right =>
    obtain ⟨hop, hleft, hright⟩ := hx
    refine .bind (expr left hs hleft) fun l t _ ht hl => ?_
    refine .bind (expr right ht hright) fun r u htu hu hr => ?_
    obtain ⟨hl, hstart, -⟩ := hl
    obtain ⟨hr, -, hlast⟩ := hr
    refine .mono (.scale hu hop hlast
      (Nat.lt_of_lt_of_le hl.1 htu.program.expressions) hr.1) fun _ _ _ h => ?_
    exact ⟨⟨h.1, Nat.lt_trans hl.2 (Nat.lt_trans hr.2 h.2)⟩, hstart, hlast⟩
  | vector pos first rest close =>
    obtain ⟨hpos, hfirst, hrest, hclose⟩ := hx
    refine .bind (expr first hs hfirst) fun e t _ ht he => ?_
    obtain ⟨he, hstart, -⟩ := he
    refine .quiet_bind (.firstElement ht he.1 hstart) fun found hfound => ?_
    refine .bind (elements rest ht hrest.1 (.first hfound.2)) fun others u htu hu hothers => ?_
    refine .quiet_bind (.closing hu hclose) ?_
    rintro close ⟨hplace, rfl⟩
    obtain ⟨hin, hgrown, hcount, hlength⟩ := hothers
    have hsize := he.2
    refine .mono (.vectorLiteral hu hpos hplace
      (Nat.lt_of_lt_of_le hfound.1 htu.program.types) ?_ ?_ ?_ ?_) fun _ _ _ h => ?_
    · intro x hx
      rcases mem_cons.mp hx with rfl | hx
      · exact Nat.lt_of_lt_of_le he.1 htu.program.expressions
      · exact hin x hx
    · rw [length_cons]
      omega
    · rw [length_cons, Nat.add_comm]
      exact hcount
    · rw [length_cons, hlength]
      exact Nat.succ_le_succ hrest.2
    · exact ⟨⟨h.1, by have := h.2; omega⟩, hpos, hplace⟩

theorem elements {m : Marks} {limits : Limits} {s : Elaboration} {component : TypeRef}
    {count : UInt32} {length : Nat} (xs : List Expr) (hs : s.Closed m limits)
    (hxs : m.elements xs) (hcount : Counts length count) :
    Safe m limits (Elaborate.elements component count xs) s fun found t =>
      (∀ e ∈ found.1, e < t.program.expressions.size) ∧
      s.program.expressions.size + found.1.length ≤ t.program.expressions.size ∧
      Counts (length + found.1.length) found.2 ∧ found.1.length = xs.length := by
  unfold Elaborate.elements
  cases xs with
  | nil => exact .pure hs ⟨(fun _ h => nomatch h), Nat.le_refl _, hcount, rfl⟩
  | cons x rest =>
    refine .bind (expr x hs hxs.1) fun e t _ ht he => ?_
    obtain ⟨he, hstart, -⟩ := he
    refine .quiet_bind (.elementSize ht he.1 hstart) fun size hsize => ?_
    refine .bind (elements rest ht hxs.2 (hcount.next hsize)) fun found u htu hu hfound =>
      .pure hu ?_
    obtain ⟨hin, hgrown, htotal, hlength⟩ := hfound
    have hlt := he.2
    refine ⟨?_, ?_, ?_, congrArg (· + 1) hlength⟩
    · intro y hy
      rcases mem_cons.mp hy with rfl | hy
      · exact Nat.lt_of_lt_of_le he.1 htu.program.expressions
      · exact hin y hy
    · rw [length_cons]
      omega
    · rw [length_cons, Nat.add_comm found.1.length, ← Nat.add_assoc]
      exact htotal

end

section Statements

variable {ref : ProcedureRef} {close : Part Position} {value : Expr}

theorem declaration {name : Part Name} {written : TypeSyntax} {equal : Part Position}
    (hs : s.Closed m limits) (href : ref < s.program.procedures.size) (hname : m.name name)
    (hwritten : m.type written) (hequal : m.part m.place equal) (hvalue : m.expr value)
    (hclose : m.part m.place close) :
    Safe m limits (Elaborate.declaration ref name written equal value close) s fun _ _ => True := by
  refine .quiet_bind (.part hs hname) fun name hcalled => ?_
  have hline := Lexeme.oneLine_identifier hcalled.2
  refine .bind (.variableType hs hline hwritten) fun type t hst ht htype => ?_
  obtain ⟨htype, -, htypeLast, -⟩ := htype
  refine .bind (.build ht htypeLast (.typeOfShape ht.program htype fun _ => ⟨rfl, rfl⟩))
    fun pointer u htu hu hpointer => .discard_bind (.part hu hequal) fun _ v _ _ hsame => ?_
  obtain ⟨rfl, -⟩ := hsame
  refine .bind (expr value hu hvalue) fun e w huw hw he => ?_
  obtain ⟨he, hstart, hlast⟩ := he
  refine .quiet_bind (.typeOf hw he.1) fun given hgiven => ?_
  have htype : type < w.program.types.size :=
    Nat.lt_of_lt_of_le htype (htu.trans huw).program.types
  have hpointer : pointer < w.program.types.size := Nat.lt_of_lt_of_le hpointer huw.program.types
  have href : ref < w.program.procedures.size :=
    Nat.lt_of_lt_of_le href (hst.trans (htu.trans huw)).program.procedures
  refine .ite (fun hne => ?_) fun _ => ?_
  · obtain ⟨declared, hdeclared, hshown⟩ := hw.program.typeName htype
    refine .view_bind hw hdeclared
      (.refuseNaming hw hgiven hstart fun other hother hline' => ⟨hline, ⟨hshown, hline'⟩, ?_⟩)
    rintro rfl
    exact hne (hw.program.typeName_inj hother hdeclared)
  · have hbuild : Build.Safe (m.room limits) (do
        let id ← Build.declareVariable ref pointer
        let result ← Build.expression ref e
        Build.store ref id result
        pure id) w.program fun _ _ => True :=
      .bind (.declareVariable hw.program href hpointer) fun id p hwp hp _ =>
        .bind (.expression hp (Nat.lt_of_lt_of_le href hwp.procedures)
          (Nat.lt_of_lt_of_le he.1 hwp.expressions)) fun result q hpq hq _ =>
        .bind (.store hq (Nat.lt_of_lt_of_le href (hwp.trans hpq).procedures)) fun _ r _ hr _ =>
        .pure hr trivial
    refine .bind (.build hw hlast hbuild) fun id x hwx hx _ =>
      .quiet_bind (.part hx hclose) fun close hplace => .add hx hplace ?_
    exact ⟨Nat.lt_of_lt_of_le htype hwx.program.types,
      Nat.lt_of_lt_of_le hpointer hwx.program.types, fun _ h => nomatch h⟩

theorem procedure (hs : s.Closed m limits) (href : ref < s.program.procedures.size) :
    Safe m limits (Elaborate.procedure ref) s
      fun a t => t = s ∧ a.result < s.program.types.size ∧ Text.OneLine a.name := by
  obtain ⟨a, ha, hmem⟩ := Program.procedureAt_of_lt href
  exact .view hs ha ⟨(hs.program.procedures a hmem).2.1, hs.program.labelled.2.2 a hmem⟩

theorem exit {close : Position} (hs : s.Closed m limits) (href : ref < s.program.procedures.size)
    (hclose : m.place close) : Safe m limits (Elaborate.exit ref close) s fun _ _ => True := by
  refine .quiet_bind (.procedure hs href) fun a ha => .ite (fun _ => ?_) fun _ => ?_
  · exact .refuseNaming hs ha.1 hclose fun _ _ hline => ⟨ha.2, hline⟩
  · have hbuild : Build.Safe (m.room limits) (do
        Build.modifyProcedure ref fun p => { p with returned := true }
        Build.exit ref) s.program fun _ _ => True :=
      .bind (.modifyProcedure hs.program (fun _ ha => ha) fun _ => rfl) fun _ p hsp hp _ =>
        .exit hp (Nat.lt_of_lt_of_le href hsp.procedures)
    exact .build hs hclose hbuild

theorem exitValue (hs : s.Closed m limits) (href : ref < s.program.procedures.size)
    (hvalue : m.expr value) (hclose : m.part m.place close) :
    Safe m limits (Elaborate.exitValue ref value close) s fun _ _ => True := by
  refine .bind (expr value hs hvalue) fun e t hst ht he => .quiet_bind (.part ht hclose)
    fun close hplace => ?_
  obtain ⟨he, hstart, -⟩ := he
  refine .quiet_bind (.typeOf ht he.1) fun type htype => ?_
  have href := Nat.lt_of_lt_of_le href hst.program.procedures
  refine .quiet_bind (.procedure ht href) fun a ha =>
    .ite (fun _ => .refuse_bind hstart ha.2) fun _ => .ite (fun hne => ?_) fun _ => ?_
  · obtain ⟨given, hgiven, hshown⟩ := ht.program.typeName htype
    refine .view_bind ht hgiven
      (.refuseNaming ht ha.1 hstart fun other hother hline => ⟨⟨hshown, hline⟩, ?_⟩)
    rintro rfl
    exact hne (ht.program.typeName_inj hgiven hother)
  · have hbuild : Build.Safe (m.room limits) (do
        let result ← Build.expression ref e
        Build.modifyProcedure ref fun p => { p with returned := true }
        Build.exitValue ref result) t.program fun _ _ => True :=
      .bind (.expression ht.program href he.1) fun result p htp hp _ =>
        .bind (.modifyProcedure hp (fun _ ha => ha) fun _ => rfl) fun _ q hpq hq _ =>
        .exitValue hq (Nat.lt_of_lt_of_le href (htp.trans hpq).procedures)
    exact .build ht hplace hbuild

theorem assignment {target : Expr} (hs : s.Closed m limits) (href : ref < s.program.procedures.size)
    (htarget : m.expr target) (hop : m.place opPos) (hvalue : m.expr value)
    (hclose : m.part m.place close) :
    Safe m limits (Elaborate.assignment ref target opPos value close) s fun _ _ => True := by
  refine .bind (expr target hs htarget) fun left t hst ht hleft => ?_
  refine .bind (expr value ht hvalue) fun e u htu hu he => ?_
  obtain ⟨hleft, hstart, -⟩ := hleft
  obtain ⟨he, -, hlast⟩ := he
  have hleft := Nat.lt_of_lt_of_le hleft.1 htu.program.expressions
  have href := Nat.lt_of_lt_of_le href (hst.trans htu).program.procedures
  refine .quiet_bind (.typeOf hu hleft) fun _ _ => .quiet_bind (.typeOf hu he.1) fun _ _ =>
    .ite (fun _ => .refuse_bind hop rfl) fun _ => ?_
  refine .bind (.build hu hlast (.expression hu.program href he.1)) fun result v huv hv _ => ?_
  have hleft := Nat.lt_of_lt_of_le hleft huv.program.expressions
  have href := Nat.lt_of_lt_of_le href huv.program.procedures
  obtain ⟨⟨kind, type⟩, hentry, -, hkind⟩ := hv.program.expressionAt hleft
  refine .view_bind hv hentry ?_
  cases kind with
  | load place =>
    have hstore : Safe m limits (do
        Elaborate.build value.last do
          Build.registerInterface ref place
          Build.store ref place.id result
        discard <| Elaborate.part close) v fun _ _ => True :=
      .bind (.build hv hlast (.bind (.registerInterface hv.program href hkind)
        fun _ p hvp hp _ => .store hp (Nat.lt_of_lt_of_le href hvp.procedures)))
        fun _ w _ hw _ => .discard (.part hw hclose)
    obtain ⟨name, type, pointer, id, global⟩ := place
    cases global with
    | none => exact hstore
    | some global =>
      obtain ⟨found, hfound⟩ := Program.globalAt_of_lt (hkind.2.2 global rfl)
      have hline :=
        hv.program.labelled.2.1 found (Arena.mem_of_get? (Program.globalAt_ok.mp hfound))
      exact .view_bind hv hfound (.ite (fun _ => .refuse_bind hstart hline) fun _ => hstore)
  | _ => exact .refuse hstart rfl

end Statements

mutual

theorem statement {m : Marks} {limits : Limits} {s : Elaboration} {ref : ProcedureRef} (x : Stmt)
    (hs : s.Closed m limits) (href : ref < s.program.procedures.size) (hx : m.stmt x) :
    Safe m limits (Elaborate.statement ref x) s fun _ _ => True := by
  unfold Elaborate.statement
  cases x with
  | declare pos name type equal value close =>
    obtain ⟨-, hname, htype, hequal, hvalue, hclose⟩ := hx
    exact .declaration hs href hname htype hequal hvalue hclose
  | leave pos close => exact .exit hs href hx.2
  | giveBack pos value close => exact .exitValue hs href hx.2.1 hx.2.2
  | group pos body close =>
    obtain ⟨hpos, hbody, hclose⟩ := hx
    -- the marks of the open scopes are the same before and after the body
    refine Ends.bind (.push hs hpos) fun _ t ht => ?_
    obtain ⟨ht, hprogram, hmarks, hlocals⟩ := ht
    refine Ends.bind (block body ht (hprogram ▸ href) hbody) fun _ u hu => ?_
    obtain ⟨htu, hu, -⟩ := hu
    refine Ends.bind (Safe.part hu hclose) fun close v hv => ?_
    obtain ⟨-, -, rfl, hplace⟩ := hv
    refine (Ends.pop hu (htu.marks.trans hmarks) (hlocals ▸ htu.locals)).mono fun _ w hw => ?_
    obtain ⟨hw, hprogram', hmarks', hlocals'⟩ := hw
    refine ⟨⟨?_, hmarks', Nat.le_of_eq hlocals'.symm⟩, hw, trivial⟩
    rw [hprogram', ← hprogram]
    exact htu.program
  | evaluate value close =>
    refine .bind (expr value hs hx.1) fun e t hst ht he => ?_
    refine .quiet_bind (.part ht hx.2) fun close hplace => ?_
    exact .discard (.build ht hplace
      (.expression ht.program (Nat.lt_of_lt_of_le href hst.program.procedures) he.1.1))
  | assign target opPos value close =>
    exact .assignment hs href hx.1 hx.2.1 hx.2.2.1 hx.2.2.2

theorem block {m : Marks} {limits : Limits} {s : Elaboration} {ref : ProcedureRef}
    (xs : List Stmt) (hs : s.Closed m limits) (href : ref < s.program.procedures.size)
    (hxs : m.block xs) : Safe m limits (Elaborate.block ref xs) s fun _ _ => True := by
  unfold Elaborate.block
  cases xs with
  | nil => exact .pure hs trivial
  | cons next rest =>
    refine .quiet_bind (.procedure hs href) fun a _ =>
      .ite (fun _ => .refuse_bind hxs.2.1 rfl) fun _ => ?_
    refine .bind (statement next hs href hxs.1) fun _ t hst ht _ => ?_
    exact block rest ht (Nat.lt_of_lt_of_le href hst.program.procedures) hxs.2.2

end

theorem set_bind (hs : s.Closed m limits) (hprogram : t.program = s.program)
    (hscopes : t.scopes = s.scopes) (hstage : ∀ waiting ∈ t.stage, m.place waiting.2)
    (hbuiltin : ∀ waiting ∈ t.builtin, m.place waiting.2)
    (h : t.Closed m limits → Safe m limits (f ⟨⟩) t good) : Safe m limits (set t >>= f) s good := by
  have hset : Safe m limits (set t : Elaborate PUnit) s fun _ u => u = t := by
    refine ⟨⟨?_, congrArg Scopes.marks hscopes, ?_⟩, ⟨?_, ?_, ?_, hstage, hbuiltin⟩, rfl⟩
    · rw [hprogram]
      exact .refl _
    · exact Nat.le_of_eq (by rw [hscopes])
    · rw [hprogram]
      exact hs.program
    · rw [hscopes]
      exact hs.scopes
    · rw [hscopes, hprogram]
      exact hs.visible
  refine hset.bind ?_
  rintro _ _ _ ht rfl
  exact h ht

theorem modify_bind {change : Elaboration → Elaboration} (hs : s.Closed m limits)
    (hprogram : (change s).program = s.program) (hscopes : (change s).scopes = s.scopes)
    (hstage : ∀ waiting ∈ (change s).stage, m.place waiting.2)
    (hbuiltin : ∀ waiting ∈ (change s).builtin, m.place waiting.2)
    (h : (change s).Closed m limits → Safe m limits (f ⟨⟩) (change s) good) :
    Safe m limits (modify change >>= f) s good :=
  set_bind hs hprogram hscopes hstage hbuiltin h

theorem noneWaits {waiting : Elaboration → Option (α × Position)} {cause : Cause}
    (hs : s.Closed m limits) (hwaiting : ∀ found ∈ waiting s, m.place found.2)
    (hcause : cause.Semantic limits) :
    Safe m limits (Elaborate.noneWaits waiting cause) s fun _ t => t = s ∧ True := by
  refine .get ?_
  cases h : waiting s with
  | none => exact .pure hs ⟨rfl, trivial⟩
  | some found => exact .refuse (hwaiting found h) hcause

theorem takeStage (hs : s.Closed m limits) :
    Safe m limits Elaborate.takeStage s fun _ t => t.program = s.program :=
  .get (.modify_bind hs rfl rfl (fun _ h => nomatch h) hs.builtin fun ht => .pure ht rfl)

theorem takeBuiltin (hs : s.Closed m limits) :
    Safe m limits Elaborate.takeBuiltin s fun found _ => ∀ waiting ∈ found, m.place waiting.2 :=
  .get (.modify_bind hs rfl rfl hs.stage (fun _ h => nomatch h) fun ht => .pure ht hs.builtin)

theorem stageAttribute {stage : Stage} (hs : s.Closed m limits) (hpos : m.place pos)
    (hclose : m.part m.place close) :
    Safe m limits (Elaborate.stageAttribute pos stage close) s fun _ _ => True := by
  refine .get (.ite (fun _ => .refuse_bind hpos rfl) fun _ => ?_)
  refine .modify_bind hs rfl rfl ?_ hs.builtin fun ht => .discard (.part ht hclose)
  rintro waiting hwaiting
  cases hwaiting
  exact hpos

theorem builtinAttribute {builtin : Builtin} (hs : s.Closed m limits) (hpos : m.place pos)
    (hclose : m.part m.place close) :
    Safe m limits (Elaborate.builtinAttribute pos builtin close) s fun _ _ => True := by
  refine .get (.ite (fun _ => .refuse_bind hpos rfl) fun _ => ?_)
  refine .modify_bind hs rfl rfl hs.stage ?_ fun ht => .discard (.part ht hclose)
  rintro waiting hwaiting
  cases hwaiting
  exact hpos

theorem location {placement : Option Placement} (hs : s.Closed m limits)
    (hplacement : ∀ p ∈ placement, m.placement p) :
    Safe m limits (Elaborate.location direction placement) s fun _ t => t = s ∧ True := by
  cases placement with
  | none => exact .pure hs ⟨rfl, trivial⟩
  | some placement =>
    obtain ⟨hpos, hvalue⟩ := hplacement placement rfl
    refine .ite (fun _ => .refuse_bind hpos rfl) fun _ => ?_
    exact .quiet_bind (.part hs hvalue) fun value hplace =>
      .ite (fun _ => .pure hs ⟨rfl, trivial⟩) fun _ => .refuse hplace rfl

theorem declareGlobal {builtin : Option (Builtin × Position)} (hs : s.Closed m limits)
    (hpos : m.place pos) (hname : m.name name) (hwritten : m.type written)
    (hplacement : m.part (fun found => ∀ p ∈ found, m.placement p) placement) :
    Safe m limits (Elaborate.declareGlobal pos direction name written placement builtin) s
      fun _ _ => True := by
  have hvoid : voidType < s.program.types.size :=
    Nat.lt_of_lt_of_le (Nat.succ_pos 1) hs.program.seeded
  refine .get (.bind (.build hs hpos (.addGlobal hs.program hvoid not_mem_nil))
    fun ref t _ ht href => ?_)
  refine .quiet_bind (.part ht hname) fun name hcalled => ?_
  have hline := Lexeme.oneLine_identifier hcalled.2
  refine .ite (fun _ => .refuse_bind hcalled.1 hline) fun _ => ?_
  refine .bind (.variableType ht hline hwritten) fun type u htu hu htype => ?_
  obtain ⟨htype, hstart, hlast, -⟩ := htype
  have hstorage : direction.storageClass.isNamed = true := by cases direction <;> rfl
  refine .bind (.build hu hlast (.typeOfShape hu.program htype fun _ => ⟨rfl, hstorage⟩))
    fun pointer v huv hv hpointer => ?_
  have href := Nat.lt_of_lt_of_le href (htu.trans huv).program.globals
  have htype := Nat.lt_of_lt_of_le htype huv.program.types
  obtain ⟨found, hfound⟩ := Program.globalAt_of_lt href
  refine .view_bind hv hfound (.bind (.add hv hlast ⟨htype, hpointer, ?_⟩)
    fun _ w hvw hw _ => ?_)
  · rintro global hglobal
    cases hglobal
    exact href
  refine .quiet_bind (.part hw hplacement) fun placement hplacement =>
    .quiet_bind (.location hw hplacement) fun location _ => ?_
  have htype := Nat.lt_of_lt_of_le htype hvw.program.types
  have hpointer := Nat.lt_of_lt_of_le hpointer hvw.program.types
  have hend : Safe m limits (Elaborate.build pos (Build.modifyGlobal ref fun _ =>
      ⟨name.text, direction, location, (builtin.map (·.1)).getD .absent, type, pointer, found.id⟩))
      w fun _ _ => True := .build hw hpos (.modifyGlobal hw.program hpointer hline)
  exact .ite (fun _ => .quiet_bind (.checkPosition hw htype hstart) fun _ _ => hend) fun _ => hend

theorem global {pos : Position} {direction : Direction} (hs : s.Closed m limits)
    (hpos : m.place pos) (hname : m.name name) (hwritten : m.type written)
    (hplacement : m.part (fun found => ∀ p ∈ found, m.placement p) placement) :
    Safe m limits (Elaborate.global pos direction name written placement) s fun _ _ => True := by
  refine .quiet_bind (.noneWaits hs hs.stage rfl) fun _ _ =>
    .bind (.takeBuiltin hs) fun builtin t _ ht hplace => ?_
  rcases builtin with _ | ⟨builtin, builtinPos⟩
  · exact .declareGlobal ht hpos hname hwritten hplacement
  · exact .ite (fun _ => .refuse_bind (hplace _ rfl) rfl)
      fun _ => .declareGlobal ht hpos hname hwritten hplacement

theorem countMember (hs : s.Closed m limits) (hpos : m.place pos)
    (htype : found.type < s.program.types.size) :
    Safe m limits (Elaborate.countMember pos >>= fun _ => pure found) s
      fun member t => member.type < t.program.types.size ∧ t.program = s.program := by
  rw [Elaborate.countMember, bind_assoc]
  refine .get ?_
  by_cases hroom : fits (s.recordMembers + 1) s.program.limits.recordMembers = true
  · simp only [if_pos hroom]
    exact .set_bind hs rfl rfl hs.stage hs.builtin fun ht => .pure ht ⟨htype, rfl⟩
  · simp only [if_neg hroom, bind_assoc]
    refine .refuse_bind hpos ⟨(fun _ h => nomatch h), ?_⟩
    rw [hs.program.limits_eq]
    rfl

theorem member {record : Bytes} {written : MemberSyntax} (hs : s.Closed m limits)
    (hrecord : Text.OneLine record) (hwritten : m.member written) :
    Safe m limits (Elaborate.member record earlier written) s
      fun member t => member.type < t.program.types.size ∧ s.program.AddsTypes t.program := by
  obtain ⟨hname, htype, hclose⟩ := hwritten
  refine .quiet_bind (.part hs hname) fun name hcalled => ?_
  have hline := Lexeme.oneLine_identifier hcalled.2
  refine .ite (fun _ => .refuse_bind hcalled.1 ⟨hline, hrecord⟩) fun _ =>
    .bind (.variableType hs hline htype) fun type t _ ht hlt => ?_
  obtain ⟨hlt, hstart, -, hadds⟩ := hlt
  have hend : Safe m limits (do
      let close ← Elaborate.part written.close
      Elaborate.countMember close
      pure (⟨name.text, type, written.builtin⟩ : Member)) t
      fun member u => member.type < u.program.types.size ∧ s.program.AddsTypes u.program :=
    .quiet_bind (.part ht hclose) fun close hplace =>
      .mono (.countMember ht hplace hlt) fun _ _ _ h => ⟨h.1, h.2 ▸ hadds⟩
  exact .ite (fun _ => .quiet_bind (.checkPosition ht hlt hstart) fun _ _ => hend) fun _ => hend

theorem members {record : Bytes} {written : List MemberSyntax} (hs : s.Closed m limits)
    (hrecord : Text.OneLine record) (hwritten : ∀ w ∈ written, m.member w)
    (hearlier : ∀ x ∈ earlier, x.type < s.program.types.size) :
    Safe m limits (Elaborate.members record earlier written) s
      fun found t => (∀ x ∈ found, x.type < t.program.types.size) ∧
        s.program.AddsTypes t.program := by
  induction written generalizing s earlier with
  | nil => exact .pure hs ⟨fun x hx => hearlier x (mem_reverse.mp hx), .refl _⟩
  | cons next rest ih =>
    obtain ⟨hnext, hrest⟩ := forall_mem_cons.mp hwritten
    refine .bind (.member hs hrecord hnext) fun found t hst ht hfound => ?_
    refine .mono (ih ht hrest (forall_mem_cons.mpr ⟨hfound.1, fun x hx => ?_⟩))
      fun _ _ _ h => ⟨h.1, hfound.2.trans h.2⟩
    exact Nat.lt_of_lt_of_le (hearlier x hx) hst.program.types

theorem record {written : List MemberSyntax} (hs : s.Closed m limits) (hname : m.name name)
    (hwritten : ∀ w ∈ written, m.member w) (hclose : m.part m.place close) :
    Safe m limits (Elaborate.record name written close) s fun _ _ => True := by
  refine .quiet_bind (.noneWaits hs hs.stage rfl) fun _ _ =>
    .quiet_bind (.noneWaits hs hs.builtin rfl) fun _ _ => .quiet_bind (.part hs hname)
    fun name hcalled => ?_
  have hline := Lexeme.oneLine_identifier hcalled.2
  refine .ite (fun _ => .refuse_bind hcalled.1 hline) fun hreserved => .get (.ite
    (fun _ => .refuse_bind hcalled.1 hline) fun hnew => ?_)
  refine .bind (.members hs hline hwritten (forall_mem_nil _))
    fun found t _ ht hfound => .quiet_bind (.part ht hclose) fun close hplace => ?_
  obtain ⟨hbelow, hadds⟩ := hfound
  have hshape : Shape.Below t.program.types.size (.record found) := hbelow
  refine .discard (.build ht hplace (.addType ht.program hshape hcalled.2 ?_))
  -- the name was new before the members, and their types are vectors or scalars
  intro u hu (heq : u.name = name.text)
  obtain ⟨hreserved, -⟩ := Bool.or_eq_false_iff.mp (Bool.eq_false_iff.mpr hreserved)
  rcases hadds u hu with hold | hnil | hscalar
  · exact absurd (Array.any_eq_true'.mpr
      ⟨u, Array.mem_toList_iff.mp hold, decide_eq_true heq⟩) hnew
  · rw [Marks.called, ← heq, hnil] at hcalled
    cases hcalled.2
  · rw [heq, hreserved] at hscalar
    cases hscalar

theorem closeProcedure {close : Position} {name : Bytes} {stage : Option Stage}
    {ref : ProcedureRef} {base : Elaboration} (hs : s.Closed m limits) (hclose : m.place close)
    (href : ref < s.program.procedures.size)
    (hmarks : s.scopes.marks = base.scopes.locals.size :: base.scopes.marks)
    (hlocals : base.scopes.locals.size ≤ s.scopes.locals.size)
    (hbase : base.program.AtMost s.program) :
    Ends m limits (Elaborate.closeProcedure close name stage ref) s
      fun _ t => base.Onward t ∧ t.Closed m limits ∧ True := by
  refine Ends.bind (.pop hs hmarks hlocals) fun _ t ht => ?_
  obtain ⟨ht, hprogram, hmarks', hlocals'⟩ := ht
  have honward : base.Onward t := ⟨hprogram ▸ hbase, hmarks', Nat.le_of_eq hlocals'.symm⟩
  have hend : ∀ {x : Elaborate Unit}, Safe m limits x t (fun _ _ => True) →
      Ends m limits x t fun _ u => base.Onward u ∧ u.Closed m limits ∧ True :=
    fun hx => Ends.mono hx fun _ u hu => ⟨honward.trans hu.1, hu.2⟩
  cases stage with
  | none => exact hend (.pure ht trivial)
  | some stage =>
    exact hend (.discard (.build ht hclose (.addEntryPoint ht.program (hprogram ▸ href))))

theorem procedureItem {body : List Stmt} (hs : s.Closed m limits) (hname : m.name name)
    (hwritten : m.type written) (hbody : m.block body) (hclose : m.part m.place close) :
    Safe m limits (Elaborate.procedureItem name written body close) s fun _ _ => True := by
  refine .quiet_bind (.noneWaits hs hs.builtin rfl) fun _ _ => ?_
  refine .bind (.takeStage hs) fun stage t _ ht _ => .quiet_bind (.part ht hname)
    fun name hcalled => ?_
  have hline := Lexeme.oneLine_identifier hcalled.2
  refine .get (.ite (fun _ => .refuse_bind hcalled.1 hline) fun _ => ?_)
  refine .bind (.type ht hwritten) fun result u _ hu hresult => ?_
  obtain ⟨hresult, hstart, hlast, -⟩ := hresult
  refine .ite (fun _ => .refuseNaming hu hresult hstart fun _ _ hshown => ⟨hline, hshown⟩)
    fun _ => ?_
  refine .bind (.build hu hlast (.addProcedure hu.program hresult hline))
    fun ref v _ hv href => ?_
  refine Ends.bind (.push hv hlast) fun _ w hw => ?_
  obtain ⟨hw, hprogram, hmarks, hlocals⟩ := hw
  have href : ref < w.program.procedures.size := hprogram ▸ href
  refine Ends.bind (Safe.build hw hlast (.openBlock hw.program href)) fun _ x hx => ?_
  obtain ⟨hwx, hx, -⟩ := hx
  have href := Nat.lt_of_lt_of_le href hwx.program.procedures
  refine Ends.bind (block body hx href hbody) fun _ y hy => ?_
  obtain ⟨hxy, hy, -⟩ := hy
  have href := Nat.lt_of_lt_of_le href hxy.program.procedures
  refine Ends.bind (Safe.part hy hclose) fun close z hz => ?_
  obtain ⟨-, -, rfl, hplace⟩ := hz
  refine Ends.bind (Safe.procedure hy href) fun a z' hz => ?_
  obtain ⟨-, -, rfl, -⟩ := hz
  have hclosed : ∀ x, z'.Onward x → x.Closed m limits →
      Ends m limits (Elaborate.closeProcedure close name.text stage ref) x
        fun _ t => v.Onward t ∧ t.Closed m limits ∧ True := by
    intro x hx hclosed
    have hwx := hwx.trans (hxy.trans hx)
    exact closeProcedure hclosed hplace (Nat.lt_of_lt_of_le href hx.program.procedures)
      (hwx.marks.trans hmarks) (hlocals ▸ hwx.locals) (hprogram ▸ hwx.program)
  by_cases hreturned : a.returned = true
  · rw [if_pos hreturned]
    exact hclosed z' (.refl z') hy
  rw [if_neg hreturned]
  by_cases hvoid : result ≠ voidType
  · have hrefused : Safe m limits (Elaborate.refuse close .missingReturn : Elaborate Unit) z'
        fun _ _ => False := .refuse hplace rfl
    rw [if_pos hvoid]
    exact Ends.bind hrefused fun _ _ h => h.2.2.elim
  · rw [if_neg hvoid]
    exact Ends.bind (Safe.build hy hplace (.exit hy.program href))
      fun _ x hx => hclosed x hx.1 hx.2.1

theorem item {x : Item} (hs : s.Closed m limits) (hx : m.item x) :
    Safe m limits (Elaborate.item x) s fun _ _ => True := by
  cases x with
  | stage pos stage close => exact .stageAttribute hs hx.1 hx.2
  | builtin pos builtin close => exact .builtinAttribute hs hx.1 hx.2
  | global pos direction name type placement =>
    obtain ⟨hpos, hname, htype, hplacement⟩ := hx
    exact .global hs hpos hname htype hplacement
  | record pos name members close => exact .record hs hx.2.1 hx.2.2.1 hx.2.2.2
  | procedure pos name result body close =>
    obtain ⟨-, hname, hresult, hbody, hclose⟩ := hx
    exact .procedureItem hs hname hresult hbody hclose

theorem items {l : List Item} (hs : s.Closed m limits) (hl : ∀ x ∈ l, m.item x) :
    Safe m limits (l.forM Elaborate.item) s fun _ _ => True := by
  induction l generalizing s with
  | nil => exact .pure hs trivial
  | cons x rest ih =>
    obtain ⟨hx, hrest⟩ := forall_mem_cons.mp hl
    exact .bind (.item hs hx) fun _ t _ ht _ => ih ht hrest

theorem sourceTree {tree : SourceTree} (hs : s.Closed m limits) (htree : m.tree tree) :
    Safe m limits (Elaborate.sourceTree tree) s fun _ _ => True := by
  refine .bind (.items hs htree.1) fun _ t _ ht _ =>
    .discard_bind (.part ht htree.2) fun _ u _ hu _ =>
    .quiet_bind (.noneWaits hu hu.stage rfl) fun _ _ => ?_
  exact .mono (.noneWaits hu hu.builtin rfl) fun _ _ _ _ => trivial

end Elaborate.Safe

end Shading
