import Shading.Proofs.Safety.Diagnostics

/-!
Types are told by the texts that show them, at every point of elaboration. A
point lies before, between or behind the parts of a tree, or right behind the
registration of a type: anywhere else the types are those of such a point. What
comes before a point has succeeded, but what comes behind it may fail, so the
points of a source that is refused are points as well.
-/

namespace Shading

variable {pos : Position}

def Expr.first? : Expr → Option Expr
  | .stopped operand _ => some operand
  | .paren _ inner _ => some inner
  | .sum _ _ left _ => some left
  | .scale _ _ left _ => some left
  | .vector _ first _ _ => some first
  | _ => none

def Expr.sides? : Expr → Option (Expr × Expr)
  | .sum _ _ left right => some (left, right)
  | .scale _ _ left right => some (left, right)
  | _ => none

def Stmt.first? : Stmt → Option Expr
  | .giveBack _ value _ => some value
  | .evaluate value _ => some value
  | .assign target _ _ _ => some target
  | _ => none

namespace Marks

variable {m : Marks}

theorem expr_first {x first : Expr} (h : m.expr x) (hfirst : x.first? = some first) :
    m.expr first := by
  cases x with
  | missing | var | number => cases hfirst
  | stopped operand why =>
    cases hfirst
    exact h.1
  | _ =>
    cases hfirst
    exact h.2.1

theorem expr_sides {x left right : Expr} (h : m.expr x) (hsides : x.sides? = some (left, right)) :
    m.expr left ∧ m.expr right := by
  cases x with
  | sum | scale =>
    cases hsides
    exact h.2
  | _ => cases hsides

theorem stmt_first {x : Stmt} {first : Expr} (h : m.stmt x) (hfirst : x.first? = some first) :
    m.expr first := by
  cases x with
  | giveBack =>
    cases hfirst
    exact h.2.1
  | evaluate | assign =>
    cases hfirst
    exact h.1
  | _ => cases hfirst

end Marks

namespace Elaborate

inductive Task where
  | type (written : TypeSyntax)
  | expr (x : Expr)
  | elements (component : TypeRef) (count : UInt32) (rest : List Expr)
  | statement (ref : ProcedureRef) (x : Stmt)
  | block (ref : ProcedureRef) (body : List Stmt)
  | member (record : Bytes) (earlier : List Member) (written : MemberSyntax)
  | members (record : Bytes) (earlier : List Member) (written : List MemberSyntax)
  | item (x : Item)
  | items (rest : List Item)

def Task.run : Task → Elaborate Unit
  | .type written => discard (Elaborate.type written)
  | .expr x => discard (Elaborate.expr x)
  | .elements component count rest => discard (Elaborate.elements component count rest)
  | .statement ref x => Elaborate.statement ref x
  | .block ref body => Elaborate.block ref body
  | .member record earlier written => discard (Elaborate.member record earlier written)
  | .members record earlier written => discard (Elaborate.members record earlier written)
  | .item x => Elaborate.item x
  | .items rest => rest.forM Elaborate.item

/-- A task that starts in a state passes through another state. -/
inductive Passes : Task → Elaboration → Elaboration → Prop
  | start {task : Task} {s : Elaboration} : Passes task s s
  | done {task : Task} {s t : Elaboration} : task.run s = .ok ((), t) → Passes task s t
  | component {pos : Position} {size : UInt32} {component : TypeSyntax} {close : Part Position}
      {s t : Elaboration} :
      Passes (.type component) s t → Passes (.type (.vector pos size component close)) s t
  | operand {x first : Expr} {s t : Elaboration} :
      x.first? = some first → Passes (.expr first) s t → Passes (.expr x) s t
  | right {x left right : Expr} {l : ExprRef} {s r t : Elaboration} :
      x.sides? = some (left, right) → expr left s = .ok (l, r) →
      Passes (.expr right) r t → Passes (.expr x) s t
  | elements {pos : Position} {first : Expr} {rest : List Expr} {close : Part Position}
      {e : ExprRef} {found : TypeRef × UInt32} {s r t : Elaboration} :
      expr first s = .ok (e, r) → firstElement e first.start r = .ok (found, r) →
      Passes (.elements found.1 found.2 rest) r t →
      Passes (.expr (.vector pos first rest close)) s t
  | literal {pos close : Position} {first : Expr} {rest : List Expr} {e : ExprRef}
      {found : TypeRef × UInt32} {others : List ExprRef × UInt32} {type : TypeRef}
      {s r u t : Elaboration} :
      expr first s = .ok (e, r) → firstElement e first.start r = .ok (found, r) →
      Elaborate.elements found.1 found.2 rest r = .ok (others, u) →
      2 ≤ others.2.toNat ∧ others.2.toNat ≤ 4 →
      build close (Build.vectorType found.1 others.2) u = .ok (type, t) →
      Passes (.expr (.vector pos first rest (.ok close))) s t
  | element {component : TypeRef} {count : UInt32} {x : Expr} {rest : List Expr}
      {s t : Elaboration} :
      Passes (.expr x) s t → Passes (.elements component count (x :: rest)) s t
  | nextElement {component : TypeRef} {count size : UInt32} {x : Expr} {rest : List Expr}
      {e : ExprRef} {s r t : Elaboration} :
      expr x s = .ok (e, r) → elementSize component e x.start r = .ok (size, r) →
      Passes (.elements component (count + size) rest) r t →
      Passes (.elements component count (x :: rest)) s t
  | declaredType {ref : ProcedureRef} {pos : Position} {name : Name} {written : TypeSyntax}
      {equal : Part Position} {value : Expr} {close : Part Position} {s t : Elaboration} :
      Passes (.type written) s t →
      Passes (.statement ref (.declare pos (.ok name) written equal value close)) s t
  | declaredPointer {ref : ProcedureRef} {pos : Position} {name : Name} {written : TypeSyntax}
      {equal : Part Position} {value : Expr} {close : Part Position} {type pointer : TypeRef}
      {s r t : Elaboration} :
      variableType name.text written s = .ok (type, r) →
      build written.last (Build.pointerType type .function) r = .ok (pointer, t) →
      Passes (.statement ref (.declare pos (.ok name) written equal value close)) s t
  | declaredValue {ref : ProcedureRef} {pos equal : Position} {name : Name} {written : TypeSyntax}
      {value : Expr} {close : Part Position} {type pointer : TypeRef} {s r u t : Elaboration} :
      variableType name.text written s = .ok (type, r) →
      build written.last (Build.pointerType type .function) r = .ok (pointer, u) →
      Passes (.expr value) u t →
      Passes (.statement ref (.declare pos (.ok name) written (.ok equal) value close)) s t
  | value {ref : ProcedureRef} {x : Stmt} {first : Expr} {s t : Elaboration} :
      x.first? = some first → Passes (.expr first) s t → Passes (.statement ref x) s t
  | assigned {ref : ProcedureRef} {target value : Expr} {pos : Position} {close : Part Position}
      {e : ExprRef} {s r t : Elaboration} :
      expr target s = .ok (e, r) → Passes (.expr value) r t →
      Passes (.statement ref (.assign target pos value close)) s t
  | group {ref : ProcedureRef} {pos : Position} {body : List Stmt} {close : Part Position}
      {s r t : Elaboration} :
      scope pos (·.push) s = .ok ((), r) → Passes (.block ref body) r t →
      Passes (.statement ref (.group pos body close)) s t
  | statement {ref : ProcedureRef} {next : Stmt} {rest : List Stmt} {s t : Elaboration} :
      Passes (.statement ref next) s t → Passes (.block ref (next :: rest)) s t
  | nextStatement {ref : ProcedureRef} {next : Stmt} {rest : List Stmt} {s r t : Elaboration} :
      Elaborate.statement ref next s = .ok ((), r) → Passes (.block ref rest) r t →
      Passes (.block ref (next :: rest)) s t
  | memberType {record : Bytes} {earlier : List Member} {written : MemberSyntax}
      {s t : Elaboration} :
      Passes (.type written.type) s t → Passes (.member record earlier written) s t
  | member {record : Bytes} {earlier : List Member} {next : MemberSyntax}
      {rest : List MemberSyntax} {s t : Elaboration} :
      Passes (.member record earlier next) s t → Passes (.members record earlier (next :: rest)) s t
  | nextMember {record : Bytes} {earlier : List Member} {next : MemberSyntax} {found : Member}
      {rest : List MemberSyntax} {s r t : Elaboration} :
      Elaborate.member record earlier next s = .ok (found, r) →
      Passes (.members record (found :: earlier) rest) r t →
      Passes (.members record earlier (next :: rest)) s t
  | globalType {pos : Position} {direction : Direction} {name : Part Name} {written : TypeSyntax}
      {placement : Part (Option Placement)} {builtin : Option (Builtin × Position)}
      {ref : GlobalRef} {s q r t : Elaboration} :
      takeBuiltin s = .ok (builtin, q) →
      build pos (Build.addGlobal ⟨[], direction, none, .absent, voidType, voidType, 0⟩) q =
        .ok (ref, r) →
      Passes (.type written) r t → Passes (.item (.global pos direction name written placement)) s t
  | globalPointer {pos : Position} {direction : Direction} {name : Name} {written : TypeSyntax}
      {placement : Part (Option Placement)} {builtin : Option (Builtin × Position)}
      {ref : GlobalRef} {type pointer : TypeRef} {s q r u t : Elaboration} :
      takeBuiltin s = .ok (builtin, q) →
      build pos (Build.addGlobal ⟨[], direction, none, .absent, voidType, voidType, 0⟩) q =
        .ok (ref, r) →
      variableType name.text written r = .ok (type, u) →
      build written.last (Build.pointerType type direction.storageClass) u = .ok (pointer, t) →
      Passes (.item (.global pos direction (.ok name) written placement)) s t
  | recordMembers {pos : Position} {name : Name} {members : List MemberSyntax}
      {close : Part Position} {s t : Elaboration} :
      Passes (.members name.text [] members) s t →
      Passes (.item (.record pos (.ok name) members close)) s t
  | result {pos : Position} {name : Part Name} {written : TypeSyntax} {body : List Stmt}
      {close : Part Position} {stage : Option Stage} {s r t : Elaboration} :
      takeStage s = .ok (stage, r) → Passes (.type written) r t →
      Passes (.item (.procedure pos name written body close)) s t
  | procedure {pos : Position} {name : Name} {written : TypeSyntax} {body : List Stmt}
      {close : Part Position} {stage : Option Stage} {type : TypeRef} {ref : ProcedureRef}
      {s q r t : Elaboration} :
      takeStage s = .ok (stage, q) → Elaborate.type written q = .ok (type, r) →
      build written.last (Build.addProcedure name.text type) r = .ok (ref, t) →
      Passes (.item (.procedure pos (.ok name) written body close)) s t
  | body {pos : Position} {name : Name} {written : TypeSyntax} {body : List Stmt}
      {close : Part Position} {stage : Option Stage} {type : TypeRef} {ref : ProcedureRef}
      {s q r u v w t : Elaboration} :
      takeStage s = .ok (stage, q) → Elaborate.type written q = .ok (type, r) →
      build written.last (Build.addProcedure name.text type) r = .ok (ref, u) →
      scope written.last (·.push) u = .ok ((), v) →
      build written.last (Build.openBlock ref) v = .ok ((), w) → Passes (.block ref body) w t →
      Passes (.item (.procedure pos (.ok name) written body close)) s t
  | item {next : Item} {rest : List Item} {s t : Elaboration} :
      Passes (.item next) s t → Passes (.items (next :: rest)) s t
  | nextItem {next : Item} {rest : List Item} {s r t : Elaboration} :
      Elaborate.item next s = .ok ((), r) → Passes (.items rest) r t →
      Passes (.items (next :: rest)) s t

def Task.Fits (m : Marks) (s : Elaboration) : Task → Prop
  | .type written => m.type written
  | .expr x => m.expr x
  | .elements _ count rest => m.elements rest ∧ ∃ length, Safe.Counts length count
  | .statement ref x => ref < s.program.procedures.size ∧ m.stmt x
  | .block ref body => ref < s.program.procedures.size ∧ m.block body
  | .member record _ written => Text.OneLine record ∧ m.member written
  | .members record earlier written => Text.OneLine record ∧ (∀ w ∈ written, m.member w) ∧
      ∀ x ∈ earlier, x.type < s.program.types.size
  | .item x => m.item x
  | .items rest => ∀ x ∈ rest, m.item x

variable {m : Marks} {limits : Limits} {s t : Elaboration}

theorem Ends.ok {α : Type} {x : Elaborate α} {a : α} {good : α → Elaboration → Prop}
    (hx : Ends m limits x s good) (h : x s = .ok (a, t)) : good a t := by
  unfold Ends at hx
  rw [h] at hx
  exact hx

theorem Task.Fits.run {task : Task} (h : task.Fits m s) (hs : s.Closed m limits) :
    Ends m limits task.run s fun _ t => s.Onward t ∧ t.Closed m limits := by
  have hsafe : ∀ {α : Type} {x : Elaborate α} {good : α → Elaboration → Prop},
      Safe m limits x s good →
      Ends m limits x s (fun _ t => s.Onward t ∧ t.Closed m limits) :=
    fun hx => Ends.mono hx fun _ _ ht => ⟨ht.1, ht.2.1⟩
  cases task with
  | type written => exact hsafe (.discard (.type hs h))
  | expr x => exact hsafe (.discard (Safe.expr x hs h))
  | elements component count rest =>
    obtain ⟨hrest, length, hcount⟩ := h
    exact hsafe (.discard (Safe.elements rest hs hrest hcount))
  | statement ref x => exact hsafe (Safe.statement x hs h.1 h.2)
  | block ref body => exact hsafe (Safe.block body hs h.1 h.2)
  | member record earlier written => exact hsafe (.discard (.member hs h.1 h.2))
  | members record earlier written => exact hsafe (.discard (.members hs h.1 h.2.1 h.2.2))
  | item x => exact hsafe (.item hs h)
  | items rest => exact hsafe (.items hs h)

theorem closed_of_addGlobal {direction : Direction} {q : Elaboration}
    {builtin : Option (Builtin × Position)} {ref : GlobalRef} (hs : s.Closed m limits)
    (hpos : m.place pos) (htake : takeBuiltin s = .ok (builtin, q))
    (hadd : build pos (Build.addGlobal ⟨[], direction, none, .absent, voidType, voidType, 0⟩) q =
      .ok (ref, t)) : t.Closed m limits := by
  obtain ⟨-, hq, -⟩ := Ends.ok (Safe.takeBuiltin hs) htake
  have hvoid : voidType < q.program.types.size :=
    Nat.lt_of_lt_of_le (Nat.succ_pos 1) hq.program.seeded
  have hbuild : Build.Safe (m.room limits)
      (Build.addGlobal ⟨[], direction, none, .absent, voidType, voidType, 0⟩) q.program
      fun ref r => ref < r.globals.size := .addGlobal hq.program hvoid List.not_mem_nil
  exact (Ends.ok (Safe.build hq hpos hbuild) hadd).2.1

theorem closed_of_pointerType {type pointer : TypeRef} {storage : StorageClass}
    (hs : s.Closed m limits) (hpos : m.place pos) (htype : type < s.program.types.size)
    (hstorage : storage.isNamed = true)
    (h : build pos (Build.pointerType type storage) s = .ok (pointer, t)) : t.Closed m limits := by
  have hbuild : Build.Safe (m.room limits) (Build.pointerType type storage) s.program
      fun ref q => ref < q.types.size :=
    .typeOfShape hs.program htype fun _ => ⟨rfl, hstorage⟩
  exact (Ends.ok (Safe.build hs hpos hbuild) h).2.1

theorem closed_of_vectorType {component type : TypeRef} {size : UInt32} (hs : s.Closed m limits)
    (hpos : m.place pos) (hcomponent : component < s.program.types.size)
    (hsize : 2 ≤ size.toNat ∧ size.toNat ≤ 4)
    (h : build pos (Build.vectorType component size) s = .ok (type, t)) : t.Closed m limits := by
  have hshape : Shape.Below s.program.types.size (.vector component size) := by
    refine ⟨hcomponent, ?_⟩
    simp only [← UInt32.toNat_inj, UInt32.toNat_ofNat]
    omega
  have hbuild : Build.Safe (m.room limits) (Build.vectorType component size) s.program
      fun ref q => ref < q.types.size := .typeOfShape hs.program hshape fun _ => rfl
  exact (Ends.ok (Safe.build hs hpos hbuild) h).2.1

theorem Passes.closed {task : Task} (h : Passes task s t) (hs : s.Closed m limits)
    (hfits : task.Fits m s) : t.Closed m limits := by
  induction h with
  | start => exact hs
  | done hrun => exact ((hfits.run hs).ok hrun).2
  | component _ ih => exact ih hs hfits.2.2.1
  | operand hfirst _ ih => exact ih hs (Marks.expr_first hfits hfirst)
  | right hsides hleft _ ih =>
    obtain ⟨hl, hr⟩ := Marks.expr_sides hfits hsides
    exact ih (Ends.ok (Safe.expr _ hs hl) hleft).2.1 hr
  | elements hfirst hfound _ ih =>
    obtain ⟨-, hx, hrest, -⟩ := hfits
    obtain ⟨-, hr, he, hstart, -⟩ := Ends.ok (Safe.expr _ hs hx) hfirst
    obtain ⟨-, -, -, -, hsize⟩ := Ends.ok (Safe.firstElement hr he.1 hstart) hfound
    exact ih hr ⟨hrest.1, 1, .first hsize⟩
  | literal hfirst hfound hrest htotal hvector =>
    obtain ⟨-, hx, hxs, hclose⟩ := hfits
    obtain ⟨-, hr, he, hstart, -⟩ := Ends.ok (Safe.expr _ hs hx) hfirst
    obtain ⟨-, -, -, hcomponent, hsize⟩ := Ends.ok (Safe.firstElement hr he.1 hstart) hfound
    obtain ⟨hru, hu, -⟩ := Ends.ok (Safe.elements _ hr hxs.1 (.first hsize)) hrest
    exact closed_of_vectorType hu hclose (Nat.lt_of_lt_of_le hcomponent hru.program.types) htotal
      hvector
  | element _ ih => exact ih hs hfits.1.1
  | nextElement hx hsize _ ih =>
    obtain ⟨hxs, length, hcount⟩ := hfits
    obtain ⟨-, hr, he, hstart, -⟩ := Ends.ok (Safe.expr _ hs hxs.1) hx
    obtain ⟨-, -, -, hsize⟩ := Ends.ok (Safe.elementSize hr he.1 hstart) hsize
    exact ih hr ⟨hxs.2, _, hcount.next hsize⟩
  | declaredType _ ih =>
    obtain ⟨-, -, -, hwritten, -⟩ := hfits
    exact ih hs hwritten
  | declaredPointer htype hpointer =>
    obtain ⟨-, -, hname, hwritten, -⟩ := hfits
    obtain ⟨-, hr, hlt, -, hlast, -⟩ := Ends.ok
      (Safe.variableType hs (Lexeme.oneLine_identifier hname.2) hwritten) htype
    exact closed_of_pointerType hr hlast hlt rfl hpointer
  | declaredValue htype hpointer _ ih =>
    obtain ⟨-, -, hname, hwritten, -, hvalue, -⟩ := hfits
    obtain ⟨-, hr, hlt, -, hlast, -⟩ := Ends.ok
      (Safe.variableType hs (Lexeme.oneLine_identifier hname.2) hwritten) htype
    exact ih (closed_of_pointerType hr hlast hlt rfl hpointer) hvalue
  | value hfirst _ ih => exact ih hs (Marks.stmt_first hfits.2 hfirst)
  | assigned htarget _ ih =>
    obtain ⟨-, hx, -, hvalue, -⟩ := hfits
    exact ih (Ends.ok (Safe.expr _ hs hx) htarget).2.1 hvalue
  | group hpush _ ih =>
    obtain ⟨href, hpos, hbody, -⟩ := hfits
    obtain ⟨hr, hprogram, -⟩ := Ends.ok (.push hs hpos) hpush
    exact ih hr ⟨hprogram ▸ href, hbody⟩
  | statement _ ih => exact ih hs ⟨hfits.1, hfits.2.1⟩
  | nextStatement hrun _ ih =>
    obtain ⟨href, hx, -, hrest⟩ := hfits
    obtain ⟨hsr, hr, -⟩ := Ends.ok (Safe.statement _ hs href hx) hrun
    exact ih hr ⟨Nat.lt_of_lt_of_le href hsr.program.procedures, hrest⟩
  | memberType _ ih => exact ih hs hfits.2.2.1
  | member _ ih => exact ih hs ⟨hfits.1, hfits.2.1 _ List.mem_cons_self⟩
  | nextMember hrun _ ih =>
    obtain ⟨hrecord, hwritten, hearlier⟩ := hfits
    obtain ⟨hnext, hrest⟩ := List.forall_mem_cons.mp hwritten
    obtain ⟨hsr, hr, hfound, -⟩ := Ends.ok (Safe.member hs hrecord hnext) hrun
    refine ih hr ⟨hrecord, hrest, List.forall_mem_cons.mpr ⟨hfound, fun x hx => ?_⟩⟩
    exact Nat.lt_of_lt_of_le (hearlier x hx) hsr.program.types
  | globalType htake hadd _ ih =>
    obtain ⟨hpos, -, hwritten, -⟩ := hfits
    exact ih (closed_of_addGlobal hs hpos htake hadd) hwritten
  | @globalPointer _ direction _ _ _ _ _ _ _ _ _ _ _ _ htake hadd htype hpointer =>
    obtain ⟨hpos, hname, hwritten, -⟩ := hfits
    obtain ⟨-, hu, hlt, -, hlast, -⟩ := Ends.ok (Safe.variableType
      (closed_of_addGlobal hs hpos htake hadd) (Lexeme.oneLine_identifier hname.2) hwritten) htype
    have hstorage : direction.storageClass.isNamed = true := by cases direction <;> rfl
    exact closed_of_pointerType hu hlast hlt hstorage hpointer
  | recordMembers _ ih =>
    obtain ⟨-, hname, hmembers, -⟩ := hfits
    exact ih hs ⟨Lexeme.oneLine_identifier hname.2, hmembers, List.forall_mem_nil _⟩
  | result htake _ ih => exact ih (Ends.ok (Safe.takeStage hs) htake).2.1 hfits.2.2.1
  | procedure htake htype hadd =>
    obtain ⟨-, hname, hwritten, -⟩ := hfits
    obtain ⟨-, hq, -⟩ := Ends.ok (Safe.takeStage hs) htake
    obtain ⟨-, hr, hlt, -, hlast, -⟩ := Ends.ok (Safe.type hq hwritten) htype
    exact (Ends.ok (Safe.build hr hlast (.addProcedure hr.program hlt
      (Lexeme.oneLine_identifier hname.2))) hadd).2.1
  | body htake htype hadd hpush hopen _ ih =>
    obtain ⟨-, hname, hwritten, hbody, -⟩ := hfits
    obtain ⟨-, hq, -⟩ := Ends.ok (Safe.takeStage hs) htake
    obtain ⟨-, hr, hlt, -, hlast, -⟩ := Ends.ok (Safe.type hq hwritten) htype
    obtain ⟨-, hu, href⟩ := Ends.ok (Safe.build hr hlast (.addProcedure hr.program hlt
      (Lexeme.oneLine_identifier hname.2))) hadd
    obtain ⟨hv, hprogram, -⟩ := Ends.ok (.push hu hlast) hpush
    rw [← hprogram] at href
    obtain ⟨hvw, hw, -⟩ := Ends.ok (Safe.build hv hlast (.openBlock hv.program href)) hopen
    exact ih hw ⟨Nat.lt_of_lt_of_le href hvw.program.procedures, hbody⟩
  | item _ ih => exact ih hs (hfits _ List.mem_cons_self)
  | nextItem hrun _ ih =>
    obtain ⟨hnext, hrest⟩ := List.forall_mem_cons.mp hfits
    exact ih (Ends.ok (Safe.item hs hnext) hrun).2.1 hrest

end Elaborate

namespace Program

/-- The displayed names of types identify them. In the program of every source that is accepted, and
at every point of the elaboration of any source, whether it is accepted or not, every type has a
displayed name and no two types have the same one; and so it was when only the first of these types
were registered. In particular no source is refused because a type does not fit itself. -/
theorem typeNames_identify (source : Bytes) (limits : Limits) :
    (∀ p, ofSource source limits = .ok p → p.NamesIdentify) ∧
    (∀ start t, new limits = .ok start →
      Elaborate.Passes (.items (SourceTree.ofSource source).items) (.ofProgram start) t →
      ∀ types : Arena TypeEntry, types.toList <+: t.program.types.toList →
        { t.program with types }.NamesIdentify) ∧
    ∀ pos type, (∀ name, ofSource source limits ≠
        .error (.refused ⟨pos, .initializerType name type type⟩)) ∧
      ofSource source limits ≠ .error (.refused ⟨pos, .returnType type type⟩) := by
  have htree := SourceTree.marked_ofSource source
  have hnamed := ofSource_named limits htree
  refine ⟨fun p hp => ?_, fun start t hstart hpasses types htypes => ?_,
    fun pos type => ⟨fun name hrefused => ?_, fun hrefused => ?_⟩⟩
  · rw [hp] at hnamed
    exact hnamed.namesIdentify (List.prefix_refl _)
  · rw [new_eq] at hstart
    split at hstart <;> cases hstart
    have hclosed := closed_ofProgram (Marks.ofSource source) limits.withDefaults
    exact (hpasses.closed hclosed htree.1).program.namesIdentify htypes
  · rw [hrefused] at hnamed
    obtain ⟨-, hsyntax⟩ | ⟨-, -, -, hne⟩ := hnamed
    · cases hsyntax
    · exact hne rfl
  · rw [hrefused] at hnamed
    obtain ⟨-, hsyntax⟩ | ⟨-, -, hne⟩ := hnamed
    · cases hsyntax
    · exact hne rfl

def pairSource : Bytes := Text.utf8 "record pair x: vec2<f32>; end"

def pairsSource : Bytes := pairSource ++ Text.utf8 " in v: vec2<pair>;"

theorem pairSource_typeNames :
    (∃ p, ofSource pairSource {} = .ok p ∧ p.types.size = 4 ∧ p.NamesIdentify) ∧
    (ofSource pairsSource {}).isOk = false ∧
    ∃ start t, new {} = .ok start ∧
      Elaborate.Passes (.items (SourceTree.ofSource pairsSource).items) (.ofProgram start) t ∧
      t.program.types.size = 4 ∧ t.program.NamesIdentify := by
  have haccepted : (ofSource pairSource {}).toOption.map (·.types.size) = some 4 := by
    decide +kernel
  have hrefused : (ofSource pairsSource {}).isOk = false := by decide +kernel
  have hpoint : ((new {}).toOption.bind fun start =>
      (SourceTree.ofSource pairsSource).items.head?.bind fun first =>
        (Elaborate.item first (.ofProgram start)).toOption.map (·.2.program.types.size)) =
      some 4 := by decide +kernel
  refine ⟨?_, hrefused, ?_⟩
  · cases h : ofSource pairSource {} with
    | error e => simp [h, Except.toOption] at haccepted
    | ok p =>
      simp only [h, Except.toOption, Option.map_some, Option.some.injEq] at haccepted
      exact ⟨p, rfl, haccepted, (typeNames_identify pairSource {}).1 p h⟩
  · cases hstart : new {} with
    | error e => simp [hstart, Except.toOption] at hpoint
    | ok start =>
      cases hitems : (SourceTree.ofSource pairsSource).items with
      | nil => simp [hitems] at hpoint
      | cons first rest =>
        cases hrun : Elaborate.item first (.ofProgram start) with
        | error e => simp [hstart, hitems, hrun, Except.toOption] at hpoint
        | ok done =>
          simp only [hstart, hitems, hrun, Except.toOption, Option.bind_some, List.head?_cons,
            Option.map_some, Option.some.injEq] at hpoint
          have hpasses : Elaborate.Passes (.items (SourceTree.ofSource pairsSource).items)
              (.ofProgram start) done.2 := hitems ▸ .nextItem hrun .start
          exact ⟨start, done.2, rfl, hitems ▸ hpasses, hpoint,
            (typeNames_identify pairsSource {}).2.1 start done.2 hstart hpasses _
              (List.prefix_refl _)⟩

end Program

end Shading
