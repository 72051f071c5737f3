import Shading.Proofs.Binary.Framing
import Shading.Proofs.Construction.Calls
import Shading.Proofs.Limits.Usage

/-!
Accounts of words. Every word of code that a program has was paid for out of
its budget, and two more for every block that was opened. Calls keep the
accounts balanced whether they succeed or fail, also where an expression fails
after part of its code has been written, and a call that emits a single
instruction fails without a trace.
-/

namespace Shading

open List Program Procedure Build

open Binary (Instruction WellFramed wordsOf)

variable {calls : List Call} {limits : Limits}

/-- Whether a fault is given back as an error. The other ones come of handles that are not there, of
operands that contain themselves and of instructions with more words than any binary can hold. -/
def Fault.isReported : Fault → Bool
  | .limit _ => true
  | .indexOverflow _ => true
  | .expressionWithoutKind => true
  | _ => false

namespace Program

variable {p q : Program} {bound : Int64} {labels : Nat}

def Encodable (p : Program) : Prop :=
  ∀ a ∈ p.procedures.toList, ∀ part, ∀ i ∈ a.code part, i.isEncodable = true

structure Balanced (bound : Int64) (labels : Nat) (p : Program) : Prop where
  used : p.words.used = .ofNat (2 * labels + p.tally Procedure.words)
  limit : p.words.limit = bound
  within : p.words.used ≤ bound
  encodable : p.Encodable

def Alike (p q : Program) : Prop := q.words = p.words ∧ q.procedures = p.procedures

theorem Alike.trans {r : Program} (hpq : p.Alike q) (hqr : q.Alike r) : p.Alike r :=
  ⟨hqr.1.trans hpq.1, hqr.2.trans hpq.2⟩

theorem Balanced.alike (h : Balanced bound labels p) (hpq : p.Alike q) :
    Balanced bound labels q := by
  obtain ⟨hwords, hprocedures⟩ := hpq
  refine ⟨?_, by rw [hwords]; exact h.limit, by rw [hwords]; exact h.within, ?_⟩
  · rw [hwords, tally, hprocedures]
    exact h.used
  · rw [Encodable, hprocedures]
    exact h.encodable

theorem Balanced.modify (h : Balanced bound labels p) (ref : ProcedureRef)
    {change : Procedure → Procedure} (hcode : ∀ a part, (change a).code part = a.code part) :
    Balanced bound labels { p with procedures := p.procedures.modify ref change } := by
  have hwords : ∀ a, (change a).words = a.words := fun a =>
    congrArg₂ (fun locals body => codeWords locals + codeWords body) (hcode a .locals)
      (hcode a .body)
  refine ⟨?_, h.limit, h.within, ?_⟩
  · rw [tally_modify_same _ _ _ _ hwords]
    exact h.used
  · intro a ha part
    obtain hold | ⟨b, hb, rfl⟩ := Arena.mem_modify ha
    · exact h.encodable a hold part
    · rw [hcode]
      exact h.encodable b hb part

theorem Balanced.add (h : Balanced bound labels p) {new : Procedure}
    (hnew : ∀ part, new.code part = []) :
    Balanced bound labels { p with procedures := p.procedures.add new } := by
  have hlist : (p.procedures.add new).toList = p.procedures.toList ++ [new] := by
    simp [Arena.add, Arena.toList]
  have hwords : new.words = 0 := by
    change codeWords (new.code .locals) + codeWords (new.code .body) = 0
    rw [hnew, hnew]
    rfl
  refine ⟨?_, h.limit, h.within, ?_⟩
  · simp only [tally, hlist, map_append, sum_append, map_cons, map_nil,
      sum_singleton, hwords, Nat.add_zero]
    exact h.used
  · change ∀ a ∈ (p.procedures.add new).toList, _
    rw [hlist]
    refine forall_mem_append.mpr ⟨h.encodable, forall_mem_singleton.mpr fun part => ?_⟩
    rw [hnew]
    exact forall_mem_nil _

end Program

namespace Build

variable {α β : Type} {p : Program} {least : Nat} {ref : ProcedureRef} {x : Build α}

def Leads (x : Build α) (p : Program) (done : α → Program → Prop) (failed : Program → Prop) :
    Prop :=
  match x p with
  | .ok a q => done a q
  | .error e q => e.isReported = true → failed q

theorem Leads.mono {done done' : α → Program → Prop} {failed failed' : Program → Prop}
    (h : x.Leads p done failed) (hdone : ∀ a q, done a q → done' a q)
    (hfailed : ∀ q, failed q → failed' q) : x.Leads p done' failed' := by
  unfold Leads at h ⊢
  cases hx : x p with
  | ok a q => rw [hx] at h; exact hdone a q h
  | error e q => rw [hx] at h; exact fun he => hfailed q (h he)

theorem Leads.bind {f : α → Build β} {mid : α → Program → Prop} {done : β → Program → Prop}
    {failed : Program → Prop} (hx : x.Leads p mid failed)
    (hf : ∀ a q, mid a q → (f a).Leads q done failed) : (x >>= f).Leads p done failed := by
  unfold Leads at hx
  cases h : x p with
  | ok a q =>
    rw [h] at hx
    unfold Leads
    rw [bind_of_ok h]
    exact hf a q hx
  | error e q =>
    rw [h] at hx
    unfold Leads
    rw [bind_of_error h]
    exact hx

theorem Leads.discard {done failed : Program → Prop} (hx : x.Leads p (fun _ => done) failed) :
    (discard x).Leads p (fun _ => done) failed := by
  rw [discard_eq]
  exact hx.bind fun _ _ hq => hq

theorem Leads.get {failed : Program → Prop} :
    Leads (MonadState.get : Build Program) p (fun a q => p = a ∧ p = q) failed := ⟨rfl, rfl⟩

/-- An operation that leaves the budget and the procedures alone. -/
def Idle (x : Build α) : Prop := ∀ p, x.Leads p (fun _ => p.Alike) p.Alike

namespace Idle

theorem pure (a : α) : Idle (Pure.pure a) := fun _ => ⟨rfl, rfl⟩

theorem throw (e : Fault) : Idle (MonadExcept.throw e : Build α) := fun _ _ => ⟨rfl, rfl⟩

theorem bind {x : Build α} {f : α → Build β} (hx : Idle x) (hf : ∀ a, Idle (f a)) :
    Idle (x >>= f) := fun p =>
  (hx p).bind fun a q hq => (hf a q).mono (fun _ _ => hq.trans) fun _ => hq.trans

theorem get : Idle (MonadState.get : Build Program) := fun _ => ⟨rfl, rfl⟩

theorem view (read : Program → Except Fault α) : Idle (view read) := by
  refine get.bind fun p => ?_
  cases read p with
  | ok a => exact .pure a
  | error e => exact .throw e

theorem freshId : Idle freshId := fun _ => ⟨rfl, rfl⟩

end Idle

section Charging

variable {bound : Int64} {labels : Nat}

theorem reserve_leads (count : Int64) (p : Program) :
    (reserve count).Leads p (fun _ q => p.words.used + count ≤ p.words.limit ∧
      q = { p with words := ⟨p.words.used + count, p.words.limit⟩ }) p.Alike := by
  unfold reserve
  refine Leads.get.bind ?_
  rintro _ _ ⟨rfl, rfl⟩
  unfold WordBudget.reserve
  split
  · next words hwords =>
    split at hwords
    · cases hwords
    · next hroom =>
      cases hwords
      exact ⟨Int64.not_lt.mp hroom, rfl⟩
  · exact fun _ => ⟨rfl, rfl⟩

theorem procedure_leads (ref : ProcedureRef) (p : Program) (failed : Program → Prop) :
    (procedure ref).Leads p (fun _ q => p = q ∧ ref < p.procedures.size) failed := by
  unfold procedure view
  refine Leads.get.bind ?_
  rintro _ _ ⟨rfl, rfl⟩
  dsimp only
  cases hfound : p.procedures.get? ref with
  | none =>
    rw [procedureAt_error.mpr ⟨hfound, rfl⟩]
    exact fun he => nomatch he
  | some a =>
    rw [procedureAt_ok.mpr hfound]
    exact ⟨rfl, Arena.get?_lt hfound⟩

theorem charged_leads {i : Instruction} {change : Procedure → Procedure} (part : CodePart)
    (hcode : ∀ a part', (change a).code part' = a.code part' ++ if part' = part then [i] else [])
    (hp : Program.Balanced bound labels p) (href : ref < p.procedures.size) :
    (charge i >>= fun _ => modifyProcedure ref change).Leads p
      (fun _ q => Program.Balanced bound labels q ∧ q.procedures.size = p.procedures.size)
        p.Alike := by
  unfold charge
  rw [bind_assoc]
  refine (reserve_leads _ p).bind ?_
  rintro _ _ ⟨hroom, rfl⟩
  cases hencodable : i.isEncodable with
  | false => exact fun he => nomatch he
  | true =>
    refine ⟨⟨?_, hp.limit, ?_, ?_⟩, Arena.size_modify _ _ _⟩
    · obtain ⟨old, hold⟩ := Arena.get?_of_lt href
      have htally := tally_modify hold change words
      rw [Walk.words_of_code hcode] at htally
      have htotal : ({ p with procedures := p.procedures.modify ref change } : Program).tally
          words = p.tally words + i.wordCount := by omega
      change p.words.used + .ofNat i.wordCount = .ofNat (2 * labels +
        ({ p with procedures := p.procedures.modify ref change } : Program).tally words)
      rw [htotal, hp.used, ← Int64.ofNat_add, Nat.add_assoc]
    · exact hp.limit ▸ hroom
    · intro a ha part' j hj
      obtain hold | ⟨b, hb, rfl⟩ := Arena.mem_modify ha
      · exact hp.encodable a hold part' j hj
      · rw [hcode] at hj
        obtain hj | hj := mem_append.mp hj
        · exact hp.encodable b hb part' j hj
        · split at hj
          · cases mem_singleton.mp hj
            exact hencodable
          · cases hj

end Charging

/-- In a program with some number of procedures an operation keeps the accounts balanced. -/
def Keeps (least : Nat) (x : Build α) : Prop :=
  ∀ bound labels p, Program.Balanced bound labels p → least ≤ p.procedures.size →
    x.Leads p (fun _ q => Program.Balanced bound labels q ∧ p.procedures.size ≤ q.procedures.size)
      (Program.Balanced bound labels)

namespace Keeps

theorem bind {x : Build α} {f : α → Build β} (hx : Keeps least x) (hf : ∀ a, Keeps least (f a)) :
    Keeps least (x >>= f) := by
  intro bound labels p hp hleast
  refine (hx bound labels p hp hleast).bind fun a q hq => ?_
  exact (hf a bound labels q hq.1 (Nat.le_trans hleast hq.2)).mono
    (fun _ _ hr => ⟨hr.1, Nat.le_trans hq.2 hr.2⟩) fun _ hr => hr

theorem of_idle {x : Build α} (hx : Idle x) : Keeps least x := fun _ _ p hp _ =>
  (hx p).mono (fun _ _ hq => ⟨hp.alike hq, Nat.le_of_eq (congrArg Arena.size hq.2).symm⟩)
    fun _ hq => hp.alike hq

theorem modifyProcedure (ref : ProcedureRef) {change : Procedure → Procedure}
    (hcode : ∀ a part, (change a).code part = a.code part) :
    Keeps least (modifyProcedure ref change) := fun _ _ _ hp _ =>
  ⟨hp.modify ref hcode, Nat.le_of_eq (Arena.size_modify _ _ _).symm⟩

theorem push {pool : Program → Arena α} {put : Program → Arena α → Program} {item : α}
    (hwords : ∀ p a, (put p a).words = p.words)
    (hprocedures : ∀ p, (put p ((pool p).add item)).procedures = p.procedures ∨
      ∃ new : Procedure, (∀ part, new.code part = []) ∧
        (put p ((pool p).add item)).procedures = p.procedures.add new) :
    Keeps least (push pool put item) := by
  intro bound labels p hp hleast
  have hthrow (e : Fault) := of_idle (Idle.throw (α := Nat) e) bound labels p hp hleast
  unfold Build.push
  refine Leads.get.bind ?_
  rintro _ _ ⟨rfl, rfl⟩
  split
  · split
    · obtain hsame | ⟨new, hnew, hadd⟩ := hprocedures p
      · exact ⟨hp.alike ⟨hwords _ _, hsame⟩, Nat.le_of_eq (congrArg Arena.size hsame).symm⟩
      · refine ⟨(hp.add hnew).alike ⟨hwords _ _, hadd⟩, ?_⟩
        rw [hadd, Arena.size_add]
        exact Nat.le_succ _
    · exact hthrow _
  · exact hthrow _

theorem find {f : Procedure → Build α} (h : ∀ a, Keeps (ref + 1) (f a)) :
    Keeps least (procedure ref >>= f) := by
  intro bound labels p hp hleast
  refine (procedure_leads ref p _).bind ?_
  rintro a _ ⟨rfl, href⟩
  exact h a bound labels p hp href

theorem touch (global : GlobalRef) :
    Keeps (ref + 1) (do
      let program ← get
      if fits (program.interfacesUsed + 1) program.limits.interfaces then
        set { program with interfacesUsed := program.interfacesUsed + 1 }
        Build.modifyProcedure ref fun p => { p with interface := p.interface.push global }
      else MonadExcept.throw (.limit ⟨.interfaces, program.limits.interfaces⟩)) := by
  intro bound labels p hp hleast
  refine Leads.get.bind ?_
  rintro _ _ ⟨rfl, rfl⟩
  split
  · exact modifyProcedure ref (fun a part => by cases part <;> rfl) bound labels _
      (hp.alike ⟨rfl, rfl⟩) hleast
  · exact of_idle (.throw _) bound labels _ hp hleast

end Keeps

/-- Every operation keeps the accounts balanced. -/
theorem Walk.keeps {ρ : Renaming} {effect : Gauge → Gauge} {f : α → β} {y : Build β}
    (h : Walk ρ least effect f x y) : Keeps least x := by
  induction h with
  | pure _ => exact .of_idle (.pure _)
  | throw e => exact .of_idle (.throw e)
  | bind _ _ ihx ihk => exact ihx.bind ihk
  | read _ _ ih => exact .bind (.of_idle .get) ih
  | find _ ih => exact .find ih
  | freshId => exact .of_idle .freshId
  | push _ _ _ _ _ _ hwords hprocedures => exact .push hwords hprocedures
  | modifyGlobal ref _ => exact .of_idle fun _ => ⟨rfl, rfl⟩
  | modifyProcedure ref hcode _ =>
    refine .modifyProcedure ref fun a part => ?_
    cases part with
    | locals => exact congrArg Array.toList (hcode a).1
    | body => exact congrArg Array.toList (hcode a).2.1
  | charge i part hcode _ _ =>
    exact fun _ _ p hp href => (charged_leads part hcode hp href).mono
      (fun _ _ hq => ⟨hq.1, Nat.le_of_eq hq.2.symm⟩) fun _ => hp.alike
  | touch global => exact .touch global

end Build

namespace Call

open Build

variable {bound : Int64} {labels : Nat} {p q : Program} {ref : ProcedureRef}

def opens : Call → Nat
  | .openBlock _ => 1
  | _ => 0

theorem openBlock_single (hp : Program.Balanced bound labels p) :
    (Build.openBlock ref).Leads p (fun _ q => Program.Balanced bound (labels + 1) q) p.Alike := by
  refine (procedure_leads ref p _).discard.bind ?_
  rintro _ _ ⟨rfl, -⟩
  refine (reserve_leads 2 _).bind ?_
  rintro _ _ ⟨hroom, rfl⟩
  refine Balanced.modify ?_ ref fun a part => by cases part <;> rfl
  refine ⟨?_, hp.limit, hp.limit ▸ hroom, hp.encodable⟩
  change p.words.used + Int64.ofNat 2 = .ofNat (2 * (labels + 1) + p.tally words)
  rw [hp.used, ← Int64.ofNat_add]
  exact congrArg Int64.ofNat (by omega)

theorem leads (call : Call) (hp : Program.Balanced bound labels p) :
    call.run.Leads p (fun _ q => Program.Balanced bound (labels + call.opens) q)
      (Program.Balanced bound labels) := by
  have of_walk : ∀ {α : Type} {effect : Gauge → Gauge} {f : α → α} {x y : Build α},
      Build.Walk .keep 0 effect f x y →
      x.Leads p (fun _ q => Balanced bound labels q) (Balanced bound labels) :=
    fun hx => (hx.keeps bound labels p hp (Nat.zero_le _)).mono (fun _ _ hq => hq.1) fun _ hq => hq
  cases call with
  | vectorType component size => exact .discard (of_walk (.typeOfShape fun _ h => nomatch h))
  | pointerType base storage => exact .discard (of_walk (.typeOfShape fun _ h => nomatch h))
  | procedureType result => exact .discard (of_walk (.typeOfShape fun _ h => nomatch h))
  | recordType name members => exact (of_walk (.addType _ _)).discard
  | namedType name => exact (of_walk (.namedType name)).discard
  | floatConstant bits => exact (of_walk (.floatConstant bits)).discard
  | addExpression kind type => exact (of_walk (.addExpression kind type)).discard
  | addGlobal global => exact (of_walk (.addGlobal global)).discard
  | setGlobal ref global =>
    exact of_walk (y := modifyGlobal ref fun _ => Renaming.keep.global global)
      (.modifyGlobal ref fun _ => rfl)
  | addProcedure name result => exact (of_walk (.addProcedure name result)).discard
  | markReturned ref =>
    exact of_walk (y := modifyProcedure ref fun a => { a with returned := true })
      (.modifyProcedure ref (fun _ => ⟨rfl, rfl, rfl⟩) fun _ => rfl)
  | addEntryPoint entry => exact (of_walk (.addEntryPoint entry)).discard
  | registerInterface ref place => exact of_walk (.registerInterface place)
  | openBlock ref => exact (openBlock_single hp).mono (fun _ _ hq => hq) fun _ => hp.alike
  | declareVariable ref pointer => exact (of_walk (.declareVariable pointer)).discard
  | expression ref e => exact (of_walk (.expression e)).discard
  | store ref pointer value => exact of_walk (.store pointer value)
  | exit ref => exact of_walk .exit
  | exitValue ref value => exact of_walk (.exitValue value)

/-- Makes calls one after the other, going on after errors, and counts the blocks that were opened.
There is nothing to count where a call is misused. -/
def attempts : List Call → Program → Option (Nat × Program)
  | [], p => some (0, p)
  | call :: rest, p =>
    match call.run p with
    | .ok _ q => (attempts rest q).map fun r => (call.opens + r.1, r.2)
    | .error e q => if e.isReported then attempts rest q else none

theorem attempts_of_runAll {u : Unit} (h : runAll calls p = .ok u q) :
    ∃ opened, attempts calls p = some (opened, q) := by
  induction calls generalizing p with
  | nil =>
    obtain ⟨-, rfl⟩ := pure_ok.mp h
    exact ⟨0, rfl⟩
  | cons call rest ih =>
    obtain ⟨_, r, hcall, hrest⟩ := bind_ok.mp h
    obtain ⟨opened, hattempts⟩ := ih hrest
    refine ⟨call.opens + opened, ?_⟩
    simp only [attempts, hcall, hattempts, Option.map_some]

theorem attempts_balanced {opened : Nat} (h : attempts calls p = some (opened, q))
    (hp : Program.Balanced bound labels p) : Program.Balanced bound (labels + opened) q := by
  induction calls generalizing p labels opened with
  | nil =>
    cases h
    exact hp
  | cons call rest ih =>
    have hleads := call.leads hp
    unfold Leads at hleads
    rw [attempts] at h
    split at h
    · next u r hrun =>
      rw [hrun] at hleads
      obtain ⟨⟨more, q'⟩, hrest, heq⟩ := Option.map_eq_some_iff.mp h
      obtain ⟨rfl, rfl⟩ := Prod.mk.inj heq
      rw [← Nat.add_assoc]
      exact ih hrest hleads
    · next e r hrun =>
      rw [hrun] at hleads
      split at h
      · next he => exact ih h (hleads he)
      · cases h

end Call

namespace Program

theorem balanced_new {start : Program} (h : new limits = .ok start) :
    start.Balanced limits.withDefaults.words 0 := by
  rw [new_eq] at h
  split at h
  · cases h
    refine ⟨rfl, rfl, ?_, nofun⟩
    have hpos : 1 ≤ limits.withDefaults.words.toInt := Limits.resolve_pos (by decide)
    exact Int64.le_iff_toInt_le.mpr (Int.le_trans (show (0 : Int64).toInt ≤ 1 by decide) hpos)
  · cases h

end Program

end Shading
