import Shading.Proofs.Assembly

/-!
Counting and writing agree. What a visit sends does not depend on the sink it
is sent to: the counter counts the words that the emitter writes, so the
buffer is filled exactly. An instruction that is too long is noted and those
behind it are left out, but the code of procedures is still sent.
-/

namespace Shading

open List

open Binary (Instruction Opcode Sink Buffer)

variable {code : List Instruction}

namespace Binary

structure Sink.Lawful {σ : Type} (sink : Sink σ) : Prop where
  word : ∀ out w, sink.word out w = sink.words out [w]
  nil : ∀ out, sink.words out [] = out
  append : ∀ out first rest, sink.words out (first ++ rest) = sink.words (sink.words out first) rest

/-- Keeps the words as they are. -/
def Sink.collector : Sink (List UInt32) where
  word received w := received ++ [w]
  words received more := received ++ more

namespace Sink

theorem lawful_counter : counter.Lawful where
  word _ _ := rfl
  nil _ := rfl
  append out first rest := by simp only [counter, length_append, Nat.add_assoc]

@[simp] theorem counter_words (words : List UInt32) : counter.words 0 words = words.length :=
  Nat.zero_add _

theorem lawful_emitter : emitter.Lawful where
  word _ _ := rfl
  nil _ := rfl
  append _ _ _ := foldl_append

theorem Lawful.foldl_word {σ : Type} {sink : Sink σ} (h : sink.Lawful) (words : List UInt32)
    (out : σ) : words.foldl sink.word out = sink.words out words := by
  induction words generalizing out with
  | nil => exact (h.nil out).symm
  | cons w rest ih =>
    rw [foldl_cons, ih, h.word, ← h.append]
    rfl

theorem lawful_collector : collector.Lawful where
  word _ _ := rfl
  nil := append_nil
  append out first rest := (append_assoc out first rest).symm

end Sink

theorem wordsOf_flatten (codes : List (List Instruction)) :
    wordsOf codes.flatten = codes.flatMap wordsOf := by
  induction codes with
  | nil => rfl
  | cons code rest ih => rw [flatten_cons, wordsOf_append, ih, flatMap_cons]

namespace Buffer

theorem foldl_push {b : Buffer} {words : List UInt32} (h : b.offset + 4 * words.length ≤ b.size) :
    words.foldl push b = { b with
      offset := b.offset + 4 * words.length
      written := (bytesOfWords words).reverse ++ b.written } := by
  induction words generalizing b with
  | nil => rfl
  | cons w rest ih =>
    rw [length_cons] at h
    have hroom : ¬ b.size < b.offset + 4 := by omega
    have hpush : b.push w = { b with
        offset := b.offset + 4
        written := (bytesOfWord w).reverse ++ b.written } := if_neg hroom
    rw [foldl_cons, hpush, ih (by dsimp only; omega)]
    simp only [length_cons, bytesOfWords, flatMap_cons, reverse_append,
      append_assoc, mk.injEq, true_and, and_true]
    omega

theorem emitter_words (words : List UInt32) :
    Sink.emitter.words (ofSize (4 * words.length)) words =
      ⟨4 * words.length, 4 * words.length, (bytesOfWords words).reverse, false⟩ := by
  have hroom : (ofSize (4 * words.length)).offset + 4 * words.length ≤
      (ofSize (4 * words.length)).size := Nat.le_of_eq (Nat.zero_add _)
  refine (foldl_push hroom).trans ?_
  simp [ofSize]

end Buffer

end Binary

def Binary.Instruction.oversized? (i : Instruction) : Option AssembleError :=
  if i.isEncodable then none else some (.oversized i.opcode i.wordCount)

def firstOversized (code : List Instruction) : Option AssembleError :=
  code.findSome? Instruction.oversized?

theorem firstOversized_append (code more : List Instruction) :
    firstOversized (code ++ more) = (firstOversized code).or (firstOversized more) :=
  findSome?_append

theorem firstOversized_flatten (codes : List (List Instruction)) :
    firstOversized codes.flatten = codes.findSome? firstOversized := by
  induction codes with
  | nil => rfl
  | cons code rest ih =>
    rw [flatten_cons, firstOversized_append, ih, findSome?_cons]
    cases firstOversized code <;> rfl

theorem firstOversized_flatMap {α : Type} {part : α → List Instruction}
    (h : ∀ a, firstOversized (part a) = none) (l : List α) :
    firstOversized (l.flatMap part) = none := by
  rw [flatMap_def, firstOversized_flatten, findSome?_eq_none_iff]
  exact forall_mem_map.mpr fun a _ => h a

theorem firstOversized_eq_none (h : ∀ i ∈ code, i.isEncodable = true) :
    firstOversized code = none := by
  refine findSome?_eq_none_iff.mpr fun i hi => ?_
  rw [Instruction.oversized?, h i hi, if_pos rfl]

namespace Visit

variable {σ α : Type} {sink : Sink σ}

def Follows (sink : Sink σ) (x : Visit σ Unit) (y : Visit (List UInt32) Unit) : Prop :=
  ∀ out words failure, x.run ⟨sink.words out words, failure⟩ =
    (y.run ⟨words, failure⟩).map fun r => ((), ⟨sink.words out r.2.out, r.2.failure⟩)

namespace Follows

variable {x x' : Visit σ Unit} {y y' : Visit (List UInt32) Unit} {g : α → Visit (List UInt32) Unit}

theorem raw (h : sink.Lawful) (words : List UInt32) :
    Follows sink (Visit.raw sink words) (Visit.raw Sink.collector words) := by
  intro out before failure
  change Except.ok ((), (⟨sink.words (sink.words out before) words, failure⟩ : Walk σ)) = _
  rw [← h.append]
  rfl

theorem header (h : sink.Lawful) (header : Binary.Header) :
    Follows sink (Visit.header sink header) (Visit.header Sink.collector header) := by
  have hraw := raw h header.words
  simp only [Visit.header, h.foldl_word, Sink.lawful_collector.foldl_word]
  exact hraw

theorem instruction (h : sink.Lawful) (i : Instruction) :
    Follows sink (Visit.instruction sink i) (Visit.instruction Sink.collector i) := by
  intro out words failure
  change Except.ok ((), (⟨sink.words out words, failure⟩ : Walk σ).send sink i) =
    Except.ok ((), (⟨sink.words out ((⟨words, failure⟩ : Walk _).send Sink.collector i).out,
      ((⟨words, failure⟩ : Walk _).send Sink.collector i).failure⟩ : Walk σ))
  cases failure with
  | some e => rfl
  | none =>
    by_cases hi : i.isEncodable = true
    · simp only [Walk.send, hi, if_true, Sink.collector, h.word, h.append]
    · simp only [Walk.send, hi, Bool.false_eq_true, if_false]

theorem seq (hx : Follows sink x y) (hx' : Follows sink x' y') :
    Follows sink (x >>= fun _ => x') (y >>= fun _ => y') := by
  intro out words failure
  rw [StateT.run_bind, StateT.run_bind, hx]
  cases y.run ⟨words, failure⟩ with
  | error e => rfl
  | ok r => exact hx' out r.2.out r.2.failure

theorem lookup {f : α → Visit σ Unit} (found : Except Fault α) (h : ∀ a, Follows sink (f a) (g a)) :
    Follows sink (liftM found >>= f) (liftM found >>= g) := by
  intro out words failure
  cases found with
  | error e => rfl
  | ok a => exact h a out words failure

theorem forM {f : α → Visit σ Unit} (l : List α) (h : ∀ a, Follows sink (f a) (g a)) :
    Follows sink (l.forM f) (l.forM g) := by
  induction l with
  | nil => exact fun _ _ _ => rfl
  | cons a rest ih => exact (h a).seq ih

end Follows

def Sends (x : Visit (List UInt32) Unit) (words : List UInt32) (first : Option AssembleError) :
    Prop :=
  ∀ before failure, ∃ walk, x.run ⟨before, failure⟩ = .ok ((), walk) ∧
    walk.failure = failure.or first ∧ (walk.failure = none → walk.out = before ++ words)

namespace Sends

variable {β : Type} {x y : Visit (List UInt32) Unit} {words more : List UInt32}
  {first next : Option AssembleError} {f : α → Visit (List UInt32) Unit}

theorem raw (words : List UInt32) : Sends (Visit.raw Sink.collector words) words none :=
  fun before failure => ⟨⟨before ++ words, failure⟩, rfl, (Option.or_none).symm, fun _ => rfl⟩

theorem header (header : Binary.Header) :
    Sends (Visit.header Sink.collector header) header.words none := by
  unfold Visit.header
  simp only [Sink.lawful_collector.foldl_word]
  exact raw header.words

theorem instruction (i : Instruction) :
    Sends (Visit.instruction Sink.collector i) i.words i.oversized? := by
  intro before failure
  refine ⟨(⟨before, failure⟩ : Walk _).send Sink.collector i, rfl, ?_⟩
  cases failure with
  | some e => exact ⟨rfl, nofun⟩
  | none =>
    cases hi : i.isEncodable with
    | true => simp [Walk.send, hi, Instruction.oversized?, Instruction.words, Sink.collector]
    | false => simp [Walk.send, hi, Instruction.oversized?]

theorem seq (hx : Sends x words first) (hy : Sends y more next) :
    Sends (x >>= fun _ => y) (words ++ more) (first.or next) := by
  intro before failure
  obtain ⟨mid, hmid, hfirst, hwords⟩ := hx before failure
  obtain ⟨walk, hwalk, hnext, hmore⟩ := hy mid.out mid.failure
  refine ⟨walk, ?_, ?_, fun hnone => ?_⟩
  · rw [StateT.run_bind, hmid]
    exact hwalk
  · rw [hnext, hfirst, Option.or_assoc]
  · rw [hnext, Option.or_eq_none_iff] at hnone
    rw [hmore (hnext.trans (Option.or_eq_none_iff.mpr hnone)), hwords hnone.1, append_assoc]

theorem lookup {found : Except Fault α} {a : α} (h : found = .ok a) (hf : Sends (f a) words first) :
    Sends (liftM found >>= f) words first := by
  subst h
  exact hf

theorem forM (look : α → Except Fault β) {l : List α} {found : List β} {words : β → List UInt32}
    {first : β → Option AssembleError} (h : l.mapM look = .ok found)
    (hf : ∀ {a b}, look a = .ok b → Sends (f a) (words b) (first b)) :
    Sends (l.forM f) (found.flatMap words) (found.findSome? first) := by
  induction l generalizing found with
  | nil =>
    obtain rfl := mapM_ok_nil.mp h
    exact fun before failure => ⟨⟨before, failure⟩, rfl, (Option.or_none).symm, fun _ => by simp⟩
  | cons a rest ih =>
    obtain ⟨b, others, hb, hrest, rfl⟩ := mapM_ok_cons.mp h
    have hcons : (b :: others).findSome? first = (first b).or (others.findSome? first) := by
      rw [findSome?_cons]
      cases first b <;> rfl
    rw [flatMap_cons, hcons]
    exact (hf hb).seq (ih hrest)

theorem instructions (code : List Instruction) :
    Sends (code.forM (Visit.instruction Sink.collector)) (Binary.wordsOf code)
      (firstOversized code) := by
  have hcode : code.mapM (fun i => (.ok i : Except Fault Instruction)) = .ok code :=
    mapM_pure.trans (congrArg _ (map_id' code))
  refine forM _ hcode fun hi => ?_
  cases hi
  exact instruction _

theorem sections {look : α → Except Fault (List Instruction)} {l : List α}
    {found : List (List Instruction)} (h : l.mapM look = .ok found)
    (hf : ∀ {a code}, look a = .ok code → Sends (f a) (Binary.wordsOf code) (firstOversized code)) :
    Sends (l.forM f) (Binary.wordsOf found.flatten) (firstOversized found.flatten) := by
  rw [Binary.wordsOf_flatten, firstOversized_flatten]
  exact forM look h hf

theorem declarations {look : α → Except Fault Instruction} {l : List α} {found : List Instruction}
    (h : l.mapM look = .ok found) :
    Sends (l.forM fun a => do Visit.instruction Sink.collector (← look a)) (Binary.wordsOf found)
      (firstOversized found) :=
  forM look h fun ha => .lookup ha (.instruction _)

theorem decorations (l : List α) {part : α → List Instruction}
    (h : ∀ a, firstOversized (part a) = none) :
    Sends (l.forM fun a => (part a).forM (Visit.instruction Sink.collector))
      (Binary.wordsOf (l.flatMap part)) none := by
  have hparts : l.mapM (fun a => (.ok (part a) : Except Fault _)) = .ok (l.map part) :=
    mapM_pure
  rw [← firstOversized_flatMap h l, flatMap_def]
  refine sections hparts fun hcode => ?_
  cases hcode
  exact instructions _

end Sends

end Visit

namespace Program

variable {σ : Type} {sink : Sink σ} {p : Program} {s : Sections} {r : Unit × Walk σ} {walk : Walk σ}

theorem visit_follows (h : sink.Lawful) (p : Program) :
    Visit.Follows sink (p.visit sink) (p.visit Sink.collector) := by
  have hall (code : List Instruction) : Visit.Follows sink
      (code.forM (Visit.instruction sink)) (code.forM (Visit.instruction Sink.collector)) :=
    .forM code fun i => .instruction h i
  unfold visit
  refine .seq (.header h _) (.seq (hall _) (.seq (hall _) (.seq (.forM _ fun _ => ?_)
    (.seq (.forM _ fun _ => ?_) (.seq (.forM _ fun _ => hall _) (.seq (.forM _ fun _ => hall _)
      (.seq (.forM _ fun _ => ?_) (.seq (.forM _ fun _ => ?_) (.seq (.forM _ fun _ => ?_)
        (.forM _ fun procedure => ?_))))))))))
  · exact .lookup _ fun i => .instruction h i
  · exact .lookup _ hall
  · exact .lookup _ fun i => .instruction h i
  · exact .lookup _ fun i => .instruction h i
  · exact .lookup _ fun i => .instruction h i
  · refine .lookup _ fun result => .lookup _ fun type => ?_
    exact .seq (.instruction h _) (.seq (.instruction h _) (.seq (.raw h _) (.seq (.raw h _)
      (.instruction h _))))

theorem sendTo_eq (h : sink.Lawful) (p : Program) (out : σ) :
    p.sendTo sink out = (p.sendTo Sink.collector []).map (sink.words out) := by
  have hfollows := visit_follows h p out [] none
  rw [h.nil] at hfollows
  unfold sendTo
  rw [hfollows]
  cases (p.visit Sink.collector).run ⟨[], none⟩ with
  | error e => rfl
  | ok r =>
    obtain ⟨_, walk⟩ := r
    cases hfailure : walk.failure with
    | some e => simp [Except.map, hfailure]
    | none => simp [Except.map, hfailure]

theorem assemble_eq (p : Program) :
    p.assemble = (p.sendTo Sink.collector []).map Binary.bytesOfWords := by
  unfold assemble
  rw [sendTo_eq Sink.lawful_counter]
  cases hsend : p.sendTo Sink.collector [] with
  | error e => rfl
  | ok words =>
    simp only [Except.map, bind, Except.bind, Sink.counter_words]
    rw [sendTo_eq Sink.lawful_emitter, hsend]
    simp only [Except.map, Buffer.emitter_words]
    simp [Buffer.bytes]
    rfl

theorem visitFunction_sends {procedure : Procedure} (h : p.function procedure = .ok code) :
    Visit.Sends (p.visitFunction Sink.collector procedure) (Binary.wordsOf code) none := by
  obtain ⟨result, type, hresult, htype, rfl⟩ := function_ok h
  have hsends := (Visit.Sends.instruction ⟨.function, [result, procedure.id, 0, type]⟩).seq
    ((Visit.Sends.instruction ⟨.label, [procedure.label]⟩).seq
      ((Visit.Sends.raw (Binary.wordsOf procedure.locals.toList)).seq
        ((Visit.Sends.raw (Binary.wordsOf procedure.body.toList)).seq
          (Visit.Sends.instruction ⟨.functionEnd, []⟩))))
  refine .lookup hresult (.lookup htype ?_)
  simpa [Binary.wordsOf, Instruction.oversized?, Instruction.isEncodable, Instruction.wordCount,
    Binary.maxInstructionWords] using hsends

theorem firstOversized_of_short (h : ∀ i ∈ code, i.operands.length ≤ 4) :
    firstOversized code = none := by
  refine firstOversized_eq_none fun i hi => ?_
  have hwords : i.operands.length + 1 ≤ 5 := Nat.succ_le_succ (h i hi)
  exact decide_eq_true (Nat.le_trans hwords (by decide))

theorem capabilities_short (p : Program) : firstOversized p.capabilities = none := by
  unfold capabilities
  split <;> rfl

theorem globalDecorations_short (g : Global) : firstOversized (globalDecorations g) = none := by
  unfold globalDecorations
  cases g.location <;> cases g.direction.isInterface <;> cases g.builtin.binaryCode? <;> rfl

theorem memberDecorations_short (t : TypeEntry) : firstOversized (memberDecorations t) = none := by
  refine firstOversized_of_short fun i hi => ?_
  unfold memberDecorations at hi
  split at hi
  · obtain ⟨_, -, hi⟩ := mem_filterMap.mp hi
    obtain ⟨_, -, rfl⟩ := Option.map_eq_some_iff.mp hi
    exact Nat.le_refl 4
  · cases hi

namespace Assembles

theorem modes_short (h : p.Assembles s) : firstOversized s.modes.flatten = none := by
  rw [firstOversized_flatten]
  refine findSome?_eq_none_iff.mpr fun modes hmodes => ?_
  obtain ⟨entry, -, hentry⟩ := mapM_ok_mem h.modes hmodes
  obtain ⟨-, id, rfl⟩ | ⟨-, rfl⟩ := executionMode_ok hentry
  · rfl
  · rfl

theorem globals_short (h : p.Assembles s) : firstOversized s.globals = none := by
  refine firstOversized_of_short fun i hi => ?_
  obtain ⟨g, -, hg⟩ := mapM_ok_mem h.globals hi
  obtain ⟨pointer, -, rfl⟩ := globalDeclaration_ok hg
  exact Nat.le_succ 3

theorem constants_short (h : p.Assembles s) : firstOversized s.constants = none := by
  refine firstOversized_of_short fun i hi => ?_
  obtain ⟨c, -, hc⟩ := mapM_ok_mem h.constants hi
  obtain ⟨type, -, rfl⟩ := constantDeclaration_ok hc
  exact Nat.le_succ 3

theorem modes_sends (h : p.Assembles s) :
    Visit.Sends (p.entryPoints.toList.forM fun entry => do
      (← p.executionMode entry).forM (Visit.instruction Sink.collector))
      (Binary.wordsOf s.modes.flatten) none := by
  rw [← h.modes_short]
  exact .sections h.modes fun hcode => .lookup hcode (.instructions _)

theorem functions_sends (h : p.Assembles s) :
    Visit.Sends (p.procedures.toList.forM (p.visitFunction Sink.collector))
      (Binary.wordsOf s.functions.flatten) none := by
  have hnone : s.functions.findSome? (fun _ => (none : Option AssembleError)) = none :=
    findSome?_eq_none_iff.mpr fun _ _ => rfl
  rw [← hnone, Binary.wordsOf_flatten]
  exact .forM p.function h.functions visitFunction_sends

theorem firstOversized_declarations (h : p.Assembles s) : firstOversized (p.declarations s) =
    (firstOversized s.entryPoints).or (firstOversized s.types) := by
  have hpreamble : firstOversized preamble = none := by decide
  simp only [declarations, annotations, firstOversized_append, capabilities_short, hpreamble,
    h.modes_short, firstOversized_flatMap globalDecorations_short,
    firstOversized_flatMap memberDecorations_short, h.globals_short, h.constants_short,
    Option.none_or, Option.or_none]

theorem visit_sends (h : p.Assembles s) : Visit.Sends (p.visit Sink.collector)
    (p.header.words ++ Binary.wordsOf (p.declarations s ++ s.functions.flatten))
    (firstOversized (p.declarations s)) := by
  have hpreamble : firstOversized preamble = none := by decide
  have hvisit := (Visit.Sends.header p.header).seq ((Visit.Sends.instructions p.capabilities).seq
    ((Visit.Sends.instructions preamble).seq ((Visit.Sends.declarations h.entryPoints).seq
      (h.modes_sends.seq ((Visit.Sends.decorations p.globals.toList globalDecorations_short).seq
        ((Visit.Sends.decorations p.types.toList memberDecorations_short).seq
          ((Visit.Sends.declarations h.types).seq ((Visit.Sends.declarations h.globals).seq
            ((Visit.Sends.declarations h.constants).seq h.functions_sends)))))))))
  simp only [capabilities_short, hpreamble, h.globals_short, h.constants_short, Option.none_or,
    Option.or_none, ← Binary.wordsOf_append, ← h.firstOversized_declarations] at hvisit
  simp only [declarations, annotations, append_assoc] at hvisit ⊢
  exact hvisit

theorem sendTo (h : p.Assembles s) : p.sendTo Sink.collector [] =
    match firstOversized (p.declarations s) with
    | some e => .error e
    | none => .ok (p.header.words ++ Binary.wordsOf (p.declarations s ++ s.functions.flatten)) := by
  obtain ⟨walk, hwalk, hfailure, hwords⟩ := h.visit_sends [] none
  rw [Option.none_or] at hfailure
  rw [Program.sendTo, hwalk, ← hfailure]
  cases hfirst : walk.failure with
  | some e => simp only [hfirst]
  | none => simp only [hfirst, hwords hfirst, nil_append]

theorem assemble (h : p.Assembles s) : p.assemble =
    match firstOversized (p.declarations s) with
    | some e => .error e
    | none => .ok (Binary.bytesOfWords
        (p.header.words ++ Binary.wordsOf (p.declarations s ++ s.functions.flatten))) := by
  rw [assemble_eq, h.sendTo]
  cases firstOversized (p.declarations s) <;> rfl

end Assembles

theorem lookup_of_run {α : Type} {found : Except Fault α} {f : α → Visit σ Unit}
    (h : (liftM found >>= f : Visit σ Unit).run walk = .ok r) :
    ∃ a, found = .ok a ∧ (f a).run walk = .ok r := by
  cases found with
  | error e => cases h
  | ok a => exact ⟨a, rfl, h⟩

theorem mapM_of_forM {α β : Type} {look : α → Except Fault β} {f : α → Visit σ Unit} {l : List α}
    (h : (l.forM f).run walk = .ok r)
    (hf : ∀ a {walk : Walk σ} {r : Unit × Walk σ}, (f a).run walk = .ok r → ∃ b, look a = .ok b) :
    ∃ found, l.mapM look = .ok found := by
  induction l generalizing walk with
  | nil => exact ⟨[], rfl⟩
  | cons a rest ih =>
    obtain ⟨mid, hfirst, hrest⟩ := except_bind_ok.mp h
    obtain ⟨b, hb⟩ := hf a hfirst
    obtain ⟨others, hothers⟩ := ih hrest
    exact ⟨b :: others, mapM_ok_cons.mpr ⟨b, others, hb, hothers, rfl⟩⟩

theorem assembles_of_visit (h : (p.visit sink).run walk = .ok r) :
    ∃ s, p.Assembles s := by
  have hone {α β : Type} {look : α → Except Fault β} {f : β → Visit σ Unit} {l : List α}
      {walk : Walk σ} {r : Unit × Walk σ}
      (hrun : (l.forM fun a => (liftM (look a) >>= f : Visit σ Unit)).run walk = .ok r) :
      ∃ found, l.mapM look = .ok found :=
    mapM_of_forM hrun fun a _ _ ha => (lookup_of_run ha).imp fun _ hb => hb.1
  unfold visit at h
  simp only [StateT.run_bind, except_bind_ok] at h
  obtain ⟨_, -, _, -, _, -, _, hentryPoints, _, hmodes, _, -, _, -, _, htypes, _, hglobals, _,
    hconstants, hfunctions⟩ := h
  obtain ⟨entryPoints, hentryPoints⟩ := hone hentryPoints
  obtain ⟨modes, hmodes⟩ := hone hmodes
  obtain ⟨types, htypes⟩ := hone htypes
  obtain ⟨globals, hglobals⟩ := hone hglobals
  obtain ⟨constants, hconstants⟩ := hone hconstants
  have hfunction (a : Procedure) {walk : Walk σ} {r : Unit × Walk σ}
      (ha : (p.visitFunction sink a).run walk = .ok r) : ∃ code, p.function a = .ok code := by
    obtain ⟨result, hresult, hrest⟩ := lookup_of_run ha
    obtain ⟨type, htype, -⟩ := lookup_of_run hrest
    exact ⟨_, except_bind_ok.mpr ⟨result, hresult, except_bind_ok.mpr ⟨type, htype, rfl⟩⟩⟩
  obtain ⟨functions, hfunctions⟩ := mapM_of_forM hfunctions hfunction
  exact ⟨⟨entryPoints, modes, types, globals, constants, functions⟩,
    ⟨hentryPoints, hmodes, htypes, hglobals, hconstants, hfunctions⟩⟩

theorem assemble_cases (p : Program) :
    (∃ s, p.Assembles s) ∨ (∀ s, ¬ p.Assembles s) ∧ p.assemble = .error .outOfRange := by
  cases hvisit : (p.visit Sink.collector).run ⟨[], none⟩ with
  | ok r => exact .inl (assembles_of_visit hvisit)
  | error e =>
    refine .inr ⟨fun s hs => ?_, ?_⟩
    · obtain ⟨walk, hwalk, -⟩ := hs.visit_sends [] none
      rw [hvisit] at hwalk
      cases hwalk
    · rw [assemble_eq, sendTo, hvisit]
      rfl

theorem assemble_ok {binary : Bytes} (h : p.assemble = .ok binary) :
    ∃ s, p.Assembles s ∧ firstOversized (p.declarations s) = none ∧
      binary = Binary.bytesOfWords
        (p.header.words ++ Binary.wordsOf (p.declarations s ++ s.functions.flatten)) := by
  obtain ⟨s, hs⟩ | ⟨-, herror⟩ := assemble_cases p
  · rw [hs.assemble] at h
    split at h
    · cases h
    · next hnone =>
        cases h
        exact ⟨s, hs, hnone, rfl⟩
  · rw [herror] at h
    cases h

end Program

theorem compile_ok {source binary : Bytes} {limits : Limits}
    (h : compile source limits = .ok binary) :
    ∃ p, Program.ofSource source limits = .ok p ∧ p.assemble = .ok binary := by
  unfold compile at h
  cases hp : Program.ofSource source limits with
  | error e => simp [hp, bind, Except.bind] at h
  | ok p =>
    simp only [hp, bind, Except.bind] at h
    cases hassemble : p.assemble with
    | error e => simp [hassemble] at h
    | ok found =>
      simp only [hassemble, pure, Except.pure, Except.ok.injEq] at h
      exact ⟨p, rfl, h ▸ hassemble⟩

end Shading
