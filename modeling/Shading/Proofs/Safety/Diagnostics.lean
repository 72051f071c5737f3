import Shading.Compile
import Shading.Proofs.Lexing
import Shading.Proofs.Limits.Start
import Shading.Proofs.Safety.Elaborating

/-!
A source that is refused is refused at one of its tokens. Every failure is a
diagnostic with a message of bounded length and a place, and the place is the
line and the column of an offset into the source where a token starts, where
no token can start, or where the source ends.
-/

namespace Shading

variable {m : Marks} {source : Bytes}

theorem characterBoundary_le (text : Bytes) (cut : Nat) : characterBoundary text cut ≤ cut := by
  induction cut with
  | zero => exact Nat.le_refl 0
  | succ cut ih =>
    rw [characterBoundary]
    split
    · split
      · exact Nat.le_refl _
      · exact Nat.le_succ_of_le ih
    · exact Nat.le_refl _

theorem length_truncateMessage (text : Bytes) : (truncateMessage text).length ≤ 512 := by
  unfold truncateMessage
  split
  · assumption
  · rw [List.length_take]
    exact Nat.le_trans (Nat.min_le_left _ _) (characterBoundary_le text maxMessageLength)

theorem Text.length_signed (n : Int64) : (signed n.toInt).length ≤ 20 := by
  have hlow := n.le_toInt
  have hhigh := n.toInt_lt
  have hdigits : ∀ k : Nat, k < 10 ^ 19 → (decimal k).length ≤ 19 := by
    intro k hk
    rw [decimal, List.length_map]
    exact (Nat.length_toDigits_le_iff (by decide) (by decide)).mpr hk
  cases hn : n.toInt with
  | ofNat k =>
    rw [hn, Int.ofNat_eq_natCast] at hhigh
    exact Nat.le_succ_of_le (hdigits k (by omega))
  | negSucc k =>
    rw [hn] at hlow
    exact Nat.succ_le_succ (hdigits (k + 1) (by omega))

theorem Exhausted.length_message {e : Exhausted} (h : e.pool.IsOwn) : e.message.length ≤ 512 := by
  have hwhat : e.pool.what.length ≤ 17 := by
    cases hpool : e.pool with
    | named what => exact absurd hpool (h what)
    | _ => decide
  have hlimit := Text.length_signed e.limit
  have hfirst : (Text.utf8 "exceeded maximum number of ").length = 27 := by decide
  have hopen : (Text.utf8 " (").length = 2 := by decide
  have hclose : (Text.utf8 ")").length = 1 := by decide
  simp only [message, List.length_append, hfirst, hopen, hclose]
  omega

def Marks.ofSource (source : Bytes) : Marks where
  place pos := pos ∈ (Tokens.ofSource source).places
  hole why := why.pos ∈ (Tokens.ofSource source).places ∧ why.cause.isSyntactic = true
  size := source.length

theorem Marks.tokens_of_places (hplace : ∀ pos ∈ (Tokens.ofSource source).places, m.place pos)
    (hhole : ∀ why, (Tokens.ofSource source).ending = .error why →
      why.pos ∈ (Tokens.ofSource source).places → m.hole why) (hsize : source.length ≤ m.size) :
    m.tokens (.ofSource source) := by
  refine ⟨⟨fun token htoken => ?_, Nat.le_trans (Tokens.length_ofSource source) hsize⟩, ?_⟩
  · exact ⟨hplace _ (List.mem_append_left _ (List.mem_map_of_mem htoken)),
      Tokens.names_ofSource source token htoken⟩
  · cases hending : (Tokens.ofSource source).ending with
    | ok pos =>
      refine hplace pos (List.mem_append_right _ (List.mem_singleton.mpr ?_))
      rw [hending]
    | error why =>
      refine hhole why hending (List.mem_append_right _ (List.mem_singleton.mpr ?_))
      rw [hending]

theorem Marks.tokens_ofSource (source : Bytes) :
    (Marks.ofSource source).tokens (.ofSource source) := by
  refine tokens_of_places (fun _ hpos => hpos) (fun why hwhy hpos => ⟨hpos, ?_⟩) (Nat.le_refl _)
  exact Cause.isSyntactic_of_isLexical ((Tokens.ofSource_stand source).2 why hwhy)

theorem SourceTree.marked_ofSource (source : Bytes) :
    (Marks.ofSource source).tree (.ofSource source) :=
  SourceTree.marked (Marks.tokens_ofSource source)
    fun _ _ hplace hcause => ⟨hplace, hcause.isSyntactic⟩

def Room.ofSource (source : Bytes) (limits : Limits) : Room := ⟨limits.withDefaults, source.length⟩

namespace Program

theorem closed_seeded (room : Room) : (seeded room.limits).Closed room where
  limited := rfl
  seeded := Nat.le_refl 2
  types := by
    intro ref entry hentry
    have hmem := Arena.mem_of_get? hentry
    have hshape : entry.shape = .void ∨ entry.shape = .scalar .f32 := by
      simp only [Program.seeded, Arena.toList, List.mem_cons, List.not_mem_nil, or_false] at hmem
      rcases hmem with rfl | rfl
      · exact .inl rfl
      · exact .inr rfl
    rcases hshape with h | h <;> rw [h] <;> trivial
  constants := fun _ h => nomatch h
  globals := fun _ h => nomatch h
  expressions := fun _ _ h => nomatch h
  procedures := fun _ h => nomatch h
  entryPoints := fun _ h => nomatch h

theorem labelled_seeded (limits : Limits) : (seeded limits).Labelled := by
  have htypes : (seeded limits).types.toList =
      [⟨Text.utf8 "void", 2, .void⟩, ⟨Text.utf8 "f32", 3, .scalar .f32⟩] := rfl
  refine ⟨⟨?_, ?_⟩, (fun _ h => nomatch h), fun _ h => nomatch h⟩ <;> rw [htypes]
  · exact List.forall_mem_cons.mpr ⟨rfl, List.forall_mem_singleton.mpr rfl⟩
  · refine List.pairwise_pair.mpr fun hname => ?_
    exact absurd hname (by decide)

theorem closed_ofProgram (m : Marks) (limits : Limits) :
    (Elaboration.ofProgram (seeded limits)).Closed m limits :=
  ⟨⟨closed_seeded (m.room limits), labelled_seeded limits⟩, rfl, (fun _ h => nomatch h),
    (fun _ h => nomatch h),
    fun _ h => nomatch h⟩

end Program

/-- Errors that are reported to whoever compiles a source. The others are faults. -/
def CompileError.isReported : CompileError → Bool
  | .limit _ => true
  | .refused _ => true
  | .assembly (.oversized _ _) => true
  | _ => false

def CompileError.Allowed (m : Marks) (limits : Limits) : CompileError → Prop
  | .limit e => e = ⟨.types, limits.types⟩ ∧ limits.types.toInt < 2
  | .refused why => Stop.Allowed m limits (.refused why)
  | .fault f => Stop.Allowed m limits (.fault f)
  | _ => False

theorem Program.ofSource_named (limits : Limits) (htree : m.tree (.ofSource source)) :
    match ofSource source limits with
    | .ok p => p.Named (m.room limits.withDefaults)
    | .error e => e.Allowed m limits.withDefaults := by
  unfold ofSource
  rw [new_eq]
  cases htwo : fits 2 limits.withDefaults.types with
  | false => exact ⟨rfl, Int.not_le.mp (of_decide_eq_false htwo)⟩
  | true =>
    have hrun := Elaborate.Safe.sourceTree (closed_ofProgram m limits.withDefaults) htree
    unfold Elaborate.Safe Elaborate.Ends at hrun
    simp only [if_true, StateT.run]
    cases h : Elaborate.sourceTree (.ofSource source)
        (.ofProgram (seeded limits.withDefaults)) with
    | ok r =>
      rw [h] at hrun
      exact hrun.2.1.program
    | error stop =>
      rw [h] at hrun
      cases stop with
      | refused why => exact hrun
      | fault f => exact hrun

theorem Program.ofSource_allowed (limits : Limits) (htree : m.tree (.ofSource source)) :
    match ofSource source limits with
    | .ok p => p.Closed (m.room limits.withDefaults)
    | .error e => e.Allowed m limits.withDefaults := by
  have hnamed := ofSource_named limits htree
  cases h : ofSource source limits with
  | ok p =>
    rw [h] at hnamed
    exact hnamed.toClosed
  | error e =>
    rw [h] at hnamed
    exact hnamed

namespace Program

/-- Every error that is reported when a source is read as a program is a diagnostic about one of its
places. No error is reported only if elaboration runs into a fault, which needs a source of 2³⁰
bytes or more and limits that allow a literal of more than 2³⁰ elements. -/
theorem failure_isPositioned (source : Bytes) (limits : Limits)
    (htypes : 2 ≤ limits.withDefaults.types.toInt) {e : CompileError}
    (h : ofSource source limits = .error e) :
    (e.isReported = true → ∃ why, e = .refused why ∧ why.message.length ≤ 512 ∧
      why.pos ∈ (Tokens.ofSource source).places ∧
      (∃ offset ≤ source.length, why.pos = .ofOffset source offset) ∧
      ∀ full, why.limit? = some full → why.message = full.message) ∧
    (e.isReported = false → e = .fault (.oversized .compositeConstruct) ∧
      (Room.ofSource source limits).AllowsOverlong) := by
  have hallowed := ofSource_allowed limits (SourceTree.marked_ofSource source)
  rw [h] at hallowed
  cases e with
  | limit e => exact absurd htypes (Int.not_le.mpr hallowed.2)
  | fault f =>
    obtain ⟨rfl, hlimits⟩ := hallowed
    exact ⟨nofun, fun _ => ⟨rfl, hlimits⟩⟩
  | assembly e => exact hallowed.elim
  | listing e => exact hallowed.elim
  | refused why =>
    have hplace : why.pos ∈ (Tokens.ofSource source).places := hallowed.elim (·.1) (·.1)
    refine ⟨fun _ => ⟨why, rfl, length_truncateMessage _, hplace,
      (Tokens.ofSource_stand source).1 _ hplace, ?_⟩, nofun⟩
    intro full hfull
    obtain ⟨pos, cause⟩ := why
    cases cause with
    | limit e =>
      cases hfull
      rcases hallowed with hhole | hsemantic
      · cases hhole.2
      · exact if_pos (Exhausted.length_message hsemantic.2.1)
    | _ => cases hfull

def crowdedSource : Bytes := Text.utf8 "procedure p() -> void\n  1.0 + 2.0; end"

theorem crowdedSource_failure :
    2 ≤ ({ expressions := 1 } : Limits).withDefaults.types.toInt ∧
    ofSource crowdedSource { expressions := 1 } =
      .error (.refused ⟨⟨2, 9⟩, .limit ⟨.expressions, 1⟩⟩) ∧
    ⟨2, 9⟩ ∈ (Tokens.ofSource crowdedSource).places ∧
    (∃ offset ≤ crowdedSource.length, ⟨2, 9⟩ = Position.ofOffset crowdedSource offset) ∧
    (⟨⟨2, 9⟩, .limit ⟨.expressions, 1⟩⟩ : Diagnostic).message =
      Exhausted.message ⟨.expressions, 1⟩ := by
  have hcheck : (match ofSource crowdedSource { expressions := 1 } with
      | .ok _ => false
      | .error e => decide (e = .refused ⟨⟨2, 9⟩, .limit ⟨.expressions, 1⟩⟩)) = true := by
    decide +kernel
  have htypes : 2 ≤ ({ expressions := 1 } : Limits).withDefaults.types.toInt := by decide
  cases h : ofSource crowdedSource { expressions := 1 } with
  | ok p => simp [h] at hcheck
  | error e =>
    rw [h] at hcheck
    obtain rfl := of_decide_eq_true hcheck
    refine ⟨htypes, rfl, ?_⟩
    obtain ⟨why, hwhy, -, hplace, hoffset, hmessage⟩ :=
      (failure_isPositioned crowdedSource { expressions := 1 } htypes h).1 rfl
    cases hwhy
    exact ⟨hplace, hoffset, hmessage _ rfl⟩

end Program

end Shading
