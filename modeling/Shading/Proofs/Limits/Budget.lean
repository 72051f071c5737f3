import Mathlib.Algebra.Ring.Int.Defs
import Mathlib.Data.List.Induction
import Shading.Proofs.Limits.Start

/-!
The word budget. As long as the sums that are checked are 64-bit numbers, a call
is granted exactly when what was granted before and what is asked for are within
the limit together, and one that is refused changes nothing. A sum beyond these
numbers comes round to a negative one and is granted.
-/

namespace Shading

namespace WordBudget

variable {b : WordBudget} {count : Int64}

/-- What a limit grants in exact arithmetic, call by call. -/
def granted (limit : Int) (counts : List Int64) : Int :=
  counts.foldl (fun sum count => if sum + count.toInt ≤ limit then sum + count.toInt else sum) 0

theorem granted_concat (limit : Int) (counts : List Int64) (count : Int64) :
    granted limit (counts ++ [count]) =
      if granted limit counts + count.toInt ≤ limit then granted limit counts + count.toInt
      else granted limit counts := by
  rw [granted, List.foldl_append]
  rfl

theorem reserve_of_lt (hused : 0 ≤ b.used.toInt) (hcount : 0 ≤ count.toInt)
    (hsum : b.used.toInt + count.toInt < 2 ^ 63) :
    (b.used + count).toInt = b.used.toInt + count.toInt ∧
      b.reserve count = if b.used.toInt + count.toInt ≤ b.limit.toInt then
        .ok { b with used := b.used + count } else .error ⟨.words, b.limit⟩ := by
  have hexact : (b.used + count).toInt = b.used.toInt + count.toInt := by
    rw [Int64.toInt_add, Int.bmod_eq_of_le] <;> omega
  have hover : b.used + count > b.limit ↔ ¬b.used.toInt + count.toInt ≤ b.limit.toInt := by
    rw [gt_iff_lt, Int64.lt_iff_toInt_lt, hexact, Int.not_le]
  refine ⟨hexact, ?_⟩
  rw [reserve]
  by_cases hle : b.used.toInt + count.toInt ≤ b.limit.toInt
  · rw [if_neg (fun h => hover.mp h hle), if_pos hle]
  · rw [if_pos (hover.mpr hle), if_neg hle]

theorem reserve_of_ge (hlimit : 0 ≤ b.limit.toInt)
    (hsum : 2 ^ 63 ≤ b.used.toInt + count.toInt) :
    (b.used + count).toInt = b.used.toInt + count.toInt - 2 ^ 64 ∧
      b.reserve count = .ok { b with used := b.used + count } := by
  have hused := b.used.toInt_lt
  have hcount := count.toInt_lt
  have hround : (b.used + count).toInt = b.used.toInt + count.toInt - 2 ^ 64 := by
    rw [Int64.toInt_add, Int.bmod_def, if_neg (by omega)]
    omega
  refine ⟨hround, ?_⟩
  rw [reserve, if_neg]
  rw [gt_iff_lt, Int64.lt_iff_toInt_lt, hround]
  omega

end WordBudget

namespace Program

open WordBudget (granted)

variable {p : Program} {limit : Int64} {counts : List Int64} {count : Int64}

/-- The program after a call for words, granted or not. -/
def asked (p : Program) (count : Int64) : Program :=
  match Build.reserve count p with
  | .ok _ q => q
  | .error _ q => q

/-- No call asks for a negative number of words, and the sums that are checked are 64-bit
numbers. -/
def SumsFit (limit : Int64) (counts : List Int64) : Prop :=
  ∀ before count, before ++ [count] <+: counts →
    0 ≤ count.toInt ∧ granted limit.toInt before + count.toInt < 2 ^ 63

theorem reserve_eq (count : Int64) (p : Program) : Build.reserve count p =
    match p.words.reserve count with
    | .ok words => .ok () { p with words }
    | .error e => .error (.limit e) p := by
  rw [Build.reserve, Build.bind_of_ok (x := get) (a := p) (q := p) rfl]
  cases p.words.reserve count <;> rfl

theorem reserve_of_fits (hlimit : p.words.limit = limit) (hused : 0 ≤ p.words.used.toInt)
    (hcount : 0 ≤ count.toInt) (hsum : p.words.used.toInt + count.toInt < 2 ^ 63) :
    Build.reserve count p =
      if p.words.used.toInt + count.toInt ≤ limit.toInt then
        .ok () { p with words := ⟨p.words.used + count, limit⟩ }
      else .error (.limit ⟨.words, limit⟩) p := by
  subst hlimit
  rw [reserve_eq, (WordBudget.reserve_of_lt hused hcount hsum).2]
  by_cases hle : p.words.used.toInt + count.toInt ≤ p.words.limit.toInt
  · rw [if_pos hle, if_pos hle]
  · rw [if_neg hle, if_neg hle]

theorem asked_all (hlimit : 0 < limit.toInt) (hp : p.words = ⟨0, limit⟩)
    (hfit : SumsFit limit counts) :
    ∃ used, counts.foldl asked p = { p with words := ⟨used, limit⟩ } ∧
      used.toInt = granted limit.toInt counts ∧ 0 ≤ used.toInt ∧ used.toInt ≤ limit.toInt := by
  induction counts using List.reverseRecOn with
  | nil => exact ⟨0, by rw [← hp]; rfl, rfl, Int.le_refl _, Int.le_of_lt hlimit⟩
  | append_singleton before count ih =>
    obtain ⟨used, hprogram, hgranted, hlow, hhigh⟩ :=
      ih fun earlier call h => hfit earlier call (h.trans (List.prefix_append _ _))
    obtain ⟨hcount, hsum⟩ := hfit before count (List.prefix_refl _)
    rw [← hgranted] at hsum
    have hexact := (WordBudget.reserve_of_lt (b := ⟨used, limit⟩) hlow hcount hsum).1
    have hcall := reserve_of_fits (p := { p with words := ⟨used, limit⟩ }) rfl hlow hcount hsum
    rw [List.foldl_append, List.foldl_cons, List.foldl_nil, hprogram, asked, hcall,
      WordBudget.granted_concat, ← hgranted]
    dsimp only at hexact ⊢
    by_cases hle : used.toInt + count.toInt ≤ limit.toInt
    · rw [if_pos hle, if_pos hle]
      exact ⟨used + count, rfl, hexact, by omega, by omega⟩
    · rw [if_neg hle, if_neg hle]
      exact ⟨used, rfl, rfl, hlow, hhigh⟩

/-- Of calls for words, as long as their sums are 64-bit numbers, those are granted that exact
arithmetic grants within the limit. The words in use are the exact sum of what was granted, and a
call that is refused changes nothing. The first call whose sum is no 64-bit number is granted, and
leaves a negative number of words in use. -/
theorem reserve_exact (hlimit : 0 < limit.toInt) (hp : p.words = ⟨0, limit⟩)
    (hfit : SumsFit limit counts) (hcount : 0 ≤ count.toInt) :
    (counts.foldl asked p).words.used.toInt = granted limit.toInt counts ∧
    0 ≤ granted limit.toInt counts ∧ granted limit.toInt counts ≤ limit.toInt ∧
    (granted limit.toInt counts + count.toInt ≤ limit.toInt →
      ∃ q, Build.reserve count (counts.foldl asked p) = .ok () q ∧
        q.words.used.toInt = granted limit.toInt counts + count.toInt) ∧
    (limit.toInt < granted limit.toInt counts + count.toInt →
      granted limit.toInt counts + count.toInt < 2 ^ 63 →
      Build.reserve count (counts.foldl asked p) =
        .error (.limit ⟨.words, limit⟩) (counts.foldl asked p)) ∧
    (2 ^ 63 ≤ granted limit.toInt counts + count.toInt →
      ∃ q, Build.reserve count (counts.foldl asked p) = .ok () q ∧ q.words.used.toInt < 0) := by
  obtain ⟨used, hprogram, hgranted, hlow, hhigh⟩ := asked_all hlimit hp hfit
  have hwide := limit.toInt_lt
  have hnarrow := count.toInt_lt
  have hcall := reserve_of_fits (p := { p with words := ⟨used, limit⟩ }) rfl hlow hcount
  rw [hprogram, ← hgranted]
  refine ⟨rfl, hlow, hhigh, fun hle => ?_, fun hlt hsum => ?_, fun hsum => ?_⟩
  · have hsum : used.toInt + count.toInt < 2 ^ 63 := by omega
    refine ⟨_, (hcall hsum).trans (if_pos hle), ?_⟩
    exact (WordBudget.reserve_of_lt (b := ⟨used, limit⟩) hlow hcount hsum).1
  · exact (hcall hsum).trans (if_neg (Int.not_le.mpr hlt))
  · obtain ⟨hround, hwords⟩ :=
      WordBudget.reserve_of_ge (b := ⟨used, limit⟩) (Int.le_of_lt hlimit) hsum
    refine ⟨{ p with words := ⟨used + count, limit⟩ }, ?_, ?_⟩
    · rw [reserve_eq, hwords]
    · dsimp only at hround ⊢
      omega

/-- A program that may have ten words and has none. -/
def tenWords : Program where
  limits := {}
  nextId := 1
  types := .empty .types 0
  globals := .empty .globals 0
  constants := .empty .constants 0
  expressions := .empty .expressions 0
  procedures := .empty .procedures 0
  entryPoints := .empty .entryPoints 0
  words := ⟨0, 10⟩
  interfacesUsed := 0

/-- After six and four words of ten, one more is refused. -/
theorem tenWords_exact :
    ([6, 4].foldl asked tenWords).words.used.toInt = granted 10 [6, 4] ∧
      Build.reserve 1 ([6, 4].foldl asked tenWords) =
        .error (.limit ⟨.words, 10⟩) ([6, 4].foldl asked tenWords) := by
  have hfit : SumsFit 10 [6, 4] := by
    intro before count h
    obtain ⟨after, h⟩ := h
    match before, h with
    | [], h =>
      cases h
      decide
    | [_], h =>
      cases h
      decide
    | _ :: _ :: _, h => simp at h
  have hwords : tenWords.words = ⟨0, 10⟩ := rfl
  have hcount : 0 ≤ (1 : Int64).toInt := by decide
  obtain ⟨hused, -, -, -, hrefused, -⟩ := reserve_exact (by decide) hwords hfit hcount
  exact ⟨hused, hrefused (by decide) (by decide)⟩

/-- With one word of ten in use, a call for the greatest number of words is granted, and the number
of words in use is negative. -/
theorem tenWords_overrun : ∃ q, Build.reserve Int64.maxValue (asked tenWords 1) = .ok () q ∧
    q.words.used.toInt = -2 ^ 63 ∧ 10 < granted 10 [1] + Int64.maxValue.toInt := by
  refine ⟨_, rfl, ?_, ?_⟩ <;> decide

end Program

end Shading
