import Shading.Proofs.Running

/-!
The program that a compilation starts with: void, the 32-bit float and nothing
else, if the limits leave room for them.
-/

namespace Shading

theorem Limits.resolve_pos {limit fallback : Int64} (h : 1 ≤ fallback.toInt) :
    1 ≤ (resolve limit fallback).toInt := by
  unfold resolve
  split
  · exact h
  · next hlimit =>
      have hpos := Int64.lt_iff_toInt_lt.mp (Int64.not_le.mp hlimit)
      exact hpos

namespace Build

variable {α β : Type} {x : Build α} {f : α → Build β} {p q : Program}

theorem bind_of_ok {a : α} (h : x p = .ok a q) : (x >>= f) p = f a q := by
  change EStateM.bind x f p = _
  unfold EStateM.bind
  rw [h]

theorem bind_of_error {e : Fault} (h : x p = .error e q) : (x >>= f) p = .error e q := by
  change EStateM.bind x f p = _
  unfold EStateM.bind
  rw [h]

variable {name : Bytes} {shape : Shape}

theorem addType_room (hroom : p.types.hasRoom = true) (hindex : p.types.hasIndex = true) :
    addType name shape p = .ok p.types.size
      { p with types := p.types.add ⟨name, p.nextId, shape⟩, nextId := p.nextId + 1 } := by
  simp only [addType, bind_ok, get_ok, push_ok, discard_ok, freshId_ok, pure_ok]
  exact ⟨p, p, ⟨rfl, rfl⟩, p.types.size, _, ⟨⟨hroom, hindex⟩, rfl, rfl⟩, (), _, ⟨_, rfl, rfl⟩, rfl,
    rfl⟩

theorem addType_full (hroom : p.types.hasRoom = false) :
    addType name shape p = .error (.limit p.types.exhausted) p := by
  refine (bind_of_ok rfl).trans (bind_of_error ?_)
  unfold push
  change (if p.types.hasRoom = true then _ else _ : Build Nat) p = _
  rw [hroom]
  rfl

end Build

namespace Program

def bare (limits : Limits) : Program where
  limits := limits
  nextId := extendedSetId + 1
  types := .empty .types limits.types
  globals := .empty .globals limits.globals
  constants := .empty .constants limits.constants
  expressions := .empty .expressions limits.expressions
  procedures := .empty .procedures limits.procedures
  entryPoints := .empty .entryPoints limits.entryPoints
  words := ⟨0, limits.words⟩
  interfacesUsed := 0

def seeded (limits : Limits) : Program :=
  { bare limits with
    nextId := 4
    types := ⟨#[⟨Text.utf8 "void", 2, .void⟩, ⟨Text.utf8 "f32", 3, .scalar .f32⟩], .types,
      limits.types⟩ }

theorem new_eq (limits : Limits) :
    new limits =
      if fits 2 limits.withDefaults.types then .ok (seeded limits.withDefaults)
      else .error ⟨.types, limits.withDefaults.types⟩ := by
  have hone : fits 1 limits.withDefaults.types = true :=
    decide_eq_true (Limits.resolve_pos (by decide))
  let first : Program := { bare limits.withDefaults with
    nextId := 3
    types := ⟨#[⟨Text.utf8 "void", 2, .void⟩], .types, limits.withDefaults.types⟩ }
  have hvoid : discard (Build.addType (Text.utf8 "void") .void) (bare limits.withDefaults) =
      .ok () first := Build.discard_ok.mpr ⟨0, Build.addType_room hone rfl⟩
  rw [bare] at hvoid
  rw [new, EStateM.run, Build.bind_of_ok hvoid]
  cases htwo : fits 2 limits.withDefaults.types with
  | true =>
    have hroom : first.types.hasRoom = true := htwo
    have hfloat : discard (Build.addType (Text.utf8 "f32") (.scalar .f32)) first =
        .ok () (seeded limits.withDefaults) :=
      Build.discard_ok.mpr ⟨1, Build.addType_room hroom rfl⟩
    rw [hfloat]
    rfl
  | false =>
    have hroom : first.types.hasRoom = false := htwo
    rw [Build.discard_eq, Build.bind_of_error (Build.addType_full hroom)]
    rfl

end Program

end Shading
