import Shading.Compile
import Shading.DiskCache
import Shading.Proofs.Limits.Start
import Shading.Proofs.Text

/-!
The texts that keys are made from. Such a text tells the limits, as far as
defaults leave them apart, and the source. Nothing else decides how a source is
compiled, so sources and limits with the same text are compiled alike.
-/

namespace Shading

variable {l l' : Limits}

theorem Limits.toList_inj (h : l.toList = l'.toList) : l = l' := by
  cases l
  cases l'
  simpa [toList] using h

open Text

def Limits.spelled (limits : Limits) : List Bytes :=
  limits.withDefaults.toList.map fun l => signed l.toInt

theorem Limits.spelled_inj (h : l.spelled = l'.spelled) :
    l.withDefaults = l'.withDefaults := by
  apply toList_inj
  apply (List.map_inj_right _).mp h
  intro n k heq
  exact Int64.toInt_inj.mp (signed_inj heq)

theorem Limits.ne_of_mem_spelled (l : Limits) {piece : Bytes} {b : UInt8}
    (hpiece : piece ∈ l.spelled) (hb : b ∈ piece) : b ≠ byte ',' ∧ b ≠ byte '\n' := by
  obtain ⟨limit, -, rfl⟩ := List.mem_map.mp hpiece
  rcases toNat_of_mem_signed hb with rfl | hdigit
  · decide
  · constructor
    · rintro rfl
      exact absurd hdigit (by decide)
    · rintro rfl
      exact absurd hdigit (by decide)

theorem Limits.not_mem_join_spelled (l : Limits) : byte '\n' ∉ join [byte ','] l.spelled := by
  intro hmem
  rcases mem_join hmem with hcomma | ⟨piece, hpiece, hbreak⟩
  · exact absurd hcomma (by decide)
  · exact (l.ne_of_mem_spelled hpiece hbreak).2 rfl

theorem keyText_inj {source source' : Bytes}
    (h : keyPreamble l ++ source = keyPreamble l' ++ source') :
    l.withDefaults = l'.withDefaults ∧ source = source' := by
  have hpreamble : ∀ (l : Limits) (source : Bytes), keyPreamble l ++ source =
      utf8 "beans/1/" ++ (join [byte ','] l.spelled ++ byte '\n' :: source) := by
    intro l source
    have hhead : utf8 "beans/" ++ decimal entrySchema.toNat ++ utf8 "/" = utf8 "beans/1/" := by
      decide
    have hbreak : utf8 "\n" = [byte '\n'] := by decide
    have hcomma : utf8 "," = [byte ','] := by decide
    rw [keyPreamble, hhead, hbreak, hcomma]
    simp only [Limits.spelled, List.append_assoc, List.cons_append, List.nil_append]
  rw [hpreamble, hpreamble] at h
  have hlines := append_cons_inj (l.not_mem_join_spelled) (l'.not_mem_join_spelled)
    (List.append_cancel_left h)
  refine ⟨Limits.spelled_inj ?_, hlines.2⟩
  apply join_inj (by simp [Limits.spelled, Limits.toList]) (by simp [Limits.spelled, Limits.toList])
    (fun piece hpiece hmem => (l.ne_of_mem_spelled hpiece hmem).1 rfl)
    (fun piece hpiece hmem => (l'.ne_of_mem_spelled hpiece hmem).1 rfl) hlines.1

theorem compile_of_withDefaults (source : Bytes) (h : l.withDefaults = l'.withDefaults) :
    compile source l = compile source l' := by
  have hnew : Program.new l = Program.new l' := by rw [Program.new_eq, Program.new_eq, h]
  have hprogram : Program.ofSource source l = Program.ofSource source l' := by
    unfold Program.ofSource
    rw [hnew]
  unfold compile
  rw [hprogram]

theorem compile_of_keyText {source source' : Bytes}
    (h : keyPreamble l ++ source = keyPreamble l' ++ source') :
    compile source l = compile source' l' := by
  obtain ⟨hlimits, rfl⟩ := keyText_inj h
  exact compile_of_withDefaults source hlimits

end Shading
