import Shading.Proofs.Files.Places

/-!
What the operations on a tree do to its files. Each of them leaves the files of
the tree, or some of them, and adds at most one: `Within` and `Adds` say so.
-/

namespace Shading.FileTree

open Shading.Text Shading.Path

variable {entry : FileEntry}

variable {t t' t'' : FileTree} {place other : Place} {path content content' : Bytes}

/-- A file with some content stands at a place. -/
def Holds (t : FileTree) (place : Place) (content : Bytes) : Prop :=
  t.lookup place = some (.file content)

structure Within (t' t : FileTree) : Prop where
  files : ∀ place content, t'.Holds place content → t.Holds place content
  start : t'.workingDirectory = t.workingDirectory

structure Adds (t t' : FileTree) (place : Place) (content : Bytes) : Prop where
  files : ∀ other content', t'.Holds other content' →
    t.Holds other content' ∨ other = place ∧ content' = content
  start : t'.workingDirectory = t.workingDirectory

theorem Within.refl (t : FileTree) : t.Within t := ⟨fun _ _ h => h, rfl⟩

theorem Within.trans (h : t'.Within t) (h' : t''.Within t') : t''.Within t :=
  ⟨fun _ _ hholds => h.files _ _ (h'.files _ _ hholds), h'.start.trans h.start⟩

theorem Within.destination (h : t'.Within t) (path : Bytes) :
    t'.destination path = t.destination path := by
  rw [FileTree.destination, FileTree.destination, h.start]

theorem Adds.destination (h : t.Adds t' place content) (path : Bytes) :
    t'.destination path = t.destination path := by
  rw [FileTree.destination, FileTree.destination, h.start]

theorem Holds.ne_nil (h : t.Holds place content) : place ≠ [] := by
  rintro rfl
  cases h

theorem Holds.mem (h : t.Holds place content) : (place, .file content) ∈ t.entries := by
  have hne := h.ne_nil
  rw [Holds, lookup, if_neg hne] at h
  obtain ⟨e, hfind, hentry⟩ := Option.map_eq_some_iff.mp h
  have hplace : e.1 = place := by simpa using List.find?_some hfind
  rw [← hplace, ← hentry]
  exact List.mem_of_find?_eq_some hfind

theorem lookup_insert_self (h : place ≠ []) : (t.insert place entry).lookup place = some entry := by
  have hnone : (t.entries.filter (·.1 ≠ place)).find? (·.1 = place) = none := by
    simp [List.find?_eq_none]
  rw [lookup, if_neg h, insert, List.find?_append, hnone]
  simp

theorem lookup_insert_of_ne (h : other ≠ place) :
    (t.insert place entry).lookup other = t.lookup other := by
  have hkept : (t.entries.filter (·.1 ≠ place)).find? (·.1 = other) =
      t.entries.find? (·.1 = other) := by
    rw [List.find?_filter]
    congr 1
    funext e
    by_cases he : e.1 = other <;> simp [he, h]
  have hnew : [(place, entry)].find? (·.1 = other) = none := by simp [Ne.symm h]
  rw [lookup, lookup, insert, List.find?_append, hkept, hnew, Option.or_none]

theorem lookup_insert_cases {found : FileEntry}
    (h : (t.insert place entry).lookup other = some found) :
    t.lookup other = some found ∨ other = place ∧ found = entry := by
  by_cases heq : other = place
  · by_cases hnil : place = []
    · rw [heq, hnil] at h ⊢
      exact .inl h
    · rw [heq, lookup_insert_self hnil] at h
      exact .inr ⟨heq, (Option.some.inj h).symm⟩
  · rw [lookup_insert_of_ne heq] at h
    exact .inl h

theorem within_insert_directory (t : FileTree) (place : Place) :
    (t.insert place .directory).Within t := by
  refine ⟨fun other content h => ?_, rfl⟩
  rcases lookup_insert_cases h with hold | ⟨-, hnew⟩
  · exact hold
  · cases hnew

theorem adds_insert_file (t : FileTree) (place : Place) (content : Bytes) :
    t.Adds (t.insert place (.file content)) place content := by
  refine ⟨fun other content' h => ?_, rfl⟩
  rcases lookup_insert_cases h with hold | ⟨hplace, hnew⟩
  · exact .inl hold
  · exact .inr ⟨hplace, FileEntry.file.inj hnew⟩

theorem lookup_erase (hne : other ≠ []) (h : (t.erase place).lookup other = some entry) :
    t.lookup other = some entry := by
  rw [lookup, if_neg hne, erase, List.find?_filter] at h
  obtain ⟨e, hfind, -⟩ := Option.map_eq_some_iff.mp h
  have hplace : place.isPrefixOf e.1 = false ∧ e.1 = other := by
    simpa using List.find?_some hfind
  rw [lookup, if_neg hne, ← h]
  congr 2
  funext found
  by_cases hfound : found.1 = e.1 <;> simp [hfound, ← hplace.2, hplace.1]

theorem within_erase (t : FileTree) (place : Place) : (t.erase place).Within t :=
  ⟨fun _ _ h => lookup_erase (Holds.ne_nil h) h, rfl⟩

theorem read_ok (h : t.read path = .ok content) : t.Holds (t.destination path) content := by
  unfold read at h
  cases hlocate : t.locate path with
  | error reason => simp [hlocate] at h
  | ok place =>
    cases hlookup : t.lookup place with
    | none => simp [hlocate, hlookup] at h
    | some entry =>
      cases entry with
      | directory => simp [hlocate, hlookup] at h
      | file found =>
        have heq : found = content := by simpa [hlocate, hlookup] using h
        rw [Holds, ← locate_ok hlocate, hlookup, heq]

theorem write_ok (h : t.write path content = .ok t') :
    t.locate path = .ok (t.destination path) ∧
      t.lookup (t.destination path) ≠ some .directory ∧
      t' = t.insert (t.destination path) (.file content) := by
  unfold write at h
  cases hlocate : t.locate (trimmed path) with
  | error reason => simp [hlocate] at h
  | ok place =>
    simp only [hlocate] at h
    split at h
    · cases h
    · next hfile =>
        simp only [ne_eq, Bool.or_eq_true, decide_eq_true_eq, not_or, Decidable.not_not] at hfile
        obtain ⟨htrimmed, hlookup⟩ := hfile
        rw [htrimmed] at hlocate
        rw [← locate_ok hlocate]
        exact ⟨hlocate, hlookup, (Except.ok.inj h).symm⟩

theorem write_adds (h : t.write path content = .ok t') :
    t.Adds t' (t.destination path) content := by
  obtain ⟨-, -, rfl⟩ := write_ok h
  exact adds_insert_file _ _ _

theorem holds_write (h : t.write path content = .ok t') :
    t'.Holds (t.destination path) content := by
  obtain ⟨-, hlookup, rfl⟩ := write_ok h
  apply lookup_insert_self
  intro hnil
  rw [hnil] at hlookup
  exact hlookup rfl

theorem createTemporary_ok {directory : Bytes} (h : t.createTemporary directory = .ok (path, t')) :
    ∃ n place, path = directory ++ separator :: (temporaryStem ++ decimal n) ∧
      t.Adds t' place [] := by
  unfold createTemporary at h
  cases hlocate : t.locate directory with
  | error reason => simp [hlocate] at h
  | ok place =>
    simp only [hlocate] at h
    split at h
    · next name _ hname =>
        obtain ⟨n, -, rfl⟩ := List.mem_map.mp (List.mem_of_find?_eq_some hname)
        cases h
        exact ⟨n, _, by simp, adds_insert_file _ _ _⟩
    · cases h
    · cases h
    · cases h

theorem rename_ok {target : Bytes} (h : t.rename path target = .ok t') :
    ∃ content, t.Holds (t.destination path) content ∧
      t.Adds t' (t.destination target) content := by
  unfold rename at h
  cases hsource : t.locate path with
  | error reason => simp [hsource] at h
  | ok source =>
    cases htarget : t.locate target with
    | error reason => simp [hsource, htarget] at h
    | ok place =>
      simp only [hsource, htarget] at h
      rw [← locate_ok hsource, ← locate_ok htarget]
      split at h
      · cases h
      · next content hlookup _ =>
          cases h
          have hadds := adds_insert_file (t.erase source) place content
          refine ⟨content, hlookup, fun other found hother => ?_, rfl⟩
          rcases hadds.files other found hother with hold | hnew
          · exact .inl ((within_erase t source).files _ _ hold)
          · exact .inr hnew
      · cases h
      · cases h

theorem makeDirectory_within (h : t.makeDirectory path = .ok t') : t'.Within t := by
  unfold makeDirectory at h
  cases hlocate : t.locate (trimmed path) with
  | error reason => simp [hlocate] at h
  | ok place =>
    simp only [hlocate] at h
    split at h
    · cases h
    · cases h
      exact within_insert_directory _ _

theorem lastDirectory_within (h : (match t.makeDirectory path with
    | .ok t => .ok t
    | .error e =>
      match t.inspect path with
      | .ok .directory => .ok t
      | _ => .error e) = (.ok t' : Except FileError FileTree)) : t'.Within t := by
  split at h
  · next hmade =>
      cases h
      exact makeDirectory_within hmade
  · split at h
    · cases h
      exact .refl _
    · cases h

theorem makeDirectoriesWithin_within {fuel : Nat}
    (h : makeDirectoriesWithin fuel t path = .ok t') : t'.Within t := by
  induction fuel generalizing t path t' with
  | zero => cases h
  | succ fuel ih =>
    unfold makeDirectoriesWithin at h
    split at h
    · cases h
      exact .refl _
    · cases h
    · simp only at h
      split at h
      · exact lastDirectory_within h
      · cases habove : makeDirectoriesWithin fuel t (parentPath path) with
        | error e => simp [habove, bind, Except.bind] at h
        | ok above =>
          simp only [habove, bind, Except.bind] at h
          exact (ih habove).trans (lastDirectory_within h)

theorem makeDirectories_within (h : t.makeDirectories path = .ok t') : t'.Within t :=
  makeDirectoriesWithin_within h

theorem remove_within (h : t.remove path = .ok t') : t'.Within t := by
  unfold remove at h
  split at h
  · cases h
    exact .refl _
  · cases h
  · cases h
    exact within_erase _ _

theorem walk_insert {elements : List Bytes} {start : Place} (h : t.walk start elements = .ok place)
    (hfile : t.lookup place ≠ some .directory) :
    (t.insert place entry).walk start elements = .ok place := by
  have hkept : ∀ other, t.lookup other = some .directory →
      (t.insert place entry).lookup other = some .directory := by
    intro other hdirectory
    have hne : other ≠ place := by
      rintro rfl
      exact hfile hdirectory
    rw [lookup_insert_of_ne hne, hdirectory]
  fun_induction walk t start elements with
  | case1 start => exact h
  | case2 => cases h
  | case3 => cases h
  | case4 start element rest hdirectory hskip ih =>
    rw [walk, hkept start hdirectory]
    simp only [hskip, if_true]
    exact ih h
  | case5 start rest hdirectory hskip ih =>
    rw [walk, hkept start hdirectory]
    simp only [hskip, if_true]
    exact ih h
  | case6 => cases h
  | case7 start element rest hdirectory hskip hup hshort ih =>
    rw [walk, hkept start hdirectory]
    simp only [hskip, hup, hshort, if_false]
    exact ih h

theorem locate_insert (h : t.locate path = .ok place) (hfile : t.lookup place ≠ some .directory) :
    (t.insert place entry).locate path = .ok place := by
  unfold locate at h ⊢
  split at h
  · cases h
  · next hsome =>
      split at h
      · cases h
      · next hvalid =>
          split at h
          · cases h
          · next hshort =>
              rw [if_neg hsome, if_neg hvalid, if_neg hshort]
              exact walk_insert h hfile

theorem read_write (h : t.write path content = .ok t') : t'.read path = .ok content := by
  obtain ⟨hlocate, hfile, rfl⟩ := write_ok h
  have hreach : (t.insert (t.destination path) (.file content)).locate path =
      .ok (t.destination path) := locate_insert hlocate hfile
  have hholds : (t.insert (t.destination path) (.file content)).lookup (t.destination path) =
      some (.file content) := holds_write h
  simp only [read, hreach, hholds]

end Shading.FileTree
