import Shading.Files.Tree
import Shading.Proofs.Text

/-!
Where paths lead. The last element of a path stays the last when the path is
cleaned, and the place that a path leads to ends with it. That place depends on
the path and the working directory only; the rest of the tree decides whether it
can be reached.
-/

namespace Shading

namespace Path

open Text

structure IsName (name : Bytes) : Prop where
  nonempty : name ≠ []
  notHere : name ≠ utf8 "."
  notAbove : name ≠ utf8 ".."
  plain : separator ∉ name

def EndsWith (path name : Bytes) : Prop :=
  ∃ before, splitAt separator path = before ++ [name]

variable {path name : Bytes}

theorem IsName.endsWith (h : IsName name) : EndsWith name name :=
  ⟨[], splitAt_plain h.plain⟩

theorem IsName.endsWith_below (h : IsName name) (directory : Bytes) :
    EndsWith (directory ++ separator :: name) name :=
  ⟨_, splitAt_concat directory h.plain⟩

theorem IsName.endsWith_join (h : IsName name) (elements : List Bytes) :
    EndsWith (Text.join [separator] (elements ++ [name])) name := by
  by_cases hnil : elements = []
  · rw [hnil]
    simpa [Text.join] using h.endsWith
  · rw [join_concat _ _ hnil, List.append_assoc]
    exact h.endsWith_below _

theorem resolve_concat (h : IsName name) (rooted : Bool) (done elements : List Bytes) :
    resolve rooted done (elements ++ [name]) = resolve rooted done elements ++ [name] := by
  fun_induction resolve rooted done elements with
  | case1 done => simp [resolve, h.nonempty, h.notHere, h.notAbove]
  | _ => simp_all [resolve]

theorem EndsWith.rooted (hpath : EndsWith path name) : EndsWith (separator :: path) name := by
  obtain ⟨before, hsplit⟩ := hpath
  exact ⟨[] :: before, by rw [splitAt_cons, hsplit, List.cons_append]⟩

theorem EndsWith.ne_nil (hpath : EndsWith path name) (h : IsName name) : path ≠ [] := by
  rintro rfl
  obtain ⟨before, hsplit⟩ := hpath
  have hlast : [] = name := by simpa [splitAt, splitFrom] using congrArg List.getLast? hsplit
  exact h.nonempty hlast.symm

theorem EndsWith.clean (hpath : EndsWith path name) (h : IsName name) :
    EndsWith (clean path) name := by
  obtain ⟨before, hsplit⟩ := hpath
  have hjoin := h.endsWith_join (resolve (isAbsolute path) [] before)
  simp only [Path.clean, hsplit, resolve_concat h]
  split
  · exact hjoin.rooted
  · rw [if_neg (hjoin.ne_nil h)]
    exact hjoin

theorem EndsWith.of_join (h : IsName name) (parts : List Bytes) :
    EndsWith (join (parts ++ [name])) name := by
  have hparts : (parts ++ [name]).filter (· ≠ []) = parts.filter (· ≠ []) ++ [name] := by
    simp [List.filter_append, h.nonempty]
  unfold join
  rw [hparts]
  split
  · next hnil => simp at hnil
  · exact (h.endsWith_join _).clean h

end Path

namespace FileTree

open Shading.Text Shading.Path

def follow (place : Place) : List Bytes → Place
  | [] => place
  | element :: rest =>
    if element = [] || element = utf8 "." then follow place rest
    else if element = utf8 ".." then follow place.dropLast rest
    else follow (place ++ [element]) rest

/-- The place that a path leads to if it can be reached. -/
def destination (t : FileTree) (path : Bytes) : Place :=
  follow (if isAbsolute path then [] else t.workingDirectory) (splitAt separator path)

variable {t t' : FileTree} {place : Place} {path name : Bytes}

theorem follow_concat (h : IsName name) (place : Place) (elements : List Bytes) :
    follow place (elements ++ [name]) = follow place elements ++ [name] := by
  fun_induction follow place elements with
  | case1 place => simp [follow, h.nonempty, h.notHere, h.notAbove]
  | _ => simp_all [follow]

theorem destination_endsWith (hpath : EndsWith path name) (h : IsName name) (t : FileTree) :
    (t.destination path).getLast? = some name := by
  obtain ⟨before, hsplit⟩ := hpath
  rw [destination, hsplit, follow_concat h, List.getLast?_concat]

theorem walk_ok {elements : List Bytes} {reached : Place}
    (h : t.walk place elements = .ok reached) : reached = follow place elements := by
  fun_induction walk t place elements with
  | case1 place => exact (Except.ok.inj h).symm
  | _ => simp_all [follow]

theorem locate_ok (h : t.locate path = .ok place) : place = t.destination path := by
  unfold locate at h
  split at h
  · cases h
  split at h
  · cases h
  split at h
  · cases h
  exact walk_ok h

end FileTree

end Shading
