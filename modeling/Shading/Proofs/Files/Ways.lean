import Shading.Proofs.Files.Changes
import Shading.Proofs.Files.Spelling

/-!
Ways through a tree. A walk needs nothing but the directories that it passes, so
a path keeps its place when other parts of the tree change. A path that is
cleaned leads where the path led, and once directories are made along a path, a
name below it has a place of its own.
-/

namespace Shading.FileTree

open Shading.Text Shading.Path List

variable {t t' : FileTree} {start place other reached : Place} {path name folder content : Bytes}
  {elements rest done : List Bytes} {rooted : Bool} {element : Bytes} {names : List Bytes}

section Walking

@[simp] theorem follow_empty (place : Place) : follow place [[]] = place := by simp [follow]

@[simp] theorem follow_up (place : Place) : follow place [utf8 ".."] = place.dropLast := by
  have hskip : (utf8 ".." = [] || utf8 ".." = utf8 ".") = false := by decide
  simp [follow, hskip]

theorem follow_name (h : IsName name) (place : Place) : follow place [name] = place ++ [name] :=
  follow_concat h place []

theorem walk_cons (hdirectory : t.lookup place = some .directory)
    (hlength : element.length ≤ maxNameLength) (rest : List Bytes) :
    t.walk place (element :: rest) = t.walk (follow place [element]) rest := by
  rw [walk, hdirectory]
  simp only [follow, if_neg (Nat.not_lt.mpr hlength)]
  split
  · rfl
  · split
    · rfl
    · rfl

theorem walk_cons_iff : t.walk place (element :: rest) = .ok reached ↔
    t.lookup place = some .directory ∧ element.length ≤ maxNameLength ∧
      t.walk (follow place [element]) rest = .ok reached := by
  refine ⟨fun h => ?_, fun ⟨hdirectory, hlength, h⟩ => (walk_cons hdirectory hlength rest).trans h⟩
  have hdirectory : t.lookup place = some .directory := by
    rw [walk] at h
    split at h
    · cases h
    · cases h
    · assumption
  have hlength : element.length ≤ maxNameLength := by
    apply Nat.le_of_not_lt
    intro hlong
    have hskip : (element = [] || element = utf8 ".") = false := by
      simp only [Bool.or_eq_false_iff, decide_eq_false_iff_not]
      refine ⟨?_, ?_⟩
      all_goals
        rintro rfl
        exact absurd hlong (by decide)
    have hup : element ≠ utf8 ".." := by
      rintro rfl
      exact absurd hlong (by decide)
    simp [walk, hdirectory, hskip, hup, hlong] at h
  exact ⟨hdirectory, hlength, (walk_cons hdirectory hlength rest).symm.trans h⟩

/-- Where the walk along a path starts. -/
def origin (t : FileTree) (path : Bytes) : Place :=
  if isAbsolute path then [] else t.workingDirectory

/-- Paths that are not refused before they are walked. -/
structure Usable (path : Bytes) : Prop where
  nonempty : path ≠ []
  valid : 0 ∉ path
  short : path.length ≤ maxPathLength

theorem walk_append (h : t.walk start elements = .ok place) (rest : List Bytes) :
    t.walk start (elements ++ rest) = t.walk place rest := by
  induction elements generalizing start with
  | nil => rw [nil_append, Except.ok.inj h]
  | cons element elements ih =>
    obtain ⟨hdirectory, hlength, hrest⟩ := walk_cons_iff.mp h
    rw [cons_append, walk_cons hdirectory hlength, ih hrest]

theorem walk_append_ok (h : t.walk start (elements ++ rest) = .ok reached) :
    ∃ place, t.walk start elements = .ok place ∧ t.walk place rest = .ok reached := by
  induction elements generalizing start with
  | nil => exact ⟨start, rfl, h⟩
  | cons element elements ih =>
    obtain ⟨hdirectory, hlength, hrest⟩ := walk_cons_iff.mp h
    obtain ⟨place, hplace, hreached⟩ := ih hrest
    exact ⟨place, walk_cons_iff.mpr ⟨hdirectory, hlength, hplace⟩, hreached⟩

theorem walk_mono
    (hkept : ∀ other, t.lookup other = some .directory → t'.lookup other = some .directory)
    (h : t.walk start elements = .ok reached) : t'.walk start elements = .ok reached := by
  induction elements generalizing start with
  | nil => exact h
  | cons element elements ih =>
    obtain ⟨hdirectory, hlength, hrest⟩ := walk_cons_iff.mp h
    exact walk_cons_iff.mpr ⟨hkept _ hdirectory, hlength, ih hrest⟩

theorem walk_empty (h : t.lookup place = some .directory) (count : Nat) :
    t.walk place (List.replicate count []) = .ok place := by
  induction count with
  | zero => rfl
  | succ count ih =>
    exact walk_cons_iff.mpr ⟨h, Nat.zero_le _, by rwa [follow_empty]⟩

theorem walk_resolve (hdone : Resolved rooted done) (hroot : rooted = true → start = [])
    (hplain : ∀ element ∈ elements, separator ∉ element)
    (h : t.walk start (done.reverse ++ elements) = .ok reached) :
    t.walk start (resolve rooted done elements) = .ok reached := by
  fun_induction resolve rooted done elements with
  | case1 done => simpa using h
  | case2 done element rest hskip ih =>
    obtain ⟨place, hplace, hrest⟩ := walk_append_ok h
    obtain ⟨-, -, hrest⟩ := walk_cons_iff.mp hrest
    have hstay : follow place [element] = place := by simp [follow, hskip]
    exact ih hdone (forall_mem_cons.mp hplain).2 (by rw [walk_append hplace, ← hrest, hstay])
  | case3 rest hskip earlier ih =>
    exact ih hdone.up (forall_mem_cons.mp hplain).2 (by simpa using h)
  | case4 rest last earlier hlast hskip ih =>
    rw [reverse_cons, append_assoc] at h
    obtain ⟨place, hplace, hrest⟩ := walk_append_ok h
    obtain ⟨-, -, hrest⟩ := walk_cons_iff.mp hrest
    rw [follow_name (hdone.head hlast)] at hrest
    obtain ⟨-, -, hrest⟩ := walk_cons_iff.mp hrest
    rw [follow_up, dropLast_concat] at hrest
    exact ih hdone.tail (forall_mem_cons.mp hplain).2 (by rw [walk_append hplace, hrest])
  | case5 rest hskip ih =>
    have hrest := (forall_mem_cons.mp hplain).2
    cases rooted with
    | true =>
      obtain ⟨-, -, hwalk⟩ := walk_cons_iff.mp h
      rw [follow_up, hroot rfl] at hwalk
      exact ih (resolved_nil true) hrest (by rw [hroot rfl]; exact hwalk)
    | false => exact ih resolved_above hrest h
  | case6 done element rest hskip hup ih =>
    obtain ⟨hsep, hrest⟩ := forall_mem_cons.mp hplain
    simp only [Bool.or_eq_true, decide_eq_true_eq, not_or] at hskip
    exact ih (hdone.push ⟨hskip.1, hskip.2, hup, hsep⟩) hrest (by simpa using h)

theorem walk_names (hnames : ∀ name ∈ names, IsName name) (h : t.walk start names = .ok reached) :
    reached = start ++ names := by
  induction names generalizing start with
  | nil => simpa [walk] using h.symm
  | cons name names ih =>
    obtain ⟨hname, hnames⟩ := forall_mem_cons.mp hnames
    obtain ⟨-, -, hrest⟩ := walk_cons_iff.mp h
    rw [follow_name hname] at hrest
    rw [ih hnames hrest, append_assoc, singleton_append]

theorem walk_names_mono (hnames : ∀ name ∈ names, IsName name)
    (hkept : ∀ other, other <+: reached → t.lookup other = some .directory →
      t'.lookup other = some .directory) (h : t.walk start names = .ok reached) :
    t'.walk start names = .ok reached := by
  induction names generalizing start with
  | nil => exact h
  | cons name names ih =>
    have hreached := walk_names hnames h
    obtain ⟨hname, hnames⟩ := forall_mem_cons.mp hnames
    obtain ⟨hdirectory, hlength, hrest⟩ := walk_cons_iff.mp h
    exact walk_cons_iff.mpr ⟨hkept start ⟨_, hreached.symm⟩ hdirectory, hlength, ih hnames hrest⟩

theorem walk_resolved_mono (hresolved : Resolved rooted elements.reverse)
    (hkept : ∀ other, ¬place <+: other → t.lookup other = some .directory →
      t'.lookup other = some .directory)
    (hstart : ¬place <+: start) (hreached : ¬place <+: reached)
    (h : t.walk start elements = .ok reached) : t'.walk start elements = .ok reached := by
  obtain ⟨names, count, helements, hnames, -⟩ := hresolved
  have hwritten : elements = replicate count (utf8 "..") ++ names.reverse := by
    rw [← reverse_reverse elements, helements, reverse_append, reverse_replicate]
  clear helements
  subst hwritten
  induction count generalizing start with
  | zero =>
    rw [replicate_zero, nil_append] at h ⊢
    refine walk_names_mono (by simpa using hnames) (fun other hother => ?_) h
    exact hkept other fun hbelow => hreached (hbelow.trans hother)
  | succ count ih =>
    rw [replicate_succ, cons_append] at h ⊢
    obtain ⟨hdirectory, hlength, hrest⟩ := walk_cons_iff.mp h
    refine walk_cons_iff.mpr ⟨hkept start hstart hdirectory, hlength, ih ?_ hrest⟩
    rw [follow_up]
    exact fun hbelow => hstart (hbelow.trans (List.dropLast_prefix start))

end Walking

section Locating

theorem Usable.locate (h : Usable path) (t : FileTree) :
    t.locate path = t.walk (t.origin path) (splitAt separator path) := by
  rw [FileTree.locate, if_neg h.nonempty, if_neg (by simpa using h.valid),
    if_neg (Nat.not_lt.mpr h.short), origin]

theorem usable_of_locate (h : t.locate path = .ok place) : Usable path := by
  unfold locate at h
  split at h
  · cases h
  split at h
  · cases h
  split at h
  · cases h
  next hnonempty hvalid hshort => exact ⟨hnonempty, by simpa using hvalid, Nat.not_lt.mp hshort⟩

theorem Usable.below (h : Usable path) (hvalid : 0 ∉ name)
    (hshort : path.length + name.length < maxPathLength) : Usable (path ++ separator :: name) := by
  refine ⟨by simp, ?_, ?_⟩
  · have hseparator : (0 : UInt8) ≠ separator := by decide
    simp [h.valid, hvalid, hseparator]
  · rw [length_append, length_cons]
    omega

theorem locate_below (h : t.locate path = .ok place) (hname : IsName name) (hvalid : 0 ∉ name)
    (hshort : path.length + name.length < maxPathLength) :
    t.locate (path ++ separator :: name) = t.walk place [name] := by
  have husable := usable_of_locate h
  have horigin : t.origin (path ++ separator :: name) = t.origin path := by
    rw [origin, isAbsolute_append husable.nonempty, origin]
  rw [husable.locate] at h
  rw [(husable.below hvalid hshort).locate, horigin, splitAt_concat _ hname.plain, walk_append h]

theorem lookup_erase_below (hplace : place ≠ []) (h : place <+: other) :
    (t.erase place).lookup other = none := by
  have hother : other ≠ [] := fun hnil => hplace (prefix_nil.mp (hnil ▸ h))
  rw [lookup, if_neg hother, Option.map_eq_none_iff, find?_eq_none]
  intro e he
  have hkept := (mem_filter.mp he).2
  simp only [decide_eq_true_eq]
  rintro rfl
  rw [List.isPrefixOf_iff_prefix.mpr h] at hkept
  cases hkept

theorem lookup_erase_of_not (h : ¬place <+: other) :
    (t.erase place).lookup other = t.lookup other := by
  rw [lookup, lookup, erase, find?_filter]
  congr 3
  funext e
  by_cases he : e.1 = other
  · have hkept : place.isPrefixOf other = false := by
      rw [Bool.eq_false_iff]
      exact fun hprefix => h (List.isPrefixOf_iff_prefix.mp hprefix)
    simp [he, hkept]
  · simp [he]

def Leads (t : FileTree) (path : Bytes) (place : Place) : Prop :=
  (t.erase place).locate path = .ok place

theorem locate_mono (hstart : t'.workingDirectory = t.workingDirectory)
    (hkept : ∀ other, t.lookup other = some .directory → t'.lookup other = some .directory)
    (h : t.locate path = .ok place) : t'.locate path = .ok place := by
  have husable := usable_of_locate h
  rw [husable.locate] at h ⊢
  rw [origin, hstart]
  exact walk_mono hkept h

theorem Leads.locate (h : t.Leads path place) : t.locate path = .ok place := by
  refine locate_mono (t := t.erase place) rfl (fun other hother => ?_) h
  by_cases hnil : other = []
  · rw [hnil]
    rfl
  · exact lookup_erase hnil hother

theorem Leads.of_kept (h : t.Leads path place) (hplace : place ≠ [])
    (hstart : t'.workingDirectory = t.workingDirectory)
    (hkept : ∀ other, ¬place <+: other → t.lookup other = some .directory →
      t'.lookup other = some .directory) : t'.Leads path place := by
  refine locate_mono (t := t.erase place) hstart (fun other hother => ?_) h
  by_cases hbelow : place <+: other
  · rw [lookup_erase_below hplace hbelow] at hother
    cases hother
  · rw [lookup_erase_of_not hbelow] at hother ⊢
    exact hkept other hbelow hother

end Locating

section Making

theorem trimEnd_name (before : Bytes) (h : IsName name) :
    trimEnd (· = separator) (before ++ name) = before ++ name := by
  obtain ⟨b, rest, hname⟩ : ∃ b rest, name.reverse = b :: rest :=
    exists_cons_of_ne_nil (by simpa using h.nonempty)
  have hb : b ≠ separator := by
    rintro rfl
    exact h.plain (mem_reverse.mp (hname ▸ mem_cons_self))
  rw [trimEnd, reverse_append, hname, cons_append, dropWhile_cons]
  simp only [hb, decide_false, Bool.false_eq_true, if_false]
  rw [← cons_append, ← hname, ← reverse_append, reverse_reverse]

theorem trimmed_name (before : Bytes) (h : IsName name) :
    trimmed (before ++ name) = before ++ name := by
  unfold trimmed
  rw [trimEnd_name before h]
  split
  · next hnil => simp [hnil]
  · rfl

theorem parentPath_below (path : Bytes) (h : IsName name) :
    parentPath (path ++ separator :: name) = path ++ [separator] := by
  have htrim : trimEnd (· = separator) (path ++ separator :: name) = path ++ separator :: name := by
    rw [append_cons]
    exact trimEnd_name _ h
  simp only [parentPath, htrim, lastElement_below path h.plain]
  rw [append_cons, length_append, Nat.add_sub_cancel, take_left]

theorem inspect_directory (hlocate : t.locate path = .ok place)
    (hdirectory : t.lookup place = some .directory) : t.inspect path = .ok .directory := by
  simp only [inspect, hlocate, hdirectory]

theorem makeDirectoriesWithin_present (hlocate : t.locate path = .ok place)
    (hdirectory : t.lookup place = some .directory) (fuel : Nat) :
    makeDirectoriesWithin (fuel + 1) t path = .ok t := by
  simp only [makeDirectoriesWithin, inspect_directory hlocate hdirectory]

theorem locate_above (h : t.locate (path ++ separator :: name) = .ok place) (hname : IsName name) :
    ∃ above, t.locate (path ++ [separator]) = .ok above ∧ t.lookup above = some .directory := by
  have husable := usable_of_locate h
  have hshorter : Usable (path ++ [separator]) := by
    refine ⟨by simp, ?_, ?_⟩
    · have hvalid := husable.valid
      rw [append_cons, mem_append, not_or] at hvalid
      exact hvalid.1
    · have hshort := husable.short
      rw [append_cons, length_append] at hshort
      omega
  have horigin : t.origin (path ++ separator :: name) = t.origin (path ++ [separator]) := by
    rw [append_cons, origin, isAbsolute_append (by simp), origin]
  rw [husable.locate, horigin, splitAt_concat _ hname.plain] at h
  obtain ⟨above, habove, hrest⟩ := walk_append_ok h
  obtain ⟨hdirectory, -, -⟩ := walk_cons_iff.mp hrest
  refine ⟨above, ?_, hdirectory⟩
  rw [hshorter.locate, splitAt_concat _ not_mem_nil, walk_append habove]
  exact walk_empty hdirectory 1

theorem makeDirectoriesWithin_missing {fuel : Nat} {e : FileError}
    (hinspect : t.inspect path = .error e)
    (habove : parentPath path = [] ∨ makeDirectoriesWithin fuel t (parentPath path) = .ok t)
    (hmade : t.makeDirectory path = .ok t') : makeDirectoriesWithin (fuel + 1) t path = .ok t' := by
  simp only [makeDirectoriesWithin, hinspect, bind, Except.bind, hmade]
  split
  · rfl
  · next hsome => simp only [habove.resolve_left hsome, hmade]

theorem makeDirectories_missing {before : Bytes} (hname : IsName name)
    (hbefore : before = [] ∨ ∃ path, before = path ++ [separator])
    (hlocate : t.locate (before ++ name) = .ok place) (hnone : t.lookup place = none) :
    t.makeDirectories (before ++ name) = .ok (t.insert place .directory) := by
  have hinspect : t.inspect (before ++ name) =
      .error ⟨.inspection, before ++ name, .absent⟩ := by
    simp only [inspect, hlocate, hnone]
  have hmade : t.makeDirectory (before ++ name) = .ok (t.insert place .directory) := by
    simp [makeDirectory, trimmed_name before hname, hlocate, hnone]
  refine makeDirectoriesWithin_missing hinspect ?_ hmade
  rcases hbefore with rfl | ⟨path, rfl⟩
  · refine .inl ?_
    simp only [parentPath, trimEnd_name [] hname]
    simp [lastElement_plain hname.plain]
  · rw [append_assoc, singleton_append] at hlocate ⊢
    obtain ⟨above, habove, hdirectory⟩ := locate_above hlocate hname
    rw [parentPath_below path hname, length_append, length_cons, ← Nat.add_assoc]
    exact .inr (makeDirectoriesWithin_present habove hdirectory _)

theorem eq_trimmed (path : Bytes) :
    ∃ count, path = trimmed path ++ List.replicate count separator := by
  obtain ⟨count, hends⟩ : ∃ count, path.reverse.takeWhile (· = separator) =
      replicate count separator := by
    refine ⟨_, eq_replicate_of_mem fun b hb => ?_⟩
    simpa using all_eq_true.mp all_takeWhile b hb
  have hpath : path = trimEnd (· = separator) path ++ replicate count separator := by
    rw [trimEnd, ← reverse_replicate, ← hends, ← reverse_append,
      takeWhile_append_dropWhile, reverse_reverse]
  unfold trimmed
  split
  · next hnil =>
      rw [hnil, nil_append] at hpath
      refine ⟨count - 1, ?_⟩
      rw [hpath]
      cases count with
      | zero => rfl
      | succ count => simp [replicate_succ]
  · exact ⟨count, hpath⟩

structure Reaches (t : FileTree) (path : Bytes) (home : Place) : Prop where
  nonempty : path ≠ []
  valid : 0 ∉ path
  walk : t.walk (t.origin path) (splitAt separator path) = .ok home
  directory : t.lookup home = some .directory

theorem splitAt_separators (path : Bytes) (count : Nat) :
    splitAt separator (path ++ List.replicate count separator) =
      splitAt separator path ++ List.replicate count [] := by
  induction count with
  | zero => simp
  | succ count ih =>
    rw [replicate_succ', ← append_assoc, splitAt_concat _ not_mem_nil, ih,
      append_assoc, ← replicate_succ']

theorem Reaches.of_trimmed (h : t.Reaches (trimmed path) place) : t.Reaches path place := by
  obtain ⟨count, hpath⟩ := eq_trimmed path
  have hvalid : (0 : UInt8) ∉ replicate count separator := fun hmem =>
    absurd (eq_of_mem_replicate hmem) (by decide)
  have horigin : t.origin path = t.origin (trimmed path) := by
    rw [origin, hpath, isAbsolute_append h.nonempty, ← hpath, origin]
  refine ⟨?_, ?_, ?_, h.directory⟩
  · rw [hpath]
    simp [h.nonempty]
  · rw [hpath, mem_append, not_or]
    exact ⟨h.valid, hvalid⟩
  · rw [horigin, hpath, splitAt_separators, ← hpath, walk_append h.walk]
    exact walk_empty h.directory count

theorem reaches_of_locate (hlocate : t.locate path = .ok place)
    (hdirectory : t.lookup place = some .directory) : t.Reaches path place := by
  have husable := usable_of_locate hlocate
  exact ⟨husable.nonempty, husable.valid, (husable.locate t).symm.trans hlocate, hdirectory⟩

theorem inspect_ok {entry : FileEntry} (h : t.inspect path = .ok entry) :
    ∃ place, t.locate path = .ok place ∧ t.lookup place = some entry := by
  unfold inspect at h
  split at h
  · cases h
  · next place hlocate =>
      split at h
      · cases h
      · next found hlookup =>
          cases h
          exact ⟨place, hlocate, hlookup⟩

theorem makeDirectory_reaches (h : t.makeDirectory path = .ok t') :
    ∃ home, t'.Reaches path home := by
  unfold makeDirectory at h
  split at h
  · cases h
  · next place hlocate =>
      split at h
      · cases h
      · next hsome =>
          cases h
          have hnone : t.lookup place = none := by simpa using hsome
          have hplace : place ≠ [] := by
            rintro rfl
            cases hnone
          exact ⟨place, .of_trimmed (reaches_of_locate (locate_insert hlocate (by simp [hnone]))
            (lookup_insert_self hplace))⟩

theorem lastDirectory_reaches (h : (match t.makeDirectory path with
    | .ok t => .ok t
    | .error e =>
      match t.inspect path with
      | .ok .directory => .ok t
      | _ => .error e) = (.ok t' : Except FileError FileTree)) : ∃ home, t'.Reaches path home := by
  split at h
  · next hmade =>
      cases h
      exact makeDirectory_reaches hmade
  · split at h
    · next hinspect =>
        cases h
        obtain ⟨place, hlocate, hdirectory⟩ := inspect_ok hinspect
        exact ⟨place, reaches_of_locate hlocate hdirectory⟩
    · cases h

theorem makeDirectories_reaches (h : t.makeDirectories path = .ok t') :
    ∃ home, t'.Reaches path home := by
  unfold makeDirectories makeDirectoriesWithin at h
  split at h
  · next hinspect =>
      cases h
      obtain ⟨place, hlocate, hdirectory⟩ := inspect_ok hinspect
      exact ⟨place, reaches_of_locate hlocate hdirectory⟩
  · cases h
  · simp only at h
    split at h
    · exact lastDirectory_reaches h
    · cases habove : makeDirectoriesWithin path.length t (parentPath path) with
      | error e => simp [habove, bind, Except.bind] at h
      | ok above =>
        simp only [habove, bind, Except.bind] at h
        exact lastDirectory_reaches h

theorem locate_folder (hsteps : t.walk (t.origin path) (steps path) = .ok place)
    (hdirectory : t.lookup place = some .directory) (hpath : path ≠ []) (hvalid : 0 ∉ path)
    (hfolder : IsName folder) (hfolder_valid : 0 ∉ folder)
    (hlength : folder.length ≤ maxNameLength)
    (hshort : (join [path, folder]).length ≤ maxPathLength) :
    t.locate (join [path, folder]) = .ok (place ++ [folder]) := by
  have hresolved := resolved_folder path hfolder
  have hspell : join [path, folder] = spell (isAbsolute path) (steps path ++ [folder]) := by
    rw [join_folder hpath hfolder.nonempty, clean_below hpath hfolder]
  have habsolute : isAbsolute (join [path, folder]) = isAbsolute path := by
    rw [hspell, isAbsolute_spell (by simp) hresolved]
  have husable : Usable (join [path, folder]) := by
    refine ⟨?_, fun hmem => ?_, hshort⟩
    · rw [hspell]
      exact spell_ne_nil (by simp) hresolved
    · rcases mem_join_folder hpath hfolder hmem with hb | hb | hb
      · exact absurd hb (by decide)
      · exact hvalid hb
      · exact hfolder_valid hb
  have hfound : t.walk (t.origin path) (steps path ++ [folder]) = .ok (place ++ [folder]) := by
    rw [walk_append hsteps, walk_cons hdirectory hlength, follow_name hfolder]
    rfl
  have horigin : t.origin (join [path, folder]) = t.origin path := by
    rw [origin, habsolute, origin]
  rw [husable.locate, horigin, hspell, splitAt_spell (by simp) hresolved.plain]
  split
  · next habs =>
      have hroot : t.origin path = [] := if_pos habs
      rw [hroot] at hfound ⊢
      exact walk_cons_iff.mpr ⟨rfl, Nat.zero_le _, hfound⟩
  · exact hfound

section Folders

variable (h : t.Reaches path place) (hfolder : IsName folder) (hvalid : 0 ∉ folder)
  (hlength : folder.length ≤ maxNameLength)
  (hshort : (join [path, folder]).length ≤ maxPathLength)

include h

theorem Reaches.steps : t.walk (t.origin path) (steps path) = .ok place :=
  walk_resolve (resolved_nil _) (fun habs => if_pos habs)
    (fun _ hmem hsep => (mem_splitAt hmem hsep).1 rfl) h.walk

include hfolder hvalid hlength hshort

theorem Reaches.destination_folder : t.destination (join [path, folder]) = place ++ [folder] :=
  (locate_ok (locate_folder h.steps h.directory h.nonempty h.valid hfolder hvalid hlength
    hshort)).symm

theorem Reaches.leads
    (hstart : isAbsolute path = true ∨ ¬(place ++ [folder]) <+: t.workingDirectory) :
    t.Leads (join [path, folder]) (place ++ [folder]) := by
  have hplace : ¬(place ++ [folder]) <+: place := fun hbelow => by
    have hle := hbelow.length_le
    rw [length_append] at hle
    exact absurd hle (by simp)
  have horigin : ¬(place ++ [folder]) <+: t.origin path := by
    unfold origin
    split
    · simp
    · next hrelative => exact hstart.resolve_left hrelative
  have hsteps : (t.erase (place ++ [folder])).walk (t.origin path) (Path.steps path) =
      .ok place :=
    walk_resolved_mono (resolved_steps path)
      (fun other hother hdirectory => by rw [lookup_erase_of_not hother, hdirectory])
      horigin hplace h.steps
  exact locate_folder (t := t.erase (place ++ [folder])) hsteps
    (by rw [lookup_erase_of_not hplace, h.directory]) h.nonempty h.valid hfolder hvalid hlength
    hshort

end Folders

end Making

end Shading.FileTree
