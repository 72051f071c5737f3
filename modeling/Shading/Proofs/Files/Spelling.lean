import Shading.Proofs.Files.Places

/-!
The spelling of cleaned paths. A cleaned path is written with elements that
cleaning leaves alone: names, behind steps up if the path is not rooted. Joining
a name to such a path writes it behind a separator, and the directory of the
longer path is the shorter one.
-/

namespace Shading.Path

open Text List

variable {rooted : Bool} {elements done : List Bytes} {path name : Bytes} {last element : Bytes}

def spell (rooted : Bool) (elements : List Bytes) : Bytes :=
  if rooted then separator :: Text.join [separator] elements else Text.join [separator] elements

def Resolved (rooted : Bool) (done : List Bytes) : Prop :=
  ∃ names count, done = names ++ List.replicate count (utf8 "..") ∧
    (∀ name ∈ names, IsName name) ∧ (rooted = true → count = 0)

theorem resolved_nil (rooted : Bool) : Resolved rooted [] := ⟨[], 0, rfl, by simp, fun _ => rfl⟩

theorem resolved_above : Resolved false [utf8 ".."] := ⟨[], 1, rfl, by simp, by simp⟩

theorem Resolved.push (h : Resolved rooted done) (hname : IsName name) :
    Resolved rooted (name :: done) := by
  obtain ⟨names, count, rfl, hnames, hrooted⟩ := h
  exact ⟨name :: names, count, rfl, forall_mem_cons.mpr ⟨hname, hnames⟩, hrooted⟩

theorem Resolved.head (h : Resolved rooted (last :: done)) (hlast : last ≠ utf8 "..") :
    IsName last := by
  obtain ⟨names, count, hdone, hnames, -⟩ := h
  have hmem : last ∈ names ++ replicate count (utf8 "..") := hdone ▸ mem_cons_self
  rcases mem_append.mp hmem with hname | hup
  · exact hnames last hname
  · exact absurd (eq_of_mem_replicate hup) hlast

theorem Resolved.tail (h : Resolved rooted (last :: done)) : Resolved rooted done := by
  obtain ⟨names, count, hdone, hnames, hrooted⟩ := h
  cases names with
  | cons name names =>
    obtain ⟨-, rfl⟩ := cons_eq_cons.mp hdone
    exact ⟨names, count, rfl, (forall_mem_cons.mp hnames).2, hrooted⟩
  | nil =>
    cases count with
    | zero => cases hdone
    | succ count =>
      obtain ⟨-, rfl⟩ := cons_eq_cons.mp hdone
      exact ⟨[], count, rfl, by simp, fun h => absurd (hrooted h) (Nat.succ_ne_zero _)⟩

theorem Resolved.up (h : Resolved rooted (utf8 ".." :: done)) :
    Resolved rooted (utf8 ".." :: utf8 ".." :: done) := by
  obtain ⟨names, count, hdone, hnames, hrooted⟩ := h
  cases names with
  | cons name names =>
    obtain ⟨hname, -⟩ := cons_eq_cons.mp hdone
    exact absurd hname.symm (hnames name mem_cons_self).notAbove
  | nil =>
    cases count with
    | zero => cases hdone
    | succ count =>
      refine ⟨[], count + 2, ?_, by simp, fun h => absurd (hrooted h) (Nat.succ_ne_zero _)⟩
      rw [hdone]
      rfl

theorem resolved_resolve (hdone : Resolved rooted done)
    (hplain : ∀ element ∈ elements, separator ∉ element) :
    Resolved rooted (resolve rooted done elements).reverse := by
  fun_induction resolve rooted done elements with
  | case1 done => rwa [reverse_reverse]
  | case2 done element rest _ ih => exact ih hdone (forall_mem_cons.mp hplain).2
  | case3 rest hskip earlier ih => exact ih hdone.up (forall_mem_cons.mp hplain).2
  | case4 rest hskip last earlier hlast ih =>
    exact ih hdone.tail (forall_mem_cons.mp hplain).2
  | case5 rest hskip ih =>
    refine ih ?_ (forall_mem_cons.mp hplain).2
    cases rooted with
    | true => exact resolved_nil true
    | false => exact resolved_above
  | case6 done element rest hskip hup ih =>
    obtain ⟨hsep, hrest⟩ := forall_mem_cons.mp hplain
    simp only [Bool.or_eq_true, decide_eq_true_eq, not_or] at hskip
    exact ih (hdone.push ⟨hskip.1, hskip.2, hup, hsep⟩) hrest

theorem resolve_names {names : List Bytes} (hnames : ∀ name ∈ names, IsName name)
    (rooted : Bool) (done : List Bytes) : resolve rooted done names = done.reverse ++ names := by
  induction names generalizing done with
  | nil => simp [resolve]
  | cons name names ih =>
    obtain ⟨hname, hnames⟩ := forall_mem_cons.mp hnames
    have hstep : resolve rooted done (name :: names) = resolve rooted (name :: done) names := by
      simp [resolve, hname.nonempty, hname.notHere, hname.notAbove]
    rw [hstep, ih hnames, reverse_cons, append_assoc, singleton_append]

theorem resolve_ups (count before : Nat) (rest : List Bytes) :
    resolve false (List.replicate before (utf8 "..")) (List.replicate count (utf8 "..") ++ rest) =
      resolve false (List.replicate (count + before) (utf8 "..")) rest := by
  have hskip : (utf8 ".." = [] || utf8 ".." = utf8 ".") = false := by decide
  have hstep : ∀ before rest, resolve false (replicate before (utf8 ".."))
      (utf8 ".." :: rest) = resolve false (replicate (before + 1) (utf8 "..")) rest := by
    intro before rest
    cases before with
    | zero => simp [resolve, hskip]
    | succ before => simp [resolve, hskip, replicate_succ]
  induction count generalizing before with
  | zero => rw [Nat.zero_add, replicate_zero, nil_append]
  | succ count ih =>
    rw [replicate_succ, cons_append, hstep, ih, Nat.add_right_comm, Nat.add_assoc]

theorem resolve_resolved (h : Resolved rooted elements.reverse) :
    resolve rooted [] elements = elements := by
  obtain ⟨names, count, helements, hnames, hrooted⟩ := h
  have hwritten : elements = replicate count (utf8 "..") ++ names.reverse := by
    rw [← reverse_reverse elements, helements, reverse_append, reverse_replicate]
  have hreverse : ∀ name ∈ names.reverse, IsName name := by simpa using hnames
  cases rooted with
  | true =>
    rw [hwritten, hrooted rfl]
    exact resolve_names hreverse true []
  | false =>
    have hups := resolve_ups count 0 names.reverse
    rw [hwritten]
    refine hups.trans ?_
    rw [resolve_names hreverse, reverse_replicate]
    rfl

theorem resolve_concat_nil (rooted : Bool) (done elements : List Bytes) :
    resolve rooted done (elements ++ [[]]) = resolve rooted done elements := by
  fun_induction resolve rooted done elements with
  | case1 done => simp [resolve]
  | _ => simp_all [resolve]

theorem mem_resolve (h : element ∈ resolve rooted done elements) :
    element ∈ done ∨ element ∈ elements := by
  fun_induction resolve rooted done elements with
  | case1 done => exact .inl (mem_reverse.mp h)
  | _ => grind

theorem Resolved.mem (h : Resolved rooted elements.reverse) (helement : element ∈ elements) :
    IsName element ∨ element = utf8 ".." := by
  obtain ⟨names, count, helements, hnames, -⟩ := h
  rw [← mem_reverse, helements, mem_append] at helement
  exact helement.imp (hnames element) eq_of_mem_replicate

theorem Resolved.plain (h : Resolved rooted elements.reverse) :
    ∀ element ∈ elements, separator ∉ element := by
  intro element helement
  rcases h.mem helement with hname | rfl
  · exact hname.plain
  · decide

theorem Resolved.ne_nil (h : Resolved rooted elements.reverse) :
    ∀ element ∈ elements, element ≠ [] := by
  intro element helement
  rcases h.mem helement with hname | rfl
  · exact hname.nonempty
  · decide

theorem splitAt_spell (hne : elements ≠ []) (h : ∀ element ∈ elements, separator ∉ element) :
    splitAt separator (spell rooted elements) = (if rooted then [[]] else []) ++ elements := by
  unfold spell
  split
  · rw [splitAt_cons, splitAt_join hne h]
    rfl
  · rw [splitAt_join hne h]
    rfl

theorem spell_concat (hne : elements ≠ []) (rooted : Bool) (name : Bytes) :
    spell rooted (elements ++ [name]) = spell rooted elements ++ separator :: name := by
  unfold spell
  rw [join_concat _ _ hne, append_assoc, singleton_append]
  split
  · rfl
  · rfl

def steps (path : Bytes) : List Bytes :=
  resolve (isAbsolute path) [] (splitAt separator path)

theorem resolved_steps (path : Bytes) : Resolved (isAbsolute path) (steps path).reverse :=
  resolved_resolve (resolved_nil _) fun _ helement hmem => (mem_splitAt helement hmem).1 rfl

theorem isAbsolute_append (hpath : path ≠ []) (rest : Bytes) :
    isAbsolute (path ++ rest) = isAbsolute path := by
  cases path with
  | nil => exact absurd rfl hpath
  | cons b path => rfl

theorem clean_below (hpath : path ≠ []) (h : IsName name) :
    clean (path ++ separator :: name) = spell (isAbsolute path) (steps path ++ [name]) := by
  have hsome : Text.join [separator] (steps path ++ [name]) ≠ [] :=
    (h.endsWith_join _).ne_nil h
  simp only [clean, isAbsolute_append hpath, splitAt_concat _ h.plain, resolve_concat h]
  unfold spell
  split
  · rfl
  · exact if_neg hsome

theorem spell_ne_nil (hne : elements ≠ []) (h : Resolved rooted elements.reverse) :
    spell rooted elements ≠ [] := by
  cases rooted with
  | true => exact cons_ne_nil _ _
  | false =>
    cases elements with
    | nil => exact absurd rfl hne
    | cons first rest =>
      have hfirst := h.ne_nil first mem_cons_self
      cases rest <;> simp [spell, Text.join, hfirst]

theorem isAbsolute_spell (hne : elements ≠ []) (h : Resolved rooted elements.reverse) :
    isAbsolute (spell rooted elements) = rooted := by
  cases rooted with
  | true => rfl
  | false =>
    cases elements with
    | nil => exact absurd rfl hne
    | cons first rest =>
      cases first with
      | nil => exact absurd rfl (h.ne_nil [] mem_cons_self)
      | cons b first =>
        have hb : b ≠ separator := by
          rintro rfl
          exact h.plain _ mem_cons_self mem_cons_self
        have hhead : (spell false ((b :: first) :: rest)).head? = some b := by
          cases rest <;> simp [spell, Text.join]
        simp [isAbsolute, hhead, hb]

theorem clean_spell (hne : elements ≠ []) (h : Resolved rooted elements.reverse) :
    clean (spell rooted elements ++ [separator]) = spell rooted elements := by
  have hsplit : splitAt separator (spell rooted elements ++ [separator]) =
      (if rooted then [[]] else []) ++ (elements ++ [[]]) := by
    rw [splitAt_concat _ not_mem_nil, splitAt_spell hne h.plain, append_assoc]
  have hsteps : resolve rooted [] ((if rooted then [[]] else []) ++ (elements ++ [[]])) =
      elements := by
    have hroot : resolve rooted [] ((if rooted then [[]] else []) ++ (elements ++ [[]])) =
        resolve rooted [] (elements ++ [[]]) := by
      cases rooted <;> simp [resolve]
    rw [hroot, resolve_concat_nil, resolve_resolved h]
  have hsome : spell rooted elements ≠ [] := spell_ne_nil hne h
  simp only [clean, isAbsolute_append hsome, isAbsolute_spell hne h, hsplit, hsteps]
  cases rooted with
  | true => rfl
  | false => exact if_neg hsome

theorem lastElement_append (path : Bytes) (h : separator ∉ name) :
    lastElement (path ++ name) = lastElement path ++ name := by
  have hplain : ∀ b ∈ name.reverse, decide (b ≠ separator) = true := by
    intro b hb
    simp only [decide_eq_true_eq]
    rintro rfl
    exact h (mem_reverse.mp hb)
  rw [lastElement, reverse_append, takeWhile_append_of_pos hplain]
  simp [lastElement]

theorem lastElement_plain (h : separator ∉ name) : lastElement name = name :=
  lastElement_append [] h

theorem lastElement_below (path : Bytes) (h : separator ∉ name) :
    lastElement (path ++ separator :: name) = name := by
  have hfolder : lastElement (path ++ [separator]) = [] := by
    simp [lastElement]
  rw [append_cons, lastElement_append _ h, hfolder, nil_append]

section Below

variable {folder : Bytes}

theorem join_folder (hpath : path ≠ []) (hfolder : folder ≠ []) :
    join [path, folder] = clean (path ++ separator :: folder) := by
  simp [join, hpath, hfolder, Text.join]

theorem join_below (hpath : path ≠ []) (hfolder : IsName folder) (hname : IsName name) :
    join [path, folder, name] = join [path, folder] ++ separator :: name := by
  have hlong : join [path, folder, name] =
      clean ((path ++ separator :: folder) ++ separator :: name) := by
    simp [join, hpath, hfolder.nonempty, hname.nonempty, Text.join]
  have hsteps : steps (path ++ separator :: folder) = steps path ++ [folder] := by
    rw [steps, isAbsolute_append hpath, splitAt_concat _ hfolder.plain, resolve_concat hfolder,
      steps]
  rw [hlong, clean_below (by simp) hname, isAbsolute_append hpath, hsteps,
    spell_concat (by simp), join_folder hpath hfolder.nonempty, clean_below hpath hfolder]

theorem resolved_folder (path : Bytes) (hfolder : IsName folder) :
    Resolved (isAbsolute path) (steps path ++ [folder]).reverse := by
  rw [reverse_append]
  exact (resolved_steps path).push hfolder

theorem join_folder_eq (hpath : path ≠ []) (hfolder : IsName folder) :
    ∃ before, join [path, folder] = before ++ folder ∧
      (before = [] ∨ ∃ above, before = above ++ [separator]) := by
  rw [join_folder hpath hfolder.nonempty, clean_below hpath hfolder]
  by_cases hnil : steps path = []
  · rw [hnil]
    cases isAbsolute path with
    | true => exact ⟨[separator], by simp [spell, Text.join], .inr ⟨[], rfl⟩⟩
    | false => exact ⟨[], by simp [spell, Text.join], .inl rfl⟩
  · refine ⟨spell (isAbsolute path) (steps path) ++ [separator], ?_, .inr ⟨_, rfl⟩⟩
    rw [spell_concat hnil, append_assoc, singleton_append]

theorem mem_join_folder (hpath : path ≠ []) (hfolder : IsName folder) {b : UInt8}
    (h : b ∈ join [path, folder]) : b = separator ∨ b ∈ path ∨ b ∈ folder := by
  rw [join_folder hpath hfolder.nonempty, clean_below hpath hfolder] at h
  have hjoin : b = separator ∨ b ∈ Text.join [separator] (steps path ++ [folder]) := by
    unfold spell at h
    split at h
    · exact mem_cons.mp h
    · exact .inr h
  rcases hjoin with hb | hb
  · exact .inl hb
  · rcases mem_join hb with hb | ⟨piece, hpiece, hb⟩
    · exact .inl (mem_singleton.mp hb)
    · rcases mem_append.mp hpiece with hstep | hlast
      · have hmem := (mem_resolve hstep).resolve_left not_mem_nil
        exact .inr (.inl (mem_splitAt hmem hb).2)
      · exact .inr (.inr (mem_singleton.mp hlast ▸ hb))

theorem directory_below (hpath : path ≠ []) (hfolder : IsName folder) (hname : IsName name) :
    directory (join [path, folder] ++ separator :: name) = join [path, folder] := by
  have htake : (join [path, folder] ++ separator :: name).take
      ((join [path, folder] ++ separator :: name).length - name.length) =
      join [path, folder] ++ [separator] := by
    rw [append_cons, length_append, Nat.add_sub_cancel, take_left]
  rw [directory, lastElement_below _ hname.plain, htake, join_folder hpath hfolder.nonempty,
    clean_below hpath hfolder]
  exact clean_spell (by simp) (resolved_folder path hfolder)

end Below

end Shading.Path
