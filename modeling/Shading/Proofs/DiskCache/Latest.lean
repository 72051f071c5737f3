import Shading.Proofs.DiskCache.Honesty
import Shading.Proofs.Files.Ways

/-!
A disk cache on a tree of files is a map. Its calls leave one file for every key
that code was put under since the entries were last forgotten, and that file
holds what was put last; beside these files there is nothing in the directory of
the entries. So looking for a key finds the code that was put last. The rest of
the tree may change meanwhile, as long as its directories stay.
-/

namespace Shading

open Shading.Text Shading.Path List FileTree

variable {content : Bytes}

section Names

theorem length_hex (text : Bytes) : (hex text).length = 2 * text.length := by
  induction text with
  | nil => rfl
  | cons b rest ih =>
    have hdigits : (hexDigits lowerDigit 2 b.toNat).length = 2 := rfl
    rw [hex, flatMap_cons, length_append, hdigits, ← hex, ih, length_cons]
    omega

theorem length_entryName_hash {key : Bytes} (h : key.length = 32) :
    (entryName key).length = 67 := by
  have hending : (utf8 ".mp").length = 3 := by decide
  rw [entryName, length_append, length_hex, hending, h]

theorem zero_not_mem_entryName (key : Bytes) : 0 ∉ entryName key := by
  intro hmem
  rcases mem_append.mp hmem with hhex | hending
  · exact forall_mem_hex (P := (· ≠ 0)) (by decide) hhex rfl
  · exact absurd hending (by decide)

theorem entryName_inj {key key' : Bytes} (h : entryName key = entryName key') : key = key' :=
  hex_inj (append_cancel_right h)

end Names

namespace DiskCache

def folder : Bytes := utf8 "spv"

theorem isName_folder : IsName folder := by
  refine ⟨?_, ?_, ?_, ?_⟩ <;> decide

/-- A call of the operations of a disk cache. -/
inductive Call where
  | put (key : Bytes) (code : Option Bytes)
  | get (key : Bytes)
  | clear
  deriving DecidableEq, Repr

/-- The keys of calls are as long as hashes. -/
def Call.Keyed : Call → Prop
  | .put key _ => key.length = 32
  | .get key => key.length = 32
  | .clear => True

/-- The tree after a call. -/
def Call.run (c : DiskCache) (t : FileTree) : Call → FileTree
  | .put key code => (c.put Files.tree key code t).2
  | .get key => (c.get Files.tree key t).2
  | .clear => (c.clear Files.tree t).2

def Call.put? (key : Bytes) : Call → Option (Option Bytes)
  | .put key' code => if key' = key then some code else none
  | .get _ => none
  | .clear => none

/-- What was put under a key last, after the entries were last forgotten. -/
def latest (calls : List Call) (key : Bytes) : Option (Option Bytes) :=
  (calls.reverse.takeWhile (· ≠ .clear)).findSome? (Call.put? key)

section Latest

variable {calls : List Call} {key key' : Bytes} {code : Option Bytes}

theorem latest_put (calls : List Call) (key key' : Bytes) (code : Option Bytes) :
    latest (calls ++ [.put key code]) key' =
      if key = key' then some code else latest calls key' := by
  by_cases hkey : key = key'
  · simp [latest, Call.put?, hkey]
  · simp [latest, Call.put?, hkey]

theorem latest_get (calls : List Call) (key key' : Bytes) :
    latest (calls ++ [.get key]) key' = latest calls key' := by
  simp [latest, Call.put?, findSome?_cons]

theorem latest_clear (calls : List Call) (key : Bytes) : latest (calls ++ [.clear]) key = none := by
  simp [latest]

end Latest

structure Roomy (c : DiskCache) (place : Place) : Prop where
  directory : c.directory ≠ []
  place : place ≠ []
  short : c.entryDirectory.length + 67 < FileTree.maxPathLength

structure Serves (c : DiskCache) (place : Place) (calls : List Call) (t : FileTree) : Prop where
  leads : t.Leads c.entryDirectory place
  present : t.lookup place = some .directory ∨
    t.lookup place = none ∧ ∀ key, latest calls key = none
  entry : ∀ key code, latest calls key = some code →
    t.Holds (place ++ [entryName key]) (CacheEntry.encode ⟨entrySchema, code⟩)
  below : ∀ other found, place <+: other → t.lookup other = some found →
    other = place ∧ found = .directory ∨ ∃ key code, latest calls key = some code ∧
      other = place ++ [entryName key] ∧
      found = .file (CacheEntry.encode ⟨entrySchema, code⟩)

section Places

variable {c : DiskCache} {place other : Place} {calls : List Call} {t t' : FileTree}
  {key name : Bytes} {code : Option Bytes}

theorem entryPath_eq (hdirectory : c.directory ≠ []) (key : Bytes) :
    c.entryPath key = c.entryDirectory ++ separator :: entryName key :=
  join_below hdirectory isName_folder (isName_entryName key)

theorem directory_entryPath (hdirectory : c.directory ≠ []) (key : Bytes) :
    Path.directory (c.entryPath key) = c.entryDirectory := by
  rw [entryPath_eq hdirectory]
  exact directory_below hdirectory isName_folder (isName_entryName key)

theorem Serves.congr {calls' : List Call} (h : Serves c place calls t)
    (hlatest : ∀ key, latest calls' key = latest calls key) : Serves c place calls' t := by
  refine ⟨h.leads, ?_, ?_, ?_⟩
  · simpa only [hlatest] using h.present
  · simpa only [hlatest] using h.entry
  · simpa only [hlatest] using h.below

theorem Serves.none_below (h : Serves c place calls t)
    (hname : ∀ key, name = entryName key → latest calls key = none) (rest : Place) :
    t.lookup (place ++ name :: rest) = none := by
  rw [Option.eq_none_iff_forall_ne_some]
  intro found hfound
  rcases h.below _ found (prefix_append _ _) hfound with
    ⟨hplace, -⟩ | ⟨key, code, hlatest, hplace, -⟩
  · exact cons_ne_nil _ _ (append_right_eq_self.mp hplace)
  · have heq := append_cancel_left hplace
    rw [hname key (cons.inj heq).1] at hlatest
    cases hlatest

theorem Serves.read (h : Serves c place calls t) (hroomy : c.Roomy place)
    (hkey : key.length = 32) :
    t.read (c.entryPath key) = match latest calls key with
      | some code => .ok (CacheEntry.encode ⟨entrySchema, code⟩)
      | none => .error ⟨.access, c.entryPath key, .absent⟩ := by
  have hname := length_entryName_hash hkey
  have hlocate : t.locate (c.entryPath key) = t.walk place [entryName key] := by
    rw [entryPath_eq hroomy.directory]
    exact locate_below h.leads.locate (isName_entryName key) (zero_not_mem_entryName key)
      (by rw [hname]; exact hroomy.short)
  rcases h.present with hdirectory | ⟨hnone, hlatest⟩
  · have hplace : t.walk place [entryName key] = .ok (place ++ [entryName key]) := by
      rw [walk_cons hdirectory (by rw [hname]; decide),
        follow_name (isName_entryName key)]
      rfl
    cases hlatest : latest calls key with
    | some code =>
      have hentry : t.lookup (place ++ [entryName key]) = some (.file _) :=
        h.entry key code hlatest
      simp only [FileTree.read, hlocate, hplace, hentry]
    | none =>
      have hentry : t.lookup (place ++ [entryName key]) = none := by
        refine h.none_below (fun key' heq => ?_) []
        rw [← entryName_inj heq, hlatest]
      simp only [FileTree.read, hlocate, hplace, hentry]
  · have habsent : t.walk place [entryName key] = .error .absent := by
      rw [FileTree.walk, hnone]
    simp only [FileTree.read, hlocate, habsent, hlatest key]

theorem tree_bind {α β : Type} (x : StateM FileTree α) (f : α → StateM FileTree β)
    (t : FileTree) : (x >>= f) t = f (x t).1 (x t).2 := rfl

theorem get_run (c : DiskCache) (key : Bytes) (t : FileTree) :
    c.get Files.tree key t =
      (match entryOf key (t.read (c.entryPath key)) with
        | .error e => .error e
        | .ok none => .ok none
        | .ok (some entry) =>
          .ok (if entry.schema = entrySchema then some (entry.code.getD []) else none), t) := by
  have hread : Files.tree.read (c.entryPath key) t = (t.read (c.entryPath key), t) := rfl
  rw [DiskCache.get, tree_bind, hread]
  cases hentry : entryOf key (t.read (c.entryPath key)) with
  | error e => rfl
  | ok found =>
    cases found with
    | none => rfl
    | some entry => rfl

theorem Serves.get (h : Serves c place calls t) (hroomy : c.Roomy place) (hkey : key.length = 32) :
    c.get Files.tree key t =
      (.ok ((latest calls key).map fun code => CacheEntry.kept (code.getD [])), t) := by
  have hread := h.read hroomy hkey
  cases hlatest : latest calls key with
  | none =>
    simp only [hlatest] at hread
    simp [get_run, hread, entryOf]
  | some code =>
    simp only [hlatest] at hread
    have hdecode := CacheEntry.decode?_encode ⟨entrySchema, code⟩ []
    rw [append_nil] at hdecode
    cases code <;> simp [get_run, hread, entryOf, hdecode, CacheEntry.kept]

theorem Serves.get_latest (h : Serves c place calls t) (hroomy : c.Roomy place)
    (hkey : key.length = 32)
    (hsize : ∀ code, latest calls key = some (some code) → code.length < 0x100000000) :
    c.get Files.tree key t = (.ok ((latest calls key).map (·.getD [])), t) := by
  rw [h.get hroomy hkey]
  cases hlatest : latest calls key with
  | none => rfl
  | some found =>
    cases found with
    | none => rfl
    | some code => simp [CacheEntry.kept_of_lt (hsize code hlatest)]

structure Stored (place : Place) (key content : Bytes) (t t' : FileTree) : Prop where
  start : t'.workingDirectory = t.workingDirectory
  directory : t'.lookup place = some .directory
  entry : t'.Holds (place ++ [entryName key]) content
  others : ∀ other, other ≠ place → other ≠ place ++ [entryName key] →
    t'.lookup other = t.lookup other

theorem Serves.makeDirectories (h : Serves c place calls t) (hroomy : c.Roomy place) :
    ∃ t', t.makeDirectories c.entryDirectory = .ok t' ∧ Serves c place calls t' ∧
      t'.workingDirectory = t.workingDirectory ∧ t'.lookup place = some .directory ∧
      ∀ other, other ≠ place → t'.lookup other = t.lookup other := by
  rcases h.present with hdirectory | ⟨hnone, hlatest⟩
  · exact ⟨t, makeDirectoriesWithin_present h.leads.locate hdirectory _, h, rfl, hdirectory,
      fun _ _ => rfl⟩
  · obtain ⟨before, hpath, hbefore⟩ := join_folder_eq hroomy.directory isName_folder
    have hothers : ∀ other, other ≠ place →
        (t.insert place .directory).lookup other = t.lookup other :=
      fun other hother => lookup_insert_of_ne hother
    have hmade : (t.insert place .directory).lookup place = some .directory :=
      lookup_insert_self hroomy.place
    refine ⟨t.insert place .directory, ?_, ?_, rfl, hmade, hothers⟩
    · have hlocate := h.leads.locate
      have hdirectory : c.entryDirectory = before ++ folder := hpath
      rw [hdirectory] at hlocate ⊢
      exact makeDirectories_missing isName_folder hbefore hlocate hnone
    · refine ⟨?_, .inl hmade, ?_, ?_⟩
      · refine h.leads.of_kept hroomy.place rfl fun other hother hdirectory => ?_
        rw [hothers other fun heq => hother (heq ▸ prefix_rfl), hdirectory]
      · intro key code hcode
        rw [hlatest key] at hcode
        cases hcode
      · intro other found hother hfound
        by_cases hplace : other = place
        · rw [hplace, hmade] at hfound
          exact .inl ⟨hplace, (Option.some.inj hfound).symm⟩
        · rw [hothers other hplace] at hfound
          exact h.below other found hother hfound

structure Opened (c : DiskCache) (place : Place) (t : FileTree) : Prop where
  leads : t.Leads c.entryDirectory place
  directory : t.lookup place = some .directory

theorem Opened.insert (h : Opened c place t) (hroomy : c.Roomy place) (name : Bytes)
    (found : FileEntry) : Opened c place (t.insert (place ++ [name]) found) := by
  have hkept : ∀ other, ¬place <+: other ∨ other = place →
      (t.insert (place ++ [name]) found).lookup other = t.lookup other := by
    intro other hother
    apply lookup_insert_of_ne
    rintro rfl
    rcases hother with habove | hplace
    · exact habove (prefix_append _ _)
    · exact cons_ne_nil _ _ (append_right_eq_self.mp hplace)
  refine ⟨h.leads.of_kept hroomy.place rfl fun other hother hdirectory => ?_, ?_⟩
  · rw [hkept other (.inl hother), hdirectory]
  · rw [hkept place (.inr rfl), h.directory]

theorem Opened.locate (h : Opened c place t) (hroomy : c.Roomy place) (hname : IsName name)
    (hvalid : 0 ∉ name) (hlength : name.length ≤ 67) :
    t.locate (c.entryDirectory ++ separator :: name) = .ok (place ++ [name]) := by
  have hshort := hroomy.short
  have hmax : 67 ≤ maxNameLength := by decide
  rw [locate_below h.leads.locate hname hvalid (by omega),
    walk_cons h.directory (by omega), follow_name hname]
  rfl

def temporaryName : Bytes := FileTree.temporaryStem ++ decimal 0

theorem isName_temporaryName : IsName temporaryName := isName_temporary 0

theorem Opened.locate_temporary (h : Opened c place t) (hroomy : c.Roomy place) :
    t.locate (c.entryDirectory ++ separator :: temporaryName) = .ok (place ++ [temporaryName]) :=
  h.locate hroomy isName_temporaryName (by decide) (by decide)

theorem Opened.createTemporary (h : Opened c place t)
    (hfree : t.lookup (place ++ [temporaryName]) = none) :
    t.createTemporary c.entryDirectory = .ok (c.entryDirectory ++ separator :: temporaryName,
      t.insert (place ++ [temporaryName]) (.file [])) := by
  have hname : t.freeName? place = some temporaryName := by
    rw [freeName?, range_succ_eq_map, map_cons, find?_cons_of_pos]
    · rfl
    · exact Option.isNone_iff_eq_none.mpr hfree
  simp [FileTree.createTemporary, h.leads.locate, h.directory, hname]

theorem Opened.write (h : Opened c place t) (hroomy : c.Roomy place) (content content' : Bytes)
    (hfile : t.Holds (place ++ [temporaryName]) content') :
    t.write (c.entryDirectory ++ separator :: temporaryName) content =
      .ok (t.insert (place ++ [temporaryName]) (.file content)) := by
  have htrimmed : trimmed (c.entryDirectory ++ separator :: temporaryName) =
      c.entryDirectory ++ separator :: temporaryName := by
    rw [append_cons]
    exact trimmed_name _ isName_temporaryName
  have hlookup : t.lookup (place ++ [temporaryName]) = some (.file content') := hfile
  simp [FileTree.write, htrimmed, h.locate_temporary hroomy, hlookup]

theorem Opened.rename (h : Opened c place t) (hroomy : c.Roomy place) (hkey : key.length = 32)
    (hfile : t.Holds (place ++ [temporaryName]) content)
    (htarget : t.lookup (place ++ [entryName key]) ≠ some .directory) :
    t.rename (c.entryDirectory ++ separator :: temporaryName) (c.entryPath key) =
      .ok ((t.erase (place ++ [temporaryName])).insert (place ++ [entryName key])
        (.file content)) := by
  have hentry : t.locate (c.entryPath key) = .ok (place ++ [entryName key]) := by
    rw [entryPath_eq hroomy.directory]
    exact h.locate hroomy (isName_entryName key) (zero_not_mem_entryName key)
      (Nat.le_of_eq (length_entryName_hash hkey))
  have hlookup : t.lookup (place ++ [temporaryName]) = some (.file content) := hfile
  cases hfound : t.lookup (place ++ [entryName key]) with
  | none => simp [FileTree.rename, h.locate_temporary hroomy, hentry, hlookup, hfound]
  | some found =>
    cases found with
    | directory => exact absurd hfound htarget
    | file old => simp [FileTree.rename, h.locate_temporary hroomy, hentry, hlookup, hfound]

theorem lookup_moved {source target : Place} {first second third : FileEntry}
    (hsource : source ≠ []) (hfree : ∀ other, source <+: other → t.lookup other = none)
    (hother : other ≠ target) :
    ((((t.insert source first).insert source second).erase source).insert target third).lookup
      other = t.lookup other := by
  rw [lookup_insert_of_ne hother]
  by_cases hbelow : source <+: other
  · rw [lookup_erase_below hsource hbelow, hfree other hbelow]
  · have hne : other ≠ source := fun heq => hbelow (heq ▸ prefix_rfl)
    rw [lookup_erase_of_not hbelow, lookup_insert_of_ne hne,
      lookup_insert_of_ne hne]

theorem put_ok {t₁ t₂ t₃ t₄ : FileTree} {temporary : Bytes}
    (hmade : t.makeDirectories (Path.directory (c.entryPath key)) = .ok t₁)
    (hcreated : t₁.createTemporary (Path.directory (c.entryPath key)) = .ok (temporary, t₂))
    (hwritten : t₂.write temporary (CacheEntry.encode ⟨entrySchema, code⟩) = .ok t₃)
    (hrenamed : t₃.rename temporary (c.entryPath key) = .ok t₄) :
    c.put Files.tree key code t = (.ok (), t₄) := by
  have hmake : Files.tree.makeDirectories (Path.directory (c.entryPath key)) t = (.ok (), t₁) :=
    update_ok hmade
  have hcreate := tree_createTemporary_ok hcreated
  have hwrite : Files.tree.write temporary (CacheEntry.encode ⟨entrySchema, code⟩) t₂ =
      (.ok (), t₃) := update_ok hwritten
  have hrename : Files.tree.rename temporary (c.entryPath key) t₃ = (.ok (), t₄) :=
    update_ok hrenamed
  rw [DiskCache.put, tree_bind, hmake]
  simp only [tree_bind, hcreate, fillAndMove, hwrite, hrename]
  rfl

theorem Serves.put_stored (h : Serves c place calls t) (hroomy : c.Roomy place)
    (hkey : key.length = 32) (code : Option Bytes) :
    ∃ t', c.put Files.tree key code t = (.ok (), t') ∧
      Stored place key (CacheEntry.encode ⟨entrySchema, code⟩) t t' := by
  obtain ⟨t₁, hmade, hserves, hstart, hdirectory, hothers⟩ := h.makeDirectories hroomy
  have hopened : Opened c place t₁ := ⟨hserves.leads, hdirectory⟩
  have htemporary : ∀ key, temporaryName = entryName key → latest calls key = none :=
    fun key heq => absurd heq (temporary_ne_entryName 0 key)
  have hfree : ∀ other, place ++ [temporaryName] <+: other → t₁.lookup other = none := by
    rintro _ ⟨rest, rfl⟩
    rw [append_assoc]
    exact hserves.none_below htemporary rest
  have hplaces : place ++ [entryName key] ≠ place ++ [temporaryName] := fun heq =>
    temporary_ne_entryName 0 key (cons.inj (append_cancel_left heq)).1.symm
  have hbelow : place ≠ place ++ [entryName key] := fun heq =>
    cons_ne_nil _ _ (append_right_eq_self.mp heq.symm)
  have htarget : t₁.lookup (place ++ [entryName key]) ≠ some .directory := by
    intro hfound
    rcases hserves.below _ _ (prefix_append _ _) hfound with ⟨hplace, -⟩ | ⟨_, _, -, -, hfile⟩
    · exact hbelow hplace.symm
    · cases hfile
  -- the temporary file is created empty, filled, and moved over the entry
  have hopened₂ := hopened.insert hroomy temporaryName (.file [])
  have hopened₃ := hopened₂.insert hroomy temporaryName
    (.file (CacheEntry.encode ⟨entrySchema, code⟩))
  have hwritten := hopened₂.write hroomy (CacheEntry.encode ⟨entrySchema, code⟩) []
    (lookup_insert_self (by simp))
  have hrenamed := hopened₃.rename hroomy hkey (lookup_insert_self (by simp))
    (by rwa [lookup_insert_of_ne hplaces, lookup_insert_of_ne hplaces])
  rw [← directory_entryPath hroomy.directory key] at hmade
  refine ⟨_, put_ok hmade ?_ hwritten hrenamed, hstart, ?_, ?_, fun other hplace hentry => ?_⟩
  · rw [directory_entryPath hroomy.directory]
    exact hopened.createTemporary (hfree _ prefix_rfl)
  · rw [lookup_moved (by simp) hfree hbelow, hdirectory]
  · exact lookup_insert_self (by simp)
  · rw [lookup_moved (by simp) hfree hentry, hothers other hplace]

theorem Stored.serves (h : Stored place key content t t') (hserves : Serves c place calls t)
    (hroomy : c.Roomy place) (hcontent : content = CacheEntry.encode ⟨entrySchema, code⟩) :
    Serves c place (calls ++ [.put key code]) t' := by
  refine ⟨?_, .inl h.directory, ?_, ?_⟩
  · refine hserves.leads.of_kept hroomy.place h.start fun other hother hdirectory => ?_
    rw [h.others other (fun heq => hother (heq ▸ prefix_rfl))
      (fun heq => hother (heq ▸ prefix_append _ _)), hdirectory]
  · intro key' code' hlatest
    rw [latest_put] at hlatest
    split at hlatest
    · next hkey =>
        cases hlatest
        rw [← hkey, ← hcontent]
        exact h.entry
    · next hkey =>
        have hplaces : place ++ [entryName key'] ≠ place ++ [entryName key] := fun heq =>
          hkey (entryName_inj (cons.inj (append_cancel_left heq)).1).symm
        rw [Holds, h.others _ (by simp) hplaces]
        exact hserves.entry key' code' hlatest
  · intro other found hother hfound
    by_cases hplace : other = place
    · rw [hplace, h.directory] at hfound
      exact .inl ⟨hplace, (Option.some.inj hfound).symm⟩
    · by_cases hentry : other = place ++ [entryName key]
      · rw [hentry, h.entry] at hfound
        refine .inr ⟨key, code, by rw [latest_put, if_pos rfl], hentry, ?_⟩
        rw [← hcontent]
        exact (Option.some.inj hfound).symm
      · rw [h.others other hplace hentry] at hfound
        rcases hserves.below other found hother hfound with hself | ⟨key', code', hlatest, rfl, rfl⟩
        · exact .inl hself
        · refine .inr ⟨key', code', ?_, rfl, rfl⟩
          rw [latest_put, if_neg (fun heq => hentry (by rw [heq])), hlatest]

theorem Serves.clear (h : Serves c place calls t) (hroomy : c.Roomy place) :
    c.clear Files.tree t = (.ok (), t.erase place) ∧
      Serves c place (calls ++ [.clear]) (t.erase place) := by
  have hremove : t.remove c.entryDirectory = .ok (t.erase place) := by
    simp only [remove, h.leads.locate]
  have hnone : ∀ other, place <+: other → (t.erase place).lookup other = none :=
    fun other hother => lookup_erase_below hroomy.place hother
  refine ⟨update_ok hremove, ?_, ?_, ?_, ?_⟩
  · refine h.leads.of_kept hroomy.place rfl fun other hother hdirectory => ?_
    rw [lookup_erase_of_not hother, hdirectory]
  · exact .inr ⟨hnone place prefix_rfl, latest_clear calls⟩
  · intro key code hlatest
    rw [latest_clear] at hlatest
    cases hlatest
  · intro other found hother hfound
    rw [hnone other hother] at hfound
    cases hfound

structure Elsewhere (place : Place) (t t' : FileTree) : Prop where
  start : t'.workingDirectory = t.workingDirectory
  directories : ∀ other, ¬place <+: other → t.lookup other = some .directory →
    t'.lookup other = some .directory
  kept : ∀ other, place <+: other → t'.lookup other = t.lookup other

theorem Serves.elsewhere (h : Serves c place calls t) (hroomy : c.Roomy place)
    (hchange : Elsewhere place t t') : Serves c place calls t' := by
  refine ⟨h.leads.of_kept hroomy.place hchange.start hchange.directories, ?_, ?_, ?_⟩
  · rw [hchange.kept place prefix_rfl]
    exact h.present
  · intro key code hlatest
    rw [Holds, hchange.kept _ (prefix_append _ _)]
    exact h.entry key code hlatest
  · intro other found hother hfound
    rw [hchange.kept other hother] at hfound
    exact h.below other found hother hfound

theorem create_ok {directory : Bytes} (h : DiskCache.create Files.tree directory t = (.ok c, t')) :
    c = ⟨directory⟩ ∧ t.makeDirectories directory = .ok t' := by
  rw [DiskCache.create, tree_bind] at h
  cases hmade : t.makeDirectories directory with
  | error e =>
    have hmake : Files.tree.makeDirectories directory t = (.error e, t) :=
      update_error hmade
    rw [hmake] at h
    cases h
  | ok made =>
    have hmake : Files.tree.makeDirectories directory t = (.ok (), made) :=
      update_ok hmade
    rw [hmake] at h
    cases h
    exact ⟨rfl, rfl⟩

theorem serves_create {directory : Bytes} {t₀ : FileTree}
    (hcreate : DiskCache.create Files.tree directory t₀ = (.ok c, t))
    (hempty : ∀ other, t.destination c.entryDirectory <+: other → t.lookup other = none)
    (hstart : isAbsolute directory = true ∨
      ¬t.destination c.entryDirectory <+: t.workingDirectory)
    (hshort : c.entryDirectory.length + 67 < FileTree.maxPathLength) :
    c.Roomy (t.destination c.entryDirectory) ∧
      Serves c (t.destination c.entryDirectory) [] t := by
  obtain ⟨rfl, hmade⟩ := create_ok hcreate
  obtain ⟨home, hreaches⟩ := makeDirectories_reaches hmade
  have hlength : (join [directory, folder]).length ≤ maxPathLength := by
    change (entryDirectory ⟨directory⟩).length ≤ _
    omega
  have hdestination : t.destination (entryDirectory ⟨directory⟩) = home ++ [folder] :=
    hreaches.destination_folder isName_folder (by decide) (by decide) hlength
  rw [hdestination] at hempty hstart ⊢
  have hleads : t.Leads (entryDirectory ⟨directory⟩) (home ++ [folder]) :=
    hreaches.leads isName_folder (by decide) (by decide) hlength hstart
  refine ⟨⟨hreaches.nonempty, by simp, hshort⟩, hleads, ?_, ?_, ?_⟩
  · exact .inr ⟨hempty _ prefix_rfl, fun _ => rfl⟩
  · intro key code hlatest
    cases hlatest
  · intro other found hother hfound
    rw [hempty other hother] at hfound
    cases hfound

end Places

/-- What can have happened to a tree since a cache was opened on it: calls of the cache, and changes
away from the directory of its entries. -/
inductive History (c : DiskCache) (place : Place) (start : FileTree) :
    List Call → FileTree → Prop where
  | opened : History c place start [] start
  | call {calls : List Call} {t : FileTree} (call : Call) (h : History c place start calls t)
      (hkeyed : call.Keyed) : History c place start (calls ++ [call]) (call.run c t)
  | elsewhere {calls : List Call} {t t' : FileTree} (h : History c place start calls t)
      (hchange : Elsewhere place t t') : History c place start calls t'

section Histories

variable {c : DiskCache} {place : Place} {calls : List Call} {start t : FileTree}

theorem Serves.call (h : Serves c place calls t) (hroomy : c.Roomy place) {call : Call}
    (hkeyed : call.Keyed) : Serves c place (calls ++ [call]) (call.run c t) := by
  cases call with
  | put key code =>
    obtain ⟨t', hput, hstored⟩ := h.put_stored hroomy hkeyed code
    rw [Call.run, hput]
    exact hstored.serves h hroomy rfl
  | get key =>
    rw [Call.run, get_run]
    exact h.congr (latest_get calls key)
  | clear =>
    obtain ⟨hclear, hserves⟩ := h.clear hroomy
    rw [Call.run, hclear]
    exact hserves

theorem History.serves (h : History c place start calls t) (hroomy : c.Roomy place)
    (hstart : Serves c place [] start) : Serves c place calls t := by
  induction h with
  | opened => exact hstart
  | call call _ hkeyed ih => exact ih.call hroomy hkeyed
  | elsewhere _ hchange ih => exact ih.elsewhere hroomy hchange

theorem Serves.call_elsewhere (h : Serves c place calls t) (hroomy : c.Roomy place) {call : Call}
    (hkeyed : call.Keyed) {other : Place} (hother : ¬place <+: other) :
    (call.run c t).lookup other = t.lookup other := by
  cases call with
  | put key code =>
    obtain ⟨t', hput, hstored⟩ := h.put_stored hroomy hkeyed code
    rw [Call.run, hput]
    exact hstored.others other (fun heq => hother (heq ▸ prefix_rfl))
      (fun heq => hother (heq ▸ prefix_append _ _))
  | get key => rw [Call.run, get_run]
  | clear =>
    rw [Call.run, (h.clear hroomy).1]
    exact lookup_erase_of_not hother

theorem Serves.get_put (h : Serves c place calls t) (hroomy : c.Roomy place) {key key' : Bytes}
    (hkey : key.length = 32) (hkey' : key'.length = 32) (hne : key' ≠ key) (code : Option Bytes) :
    (c.get Files.tree key' (c.put Files.tree key code t).2).1 = (c.get Files.tree key' t).1 := by
  obtain ⟨t', hput, hstored⟩ := h.put_stored hroomy hkey code
  have hread : t'.read (c.entryPath key') = t.read (c.entryPath key') := by
    rw [(hstored.serves h hroomy rfl).read hroomy hkey', h.read hroomy hkey', latest_put,
      if_neg (Ne.symm hne)]
  rw [hput, get_run, get_run, hread]

/-- **A disk cache is a map.** After any calls of a cache that was opened with nothing in it, and
whatever else happens elsewhere in the tree: looking for a key finds the code that was put under it
last and not forgotten since, or nothing if there is none, as long as the size of the code fits the
four bytes that an entry has for it. Of a code that is longer it finds a part, as many bytes as
those four bytes say. Putting and forgetting succeed, and putting changes nothing that is found
under other keys; the only files among the entries are those of the keys in use; and no call leaves
anything elsewhere. -/
theorem finds_latest {t₀ : FileTree} {directory key : Bytes}
    (hcreate : DiskCache.create Files.tree directory t₀ = (.ok c, start))
    (hempty : ∀ other, start.destination c.entryDirectory <+: other → start.lookup other = none)
    (hstart : isAbsolute directory = true ∨
      ¬start.destination c.entryDirectory <+: start.workingDirectory)
    (hshort : c.entryDirectory.length + 67 < FileTree.maxPathLength)
    (hhistory : History c (start.destination c.entryDirectory) start calls t)
    (hkey : key.length = 32) :
    ((∀ code, latest calls key = some (some code) → code.length < 0x100000000) →
      c.get Files.tree key t = (.ok ((latest calls key).map (·.getD [])), t)) ∧
    c.get Files.tree key t =
      (.ok ((latest calls key).map fun code => CacheEntry.kept (code.getD [])), t) ∧
    (∀ code, (c.put Files.tree key code t).1 = .ok () ∧
      ∀ key', key'.length = 32 → key' ≠ key →
        (c.get Files.tree key' (c.put Files.tree key code t).2).1 =
          (c.get Files.tree key' t).1) ∧
    (c.clear Files.tree t).1 = .ok () ∧
    (∀ other content, start.destination c.entryDirectory <+: other → t.Holds other content →
      ∃ key code, latest calls key = some code ∧
        other = start.destination c.entryDirectory ++ [entryName key] ∧
        content = CacheEntry.encode ⟨entrySchema, code⟩) ∧
    (∀ call : Call, call.Keyed → ∀ other, ¬start.destination c.entryDirectory <+: other →
      (call.run c t).lookup other = t.lookup other) := by
  obtain ⟨hroomy, hopened⟩ := serves_create hcreate hempty hstart hshort
  have hserves := hhistory.serves hroomy hopened
  refine ⟨fun hsize => hserves.get_latest hroomy hkey hsize, hserves.get hroomy hkey,
    fun code => ⟨?_, ?_⟩, ?_, ?_, ?_⟩
  · obtain ⟨t', hput, -⟩ := hserves.put_stored hroomy hkey code
    rw [hput]
  · intro key' hkey' hne
    exact hserves.get_put hroomy hkey hkey' hne code
  · rw [(hserves.clear hroomy).1]
  · intro other content hother hholds
    rcases hserves.below other _ hother hholds with ⟨-, hfile⟩ | ⟨key, code, hlatest, hplace, hfile⟩
    · cases hfile
    · exact ⟨key, code, hlatest, hplace, FileEntry.file.inj hfile⟩
  · intro call hkeyed other hother
    exact hserves.call_elsewhere hroomy hkeyed hother

/-- A key is put again after the entries were forgotten, and another key after it. -/
theorem finds_latest_after_clear :
    ∃ t, DiskCache.create Files.tree (utf8 "/c") {} =
        (.ok ⟨utf8 "/c"⟩, { entries := [([utf8 "c"], .directory)] }) ∧
      History ⟨utf8 "/c"⟩ [utf8 "c", utf8 "spv"] { entries := [([utf8 "c"], .directory)] }
        [.put (List.replicate 32 1) (some [3]), .clear, .put (List.replicate 32 1) (some [4, 5]),
          .put (List.replicate 32 2) none] t ∧
      DiskCache.get ⟨utf8 "/c"⟩ Files.tree (List.replicate 32 1) t = (.ok (some [4, 5]), t) := by
  have hcreate : DiskCache.create Files.tree (utf8 "/c") {} =
      (.ok ⟨utf8 "/c"⟩, { entries := [([utf8 "c"], .directory)] }) := by rfl
  have hplace : destination { entries := [([utf8 "c"], .directory)] }
      (entryDirectory ⟨utf8 "/c"⟩) = [utf8 "c", utf8 "spv"] := by decide
  have hempty : ∀ other, [utf8 "c", utf8 "spv"] <+: other →
      lookup { entries := [([utf8 "c"], .directory)] } other = none := by
    rintro _ ⟨rest, rfl⟩
    rfl
  have hhistory : History ⟨utf8 "/c"⟩ [utf8 "c", utf8 "spv"]
      { entries := [([utf8 "c"], .directory)] } _ _ :=
    .call (.put (replicate 32 2) none) (.call (.put (replicate 32 1) (some [4, 5]))
      (.call .clear (.call (.put (replicate 32 1) (some [3])) .opened rfl) trivial) rfl) rfl
  have hkey : (replicate 32 (1 : UInt8)).length = 32 := rfl
  refine ⟨_, hcreate, hhistory, ?_⟩
  refine (finds_latest hcreate (by rw [hplace]; exact hempty) (.inl (by decide)) (by decide)
    (by rw [hplace]; exact hhistory) hkey).1 ?_
  intro code hcode
  cases hcode
  decide

theorem get_overlong {code : Bytes} (hcode : code.length % 0x100000000 = 0) :
    ∃ t, DiskCache.put ⟨utf8 "/c"⟩ Files.tree (replicate 32 1) (some code)
        { entries := [([utf8 "c"], .directory)] } = (.ok (), t) ∧
      DiskCache.get ⟨utf8 "/c"⟩ Files.tree (replicate 32 1) t = (.ok (some []), t) := by
  have hcreate : DiskCache.create Files.tree (utf8 "/c") {} =
      (.ok ⟨utf8 "/c"⟩, { entries := [([utf8 "c"], .directory)] }) := by rfl
  obtain ⟨hroomy, hserves⟩ := serves_create hcreate
    (by rintro _ ⟨rest, rfl⟩; rfl) (.inl (by decide)) (by decide)
  obtain ⟨t, hput, hstored⟩ := hserves.put_stored hroomy length_replicate (some code)
  refine ⟨t, hput, ?_⟩
  rw [(hstored.serves hserves hroomy rfl).get hroomy length_replicate, latest_put, if_pos rfl]
  simp [CacheEntry.kept, hcode]

/-- Of a code of 2³² bytes nothing is found. -/
theorem finds_nothing_of_overlong : (replicate 0x100000000 (0 : UInt8)).length = 0x100000000 ∧
    ∃ t, DiskCache.put ⟨utf8 "/c"⟩ Files.tree (replicate 32 1) (some (replicate 0x100000000 0))
        { entries := [([utf8 "c"], .directory)] } = (.ok (), t) ∧
      DiskCache.get ⟨utf8 "/c"⟩ Files.tree (replicate 32 1) t = (.ok (some []), t) :=
  ⟨length_replicate, get_overlong (by rw [length_replicate])⟩

end Histories

end DiskCache

end Shading
