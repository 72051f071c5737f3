import Shading.Proofs.DiskCache.Entries
import Shading.Proofs.DiskCache.Keys
import Shading.Proofs.Files.Changes
import Shading.Proofs.Packing

/-!
A disk cache on a tree of files is honest: whatever can be read as an entry is
the code of a source with the key of the entry. Entries of different keys are at
different places, and temporary files are at none of them, so keeping code
leaves the cache honest even when it fails on the way.
-/

namespace Shading

open Shading.Text Shading.Path

variable {entry : CacheEntry} {e : FileError} {directory temporary : Bytes}

section Names

theorem Path.IsName.of_length {name : Bytes} (hlong : 2 < name.length) (hplain : separator ∉ name) :
    IsName name := by
  refine ⟨?_, ?_, ?_, hplain⟩
  all_goals
    rintro rfl
    exact absurd hlong (by decide)

/-- The name of the file of an entry. -/
def entryName (key : Bytes) : Bytes := hex key ++ utf8 ".mp"

theorem length_entryName (key : Bytes) : 2 < (entryName key).length := by
  have hending : (utf8 ".mp").length = 3 := by decide
  rw [entryName, List.length_append, hending]
  omega

theorem isName_entryName (key : Bytes) : IsName (entryName key) := by
  apply IsName.of_length (length_entryName key)
  · intro hmem
    rcases List.mem_append.mp hmem with hhex | hending
    · exact forall_mem_hex (P := (· ≠ separator)) (by decide) hhex rfl
    · exact absurd hending (by decide)

theorem isName_temporary (n : Nat) : IsName (FileTree.temporaryStem ++ decimal n) := by
  apply IsName.of_length
  · have hstem : FileTree.temporaryStem.length = 4 := by decide
    rw [List.length_append, hstem]
    omega
  · intro hmem
    rcases List.mem_append.mp hmem with hstem | hdigit
    · exact absurd hstem (by decide)
    · exact absurd (toNat_of_mem_decimal hdigit) (by decide)

theorem temporary_ne_entryName (n : Nat) (key : Bytes) :
    FileTree.temporaryStem ++ decimal n ≠ entryName key := by
  intro heq
  have hstem : FileTree.temporaryStem = byte 't' :: utf8 "mp-" := by decide
  have hending : utf8 ".mp" = byte '.' :: utf8 "mp" := by decide
  rw [hstem, List.cons_append, entryName] at heq
  cases hhex : hex key with
  | nil =>
    rw [hhex, hending, List.nil_append] at heq
    exact absurd (List.cons.inj heq).1 (by decide)
  | cons b rest =>
    rw [hhex, List.cons_append] at heq
    have hmem : byte 't' ∈ hex key := by
      rw [hhex, (List.cons.inj heq).1]
      exact List.mem_cons_self
    exact forall_mem_hex (P := (· ≠ byte 't')) (by decide) hmem rfl

end Names

namespace DiskCache

variable {c : DiskCache} {t t' : FileTree} {key key' content : Bytes}

theorem entryPath_endsWith (c : DiskCache) (key : Bytes) :
    EndsWith (c.entryPath key) (entryName key) :=
  EndsWith.of_join (isName_entryName key) [c.directory, utf8 "spv"]

theorem key_of_place (h : t.destination (c.entryPath key) = t.destination (c.entryPath key')) :
    key = key' := by
  have hlast := congrArg List.getLast? h
  rw [FileTree.destination_endsWith (c.entryPath_endsWith key) (isName_entryName key),
    FileTree.destination_endsWith (c.entryPath_endsWith key') (isName_entryName key')] at hlast
  exact hex_inj (List.append_cancel_right (Option.some.inj hlast))

theorem temporary_ne_place (directory : Bytes) (n : Nat) (t : FileTree) :
    t.destination (directory ++ separator :: (FileTree.temporaryStem ++ decimal n)) ≠
      t.destination (c.entryPath key) := by
  intro h
  have hlast := congrArg List.getLast? h
  rw [FileTree.destination_endsWith ((isName_temporary n).endsWith_below directory)
    (isName_temporary n),
    FileTree.destination_endsWith (c.entryPath_endsWith key) (isName_entryName key)] at hlast
  exact temporary_ne_entryName n key (Option.some.inj hlast)

def Keeps (c : DiskCache) (t : FileTree) (key content : Bytes) : Prop :=
  t.Holds (t.destination (c.entryPath key)) content

end DiskCache

def Genuine (Used : Bytes → Limits → Prop) (key content : Bytes) : Prop :=
  ∀ entry, CacheEntry.decode? content = some entry → entry.schema = entrySchema →
    ∃ source limits code, Used source limits ∧ cacheKey source limits = key ∧
      compile source limits = .ok code ∧ entry.code = some code

/-- Sources and limits whose keys tell them apart as far as they are compiled differently, and whose
code is short enough for an entry. -/
structure Faithful (Used : Bytes → Limits → Prop) : Prop where
  keys : ∀ {source limits source' limits'}, Used source limits → Used source' limits' →
    cacheKey source limits = cacheKey source' limits' →
    keyPreamble limits ++ source = keyPreamble limits' ++ source'
  sizes : ∀ {source limits code}, Used source limits → compile source limits = .ok code →
    code.length < 0x100000000

section Genuine

variable {Used : Bytes → Limits → Prop} {source code : Bytes} {limits : Limits}

theorem compile_magic (h : compile source limits = .ok code) : ∃ rest, code = 0x03 :: rest := by
  obtain ⟨p, -, hassemble⟩ := compile_ok h
  obtain ⟨s, -, -, rfl⟩ := Program.assemble_ok hassemble
  have hwords : p.header.words = Binary.magic :: p.header.words.tail := rfl
  have hbytes : Binary.bytesOfWord Binary.magic = [0x03, 0x02, 0x23, 0x07] := by decide
  rw [hwords, List.cons_append, Binary.bytesOfWords, List.flatMap_cons, hbytes]
  exact ⟨_, rfl⟩

theorem genuine_empty (Used : Bytes → Limits → Prop) (key : Bytes) : Genuine Used key [] := by
  intro entry hentry
  cases hentry

theorem genuine_binary (h : compile source limits = .ok code) (key : Bytes) :
    Genuine Used key code := by
  intro entry hentry
  obtain ⟨rest, rfl⟩ := compile_magic h
  rw [CacheEntry.decode?_magic] at hentry
  cases hentry

theorem Faithful.genuine_entry (hused : Faithful Used) (hsource : Used source limits)
    (h : compile source limits = .ok code) :
    Genuine Used (cacheKey source limits) (CacheEntry.encode ⟨entrySchema, some code⟩) := by
  intro entry hentry _
  have hdecode := CacheEntry.decode?_encode ⟨entrySchema, some code⟩ []
  rw [List.append_nil, hentry, Option.map_some,
    CacheEntry.kept_of_lt (hused.sizes hsource h)] at hdecode
  cases hdecode
  exact ⟨source, limits, code, hsource, rfl, h, rfl⟩

theorem Faithful.code_of_genuine (hused : Faithful Used) (hsource : Used source limits)
    {content : Bytes} (hgenuine : Genuine Used (cacheKey source limits) content)
    (hentry : CacheEntry.decode? content = some entry) (hschema : entry.schema = entrySchema) :
    compile source limits = .ok (entry.code.getD []) := by
  obtain ⟨source', limits', code, hsource', hkey, hcompile, hcode⟩ := hgenuine entry hentry hschema
  have htext := hused.keys hsource hsource' hkey.symm
  rw [compile_of_keyText htext, hcompile, hcode]
  rfl

end Genuine

namespace DiskCache

variable {c : DiskCache} {Used : Bytes → Limits → Prop} {t t' : FileTree} {place : Place}
  {content : Bytes}

def Honest (c : DiskCache) (Used : Bytes → Limits → Prop) (t : FileTree) : Prop :=
  ∀ key content, c.Keeps t key content → Genuine Used key content

theorem Honest.within (h : c.Honest Used t) (hwithin : t'.Within t) : c.Honest Used t' := by
  intro key content hkeeps
  apply h key content
  rw [Keeps, hwithin.destination] at hkeeps
  exact hwithin.files _ _ hkeeps

theorem Honest.adds (h : c.Honest Used t) (hadds : t.Adds t' place content)
    (hplace : ∀ key, t.destination (c.entryPath key) = place → Genuine Used key content) :
    c.Honest Used t' := by
  intro key found hkeeps
  rw [Keeps, hadds.destination] at hkeeps
  rcases hadds.files _ _ hkeeps with hold | ⟨hnew, rfl⟩
  · exact h key found hold
  · exact hplace key hnew

end DiskCache

section Running

variable {σ α β : Type} {P : FileTree → Prop} {operation : FileTree → Except FileError FileTree}
  {Q : α → FileTree → Prop} {x : StateM (FileTree × σ) α}

def FileTree.beside (x : StateM FileTree α) : StateM (FileTree × σ) α := fun w =>
  ((x w.1).1, (x w.1).2, w.2)

/-- The file operations on a tree, beside a state that they do not touch. -/
def Files.beside (σ : Type) : Files (StateM (FileTree × σ)) :=
  Files.tree.through FileTree.beside

theorem FileTree.bind_run (x : StateM (FileTree × σ) α) (f : α → StateM (FileTree × σ) β)
    (w : FileTree × σ) : (x >>= f) w = f (x w).1 (x w).2 := rfl

def Ensures (P : FileTree → Prop) (x : StateM (FileTree × σ) α) (Q : α → FileTree → Prop) : Prop :=
  ∀ w : FileTree × σ, P w.1 → Q (x w).1 (x w).2.1

theorem Ensures.pure {a : α} (h : ∀ t, P t → Q a t) :
    Ensures P (pure a : StateM (FileTree × σ) α) Q := fun w hw => h w.1 hw

theorem Ensures.bind {R : β → FileTree → Prop} {f : α → StateM (FileTree × σ) β}
    (hx : Ensures P x Q) (hf : ∀ a, Ensures (Q a) (f a) R) :
    Ensures P (x >>= f) R :=
  fun w hw => hf _ _ (hx w hw)

theorem FileTree.update_ok {t t' : FileTree} (h : operation t = .ok t') :
    update operation t = (.ok (), t') := by
  simp only [update, bind, StateT.bind, get, getThe, MonadStateOf.get, StateT.get, pure, h]
  rfl

theorem FileTree.update_error {t : FileTree} (h : operation t = .error e) :
    update operation t = (.error e, t) := by
  simp only [update, bind, StateT.bind, get, getThe, MonadStateOf.get, StateT.get, pure, h]
  rfl

theorem Ensures.weaken {P' : FileTree → Prop} (hx : Ensures P x Q) (h : ∀ t, P' t → P t) :
    Ensures P' x Q :=
  fun w hw => hx w (h _ hw)

theorem Ensures.update {Q : Except FileError Unit → FileTree → Prop}
    (hok : ∀ t t', P t → operation t = .ok t' → Q (.ok ()) t')
    (herror : ∀ t e, P t → Q (.error e) t) :
    Ensures P (FileTree.beside (FileTree.update operation) : StateM (FileTree × σ) _) Q := by
  rintro ⟨t, s⟩ ht
  unfold FileTree.beside
  cases hrun : operation t with
  | ok t' =>
    simp only [FileTree.update_ok hrun]
    exact hok t t' ht hrun
  | error e =>
    simp only [FileTree.update_error hrun]
    exact herror t e ht

theorem FileTree.tree_createTemporary_ok {path : Bytes} {t t' : FileTree}
    (h : t.createTemporary directory = .ok (path, t')) :
    Files.tree.createTemporary directory t = (.ok path, t') := by
  simp only [Files.tree, bind, StateT.bind, get, getThe, MonadStateOf.get, StateT.get, pure, h]
  rfl

theorem FileTree.tree_createTemporary_error {t : FileTree}
    (h : t.createTemporary directory = .error e) :
    Files.tree.createTemporary directory t = (.error e, t) := by
  simp only [Files.tree, bind, StateT.bind, get, getThe, MonadStateOf.get, StateT.get, pure, h]
  rfl

theorem Ensures.createTemporary {Q : Except FileError Bytes → FileTree → Prop}
    (hok : ∀ t path t', P t → t.createTemporary directory = .ok (path, t') → Q (.ok path) t')
    (herror : ∀ t e, P t → Q (.error e) t) :
    Ensures P ((Files.beside σ).createTemporary directory) Q := by
  rintro ⟨t, s⟩ ht
  change Q (Files.tree.createTemporary directory t).1 (Files.tree.createTemporary directory t).2
  cases hmade : t.createTemporary directory with
  | ok made =>
    rw [FileTree.tree_createTemporary_ok hmade]
    exact hok t made.1 made.2 ht hmade
  | error e =>
    rw [FileTree.tree_createTemporary_error hmade]
    exact herror t e ht

end Running

namespace DiskCache

variable {σ : Type} {c : DiskCache} {Used : Bytes → Limits → Prop} {key content : Bytes}

theorem write_honest (content : Bytes)
    (hplaces : ∀ (t : FileTree) key, t.destination temporary ≠ t.destination (c.entryPath key)) :
    Ensures (c.Honest Used) ((Files.beside σ).write temporary content) (fun result t =>
      c.Honest Used t ∧ (result = .ok () → t.Holds (t.destination temporary) content)) := by
  apply Ensures.update
  · intro t t' ht hwritten
    have hadds := FileTree.write_adds hwritten
    refine ⟨ht.adds hadds ?_, fun _ => ?_⟩
    · intro other hplace
      exact absurd hplace.symm (hplaces t other)
    · rw [hadds.destination]
      exact FileTree.holds_write hwritten
  · intro t e ht
    exact ⟨ht, nofun⟩

theorem rename_honest (hgenuine : Genuine Used key content) :
    Ensures (fun t => c.Honest Used t ∧ t.Holds (t.destination temporary) content)
      ((Files.beside σ).rename temporary (c.entryPath key)) (fun _ => c.Honest Used) := by
  apply Ensures.update
  · rintro t t' ⟨ht, hholds⟩ hrenamed
    obtain ⟨moved, hmoved, hadds⟩ := FileTree.rename_ok hrenamed
    have heq : content = moved := by
      rw [FileTree.Holds, hholds] at hmoved
      exact FileEntry.file.inj (Option.some.inj hmoved)
    apply ht.adds hadds
    intro other hplace
    rw [key_of_place hplace, ← heq]
    exact hgenuine
  · rintro t e ⟨ht, -⟩
    exact ht

theorem remove_honest (path : Bytes) :
    Ensures (c.Honest Used) ((Files.beside σ).remove path) (fun _ => c.Honest Used) := by
  apply Ensures.update
  · intro t t' ht hremoved
    exact ht.within (FileTree.remove_within hremoved)
  · intro t e ht
    exact ht

theorem fillAndMove_honest
    (hplaces : ∀ (t : FileTree) key, t.destination temporary ≠ t.destination (c.entryPath key))
    (hgenuine : Genuine Used key content) :
    Ensures (c.Honest Used)
      (fillAndMove (Files.beside σ) temporary content (c.entryPath key))
      (fun _ => c.Honest Used) := by
  have hremove : Ensures (c.Honest Used) (discard ((Files.beside σ).remove temporary))
      (fun _ => c.Honest Used) := remove_honest (σ := σ) temporary
  unfold fillAndMove
  refine (write_honest content hplaces).bind fun written => ?_
  cases written with
  | ok _ =>
    refine Ensures.bind ((rename_honest hgenuine).weaken fun t ht => ⟨ht.1, ht.2 rfl⟩)
      fun moved => ?_
    cases moved with
    | ok _ => exact Ensures.pure fun t ht => ht
    | error e => exact hremove.bind fun _ => Ensures.pure fun t ht => ht
  | error e =>
    refine Ensures.weaken (P := c.Honest Used) ?_ fun t ht => ht.1
    exact hremove.bind fun _ => Ensures.pure (a := Except.error e) fun t ht => ht

theorem put_honest {code : Option Bytes}
    (hgenuine : Genuine Used key (CacheEntry.encode ⟨entrySchema, code⟩)) :
    Ensures (c.Honest Used) (c.put (Files.beside σ) key code) (fun _ => c.Honest Used) := by
  have hmake : Ensures (c.Honest Used)
      ((Files.beside σ).makeDirectories (Path.directory (c.entryPath key)))
      (fun _ => c.Honest Used) :=
    Ensures.update (fun t t' ht h => ht.within (FileTree.makeDirectories_within h)) fun t e ht => ht
  have htemporary : Ensures (c.Honest Used)
      ((Files.beside σ).createTemporary (Path.directory (c.entryPath key)))
      (fun result t => c.Honest Used t ∧ ∀ path, result = .ok path → ∃ n,
        path = Path.directory (c.entryPath key) ++ separator ::
          (FileTree.temporaryStem ++ decimal n)) := by
    apply Ensures.createTemporary
    · intro t path t' ht hmade
      obtain ⟨n, place, hpath, hadds⟩ := FileTree.createTemporary_ok hmade
      refine ⟨ht.adds hadds fun other _ => genuine_empty Used other, ?_⟩
      rintro _ ⟨⟩
      exact ⟨n, hpath⟩
    · intro t e ht
      exact ⟨ht, nofun⟩
  unfold put
  refine hmake.bind fun made => ?_
  cases made with
  | error e => exact Ensures.pure fun t ht => ht
  | ok _ =>
    refine htemporary.bind fun created => ?_
    cases created with
    | error e => exact Ensures.pure fun t ht => ht.1
    | ok path =>
      intro w hw
      obtain ⟨n, rfl⟩ := hw.2 path rfl
      exact fillAndMove_honest (fun t key => temporary_ne_place _ n t) hgenuine w hw.1

theorem clear_honest :
    Ensures (c.Honest Used) (c.clear (Files.beside σ)) (fun _ => c.Honest Used) :=
  remove_honest c.entryDirectory

theorem entryOf_ok {read : Except FileError Bytes} (h : entryOf key read = .ok (some entry)) :
    ∃ content, read = .ok content ∧ CacheEntry.decode? content = some entry := by
  cases read with
  | error e =>
    rw [entryOf] at h
    split at h
    · cases h
    · split at h
      · cases h
      · cases h
  | ok content =>
    rw [entryOf] at h
    split at h
    · next hdecode =>
        cases h
        exact ⟨content, rfl, hdecode⟩
    · cases h

theorem get_cases (c : DiskCache) (key : Bytes) (w : FileTree × σ) :
    (c.get (Files.beside σ) key w).2 = w ∧
      ∀ code, (c.get (Files.beside σ) key w).1 = .ok (some code) →
        ∃ content entry, c.Keeps w.1 key content ∧ CacheEntry.decode? content = some entry ∧
          entry.schema = entrySchema ∧ code = entry.code.getD [] := by
  have hread : (Files.beside σ).read (c.entryPath key) w = (w.1.read (c.entryPath key), w) := rfl
  unfold get
  rw [FileTree.bind_run, hread]
  cases hentry : entryOf key (w.1.read (c.entryPath key)) with
  | error e => exact ⟨rfl, nofun⟩
  | ok found =>
    cases found with
    | none => exact ⟨rfl, nofun⟩
    | some entry =>
      refine ⟨rfl, fun code hcode => ?_⟩
      obtain ⟨content, hcontent, hdecode⟩ := entryOf_ok hentry
      have hsome : (if entry.schema = entrySchema then some (entry.code.getD []) else none) =
          some code := Except.ok.inj hcode
      split at hsome
      · next hschema =>
          exact ⟨content, entry, FileTree.read_ok hcontent, hdecode, hschema,
            (Option.some.inj hsome).symm⟩
      · cases hsome

theorem get_sound (hused : Faithful Used) {source : Bytes} {limits : Limits}
    (hsource : Used source limits) :
    Ensures (c.Honest Used) (c.get (Files.beside σ) (cacheKey source limits)) (fun found t =>
      c.Honest Used t ∧ ∀ code, found = .ok (some code) → compile source limits = .ok code) := by
  intro w hw
  obtain ⟨hsame, hfound⟩ := c.get_cases (cacheKey source limits) w
  refine ⟨by rw [hsame]; exact hw, fun code hcode => ?_⟩
  obtain ⟨content, entry, hkeeps, hentry, hschema, rfl⟩ := hfound code hcode
  exact hused.code_of_genuine hsource (hw _ _ hkeeps) hentry hschema

end DiskCache

end Shading
