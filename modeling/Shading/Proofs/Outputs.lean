import Shading.Proofs.Construction.Encoding
import Shading.Proofs.DiskCache.Latest
import Shading.Proofs.DiskCache.Transparency

/-!
Compiling several files. Every output is named after its input, so outputs may
share their places with each other and with the inputs. No output is lost and
no input is destroyed exactly if no output has the place of an input, and
outputs at one place are the same. With a disk cache this is so as long as the
files are not among its entries.
-/

namespace Shading

open Text FileTree DiskCache Ensures

variable {t'' : FileTree}

section Refusal

theorem Tokens.ending_magic (rest : Bytes) :
    (ofSource (0x03 :: rest)).ending = .error ⟨.start, .unexpectedCharacter 0x03⟩ := rfl

theorem compile_binary {source code binary : Bytes} {limits limits' : Limits}
    (hbinary : compile source limits = .ok binary) : compile binary limits' ≠ .ok code := by
  intro h
  obtain ⟨rest, rfl⟩ := compile_magic hbinary
  obtain ⟨p, s, hbuilt, -, -⟩ := compile_assembles h
  obtain ⟨last, hlast⟩ := hbuilt.ending
  have hending := SourceTree.ending_ofTokens hlast
  rw [Tokens.ending_magic] at hending
  cases hending

end Refusal

namespace FileTree

variable {t t' : FileTree} {path content : Bytes} {place : Place}

theorem locate_of_read (h : t.read path = .ok content) :
    t.locate path = .ok (t.destination path) := by
  cases hlocate : t.locate path with
  | error reason => simp [read, hlocate] at h
  | ok place => rw [locate_ok hlocate]

theorem read_of_holds (h : t.locate path = .ok place) (hholds : t.Holds place content) :
    t.read path = .ok content := by
  rw [Holds] at hholds
  simp only [read, h, hholds]

structure Extends (t' t : FileTree) : Prop where
  start : t'.workingDirectory = t.workingDirectory
  directories : ∀ place, t.lookup place = some .directory → t'.lookup place = some .directory

theorem Extends.locate (h : t'.Extends t) (hlocate : t.locate path = .ok place) :
    t'.locate path = .ok place :=
  locate_mono h.start h.directories hlocate

theorem Extends.write (h : t'.Extends t) {t₁ : FileTree} (hwrite : t.write path content = .ok t₁)
    (hfree : t'.lookup (t.destination path) ≠ some .directory) :
    t'.write path content = .ok (t'.insert (t.destination path) (.file content)) := by
  obtain ⟨hlocate, -, -⟩ := write_ok hwrite
  have htrimmed : trimmed path = path := by
    by_contra hne
    cases hfound : t.locate (trimmed path) <;> simp [FileTree.write, hfound, hne] at hwrite
  simp [FileTree.write, htrimmed, h.locate hlocate, hfree]

theorem extends_insert (h : t.lookup place ≠ some .directory) (entry : FileEntry) :
    (t.insert place entry).Extends t := by
  refine ⟨rfl, fun other hother => ?_⟩
  rw [lookup_insert_of_ne, hother]
  rintro rfl
  exact h hother

theorem Extends.trans (h : t''.Extends t') (h' : t'.Extends t) : t''.Extends t :=
  ⟨h.start.trans h'.start, fun place hplace => h.directories place (h'.directories place hplace)⟩

end FileTree

namespace DiskCache

variable {σ : Type}

theorem length_cacheKey (source : Bytes) (limits : Limits) :
    (cacheKey source limits).length = 32 := rfl

theorem beside_bind {α β : Type} {x : StateM FileTree α} {f : α → StateM FileTree β}
    {g : α → StateM (FileTree × σ) β} (h : ∀ a, g a = FileTree.beside (f a)) :
    FileTree.beside x >>= g = FileTree.beside (x >>= f) := by
  rw [funext h]
  rfl

theorem get_beside (c : DiskCache) (key : Bytes) :
    c.get (Files.beside σ) key = FileTree.beside (c.get Files.tree key) := by
  refine beside_bind fun content => ?_
  split <;> rfl

theorem fillAndMove_beside (temporary content path : Bytes) :
    fillAndMove (Files.beside σ) temporary content path =
      FileTree.beside (fillAndMove Files.tree temporary content path) := by
  refine beside_bind fun written => ?_
  cases written with
  | error e => rfl
  | ok _ =>
    refine beside_bind fun moved => ?_
    cases moved <;> rfl

theorem put_beside (c : DiskCache) (key : Bytes) (code : Option Bytes) :
    c.put (Files.beside σ) key code = FileTree.beside (c.put Files.tree key code) := by
  refine beside_bind fun made => ?_
  cases made with
  | error e => rfl
  | ok _ =>
    refine beside_bind fun created => ?_
    cases created with
    | error e => rfl
    | ok temporary => exact fillAndMove_beside _ _ _

end DiskCache

namespace CommandLine.Session

variable {σ : Type} {s : Session (StateM (FileTree × σ))} {disk : Option DiskCache}
  {sources : List Bytes} {Away : Place → Prop} {source code : Bytes → Bytes}
  {inputs done : List Bytes} {input : Bytes} {t t' : FileTree} {w w' : FileTree × σ}

/-- Nothing is asked without a disk cache. One that there is holds the code of sources in use, some
sources among them; keys tell those in use apart, and no place of interest is among its entries. -/
def Steady (s : Session (StateM (FileTree × σ))) (sources : List Bytes)
    (Away : Place → Prop) (t : FileTree) : Option DiskCache → Prop
  | none => True
  | some c => ∃ (Used : Bytes → Limits → Prop) (place : Place) (calls : List DiskCache.Call),
      Faithful Used ∧ (∀ source ∈ sources, Used source s.settings.limits) ∧
      c.Roomy place ∧ c.Serves place calls t ∧
      (∀ key found, DiskCache.latest calls key = some found → ∃ source code,
        Used source s.settings.limits ∧ key = cacheKey source s.settings.limits ∧
          compile source s.settings.limits = .ok code ∧ found = some code) ∧
      ∀ other, Away other → ¬place <+: other

theorem Steady.cached? (h : s.Steady sources Away w.1 disk) (hs : s.OnFiles)
    {source : Bytes} (hsource : source ∈ sources) :
    (s.cached? disk source w).2 = w ∧ ∀ code, (s.cached? disk source w).1 = some code →
      compile source s.settings.limits = .ok code := by
  cases disk with
  | none => exact ⟨rfl, nofun⟩
  | some c =>
    obtain ⟨Used, place, calls, hused, hsources, hroomy, hserves, hcodes, -⟩ := h
    have hsource := hsources source hsource
    have hfound : ∀ code, latest calls (cacheKey source s.settings.limits) =
        some (some code) → compile source s.settings.limits = .ok code := by
      intro code hlatest
      obtain ⟨source', code', hsource', hkey, hcompile, hcode⟩ := hcodes _ _ hlatest
      have htext := List.append_cancel_left (hused.keys hsource hsource' hkey)
      rw [htext, hcompile, Option.some.inj hcode]
    have hget :=
      hserves.get_latest hroomy (length_cacheKey source s.settings.limits) fun code hcode =>
      hused.sizes hsource (hfound code hcode)
    have hrun : c.get (Files.beside σ) (cacheKey source s.settings.limits) w =
        (.ok ((latest calls (cacheKey source s.settings.limits)).map (·.getD [])), w) := by
      rw [get_beside, beside, hget]
    unfold Session.cached?
    simp only
    rw [hs.files, bind_run, hrun]
    refine ⟨rfl, fun code hcode => ?_⟩
    obtain ⟨found, hlatest, hcode⟩ := Option.map_eq_some_iff.mp hcode
    obtain ⟨-, kept, -, -, -, rfl⟩ := hcodes _ _ hlatest
    rw [hfound kept hlatest, ← hcode]
    rfl

theorem Steady.keep (h : s.Steady sources Away w.1 disk) (hs : s.OnFiles) (input : Bytes)
    {source code : Bytes} (hsource : source ∈ sources)
    (hcompile : compile source s.settings.limits = .ok code) :
    s.Steady sources Away (s.keep disk input source code w).2.1 disk ∧
      (s.keep disk input source code w).2.1.Extends w.1 ∧ ∀ other, Away other →
        (s.keep disk input source code w).2.1.lookup other = w.1.lookup other := by
  cases disk with
  | none => exact ⟨trivial, ⟨rfl, fun _ h => h⟩, fun _ _ => rfl⟩
  | some c =>
    obtain ⟨Used, place, calls, hused, hsources, hroomy, hserves, hcodes, haway⟩ := h
    obtain ⟨t, hput, hstored⟩ := hserves.put_stored hroomy
      (length_cacheKey source s.settings.limits) (some code)
    rw [keep_tree hs, put_beside, beside, hput]
    refine ⟨⟨Used, place, _, hused, hsources, hroomy, hstored.serves hserves hroomy rfl, ?_, haway⟩,
      ⟨hstored.start, ?_⟩, ?_⟩
    · intro key found hlatest
      rw [latest_put] at hlatest
      split at hlatest
      · next hkey => exact ⟨source, code, hsources source hsource, hkey.symm, hcompile,
          (Option.some.inj hlatest).symm⟩
      · exact hcodes key found hlatest
    · intro other hdirectory
      by_cases hplace : other = place
      · rw [hplace, hstored.directory]
      · rw [hstored.others other hplace ?_, hdirectory]
        rintro rfl
        rcases hserves.below _ _ (List.prefix_append _ _) hdirectory with
          ⟨hself, -⟩ | ⟨_, _, -, -, hfile⟩
        · exact hplace hself
        · cases hfile
    · intro other hother
      have hbelow := haway other hother
      exact hstored.others other (fun heq => hbelow (heq ▸ List.prefix_rfl))
        (fun heq => hbelow (heq ▸ List.prefix_append _ _))

theorem Steady.insert (h : s.Steady sources Away t disk) {place : Place} (hplace : Away place)
    (hfree : t.lookup place ≠ some .directory) (entry : FileEntry) :
    s.Steady sources Away (t.insert place entry) disk := by
  cases disk with
  | none => trivial
  | some c =>
    obtain ⟨Used, entries, calls, hused, hsources, hroomy, hserves, hcodes, haway⟩ := h
    refine ⟨Used, entries, calls, hused, hsources, hroomy, hserves.elsewhere hroomy ⟨rfl, ?_, ?_⟩,
      hcodes, haway⟩
    · exact fun other _ => (extends_insert hfree entry).directories other
    · intro other hother
      refine lookup_insert_of_ne ?_
      rintro rfl
      exact haway other hplace hother

/-- Every input holds a source that is compiled to some code, which can be written. -/
structure Given (s : Session (StateM (FileTree × σ))) (t : FileTree) (source code : Bytes → Bytes)
    (inputs : List Bytes) : Prop where
  read : ∀ input ∈ inputs, t.read input = .ok (source input)
  compile : ∀ input ∈ inputs, compile (source input) s.settings.limits = .ok (code input)
  write : ∀ input ∈ inputs, ∃ t', t.write (targetOf input) (code input) = .ok t'

/-- No output has the place of an input, and outputs at one place are the same. -/
structure Apart (t : FileTree) (code : Bytes → Bytes) (inputs : List Bytes) : Prop where
  sources : ∀ input ∈ inputs, ∀ other ∈ inputs,
    t.destination (targetOf input) ≠ t.destination other
  codes : ∀ input ∈ inputs, ∀ other ∈ inputs,
    t.destination (targetOf input) = t.destination (targetOf other) → code input = code other

/-- The places of the inputs and the outputs. -/
def Touched (t : FileTree) (inputs : List Bytes) (place : Place) : Prop :=
  ∃ input ∈ inputs, place = t.destination input ∨ place = t.destination (targetOf input)

/-- Every input still holds its source, and every output holds its code. -/
structure Delivered (t t' : FileTree) (source code : Bytes → Bytes) (inputs : List Bytes) :
    Prop where
  start : t'.workingDirectory = t.workingDirectory
  sources : ∀ input ∈ inputs, t'.read input = .ok (source input)
  codes : ∀ input ∈ inputs, t'.read (targetOf input) = .ok (code input)

/-- How things stand when some of the inputs are done: the outputs of those have been written, and
every input is as it was. -/
structure Midway (s : Session (StateM (FileTree × σ))) (disk : Option DiskCache)
    (source code : Bytes → Bytes) (inputs done : List Bytes) (t t' : FileTree) : Prop where
  steady : s.Steady (inputs.map source) (Touched t inputs) t' disk
  grown : t'.Extends t
  sources : ∀ input ∈ inputs, t'.Holds (t.destination input) (source input)
  free : ∀ input ∈ inputs, t'.lookup (t.destination (targetOf input)) ≠ some .directory
  codes : ∀ input ∈ done, t'.Holds (t.destination (targetOf input)) (code input)

theorem Given.midway (h : s.Given t source code inputs)
    (hsteady : s.Steady (inputs.map source) (Touched t inputs) t disk) :
    s.Midway disk source code inputs [] t t := by
  refine ⟨hsteady, ⟨rfl, fun _ h => h⟩, fun input hinput => ?_, fun input hinput => ?_, nofun⟩
  · exact read_ok (h.read input hinput)
  · obtain ⟨_, hwrite⟩ := h.write input hinput
    exact (write_ok hwrite).2.1

theorem Midway.read (h : s.Midway disk source code inputs done t t')
    (hgiven : s.Given t source code inputs) (hinput : input ∈ inputs) :
    t'.read input = .ok (source input) :=
  read_of_holds (h.grown.locate (locate_of_read (hgiven.read input hinput)))
    (h.sources input hinput)

theorem Midway.delivered (h : s.Midway disk source code inputs inputs t t')
    (hgiven : s.Given t source code inputs) : Delivered t t' source code inputs := by
  refine ⟨h.grown.start, fun input hinput => h.read hgiven hinput, fun input hinput => ?_⟩
  obtain ⟨_, hwrite⟩ := hgiven.write input hinput
  exact read_of_holds (h.grown.locate (write_ok hwrite).1)
    (h.codes input hinput)

theorem Apart.of_start (h : Apart t code inputs)
    (hstart : t'.workingDirectory = t.workingDirectory) : Apart t' code inputs := by
  have hplaces : t'.destination = t.destination := by
    funext path
    rw [destination, destination, hstart]
  constructor
  · rw [hplaces]
    exact h.sources
  · rw [hplaces]
    exact h.codes

theorem Delivered.apart (h : Delivered t t' source code inputs)
    (hgiven : s.Given t source code inputs) : Apart t code inputs := by
  have hplace : ∀ path, t'.destination path = t.destination path := by
    intro path
    rw [destination, destination, h.start]
  have hcodes : ∀ input ∈ inputs, t'.Holds (t.destination (targetOf input)) (code input) := by
    intro input hinput
    rw [← hplace]
    exact read_ok (h.codes input hinput)
  constructor
  · intro input hinput other hother hsame
    have hsource := read_ok (h.sources other hother)
    have hcode := hcodes input hinput
    rw [hsame, ← hplace, Holds, hsource] at hcode
    have hbinary := hgiven.compile other hother
    rw [FileEntry.file.inj (Option.some.inj hcode)] at hbinary
    exact compile_binary (hgiven.compile input hinput) hbinary
  · intro input hinput other hother hsame
    have hcode := hcodes input hinput
    rw [hsame, Holds, hcodes other hother] at hcode
    exact (FileEntry.file.inj (Option.some.inj hcode)).symm

theorem Midway.grow (h : s.Midway disk source code inputs done t t')
    (hdone : ∀ input ∈ done, input ∈ inputs)
    (hsteady : s.Steady (inputs.map source) (Touched t inputs) t'' disk) (hgrown : t''.Extends t')
    (hkept : ∀ other, Touched t inputs other → t''.lookup other = t'.lookup other) :
    s.Midway disk source code inputs done t t'' := by
  refine ⟨hsteady, hgrown.trans h.grown, fun input hinput => ?_, fun input hinput => ?_,
    fun input hinput => ?_⟩
  · rw [Holds, hkept _ ⟨input, hinput, .inl rfl⟩]
    exact h.sources input hinput
  · rw [hkept _ ⟨input, hinput, .inr rfl⟩]
    exact h.free input hinput
  · rw [Holds, hkept _ ⟨input, hdone input hinput, .inr rfl⟩]
    exact h.codes input hinput

theorem Midway.insert (h : s.Midway disk source code inputs done t t')
    (hdone : ∀ input ∈ done, input ∈ inputs) (hapart : Apart t code inputs)
    (hinput : input ∈ inputs) :
    s.Midway disk source code inputs (done ++ [input]) t
      (t'.insert (t.destination (targetOf input)) (.file (code input))) := by
  have hfree := h.free input hinput
  have hwritten : (t'.insert (t.destination (targetOf input)) (.file (code input))).Holds
      (t.destination (targetOf input)) (code input) := by
    apply lookup_insert_self
    intro hnil
    rw [hnil] at hfree
    exact hfree rfl
  refine ⟨h.steady.insert ⟨input, hinput, .inr rfl⟩ hfree _,
    (extends_insert hfree _).trans h.grown, fun other hother => ?_, fun other hother => ?_,
    fun other hother => ?_⟩
  · rw [Holds, lookup_insert_of_ne
      (hapart.sources input hinput other hother).symm]
    exact h.sources other hother
  · intro hdirectory
    rcases lookup_insert_cases hdirectory with hold | ⟨-, hnew⟩
    · exact h.free other hother hold
    · cases hnew
  · by_cases hsame : t.destination (targetOf other) = t.destination (targetOf input)
    · have hother : other ∈ inputs := by
        rcases List.mem_append.mp hother with hold | hnew
        · exact hdone other hold
        · rwa [List.mem_singleton.mp hnew]
      rw [hsame, hapart.codes other hother input hinput hsame]
      exact hwritten
    · rw [Holds, lookup_insert_of_ne hsame]
      rcases List.mem_append.mp hother with hold | hnew
      · exact h.codes other hold
      · exact absurd (by rw [List.mem_singleton.mp hnew]) hsame

theorem Midway.compileFile (h : s.Midway disk source code inputs done t w.1)
    (hs : s.OnFiles) (hgiven : s.Given t source code inputs)
    (hdone : ∀ input ∈ done, input ∈ inputs) (hapart : Apart t code inputs)
    (hinput : input ∈ inputs) :
    (s.compileFile disk input (targetOf input) w).1 = .ok () ∧
      s.Midway disk source code inputs (done ++ [input]) t
        (s.compileFile disk input (targetOf input) w).2.1 := by
  have hread := h.read hgiven hinput
  have hsource : source input ∈ inputs.map source := List.mem_map_of_mem hinput
  have hcompile := hgiven.compile input hinput
  obtain ⟨_, hwrite⟩ := hgiven.write input hinput
  have hcached : ∀ found, w.1.read input = .ok found → (s.cached? disk found w).2 = w ∧
      ∀ code, (s.cached? disk found w).1 = some code →
        Shading.compile found s.settings.limits = .ok code := by
    intro found hfound
    rw [hread] at hfound
    cases hfound
    exact h.steady.cached? hs hsource
  rcases compileFile_ways hs (targetOf input) hcached with ⟨e, hdirect, -, -⟩ |
    ⟨found, binary, reached, hfound, hbinary, hreached, hresult, htree⟩
  · rw [directCode_of_ok _ hread, hcompile] at hdirect
    cases hdirect
  · rw [hread] at hfound
    cases hfound
    rw [hcompile] at hbinary
    cases hbinary
    have hmidway : s.Midway disk source code inputs done t reached := by
      rcases hreached with rfl | rfl
      · exact h
      · obtain ⟨hsteady, hgrown, hkept⟩ := h.steady.keep hs input hsource hcompile
        exact h.grow hdone hsteady hgrown hkept
    have hdelivered : Session.delivered reached (targetOf input) (code input) =
        (.ok (), reached.insert (t.destination (targetOf input)) (.file (code input))) := by
      have hrun : Files.tree.write (targetOf input) (code input) reached = (.ok (), _) :=
        update_ok (hmidway.grown.write hwrite (hmidway.free input hinput))
      rw [Session.delivered, hrun]
      rfl
    rw [hresult, htree, hdelivered]
    exact ⟨rfl, hmidway.insert hdone hapart hinput⟩

theorem compileEach_cons (left : List Bytes)
    (hok : (s.compileFile disk input (targetOf input) w).1 = .ok ()) :
    s.compileEach disk [] (input :: left) w =
      s.compileEach disk [] left (s.compileFile disk input (targetOf input) w).2 := by
  simp only [compileEach, List.mapM_cons, bind_assoc, if_true]
  rw [bind_run, hok]
  rfl

theorem Midway.compileEach (left : List Bytes) (hs : s.OnFiles)
    (hgiven : s.Given t source code inputs) (hapart : Apart t code inputs)
    (h : s.Midway disk source code inputs done t w.1)
    (hall : ∀ input ∈ done ++ left, input ∈ inputs) :
    (s.compileEach disk [] left w).1 = [] ∧
      s.Midway disk source code inputs (done ++ left) t (s.compileEach disk [] left w).2.1 := by
  induction left generalizing done w with
  | nil =>
    rw [List.append_nil]
    exact ⟨rfl, h⟩
  | cons input left ih =>
    obtain ⟨hok, hnext⟩ := h.compileFile hs hgiven
      (fun other hother => hall other (List.mem_append_left _ hother)) hapart
      (hall input (by simp))
    rw [List.append_cons] at hall ⊢
    rw [compileEach_cons left hok]
    exact ih hnext hall

section Opening

theorem diskCache?_within (hs : s.OnFiles) (t : FileTree) :
    Ensures (·.Within t) s.diskCache? (fun _ => (·.Within t)) := by
  unfold diskCache?
  simp only
  split
  · refine bind (Q := fun _ => (·.Within t)) ?_ fun created => ?_
    · rw [hs.files]
      refine bind (Q := fun _ => (·.Within t)) ?_ fun made => ?_
      · exact update (fun t₁ t₂ h hmade => h.trans (makeDirectories_within hmade))
          fun _ _ h => h
      · cases made <;> exact pure fun _ h => h
    · cases created <;>
        exact bind (hs.ensures_log _) fun _ => pure fun _ h => h
  · exact pure fun _ h => h

theorem cleanCache_within (hs : s.OnFiles) (t : FileTree) (disk : Option DiskCache) :
    Ensures (·.Within t) (s.cleanCache disk) (fun _ => (·.Within t)) := by
  cases disk with
  | none => exact bind (hs.ensures_log _) fun _ => pure fun _ h => h
  | some c =>
    unfold cleanCache
    rw [hs.files]
    refine bind (Q := fun _ => (·.Within t)) ?_ fun cleared => ?_
    · exact update (fun t₁ t₂ h hremoved => h.trans (remove_within hremoved))
        fun _ _ h => h
    · cases cleared <;> exact pure fun _ h => h

variable {o : Options} {w₁ : FileTree × σ}

theorem ready_within (hs : s.OnFiles) (hopened : s.diskCache? w = (disk, w₁))
    (hcleaned : (if o.clean then s.cleanCache disk else pure (.ok ())) w₁ = (.ok (), w')) :
    w'.1.Within w.1 := by
  have hfirst := diskCache?_within hs w.1 w (.refl w.1)
  rw [hopened] at hfirst
  split at hcleaned
  · have hsecond := cleanCache_within hs w.1 disk w₁ hfirst
    rwa [hcleaned] at hsecond
  · cases hcleaned
    exact hfirst

theorem compileAll_ready (houtput : o.output = []) (hopened : s.diskCache? w = (disk, w₁))
    (hcleaned : (if o.clean then s.cleanCache disk else pure (.ok ())) w₁ = (.ok (), w'))
    (hnone : (s.compileEach disk [] o.words w').1 = []) :
    s.compileAll o w = (.ok (), (s.compileEach disk [] o.words w').2) := by
  unfold compileAll
  rw [houtput, if_neg (by simp), bind_run, hopened]
  simp only
  split at hcleaned
  · next hclean =>
      rw [if_pos hclean, bind_run, hcleaned]
      simp only
      rw [bind_run, hnone]
      rfl
  · next hclean =>
      cases hcleaned
      rw [if_neg hclean, pure_bind]
      simp only
      rw [bind_run, hnone]
      rfl

end Opening

/-- **No output is lost and no input is destroyed exactly if the outputs are not in the way.** The
inputs hold sources that are compiled, and what is written can be written, once the disk cache is
ready. Then the inputs are still as they were when the command started. Compiling them one after the
other succeeds and leaves every input as it was and every output with the code of its input if and
only if no output has the place of an input, and outputs at one place are the same. Without a disk
cache nothing else is asked. -/
theorem compileAll_delivers_iff {o : Options} {w₁ : FileTree × σ}
    (hs : s.OnFiles) (houtput : o.output = []) (hopened : s.diskCache? w = (disk, w₁))
    (hcleaned : (if o.clean then s.cleanCache disk else pure (.ok ())) w₁ = (.ok (), w'))
    (hgiven : s.Given w'.1 source code o.words)
    (hsteady : s.Steady (o.words.map source) (Touched w'.1 o.words) w'.1 disk) :
    (∀ input ∈ o.words, w.1.Holds (w.1.destination input) (source input)) ∧
    ((s.compileAll o w).1 = .ok () ∧ Delivered w.1 (s.compileAll o w).2.1 source code o.words ↔
      Apart w.1 code o.words) := by
  have hwithin := ready_within hs hopened hcleaned
  refine ⟨fun input hinput => ?_, fun h => ?_, fun h => ?_⟩
  · rw [← hwithin.destination]
    exact hwithin.files _ _ (read_ok (hgiven.read input hinput))
  · have hapart : Apart w'.1 code o.words := Delivered.apart
      ⟨h.2.start.trans hwithin.start.symm, h.2.sources, h.2.codes⟩ hgiven
    exact hapart.of_start hwithin.start.symm
  · obtain ⟨hnone, hmidway⟩ := Midway.compileEach o.words hs hgiven
      (h.of_start hwithin.start) (hgiven.midway hsteady) fun _ hinput => hinput
    have hdelivered := hmidway.delivered hgiven
    rw [compileAll_ready houtput hopened hcleaned hnone]
    exact ⟨rfl, hdelivered.start.trans hwithin.start, hdelivered.sources, hdelivered.codes⟩

/-- A session on a tree of files that shows nothing. -/
def quietSession (settings : Settings) : Session (StateM (FileTree × Unit)) where
  system := {
    files := Files.beside Unit
    writeOutput _ := pure ()
    writeError _ := pure ()
    logStamp := pure []
    environment := []
    workingDirectory := utf8 "/"
    platform := []
    hasTerminal := false }
  settings := settings
  colored := false
  level := .info

theorem quietSession_onFiles (settings : Settings) : (quietSession settings).OnFiles :=
  ⟨rfl, fun _ _ => rfl, fun _ => rfl⟩

/-- Three files, two of whose names differ in their extensions only. -/
def namesakeTree (second : Bytes) : FileTree where
  entries := [([utf8 "a.bsl"], .file []), ([utf8 "a.txt"], .file second),
    ([utf8 "b.bsl"], .file (utf8 "in x: f32 at 0"))]

def namesakes : Options where
  words := [utf8 "a.bsl", utf8 "a.txt", utf8 "b.bsl"]

/-- Files with one name and different sources: the output of the first is lost. -/
theorem namesakes_lose :
    let w := (quietSession {}).compileAll namesakes (namesakeTree (utf8 "in x: f32 at 0"), ())
    w.1.toOption = some () ∧ (w.2.1.read (targetOf (utf8 "a.bsl"))).toOption =
        (compile (utf8 "in x: f32 at 0") {}).toOption ∧
      (compile [] {}).toOption.isSome ∧
      (compile [] {}).toOption ≠ (compile (utf8 "in x: f32 at 0") {}).toOption := by
  decide +kernel

def namesakeSource (path : Bytes) : Bytes :=
  if path = utf8 "a.bsl" then [] else if path = utf8 "a.txt" then utf8 " " else
    utf8 "in x: f32 at 0"

def namesakeCode (path : Bytes) : Bytes :=
  ((compile (namesakeSource path) .default).toOption).getD []

theorem namesakeSource_faithful : Faithful fun source limits =>
    source ∈ namesakes.words.map namesakeSource ∧ limits = .default := by
  have hkeys : ∀ p ∈ namesakes.words.map namesakeSource, ∀ q ∈ namesakes.words.map namesakeSource,
      cacheKey p .default = cacheKey q .default → p = q := by decide +kernel
  have hsizes : ∀ p ∈ namesakes.words.map namesakeSource,
      ((compile p .default).toOption.getD []).length < 0x100000000 := by decide +kernel
  constructor
  · rintro source _ source' _ ⟨h, rfl⟩ ⟨h', rfl⟩ heq
    rw [hkeys source h source' h' heq]
  · rintro source _ code ⟨h, rfl⟩ hcompile
    have hsize := hsizes source h
    rwa [hcompile] at hsize

def cachingSession : Session (StateM (FileTree × Unit)) :=
  quietSession { cache := ⟨true, utf8 "/c"⟩ }

/-- The files once the directory of the disk cache was made. -/
def openedTree : FileTree := (namesakeTree (utf8 " ")).insert [utf8 "c"] .directory

/-- Files with one name and sources that are compiled alike lose nothing, with a disk cache that has
nothing in it yet. -/
theorem namesakes_delivered :
    ¬(namesakes.words.map targetOf).Nodup ∧
      cachingSession.Given openedTree namesakeSource namesakeCode namesakes.words ∧
      Apart (namesakeTree (utf8 " ")) namesakeCode namesakes.words ∧
      (cachingSession.compileAll namesakes (namesakeTree (utf8 " "), ())).1 = .ok () ∧
      Delivered (namesakeTree (utf8 " "))
        (cachingSession.compileAll namesakes (namesakeTree (utf8 " "), ())).2.1 namesakeSource
        namesakeCode namesakes.words := by
  have hcreate : create Files.tree (utf8 "/c") (namesakeTree (utf8 " ")) =
      (.ok ⟨utf8 "/c"⟩, openedTree) := by rfl
  have hplace : openedTree.destination (entryDirectory ⟨utf8 "/c"⟩) =
      [utf8 "c", utf8 "spv"] := by decide
  obtain ⟨hroomy, hserves⟩ := serves_create hcreate
    (by rw [hplace]; rintro _ ⟨rest, rfl⟩; rfl) (.inl (by decide)) (by decide)
  rw [hplace] at hroomy hserves
  have haway : ∀ input ∈ namesakes.words,
      ¬[utf8 "c", utf8 "spv"] <+: (namesakeTree (utf8 " ")).destination input ∧
      ¬[utf8 "c", utf8 "spv"] <+: (namesakeTree (utf8 " ")).destination (targetOf input) := by
    decide
  have hwrite : ∀ input ∈ namesakes.words,
      (openedTree.write (targetOf input) (namesakeCode input)).toOption.isSome := by decide +kernel
  have hgiven : cachingSession.Given openedTree namesakeSource namesakeCode namesakes.words := by
    refine ⟨by decide +kernel, by decide +kernel, fun input hinput => ?_⟩
    have hsome := hwrite input hinput
    cases hrun : openedTree.write (targetOf input) (namesakeCode input) with
    | error e =>
      rw [hrun] at hsome
      cases hsome
    | ok t' => exact ⟨t', rfl⟩
  have hapart : Apart (namesakeTree (utf8 " ")) namesakeCode namesakes.words :=
    ⟨by decide +kernel, by decide +kernel⟩
  have hopened : cachingSession.diskCache? (namesakeTree (utf8 " "), ()) =
      (some ⟨utf8 "/c"⟩, openedTree, ()) := by rfl
  have hs : cachingSession.OnFiles := quietSession_onFiles _
  refine ⟨by decide, hgiven, hapart, (compileAll_delivers_iff hs rfl hopened rfl hgiven
    ?_).2.mpr hapart⟩
  refine ⟨_, _, [], namesakeSource_faithful, fun source hsource => ⟨hsource, rfl⟩, hroomy, hserves,
    nofun, ?_⟩
  rintro _ ⟨input, hinput, rfl | rfl⟩
  · exact (haway input hinput).1
  · exact (haway input hinput).2

end CommandLine.Session

end Shading
