import Shading.CommandLine
import Shading.ShaderCache
import Shading.Proofs.DiskCache.Honesty

/-!
A disk cache changes nothing of what is compiled. The shader cache and the
command line are run on a tree of files whose cache starts empty. After any
compilations, of any sources under any limits, and after any emptying of the
cache, the next compilation gives the code or the error that compiling the
source directly gives.
-/

namespace Shading

open Text FileTree Ensures

variable {σ : Type} {c : DiskCache} {Used : Bytes → Limits → Prop} {code : Bytes}

/-- The code of a file without any cache. The errors are told in the words of who asks. -/
def directCode {ε : Type} (unread : FileError → ε) (refused : Bytes → CompileError → ε)
    (t : FileTree) (limits : Limits) (path : Bytes) : Except ε Bytes := do
  let source ← (t.read path).mapError unread
  (compile source limits).mapError (refused source)

section Directly

variable {ε : Type} {unread : FileError → ε} {refused : Bytes → CompileError → ε} {t : FileTree}
  {path : Bytes}

theorem directCode_of_error {e : FileError} (limits : Limits) (h : t.read path = .error e) :
    directCode unread refused t limits path = .error (unread e) := by
  rw [directCode, h]
  rfl

theorem directCode_of_ok {source : Bytes} (limits : Limits) (h : t.read path = .ok source) :
    directCode unread refused t limits path =
      (compile source limits).mapError (refused source) := by
  rw [directCode, h]
  rfl

end Directly

/-- A shader cache that uses a disk cache on a tree of files. What it logs goes elsewhere. -/
structure ShaderHost.Uses (host : ShaderHost (StateM (FileTree × σ))) (c : DiskCache) : Prop where
  files : host.files = Files.beside σ
  disk : host.disk = some c
  log : ∀ record w, (host.log record w).2.1 = w.1

/-- A command line that works on a tree of files. What it writes besides goes elsewhere. -/
structure CommandLine.Session.OnFiles (s : CommandLine.Session (StateM (FileTree × σ))) : Prop where
  files : s.system.files = Files.beside σ
  writeError : ∀ text w, (s.system.writeError text w).2.1 = w.1
  logStamp : ∀ w, (s.system.logStamp w).2.1 = w.1

section Logging

variable {P : FileTree → Prop}

theorem ShaderHost.Uses.ensures_log {host : ShaderHost (StateM (FileTree × σ))} (h : host.Uses c)
    (record : LogRecord) : Ensures P (host.log record) (fun _ => P) := by
  intro w hw
  rw [h.log]
  exact hw

theorem CommandLine.Session.OnFiles.ensures_log
    {s : CommandLine.Session (StateM (FileTree × σ))} (h : s.OnFiles) (record : LogRecord) :
    Ensures P (s.log record) (fun _ => P) := by
  intro w hw
  unfold Session.log
  split
  · rw [bind_run, h.writeError, h.logStamp]
    exact hw
  · exact hw

end Logging

namespace ShaderCache

variable {host : ShaderHost (StateM (FileTree × σ))} {path source : Bytes}

theorem cached?_sound (hused : Faithful Used) (hhost : host.Uses c)
    (hsource : Used source host.limits) :
    Ensures (c.Honest Used) (cached? host path source) (fun cached t => c.Honest Used t ∧
      ∀ code, cached = some code → compile source host.limits = .ok code) := by
  unfold cached?
  rw [hhost.disk, hhost.files]
  refine (DiskCache.get_sound hused hsource).bind fun found => ?_
  cases found with
  | ok code =>
    refine pure fun t ht => ⟨ht.1, ?_⟩
    rintro code rfl
    exact ht.2 code rfl
  | error e =>
    refine bind (hhost.ensures_log _) fun _ => ?_
    exact pure fun t ht => ⟨ht.1, nofun⟩

theorem keep_honest (hused : Faithful Used) (hhost : host.Uses c)
    (hsource : Used source host.limits) (hcompile : compile source host.limits = .ok code) :
    Ensures (c.Honest Used) (keep host path source code) (fun _ => c.Honest Used) := by
  unfold keep
  rw [hhost.disk, hhost.files]
  refine (DiskCache.put_honest (hused.genuine_entry hsource hcompile)).bind fun result => ?_
  cases result with
  | ok _ => exact pure fun t ht => ht
  | error e => exact hhost.ensures_log _

theorem codeOf_transparent (hused : Faithful Used) (hhost : host.Uses c)
    (hsource : Used source host.limits) :
    Ensures (c.Honest Used) (codeOf host path source) (fun result t => c.Honest Used t ∧
      result = (compile source host.limits).mapError (.compile path source)) := by
  unfold codeOf
  refine (cached?_sound hused hhost hsource).bind fun cached => ?_
  cases cached with
  | some code =>
    refine pure fun t ht => ⟨ht.1, ?_⟩
    rw [ht.2 code rfl]
    rfl
  | none =>
    cases hcompile : compile source host.limits with
    | error e =>
      refine bind (hhost.ensures_log _) fun _ => ?_
      exact pure fun t ht => ⟨ht.1, rfl⟩
    | ok code =>
      refine bind (weaken (keep_honest hused hhost hsource hcompile)
        fun t ht => ht.1) fun _ => ?_
      exact pure fun t ht => ⟨ht, rfl⟩

theorem codeOfFile_transparent (hused : Faithful Used) (hhost : host.Uses c) {w : FileTree × σ}
    (h : c.Honest Used w.1)
    (hsource : ∀ source, w.1.read path = .ok source → Used source host.limits) :
    c.Honest Used (codeOfFile host path w).2.1 ∧
      (codeOfFile host path w).1 = directCode .file (.compile path) w.1 host.limits path := by
  have hread : host.files.read path w = (w.1.read path, w) := by
    rw [hhost.files]
    rfl
  unfold codeOfFile
  rw [bind_run, hread]
  cases hcontent : w.1.read path with
  | error e =>
    have hlog := hhost.ensures_log (P := c.Honest Used)
      ⟨.error, "failed to open shader file", [("path", .text path), ("error", .text e.message)]⟩
    rw [directCode_of_error _ hcontent]
    exact ⟨hlog w h, rfl⟩
  | ok source =>
    rw [directCode_of_ok _ hcontent]
    exact codeOf_transparent hused hhost (hsource source hcontent) w h

end ShaderCache

namespace CommandLine.Session

variable {s : Session (StateM (FileTree × σ))} {input target source : Bytes} {w : FileTree × σ}

/-- What writing code to a path gives, and the tree after it. -/
def delivered (t : FileTree) (target code : Bytes) : Except InputError Unit × FileTree :=
  ((Files.tree.write target code t).1.mapError .file, (Files.tree.write target code t).2)

theorem read_delivered {t : FileTree} (h : (delivered t target code).1 = .ok ()) :
    (delivered t target code).2.read target = .ok code := by
  have hwrite : Files.tree.write target code t = update (·.write target code) t := rfl
  rw [delivered, hwrite] at h ⊢
  cases hrun : t.write target code with
  | error e =>
    rw [update_error hrun] at h
    cases h
  | ok t' =>
    rw [update_ok hrun]
    exact read_write hrun

theorem cached?_sound (hused : Faithful Used) (hs : s.OnFiles)
    (hsource : Used source s.settings.limits) (h : c.Honest Used w.1) :
    (s.cached? (some c) source w).2 = w ∧ ∀ code, (s.cached? (some c) source w).1 = some code →
      compile source s.settings.limits = .ok code := by
  have hsame := (c.get_cases (cacheKey source s.settings.limits) w).1
  have hsound := (DiskCache.get_sound hused hsource w h).2
  unfold cached?
  simp only
  rw [hs.files, bind_run, hsame]
  cases hget : (c.get (Files.beside σ) (cacheKey source s.settings.limits) w).1 with
  | error e => exact ⟨rfl, nofun⟩
  | ok found =>
    refine ⟨rfl, fun code hcode => hsound code ?_⟩
    have hfound : found = some code := hcode
    rw [hget, hfound]

theorem keep_tree (hs : s.OnFiles) (input source code : Bytes) (w : FileTree × σ) :
    (s.keep (some c) input source code w).2.1 =
      (c.put (Files.beside σ) (cacheKey source s.settings.limits) (some code) w).2.1 := by
  unfold keep
  simp only
  rw [hs.files, bind_run]
  cases hput : (c.put (Files.beside σ) (cacheKey source s.settings.limits) (some code) w).1 with
  | ok _ => rfl
  | error e => exact hs.ensures_log (P := (· = _)) _ _ rfl

theorem write_delivered (hs : s.OnFiles) (code : Bytes) (w : FileTree × σ) :
    delivered w.1 target code = ((s.system.files.write target code w).1.mapError .file,
      (s.system.files.write target code w).2.1) := by
  rw [hs.files]
  rfl

theorem compileFile_ways {disk : Option DiskCache} (hs : s.OnFiles) (target : Bytes)
    {w : FileTree × σ} (hcached : ∀ source, w.1.read input = .ok source →
      (s.cached? disk source w).2 = w ∧ ∀ code, (s.cached? disk source w).1 = some code →
        compile source s.settings.limits = .ok code) :
    (∃ e, directCode .file InputError.compile w.1 s.settings.limits input = .error e ∧
      (s.compileFile disk input target w).1 = .error e ∧
      (s.compileFile disk input target w).2.1 = w.1) ∨
    ∃ source code t, w.1.read input = .ok source ∧ compile source s.settings.limits = .ok code ∧
      (t = w.1 ∨ t = (s.keep disk input source code w).2.1) ∧
      (s.compileFile disk input target w).1 = (delivered t target code).1 ∧
      (s.compileFile disk input target w).2.1 = (delivered t target code).2 := by
  have hread : s.system.files.read input w = (w.1.read input, w) := by
    rw [hs.files]
    rfl
  unfold compileFile
  rw [bind_run, hread]
  cases hcontent : w.1.read input with
  | error e => exact .inl ⟨_, directCode_of_error _ hcontent, rfl, rfl⟩
  | ok source =>
    obtain ⟨hsame, hsound⟩ := hcached source hcontent
    simp only
    rw [bind_run, hsame]
    cases hfound : (s.cached? disk source w).1 with
    | some code =>
      refine .inr ⟨source, code, w.1, rfl, hsound code hfound, .inl rfl, ?_⟩
      have hlog : (s.log ⟨.debug, "disk cache hit", [("input", .text input)]⟩ w).2.1 = w.1 :=
        hs.ensures_log (P := (· = w.1)) _ w rfl
      rw [← hlog, write_delivered hs]
      exact ⟨rfl, rfl⟩
    | none =>
      unfold compileSource
      cases hcompile : compile source s.settings.limits with
      | error e =>
        refine .inl ⟨_, ?_, rfl, rfl⟩
        rw [directCode_of_ok _ hcontent, hcompile]
        rfl
      | ok code =>
        refine .inr ⟨source, code, _, rfl, hcompile, .inr rfl, ?_⟩
        rw [write_delivered hs]
        simp only
        rw [bind_run, bind_run]
        cases hwrite : (s.system.files.write target code (s.keep disk input source code w).2).1 with
        | error e => exact ⟨rfl, rfl⟩
        | ok _ => exact ⟨rfl, hs.ensures_log (P := (· = _)) _ _ rfl⟩

theorem compileFile_cases (hused : Faithful Used) (hs : s.OnFiles) (target : Bytes)
    (h : c.Honest Used w.1)
    (hsource : ∀ source, w.1.read input = .ok source → Used source s.settings.limits) :
    (∃ e, directCode .file InputError.compile w.1 s.settings.limits input = .error e ∧
      (s.compileFile (some c) input target w).1 = .error e ∧
      (s.compileFile (some c) input target w).2.1 = w.1) ∨
    ∃ source code t, w.1.read input = .ok source ∧ compile source s.settings.limits = .ok code ∧
      (t = w.1 ∨
        t = (c.put (Files.beside σ) (cacheKey source s.settings.limits) (some code) w).2.1) ∧
      (s.compileFile (some c) input target w).1 = (delivered t target code).1 ∧
      (s.compileFile (some c) input target w).2.1 = (delivered t target code).2 := by
  simp only [← keep_tree hs input]
  exact compileFile_ways hs target fun source hread =>
    cached?_sound hused hs (hsource source hread) h

theorem delivered_honest {t : FileTree} {limits : Limits} (h : c.Honest Used t)
    (hcompile : compile source limits = .ok code) : c.Honest Used (delivered t target code).2 := by
  have hwrite : Files.tree.write target code t = update (·.write target code) t := rfl
  rw [delivered, hwrite]
  cases hrun : t.write target code with
  | error e =>
    rw [update_error hrun]
    exact h
  | ok t' =>
    rw [update_ok hrun]
    exact h.adds (write_adds hrun) fun key _ => genuine_binary hcompile key

theorem compileFile_honest (hused : Faithful Used) (hs : s.OnFiles) (target : Bytes)
    (h : c.Honest Used w.1)
    (hsource : ∀ source, w.1.read input = .ok source → Used source s.settings.limits) :
    c.Honest Used (s.compileFile (some c) input target w).2.1 := by
  rcases compileFile_cases hused hs target h hsource with ⟨e, -, -, htree⟩ |
    ⟨source, code, t, hread, hcompile, ht, -, htree⟩
  · rw [htree]
    exact h
  · have hput := DiskCache.put_honest (hused.genuine_entry (hsource source hread) hcompile) w h
    have hhonest : c.Honest Used t := by
      rcases ht with rfl | rfl
      · exact h
      · exact hput
    rw [htree]
    exact delivered_honest hhonest hcompile

end CommandLine.Session

/-- What is reached from an empty cache by compiling files, by emptying the cache, and by whatever
else leaves the entries of the cache alone or removes them. -/
inductive DiskCache.Reached (c : DiskCache) (Used : Bytes → Limits → Prop) : FileTree × σ → Prop
  | start {w : FileTree × σ} : (∀ key content, ¬ c.Keeps w.1 key content) → Reached c Used w
  | shader {w : FileTree × σ} {host : ShaderHost (StateM (FileTree × σ))} {path : Bytes} :
      Reached c Used w → host.Uses c →
      (∀ source, w.1.read path = .ok source → Used source host.limits) →
      Reached c Used (ShaderCache.codeOfFile host path w).2
  | command {w : FileTree × σ} {s : CommandLine.Session (StateM (FileTree × σ))}
      {input target : Bytes} :
      Reached c Used w → s.OnFiles →
      (∀ source, w.1.read input = .ok source → Used source s.settings.limits) →
      Reached c Used (s.compileFile (some c) input target w).2
  | clear {w : FileTree × σ} : Reached c Used w → Reached c Used (c.clear (Files.beside σ) w).2
  | other {w w' : FileTree × σ} : Reached c Used w →
      (∀ key content, c.Keeps w'.1 key content → c.Keeps w.1 key content) → Reached c Used w'

theorem DiskCache.Reached.honest (hused : Faithful Used) {w : FileTree × σ}
    (h : c.Reached Used w) : c.Honest Used w.1 := by
  induction h with
  | start hempty => exact fun key content hkeeps => absurd hkeeps (hempty key content)
  | shader _ hhost hsource ih =>
    exact (ShaderCache.codeOfFile_transparent hused hhost ih hsource).1
  | command _ hs hsource ih => exact CommandLine.Session.compileFile_honest hused hs _ ih hsource
  | clear _ ih => exact DiskCache.clear_honest _ ih
  | other _ hkept ih => exact fun key content hkeeps => ih key content (hkept key content hkeeps)

/-- The disk cache is transparent. The code of a shader file, or the reason why it has none, is that
of compiling the file directly. The command line fails as it does when it compiles the file
directly, and then leaves the files alone; else the code that it delivers is that of compiling the
file directly. -/
theorem diskCache_transparent (hused : Faithful Used) {w : FileTree × σ} (h : c.Reached Used w) :
    (∀ (host : ShaderHost (StateM (FileTree × σ))) (path : Bytes), host.Uses c →
      (∀ source, w.1.read path = .ok source → Used source host.limits) →
      (ShaderCache.codeOfFile host path w).1 =
        directCode .file (.compile path) w.1 host.limits path) ∧
    ∀ (s : CommandLine.Session (StateM (FileTree × σ))) (input target : Bytes), s.OnFiles →
      (∀ source, w.1.read input = .ok source → Used source s.settings.limits) →
      (∀ e, directCode .file .compile w.1 s.settings.limits input = .error e →
        (s.compileFile (some c) input target w).1 = .error e ∧
        (s.compileFile (some c) input target w).2.1 = w.1) ∧
      ∀ source code, w.1.read input = .ok source → compile source s.settings.limits = .ok code →
        ∃ t, (t = w.1 ∨
            t = (c.put (Files.beside σ) (cacheKey source s.settings.limits) (some code) w).2.1) ∧
          (s.compileFile (some c) input target w).1 =
            (CommandLine.Session.delivered t target code).1 ∧
          (s.compileFile (some c) input target w).2.1 =
            (CommandLine.Session.delivered t target code).2 ∧
          ((s.compileFile (some c) input target w).1 = .ok () →
            (s.compileFile (some c) input target w).2.1.read target = .ok code) := by
  have hhonest := h.honest hused
  constructor
  · intro host path hhost hsource
    exact (ShaderCache.codeOfFile_transparent hused hhost hhonest hsource).2
  · intro s input target hs hsource
    rcases CommandLine.Session.compileFile_cases hused hs target hhonest hsource with
      ⟨e, hdirect, hresult, htree⟩ | ⟨source, code, t, hread, hcompile, ht, hresult, htree⟩
    · constructor
      · intro e' he'
        rw [hdirect] at he'
        cases he'
        exact ⟨hresult, htree⟩
      · intro source code hread hcompile
        rw [directCode_of_ok _ hread, hcompile] at hdirect
        cases hdirect
    · constructor
      · intro e he
        rw [directCode_of_ok _ hread, hcompile] at he
        cases he
      · intro source' code' hread' hcompile'
        rw [hread] at hread'
        cases hread'
        rw [hcompile] at hcompile'
        cases hcompile'
        refine ⟨t, ht, hresult, htree, fun hok => ?_⟩
        rw [hresult] at hok
        rw [htree]
        exact CommandLine.Session.read_delivered hok

def smallTree : FileTree where
  entries := [([utf8 "a"], .file []), ([utf8 "b"], .file (utf8 "?"))]

def smallCache : DiskCache := ⟨utf8 "/cache"⟩

/-- The sources with the limits that they are compiled under. -/
def smallUses : List (Bytes × Limits) := [([], {}), ([], { types := 3 }), (utf8 "?", {})]

def smallHost (limits : Limits) : ShaderHost (StateM (FileTree × Unit)) where
  files := Files.beside Unit
  create _ := pure (.ok 0)
  destroy _ := pure ()
  log _ := pure ()
  limits := limits
  disk := some smallCache

theorem smallHost_uses (limits : Limits) : (smallHost limits).Uses smallCache :=
  ⟨rfl, rfl, fun _ _ => rfl⟩

theorem smallUses_faithful : Faithful fun source limits => (source, limits) ∈ smallUses := by
  have hkeys : ∀ p ∈ smallUses, ∀ q ∈ smallUses, cacheKey p.1 p.2 = cacheKey q.1 q.2 →
      keyPreamble p.2 ++ p.1 = keyPreamble q.2 ++ q.1 := by decide +kernel
  have hsizes : ∀ p ∈ smallUses, ((compile p.1 p.2).toOption.getD []).length < 0x100000000 := by
    decide +kernel
  constructor
  · intro source limits source' limits' h h' heq
    exact hkeys (source, limits) h (source', limits') h' heq
  · intro source limits code h hcompile
    have hsize := hsizes (source, limits) h
    simp only [hcompile] at hsize
    exact hsize

theorem smallTree_empty (key content : Bytes) : ¬ smallCache.Keeps smallTree key content := by
  intro hkeeps
  have hlast := destination_endsWith (smallCache.entryPath_endsWith key)
    (isName_entryName key) smallTree
  have hmem := List.mem_map_of_mem (f := fun e : Place × FileEntry => e.1.getLast?) hkeeps.mem
  -- the names of both files are shorter than that of an entry
  have hnames : smallTree.entries.map (fun e => e.1.getLast?) =
      [some (utf8 "a"), some (utf8 "b")] := rfl
  have hlong := length_entryName key
  rw [hnames, hlast] at hmem
  simp only [List.mem_cons, Option.some.injEq, List.not_mem_nil, or_false] at hmem
  rcases hmem with heq | heq
  all_goals
    rw [heq] at hlong
    exact absurd hlong (by decide)

/-- One source is compiled under two sets of limits, so that the cache has it twice. Then it is
compiled again, and another source is refused. -/
theorem diskCache_transparent_small : ∃ w : FileTree × Unit,
    smallCache.Reached (fun source limits => (source, limits) ∈ smallUses) w ∧
    w.1.files.length = 4 ∧
    (ShaderCache.codeOfFile (smallHost {}) (utf8 "/a") w).1 =
      directCode .file (.compile (utf8 "/a")) w.1 {} (utf8 "/a") ∧
    (ShaderCache.codeOfFile (smallHost {}) (utf8 "/b") w).1 =
      directCode .file (.compile (utf8 "/b")) w.1 {} (utf8 "/b") ∧
    (compile [] {}).toOption.isSome ∧ (compile (utf8 "?") {}).toOption = none := by
  let first := (ShaderCache.codeOfFile (smallHost {}) (utf8 "/a") (smallTree, ())).2
  let second := (ShaderCache.codeOfFile (smallHost { types := 3 }) (utf8 "/a") first).2
  have hstart : (smallTree.read (utf8 "/a")).toOption = some [] := by decide +kernel
  have hfirst : (first.1.read (utf8 "/a")).toOption = some [] := by decide +kernel
  have hagain : (second.1.read (utf8 "/a")).toOption = some [] := by decide +kernel
  have hrefused : (second.1.read (utf8 "/b")).toOption = some (utf8 "?") := by decide +kernel
  have honce : smallCache.Reached (fun source limits => (source, limits) ∈ smallUses) first := by
    refine .shader (.start smallTree_empty) (smallHost_uses {}) fun source hsource => ?_
    rw [hsource] at hstart
    cases hstart
    decide
  have htwice : smallCache.Reached (fun source limits => (source, limits) ∈ smallUses) second := by
    refine .shader honce (smallHost_uses { types := 3 }) fun source hsource => ?_
    rw [hsource] at hfirst
    cases hfirst
    decide
  obtain ⟨hshader, -⟩ := diskCache_transparent smallUses_faithful htwice
  refine ⟨second, htwice, by decide +kernel, ?_, ?_, by decide +kernel, by decide +kernel⟩
  · refine hshader (smallHost {}) (utf8 "/a") (smallHost_uses {}) fun source hsource => ?_
    rw [hsource] at hagain
    cases hagain
    decide
  · refine hshader (smallHost {}) (utf8 "/b") (smallHost_uses {}) fun source hsource => ?_
    rw [hsource] at hrefused
    cases hrefused
    decide

end Shading
