import Shading.ShaderCache

/-!
Who owns the driver modules of a device. A shader cache is run in a world that
records what happens to the device, next to files, a log and a device that may
do anything but hand out a handle that is alive. After any calls the handles
that are alive are those of the loaded shaders: none leaks, and none is
destroyed twice.
-/

namespace Shading

open List LoadedShaders

variable {e : ShaderError}

/-- What happens to the driver modules of a device. -/
inductive DeviceEvent where
  | created (handle : UInt64)
  | destroyed (handle : UInt64)
  deriving DecidableEq

def DeviceEvent.apply (live : List UInt64) : DeviceEvent → List UInt64
  | .created handle => live ++ [handle]
  | .destroyed handle => live.erase handle

/-- The handles that were created and not destroyed since. -/
def liveHandles (events : List DeviceEvent) : List UInt64 := events.foldl DeviceEvent.apply []

inductive Disciplined : List DeviceEvent → Prop
  | nil : Disciplined []
  | created {events : List DeviceEvent} {handle : UInt64} :
      Disciplined events → handle ∉ liveHandles events → Disciplined (events ++ [.created handle])
  | destroyed {events : List DeviceEvent} {handle : UInt64} :
      Disciplined events → handle ∈ liveHandles events → Disciplined (events ++ [.destroyed handle])

section Events

variable {events : List DeviceEvent} {handle : UInt64}

@[simp] theorem liveHandles_created :
    liveHandles (events ++ [.created handle]) = liveHandles events ++ [handle] := by
  simp [liveHandles, DeviceEvent.apply]

@[simp] theorem liveHandles_destroyed :
    liveHandles (events ++ [.destroyed handle]) = (liveHandles events).erase handle := by
  simp [liveHandles, DeviceEvent.apply]

end Events

/-- What a shader cache runs in: the loaded shaders, what has happened to the device, and all the
rest. -/
structure CacheWorld (ρ : Type) where
  shaders : LoadedShaders := {}
  events : List DeviceEvent := []
  rest : ρ

/-- The surroundings of a shader cache. Its files, its log and its device may do anything with the
rest of the world; a device only never creates a module with a handle that is alive. -/
structure Surroundings (ρ : Type) where
  files : Files (StateM ρ)
  log : LogRecord → StateM ρ Unit
  create : List UInt64 → Bytes → StateM ρ (Except Bytes UInt64)
  destroy : UInt64 → StateM ρ Unit
  limits : Limits
  disk : Option DiskCache
  fresh : ∀ live code rest handle, (create live code rest).1 = .ok handle → handle ∉ live

variable {ρ α β : Type}

instance : MonadStateOf LoadedShaders (StateM (CacheWorld ρ)) where
  get := fun w => (w.shaders, w)
  set shaders := fun w => ((), { w with shaders })
  modifyGet change := fun w => ((change w.shaders).1, { w with shaders := (change w.shaders).2 })

def CacheWorld.outside (x : StateM ρ α) : StateM (CacheWorld ρ) α := fun w =>
  ((x w.rest).1, { w with rest := (x w.rest).2 })

/-- What a cache uses of its surroundings, with the events of the device recorded. -/
def Surroundings.host (env : Surroundings ρ) : ShaderHost (StateM (CacheWorld ρ)) where
  files := env.files.through CacheWorld.outside
  create code := fun w =>
    let made := env.create (liveHandles w.events) code w.rest
    (made.1, { w with
      events := w.events ++ made.1.toOption.toList.map .created
      rest := made.2 })
  destroy handle := fun w =>
    ((), { w with
      events := w.events ++ [.destroyed handle]
      rest := (env.destroy handle w.rest).2 })
  log record := CacheWorld.outside (env.log record)
  limits := env.limits
  disk := env.disk

namespace CacheWorld

variable {w w' w'' : CacheWorld ρ}

/-- Neither the loaded shaders nor the device have changed. -/
structure Same (w w' : CacheWorld ρ) : Prop where
  shaders : w'.shaders = w.shaders
  events : w'.events = w.events

theorem Same.refl (w : CacheWorld ρ) : w.Same w := ⟨rfl, rfl⟩

theorem Same.trans (h : w.Same w') (h' : w'.Same w'') : w.Same w'' :=
  ⟨h'.shaders.trans h.shaders, h'.events.trans h.events⟩

def Quiet (x : StateM (CacheWorld ρ) α) : Prop := ∀ w : CacheWorld ρ, w.Same (x w).2

theorem bind_run (x : StateM (CacheWorld ρ) α) (f : α → StateM (CacheWorld ρ) β)
    (w : CacheWorld ρ) : (x >>= f) w = f (x w).1 (x w).2 := rfl

theorem quiet_pure (a : α) : Quiet (pure a : StateM (CacheWorld ρ) α) := fun w => .refl w

theorem quiet_outside (x : StateM ρ α) : Quiet (outside x) := fun _ => ⟨rfl, rfl⟩

theorem Quiet.bind {x : StateM (CacheWorld ρ) α} {f : α → StateM (CacheWorld ρ) β}
    (hx : Quiet x) (hf : ∀ a, Quiet (f a)) : Quiet (x >>= f) :=
  fun w => (hx w).trans (hf _ _)

end CacheWorld

open CacheWorld

section Compiling

variable (env : Surroundings ρ)

theorem DiskCache.quiet_get (disk : DiskCache) (key : Bytes) :
    Quiet (disk.get env.host.files key) := by
  unfold DiskCache.get
  apply (quiet_outside _).bind
  intro content
  split <;> exact quiet_pure _

theorem DiskCache.quiet_fillAndMove (temporary content path : Bytes) :
    Quiet (DiskCache.fillAndMove env.host.files temporary content path) := by
  unfold DiskCache.fillAndMove
  apply (quiet_outside _).bind
  intro written
  cases written with
  | ok _ =>
    apply (quiet_outside _).bind
    intro moved
    cases moved with
    | ok _ => exact quiet_pure _
    | error e => exact (quiet_outside _).bind fun _ => quiet_pure _
  | error e =>
    have hremove : Quiet (discard (env.host.files.remove temporary)) := quiet_outside _
    exact hremove.bind fun _ => quiet_pure (Except.error e)

theorem DiskCache.quiet_put (disk : DiskCache) (key : Bytes) (code : Option Bytes) :
    Quiet (disk.put env.host.files key code) := by
  unfold DiskCache.put
  apply (quiet_outside _).bind
  intro made
  cases made with
  | error e => exact quiet_pure _
  | ok _ =>
    apply (quiet_outside _).bind
    intro temporary
    cases temporary with
    | error e => exact quiet_pure _
    | ok path => exact quiet_fillAndMove env _ _ _

namespace ShaderCache

theorem quiet_cached? (path source : Bytes) : Quiet (cached? env.host path source) := by
  unfold cached?
  cases env.host.disk with
  | none => exact quiet_pure _
  | some disk =>
    apply (DiskCache.quiet_get env disk _).bind
    intro found
    cases found with
    | ok code => exact quiet_pure _
    | error e => exact (quiet_outside _).bind fun _ => quiet_pure _

theorem quiet_keep (path source code : Bytes) : Quiet (keep env.host path source code) := by
  unfold keep
  cases env.host.disk with
  | none => exact quiet_pure _
  | some disk =>
    apply (DiskCache.quiet_put env disk _ _).bind
    intro kept
    cases kept with
    | ok _ => exact quiet_pure _
    | error e => exact quiet_outside _

theorem quiet_codeOf (path source : Bytes) : Quiet (codeOf env.host path source) := by
  unfold codeOf
  apply (quiet_cached? env path source).bind
  intro cached
  cases cached with
  | some code => exact quiet_pure _
  | none =>
    cases compile source env.host.limits with
    | error e => exact (quiet_outside _).bind fun _ => quiet_pure _
    | ok code => exact (quiet_keep env path source code).bind fun _ => quiet_pure _

theorem quiet_codeOfFile (path : Bytes) : Quiet (codeOfFile env.host path) := by
  unfold codeOfFile
  apply (quiet_outside _).bind
  intro source
  cases source with
  | error e => exact (quiet_outside _).bind fun _ => quiet_pure _
  | ok source => exact quiet_codeOf env path source

end ShaderCache

end Compiling

namespace LoadedShaders

variable {shaders : LoadedShaders} {key other : Bytes} {shader : LoadedShader}

def Keyed (shaders : LoadedShaders) : Prop := (shaders.entries.map (·.1)).Nodup

/-- The handles of the shaders. -/
def handles (shaders : LoadedShaders) : List UInt64 := shaders.entries.map (·.2.handle)

theorem get?_eq_none : shaders.get? key = none ↔ ∀ entry ∈ shaders.entries, entry.1 ≠ key := by
  simp [get?]

theorem mem_of_get? (h : shaders.get? key = some shader) : (key, shader) ∈ shaders.entries := by
  obtain ⟨⟨found, _⟩, hfound, rfl⟩ := Option.map_eq_some_iff.mp h
  have hkey : found = key := by simpa using find?_some hfound
  exact hkey ▸ mem_of_find?_eq_some hfound

theorem entries_insert_new (h : shaders.get? key = none) :
    (shaders.insert key shader).entries = shaders.entries ++ [(key, shader)] := by
  have hall : shaders.entries.filter (·.1 ≠ key) = shaders.entries := by
    apply filter_eq_self.mpr
    intro entry hentry
    exact decide_eq_true (get?_eq_none.mp h entry hentry)
  rw [insert, hall]

theorem entries_perm (hkeyed : shaders.Keyed) (h : shaders.get? key = some shader) :
    shaders.entries.Perm ((key, shader) :: shaders.entries.filter (·.1 ≠ key)) := by
  obtain ⟨before, after, hsplit⟩ := append_of_mem (mem_of_get? h)
  unfold Keyed at hkeyed
  rw [hsplit, map_append, map_cons, nodup_append] at hkeyed
  obtain ⟨-, hafter, hbefore⟩ := hkeyed
  have hothers : ∀ entry ∈ before ++ after, entry.1 ≠ key := by
    intro entry hentry
    rcases mem_append.mp hentry with hfirst | hlast
    · exact hbefore entry.1 (mem_map_of_mem hfirst) key mem_cons_self
    · intro heq
      exact (nodup_cons.mp hafter).1 (mem_map.mpr ⟨entry, hlast, heq⟩)
  have hrest : shaders.entries.filter (·.1 ≠ key) = before ++ after := by
    rw [hsplit, filter_append, filter_cons_of_neg (by simp), ← filter_append]
    apply filter_eq_self.mpr
    intro entry hentry
    exact decide_eq_true (hothers entry hentry)
  rw [hrest, hsplit]
  exact perm_middle

theorem keyed_insert (h : shaders.Keyed) : (shaders.insert key shader).Keyed := by
  unfold Keyed insert
  rw [map_append, nodup_append]
  refine ⟨h.sublist (filter_sublist.map _), by simp, ?_⟩
  intro a ha b hb
  obtain ⟨entry, hentry, rfl⟩ := mem_map.mp ha
  cases mem_singleton.mp hb
  exact of_decide_eq_true (mem_filter.mp hentry).2

theorem mem_insert {entry : Bytes × LoadedShader}
    (h : entry ∈ (shaders.insert key shader).entries) :
    entry ∈ shaders.entries ∨ entry = (key, shader) := by
  rcases mem_append.mp h with hold | hnew
  · exact .inl (mem_filter.mp hold).1
  · exact .inr (mem_singleton.mp hnew)

end LoadedShaders

/-- The handles that are alive are those of the loaded shaders, of which there is one for each key
of a path. -/
structure CacheWorld.Owned (w : CacheWorld ρ) : Prop where
  keyed : w.shaders.Keyed
  paths : ∀ entry ∈ w.shaders.entries, entry.1 = Path.key entry.2.path
  handles : (liveHandles w.events).Perm w.shaders.handles
  disciplined : Disciplined w.events

namespace CacheWorld.Owned

variable {w w' : CacheWorld ρ} {path code : Bytes} {handle : UInt64}

theorem same (h : w.Owned) (hsame : w.Same w') : w'.Owned := by
  constructor
  · rw [hsame.shaders]
    exact h.keyed
  · rw [hsame.shaders]
    exact h.paths
  · rw [hsame.shaders, hsame.events]
    exact h.handles
  · rw [hsame.events]
    exact h.disciplined

theorem create (h : w.Owned) (hnone : w.shaders.get? (Path.key path) = none)
    (hfresh : handle ∉ liveHandles w.events)
    (hshaders : w'.shaders = w.shaders.insert (Path.key path) ⟨path, code, handle⟩)
    (hevents : w'.events = w.events ++ [.created handle]) : w'.Owned := by
  constructor
  · rw [hshaders]
    exact keyed_insert h.keyed
  · rw [hshaders]
    intro entry hentry
    rcases mem_insert hentry with hold | rfl
    · exact h.paths entry hold
    · rfl
  · rw [hshaders, hevents, liveHandles_created, LoadedShaders.handles,
      entries_insert_new hnone, map_append]
    exact h.handles.append_right _
  · rw [hevents]
    exact .created h.disciplined hfresh

theorem replace {shader : LoadedShader} (h : w.Owned)
    (hsome : w.shaders.get? (Path.key path) = some shader)
    (hfresh : handle ∉ liveHandles w.events)
    (hshaders : w'.shaders = w.shaders.insert (Path.key path) { shader with code, handle })
    (hevents : w'.events = w.events ++ [.created handle] ++ [.destroyed shader.handle]) :
    w'.Owned := by
  have hmem := mem_of_get? hsome
  have hlive : shader.handle ∈ liveHandles w.events :=
    h.handles.mem_iff.mpr (mem_map.mpr ⟨_, hmem, rfl⟩)
  have hperm : (liveHandles w.events).Perm (shader.handle ::
      (w.shaders.entries.filter (·.1 ≠ Path.key path)).map (·.2.handle)) :=
    h.handles.trans ((entries_perm h.keyed hsome).map _)
  constructor
  · rw [hshaders]
    exact keyed_insert h.keyed
  · rw [hshaders]
    intro entry hentry
    rcases mem_insert hentry with hold | rfl
    · exact h.paths entry hold
    · exact h.paths (Path.key path, shader) hmem
  · rw [hshaders, hevents, liveHandles_destroyed, liveHandles_created,
      List.erase_append_left _ hlive, LoadedShaders.handles, LoadedShaders.insert, List.map_append]
    refine Perm.append_right _ ?_
    simpa using hperm.erase shader.handle
  · rw [hevents]
    refine .destroyed (.created h.disciplined hfresh) ?_
    rw [liveHandles_created]
    exact mem_append_left _ hlive

end CacheWorld.Owned

namespace ShaderCache

variable {env : Surroundings ρ} {w w' : CacheWorld ρ} {path : Bytes}

theorem lookup_run (path : Bytes) (w : CacheWorld ρ) :
    (lookup path : StateM (CacheWorld ρ) (Option LoadedShader)) w =
      (w.shaders.get? (Path.key path), w) := rfl

theorem create_cases (env : Surroundings ρ) (code : Bytes) (w : CacheWorld ρ) :
    (∃ reason w', env.host.create code w = (.error reason, w') ∧ w.Same w') ∨
    ∃ handle w', env.host.create code w = (.ok handle, w') ∧ handle ∉ liveHandles w.events ∧
      w'.shaders = w.shaders ∧ w'.events = w.events ++ [.created handle] := by
  have hevents : (env.host.create code w).2.events = w.events ++
      (env.create (liveHandles w.events) code w.rest).1.toOption.toList.map .created := rfl
  cases hmade : (env.create (liveHandles w.events) code w.rest).1 with
  | error reason =>
    rw [hmade] at hevents
    exact .inl ⟨reason, _, Prod.ext hmade rfl, rfl, hevents.trans (append_nil _)⟩
  | ok handle =>
    rw [hmade] at hevents
    exact .inr ⟨handle, _, Prod.ext hmade rfl, env.fresh _ _ _ _ hmade, rfl, hevents⟩

theorem build_cases (env : Surroundings ρ) (path : Bytes) (w : CacheWorld ρ) :
    (∃ e w', build env.host path w = (.error e, w') ∧ w.Same w') ∨
    ∃ code handle w', build env.host path w = (.ok (code, handle), w') ∧
      handle ∉ liveHandles w.events ∧ w'.shaders = w.shaders ∧
      w'.events = w.events ++ [.created handle] := by
  have hquiet := quiet_codeOfFile env path w
  unfold build
  rw [bind_run]
  cases hcode : codeOfFile env.host path w with
  | mk result w₁ =>
    rw [hcode] at hquiet
    cases result with
    | error e => exact .inl ⟨e, w₁, rfl, hquiet⟩
    | ok code =>
      dsimp only
      rw [bind_run]
      rcases create_cases env code w₁ with
        ⟨reason, w₂, hmade, hsame⟩ | ⟨handle, w₂, hmade, hfresh, hshaders, hevents⟩
      · rw [hmade]
        exact .inl ⟨_, _, rfl, (hquiet.trans hsame).trans (quiet_outside _ _)⟩
      · rw [hmade]
        rw [hquiet.events] at hfresh hevents
        exact .inr ⟨code, handle, w₂, rfl, hfresh, hshaders.trans hquiet.shaders, hevents⟩

theorem load_cases (env : Surroundings ρ) (path : Bytes) (w : CacheWorld ρ) :
    (∃ shader, w.shaders.get? (Path.key path) = some shader ∧
      load env.host path w = (.ok shader, w)) ∨
    (∃ e w', load env.host path w = (.error e, w') ∧ w.Same w') ∨
    ∃ code handle w', w.shaders.get? (Path.key path) = none ∧
      load env.host path w = (.ok ⟨path, code, handle⟩, w') ∧ handle ∉ liveHandles w.events ∧
      w'.shaders = w.shaders.insert (Path.key path) ⟨path, code, handle⟩ ∧
      w'.events = w.events ++ [.created handle] := by
  unfold load
  rw [bind_run, lookup_run]
  cases hfound : w.shaders.get? (Path.key path) with
  | some shader => exact .inl ⟨shader, rfl, rfl⟩
  | none =>
    dsimp only
    rw [bind_run]
    rcases build_cases env path w with
      ⟨e, w₁, hbuilt, hsame⟩ | ⟨code, handle, w₁, hbuilt, hfresh, hshaders, hevents⟩
    · rw [hbuilt]
      exact .inr (.inl ⟨e, w₁, rfl, hsame⟩)
    · rw [hbuilt]
      dsimp only
      -- Nothing else runs in between, so the shader is still missing.
      rw [bind_run, lookup_run, hshaders, hfound]
      refine .inr (.inr ⟨code, handle, _, rfl, rfl, hfresh, ?_, hevents⟩)
      exact congrArg (fun shaders : LoadedShaders => shaders.insert _ _) hshaders

theorem reload_cases (env : Surroundings ρ) (path : Bytes) (w : CacheWorld ρ) :
    (∃ e w', reload env.host path w = (.error e, w') ∧ w.Same w') ∨
    ∃ shader code handle w', w.shaders.get? (Path.key path) = some shader ∧
      reload env.host path w = (.ok (), w') ∧ handle ∉ liveHandles w.events ∧
      w'.shaders = w.shaders.insert (Path.key path) { shader with code, handle } ∧
      w'.events = w.events ++ [.created handle] ++ [.destroyed shader.handle] := by
  unfold reload
  rw [bind_run, lookup_run]
  cases hfound : w.shaders.get? (Path.key path) with
  | none => exact .inl ⟨_, w, rfl, .refl w⟩
  | some shader =>
    dsimp only
    rw [bind_run]
    rcases build_cases env path w with
      ⟨e, w₁, hbuilt, hsame⟩ | ⟨code, handle, w₁, hbuilt, hfresh, hshaders, hevents⟩
    · rw [hbuilt]
      exact .inl ⟨e, w₁, rfl, hsame⟩
    · rw [hbuilt]
      dsimp only
      rw [bind_run, lookup_run, hshaders, hfound]
      refine .inr ⟨shader, code, handle, _, rfl, rfl, hfresh, ?_, ?_⟩
      · exact congrArg (fun shaders : LoadedShaders => shaders.insert _ _) hshaders
      · exact congrArg (· ++ [DeviceEvent.destroyed shader.handle]) hevents

theorem destroy_each (env : Surroundings ρ) (entries : List (Bytes × LoadedShader))
    (w : CacheWorld ρ) (hdisciplined : Disciplined w.events)
    (hperm : (liveHandles w.events).Perm (entries.map (·.2.handle))) :
    ∃ w', (entries.forM fun (_, shader) => env.host.destroy shader.handle) w = ((), w') ∧
      w'.shaders = w.shaders ∧ liveHandles w'.events = [] ∧ Disciplined w'.events := by
  induction entries generalizing w with
  | nil => exact ⟨w, rfl, rfl, hperm.eq_nil, hdisciplined⟩
  | cons entry rest ih =>
    have hlive : entry.2.handle ∈ liveHandles w.events :=
      hperm.mem_iff.mpr mem_cons_self
    obtain ⟨w', hrun, hshaders, hdead, hdisciplined'⟩ :=
      ih (env.host.destroy entry.2.handle w).2 (.destroyed hdisciplined hlive) (by
        change (liveHandles (w.events ++ [.destroyed entry.2.handle])).Perm _
        rw [liveHandles_destroyed]
        simpa using hperm.erase entry.2.handle)
    exact ⟨w', hrun, hshaders, hdead, hdisciplined'⟩

theorem close_owned (env : Surroundings ρ) (h : w.Owned) :
    (close env.host w).2.Owned ∧ (close env.host w).2.shaders.entries = [] ∧
      liveHandles (close env.host w).2.events = [] := by
  obtain ⟨w', hrun, hshaders, hdead, hdisciplined⟩ :=
    destroy_each env w.shaders.entries { w with shaders := {} } h.disciplined h.handles
  have hclose : close env.host w = ((), w') := hrun
  rw [hclose]
  have hempty : w'.shaders.entries = [] := congrArg entries hshaders
  refine ⟨⟨?_, ?_, ?_, hdisciplined⟩, hempty, hdead⟩
  · unfold Keyed
    simp [hempty]
  · simp [hempty]
  · simp [handles, hempty, hdead]

/-- Paths are loaded one after the other, each successfully. -/
inductive Loads (env : Surroundings ρ) : List Bytes → CacheWorld ρ → CacheWorld ρ → Prop
  | done (w : CacheWorld ρ) : Loads env [] w w
  | next {path : Bytes} {rest : List Bytes} {shader : LoadedShader} {w w' w'' : CacheWorld ρ} :
      load env.host path w = (.ok shader, w') → Loads env rest w' w'' →
      Loads env (path :: rest) w w''

theorem loadEach_cases (env : Surroundings ρ) (paths : List Bytes) (w : CacheWorld ρ) :
    (∃ w', loadEach env.host paths w = (.ok (), w') ∧ Loads env paths w w') ∨
    ∃ before path after w₁ e w', paths = before ++ path :: after ∧ Loads env before w w₁ ∧
      load env.host path w₁ = (.error e, w') ∧ loadEach env.host paths w = (.error e, w') := by
  induction paths generalizing w with
  | nil => exact .inl ⟨w, rfl, .done w⟩
  | cons path rest ih =>
    cases hload : load env.host path w with
    | mk result w₁ =>
      cases result with
      | error e =>
        have hstop : loadEach env.host (path :: rest) w = (.error e, w₁) := by
          rw [loadEach, bind_run, hload]
          rfl
        exact .inr ⟨[], path, rest, w, e, w₁, rfl, .done w, hload, hstop⟩
      | ok shader =>
        have hnext : loadEach env.host (path :: rest) w = loadEach env.host rest w₁ := by
          rw [loadEach, bind_run, hload]
        rw [hnext]
        rcases ih w₁ with ⟨w', hrun, hloads⟩ |
          ⟨before, path', after, w₂, e, w', rfl, hloads, hstop⟩
        · exact .inl ⟨w', hrun, .next hload hloads⟩
        · exact .inr ⟨path :: before, path', after, w₂, e, w', rfl, .next hload hloads, hstop⟩

theorem load_owned (env : Surroundings ρ) (path : Bytes) (h : w.Owned) :
    (load env.host path w).2.Owned := by
  rcases load_cases env path w with ⟨shader, -, hrun⟩ | ⟨e, w', hrun, hsame⟩ |
    ⟨code, handle, w', hnone, hrun, hfresh, hshaders, hevents⟩
  · rw [hrun]
    exact h
  · rw [hrun]
    exact h.same hsame
  · rw [hrun]
    exact h.create hnone hfresh hshaders hevents

theorem reload_owned (env : Surroundings ρ) (path : Bytes) (h : w.Owned) :
    (reload env.host path w).2.Owned := by
  rcases reload_cases env path w with ⟨e, w', hrun, hsame⟩ |
    ⟨shader, code, handle, w', hsome, hrun, hfresh, hshaders, hevents⟩
  · rw [hrun]
    exact h.same hsame
  · rw [hrun]
    exact h.replace hsome hfresh hshaders hevents

theorem Loads.owned {paths : List Bytes} (hloads : Loads env paths w w') (h : w.Owned) :
    w'.Owned := by
  induction hloads with
  | done => exact h
  | @next path rest shader w w₁ w₂ hload _ ih =>
    apply ih
    have howned := load_owned env path h
    rwa [hload] at howned

theorem loadEach_owned (env : Surroundings ρ) (paths : List Bytes) (h : w.Owned) :
    (loadEach env.host paths w).2.Owned := by
  rcases loadEach_cases env paths w with ⟨w', hrun, hloads⟩ |
    ⟨before, path, after, w₁, e, w', -, hloads, hload, hrun⟩
  · rw [hrun]
    exact hloads.owned h
  · have howned := load_owned env path (hloads.owned h)
    rw [hload] at howned
    rw [hrun]
    exact howned

theorem loadAll_owned (env : Surroundings ρ) (canceled : Bool) (paths : List Bytes) (h : w.Owned) :
    (loadAll env.host canceled paths w).2.Owned := by
  unfold loadAll
  split
  · exact h
  · exact loadEach_owned env paths h

end ShaderCache

inductive CacheCall (ρ : Type) where
  | load (path : Bytes)
  | lookup (path : Bytes)
  | reload (path : Bytes)
  | loadAll (canceled : Bool) (paths : List Bytes)
  | close
  | change (outside : ρ → ρ)

def CacheCall.after (env : Surroundings ρ) (w : CacheWorld ρ) : CacheCall ρ → CacheWorld ρ
  | .load path => (ShaderCache.load env.host path w).2
  | .lookup path => ((ShaderCache.lookup path : StateM (CacheWorld ρ) _) w).2
  | .reload path => (ShaderCache.reload env.host path w).2
  | .loadAll canceled paths => (ShaderCache.loadAll env.host canceled paths w).2
  | .close => (ShaderCache.close env.host w).2
  | .change outside => { w with rest := outside w.rest }

/-- The worlds that calls lead to from an empty cache. -/
inductive CacheWorld.Reached (env : Surroundings ρ) : CacheWorld ρ → Prop
  | start (rest : ρ) : Reached env { rest }
  | call {w : CacheWorld ρ} (call : CacheCall ρ) : w.Reached env → Reached env (call.after env w)

namespace CacheWorld.Reached

open ShaderCache

variable {env : Surroundings ρ} {w : CacheWorld ρ}

theorem owned (h : w.Reached env) : w.Owned := by
  induction h with
  | start rest => exact ⟨nodup_nil, nofun, .refl _, .nil⟩
  | @call w call _ ih =>
    cases call with
    | load path => exact load_owned env path ih
    | lookup path => exact ih
    | reload path => exact reload_owned env path ih
    | loadAll canceled paths =>
      exact loadAll_owned env canceled paths ih
    | close => exact (close_owned env ih).1
    | change outside => exact ih.same ⟨rfl, rfl⟩

theorem calls (h : w.Reached env) (calls : List (CacheCall ρ)) :
    (calls.foldl (CacheCall.after env) w).Reached env := by
  induction calls generalizing w with
  | nil => exact h
  | cons call rest ih => exact ih (h.call call)

end CacheWorld.Reached

end Shading
