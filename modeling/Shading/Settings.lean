import Shading.Files
import Shading.Limits
import Shading.Text.Quoted
import Shading.Toml.Document

/-!
Settings: the defaults, over them a TOML file, over that the environment. The
file is looked for from a directory upwards.
-/

namespace Shading

open Text

structure CacheSettings where
  enabled : Bool := false
  directory : Bytes := []
  deriving DecidableEq, Repr

structure Settings where
  color : Bytes := utf8 "auto"
  jobs : Int64 := 0
  cache : CacheSettings := {}
  limits : Limits := .default
  deriving DecidableEq, Repr

abbrev Environment := List (Bytes × Bytes)

def Environment.get (e : Environment) (name : String) : Bytes :=
  ((e.find? (·.1 = utf8 name)).map (·.2)).getD []

inductive InvalidSetting where
  | color (color : Bytes)
  | jobs (jobs : Int64)
  | words (words : Int64)
  deriving DecidableEq, Repr

def InvalidSetting.message : InvalidSetting → Bytes
  | .color c => utf8 "color must be \"auto\", \"on\" or \"off\", not " ++ quote c
  | .jobs n => utf8 "jobs must not be negative, got " ++ signed n.toInt
  | .words n => utf8 "limits.words must not be negative, got " ++ signed n.toInt

inductive SettingsError where
  | unreadable (path : Bytes) (e : FileError)
  | malformed (path : Bytes)
  | unknownKey (path : Bytes) (key : Toml.Key)
  | emptyDirectory (path : Bytes)
  | invalid (path : Bytes) (why : InvalidSetting)
  | search (candidate : Bytes) (e : FileError)
  deriving DecidableEq, Repr

def SettingsError.message : SettingsError → Bytes
  | .unreadable path e => path ++ utf8 ": failed to parse TOML: " ++ e.message
  | .malformed path => path ++ utf8 ": failed to parse TOML: toml: malformed document"
  | .unknownKey path key => path ++ utf8 ": unknown key " ++ Toml.keyText key
  | .emptyDirectory path => path ++ utf8 ": [cache].dir must not be empty"
  | .invalid path why => (if path = [] then [] else path ++ utf8 ": ") ++ why.message
  | .search candidate e => utf8 "failed to stat " ++ quote candidate ++ utf8 ": " ++ e.message

namespace Settings

def invalid? (s : Settings) : Option InvalidSetting :=
  if !(["auto", "on", "off"].any (utf8 · = s.color)) then some (.color s.color)
  else if s.jobs < 0 then some (.jobs s.jobs)
  else if s.limits.words < 0 then some (.words s.limits.words)
  else none

def withEnvironment (s : Settings) (e : Environment) : Settings :=
  let directory := e.get "BEANS_CACHE_DIR"
  let color := e.get "BEANS_COLOR"
  { s with
    cache := if directory = [] then s.cache else ⟨true, directory⟩
    color := if color = [] then s.color else color
    limits.words := (integer? (e.get "BEANS_MAX_WORDS")).getD s.limits.words }

def foldCase (c : Char) : Char :=
  if c.toNat = 0x17F then 's' else if c.toNat = 0x212A then 'k' else c.toLower

def names (key : Bytes) (setting : String) : Bool :=
  (pieces key).map foldPiece = setting.toList.map .char
where
  foldPiece : Piece → Piece
    | .char c => .char (foldCase c)
    | piece => piece

abbrev Setting := String × (Settings → Toml.Value → Option (Settings × List Toml.Key))

def textSetting (name : String) (put : Settings → Bytes → Settings) : Setting :=
  (name, fun s v => match v with
    | .text t => some (put s t, [])
    | _ => none)

def integerSetting (name : String) (put : Settings → Int64 → Settings) : Setting :=
  (name, fun s v => match v with
    | .integer n => some (put s n, [])
    | _ => none)

def booleanSetting (name : String) (put : Settings → Bool → Settings) : Setting :=
  (name, fun s v => match v with
    | .boolean b => some (put s b, [])
    | _ => none)

def takeEntries (settings : List Setting) : Settings → List Toml.Key → Toml.Table →
    Option (Settings × List Toml.Key)
  | s, taken, [] => some (s, taken)
  | s, taken, (key, value) :: rest =>
    match settings.find? fun setting => names key setting.1 with
    | none => takeEntries settings s taken rest
    | some (_, take) => do
      let (s, inner) ← take s value
      takeEntries settings s (taken ++ [key] :: inner.map (key :: ·)) rest

def tableSetting (name : String) (settings : List Setting) : Setting :=
  (name, fun s v => match v with
    | .table entries => takeEntries settings s [] entries
    | _ => none)

def cacheSettings : List Setting :=
  [booleanSetting "enabled" fun s b => { s with cache.enabled := b },
    textSetting "dir" fun s t => { s with cache.directory := t }]

def limitSettings : List Setting :=
  [integerSetting "types" fun s n => { s with limits.types := n },
    integerSetting "procedures" fun s n => { s with limits.procedures := n },
    integerSetting "entry_points" fun s n => { s with limits.entryPoints := n },
    integerSetting "globals" fun s n => { s with limits.globals := n },
    integerSetting "locals" fun s n => { s with limits.locals := n },
    integerSetting "expressions" fun s n => { s with limits.expressions := n },
    integerSetting "constants" fun s n => { s with limits.constants := n },
    integerSetting "interfaces" fun s n => { s with limits.interfaces := n },
    integerSetting "words" fun s n => { s with limits.words := n },
    integerSetting "scope_depth" fun s n => { s with limits.scopeDepth := n },
    integerSetting "record_members" fun s n => { s with limits.recordMembers := n },
    integerSetting "vector_elements" fun s n => { s with limits.vectorElements := n }]

def fileSettings : List Setting :=
  [textSetting "color" fun s t => { s with color := t },
    integerSetting "jobs" fun s n => { s with jobs := n },
    tableSetting "cache" cacheSettings,
    tableSetting "limits" limitSettings]

def isWhite (c : Char) : Bool :=
  let code := c.toNat
  (0x09 ≤ code && code ≤ 0x0D) || (0x2000 ≤ code && code ≤ 0x200A) ||
    [0x20, 0x85, 0xA0, 0x1680, 0x2028, 0x2029, 0x202F, 0x205F, 0x3000].contains code

def isWhiteText (text : Bytes) : Bool :=
  (pieces text).all fun
    | .char c => isWhite c
    | .stray _ => false

def resolveDirectory (s : Settings) (path : Bytes) : Settings :=
  if s.cache.directory = [] || Path.isAbsolute s.cache.directory then s
  else { s with cache.directory := Path.join [Path.directory path, s.cache.directory] }

def ofDocument (path : Bytes) (d : Toml.Document) : Except SettingsError Settings :=
  match takeEntries fileSettings {} [] d.root with
  | none => .error (.malformed path)
  | some (s, taken) =>
    match d.keys.find? (!taken.contains ·) with
    | some key => .error (.unknownKey path key)
    | none =>
      let hasDirectory := d.isDefined [utf8 "cache", utf8 "dir"]
      let hasEnabled := d.isDefined [utf8 "cache", utf8 "enabled"]
      if hasDirectory && isWhiteText s.cache.directory then .error (.emptyDirectory path)
      else
        let enabled := s.cache.enabled || (hasDirectory && !hasEnabled)
        .ok (resolveDirectory { s with cache.enabled := enabled } path)

def ofFile (path : Bytes) : Except FileError Bytes → Except SettingsError Settings
  | .error e => .error (.unreadable path e)
  | .ok content =>
    match Toml.Document.ofText? content with
    | none => .error (.malformed path)
    | some d => ofDocument path d

def load {m : Type → Type} [Monad m] (files : Files m) (environment : Environment)
    (path : Bytes) : m (Except SettingsError Settings) := do
  let base ← if path = [] then pure (.ok {}) else ofFile path <$> files.read path
  pure do
    let s := (← base).withEnvironment environment
    match s.invalid? with
    | some why => .error (.invalid path why)
    | none => .ok s

def fileName : Bytes := utf8 "beans.toml"

def findFrom {m : Type → Type} [Monad m] (files : Files m) :
    Nat → Bytes → m (Except SettingsError (Option Bytes))
  | 0, _ => pure (.ok none)
  | fuel + 1, directory => do
    let candidate := Path.join [directory, fileName]
    match ← files.inspect candidate with
    | .ok _ => pure (.ok (some candidate))
    | .error e =>
      if e.reason ≠ .absent then pure (.error (.search candidate e))
      else if Path.directory directory = directory then pure (.ok none)
      else findFrom files fuel (Path.directory directory)

def find {m : Type → Type} [Monad m] (files : Files m) (base start : Bytes) :
    m (Except SettingsError (Option Bytes)) :=
  let directory := Path.absolute base start
  findFrom files (directory.length + 1) directory

end Settings

end Shading
