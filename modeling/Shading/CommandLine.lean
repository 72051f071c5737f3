import Shading.CommandLine.Invocation
import Shading.CommandLine.Palette
import Shading.CommandLine.TokenTable
import Shading.Compile
import Shading.DiskCache
import Shading.Settings

/-!
The command line: it reads settings, compiles files, lists binaries and tokens,
and reports what goes wrong. What it uses of its surroundings is a record of
operations and facts.
-/

namespace Shading

open Text

structure System (m : Type → Type) where
  files : Files m
  writeOutput : Bytes → m Unit
  writeError : Bytes → m Unit
  logStamp : m Bytes
  environment : Environment
  workingDirectory : Bytes
  platform : Bytes
  hasTerminal : Bool

namespace CommandLine

variable {m : Type → Type} [Monad m]

def versionNumber : Bytes := utf8 "0.1.0-dev"

def usageText : Bytes :=
  utf8 ("beansc compiles Beans Shading Language source into SPIR-V binaries\n\n" ++
    "Usage:\n" ++
    "  beansc compile [-o file] [--clean] file.bsl...\n" ++
    "  beansc dis file.spv|file.bsl\n" ++
    "  beansc tokens file.bsl\n" ++
    "  beansc version\n\n" ++
    "Flags:\n" ++
    "      --color string    colorize output (auto|on|off)\n" ++
    "      --config string   path to beans.toml (default: search upwards)\n" ++
    "  -h, --help            help for beansc\n" ++
    "  -v, --verbose         log debug output\n" ++
    "      --version         version for beansc\n")

structure Session (m : Type → Type) where
  system : System m
  settings : Settings
  colored : Bool
  level : LogLevel

inductive Failure where
  | told
  | untold (message : Bytes)
  deriving DecidableEq, Repr

inductive InputError where
  | file (e : FileError)
  | compile (source : Bytes) (e : CompileError)
  deriving DecidableEq, Repr

namespace Session

def log (s : Session m) (r : LogRecord) : m Unit := do
  if s.level.rank ≤ r.level.rank then
    s.system.writeError ((← s.system.logStamp) ++ r.line)

def writeMessage (s : Session m) (message : Bytes) : m Unit :=
  s.system.writeError (errorLabel s.colored ++ utf8 " " ++ message ++ utf8 "\n")

def sourceText (path : Bytes) (r : Report) : Bytes :=
  let text := (after? (utf8 "error: ") r.context).getD r.context
  let text := replaceFirst (utf8 "  --> line ") (utf8 "  --> " ++ path ++ utf8 ":") text
  if text.getLast? = some (byte '\n') then text else text ++ utf8 "\n"

def reportSource (s : Session m) (path source : Bytes) (d : Diagnostic) : m Unit :=
  s.system.writeError (errorLabel s.colored ++ utf8 " " ++ sourceText path (d.report source))

def report (s : Session m) (path : Bytes) : InputError → m Unit
  | .file e => s.writeMessage e.message
  | .compile source (.refused d) => s.reportSource path source d
  | .compile source e => s.writeMessage (e.message source)

def diskCache? (s : Session m) : m (Option DiskCache) := do
  let directory := s.settings.cache.directory
  if s.settings.cache.enabled && directory ≠ [] then
    match ← DiskCache.create s.system.files directory with
    | .ok disk => do
      s.log ⟨.debug, "using disk cache", [("dir", .text directory)]⟩
      pure (some disk)
    | .error e => do
      s.log ⟨.warn, "disk cache unavailable",
        [("dir", .text directory), ("error", .failure (.file e))]⟩
      pure none
  else pure none

def cleanCache (s : Session m) : Option DiskCache → m (Except Failure Unit)
  | none => do
    s.log ⟨.warn, "--clean ignored, disk cache is disabled", []⟩
    pure (.ok ())
  | some disk => do
    match ← disk.clear s.system.files with
    | .ok _ => pure (.ok ())
    | .error e =>
      pure (.error (.untold
        (utf8 "failed to clean disk cache " ++ disk.directory ++ utf8 ": " ++ e.message)))

def cached? (s : Session m) (disk : Option DiskCache) (source : Bytes) : m (Option Bytes) := do
  match disk with
  | none => pure none
  | some disk =>
    match ← disk.get s.system.files (cacheKey source s.settings.limits) with
    | .ok code => pure code
    | .error _ => pure none

def keep (s : Session m) (disk : Option DiskCache) (input source code : Bytes) : m Unit := do
  if let some disk := disk then
    let key := cacheKey source s.settings.limits
    if let .error e ← disk.put s.system.files key (some code) then
      s.log ⟨.warn, "disk cache write failed",
        [("input", .text input), ("error", .failure (.file e))]⟩

def compileSource (s : Session m) (disk : Option DiskCache) (input target source : Bytes) :
    m (Except InputError Unit) := do
  match compile source s.settings.limits with
  | .error e => pure (.error (.compile source e))
  | .ok code => do
    s.keep disk input source code
    match ← s.system.files.write target code with
    | .error e => pure (.error (.file e))
    | .ok _ => do
      s.log ⟨.debug, "compiled",
        [("input", .text input), ("output", .text target), ("bytes", .number code.length)]⟩
      pure (.ok ())

def compileFile (s : Session m) (disk : Option DiskCache) (input target : Bytes) :
    m (Except InputError Unit) := do
  match ← s.system.files.read input with
  | .error e => pure (.error (.file e))
  | .ok source =>
    match ← s.cached? disk source with
    | some code => do
      s.log ⟨.debug, "disk cache hit", [("input", .text input)]⟩
      pure ((← s.system.files.write target code).mapError .file)
    | none => s.compileSource disk input target source

def targetOf (input : Bytes) : Bytes := Path.withExtension input (utf8 ".spv")

def compileEach (s : Session m) (disk : Option DiskCache) (output : Bytes) (inputs : List Bytes) :
    m (List (Bytes × InputError)) := do
  let results ← inputs.mapM fun input => do
    match ← s.compileFile disk input (if output = [] then targetOf input else output) with
    | .ok _ => pure []
    | .error e => pure [(input, e)]
  pure results.flatten

def compileAll (s : Session m) (o : Options) : m (Except Failure Unit) := do
  if o.output ≠ [] && 1 < o.words.length then
    pure (.error (.untold (utf8 "-o needs exactly one input, got " ++ decimal o.words.length)))
  else do
    let disk ← s.diskCache?
    match ← if o.clean then s.cleanCache disk else pure (.ok ()) with
    | .error e => pure (.error e)
    | .ok _ => do
      let errors ← s.compileEach disk o.output o.words
      errors.forM fun (input, e) => s.report input e
      pure (if errors = [] then .ok () else .error .told)

def listBinary (s : Session m) (binary : Bytes) : m (Except Failure Unit) := do
  match Binary.listing binary with
  | .ok text => do
    s.system.writeOutput text
    pure (.ok ())
  | .error e => pure (.error (.untold e.message))

def listFile (s : Session m) (path : Bytes) : m (Except Failure Unit) := do
  match ← s.system.files.read path with
  | .error e => pure (.error (.untold e.message))
  | .ok content =>
    if Path.extension path = utf8 ".bsl" then
      match compile content s.settings.limits with
      | .ok binary => s.listBinary binary
      | .error e => do
        s.report path (.compile content e)
        pure (.error .told)
    else s.listBinary content

def listTokens (s : Session m) (path : Bytes) : m (Except Failure Unit) := do
  match ← s.system.files.read path with
  | .error e => pure (.error (.untold e.message))
  | .ok source => do
    let tokens := Tokens.ofSource source
    s.system.writeOutput (tokenTable tokens.toList)
    match tokens.ending with
    | .ok _ => pure (.ok ())
    | .error d => do
      s.reportSource path source d
      pure (.error .told)

def showVersion (s : Session m) : m (Except Failure Unit) := do
  s.system.writeOutput (programName ++ utf8 " " ++ paintVersion s.colored versionNumber ++
    utf8 " (" ++ s.system.platform ++ utf8 ")\n")
  pure (.ok ())

def perform (s : Session m) (command : Command) (o : Options) : m (Except Failure Unit) :=
  match command with
  | .compile => s.compileAll o
  | .listing => s.listFile (o.words.headD [])
  | .tokens => s.listTokens (o.words.headD [])
  | .version => s.showVersion
  | .help | .completion => do
    s.system.writeOutput usageText
    pure (.ok ())

end Session

def usesColor (settings : Settings) (hasTerminal : Bool) : Bool :=
  if settings.color = utf8 "on" then true
  else if settings.color = utf8 "off" then false
  else hasTerminal

def withColor (settings : Settings) : Option Bytes → Except SettingsError Settings
  | none => .ok settings
  | some color =>
    let settings := { settings with color }
    match settings.invalid? with
    | some why => .error (.invalid [] why)
    | none => .ok settings

def settingsPath (system : System m) (o : Options) : m (Except SettingsError Bytes) := do
  if o.config ≠ [] then pure (.ok o.config)
  else do
    let found ← Settings.find system.files system.workingDirectory (utf8 ".")
    pure (found.map fun path => path.getD [])

def start (system : System m) (o : Options) : m (Except SettingsError (Session m)) := do
  match ← settingsPath system o with
  | .error e => pure (.error e)
  | .ok path =>
    match (← Settings.load system.files system.environment path).bind (withColor · o.color) with
    | .error e => pure (.error e)
    | .ok settings => do
      let colored := usesColor settings system.hasTerminal
      let s : Session m := ⟨system, settings, colored, if o.verbose then .debug else .info⟩
      if path ≠ [] then
        s.log ⟨.debug, "loaded configuration", [("path", .text path)]⟩
      pure (.ok s)

def writePlain (system : System m) (message : Bytes) : m Unit :=
  system.writeError (errorLabel false ++ utf8 " " ++ message ++ utf8 "\n")

def run (system : System m) (words : List Bytes) : m UInt32 := do
  match Invocation.ofWords words with
  | .error e => do
    writePlain system e.message
    pure 1
  | .ok .usage => do
    system.writeOutput usageText
    pure 0
  | .ok .versionNumber => do
    system.writeOutput (programName ++ utf8 " version " ++ versionNumber ++ utf8 "\n")
    pure 0
  | .ok (.run command o) =>
    match ← start system o with
    | .error e => do
      writePlain system e.message
      pure 1
    | .ok s =>
      match ← s.perform command o with
      | .ok _ => pure 0
      | .error .told => pure 1
      | .error (.untold message) => do
        s.writeMessage message
        pure 1

end CommandLine

end Shading
