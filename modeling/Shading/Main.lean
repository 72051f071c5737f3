import Shading.CommandLine
import Std.Time

/-!
The program: the command line on the files, streams and environment of the
system it runs on.
-/

namespace Shading.Host

open Text

def name (bytes : Bytes) : String := String.fromUTF8? ⟨bytes.toArray⟩ |>.getD ""

def reasonOf (e : IO.Error) : FileReason :=
  match e with
  | .noFileOrDirectory .. => .absent
  | .alreadyExists .. => .alreadyThere
  | .inappropriateType _ code _ => if code = 21 then .isDirectory else .notDirectory
  | .otherError code details => byCode code details
  | .noSuchThing _ code details | .invalidArgument _ code details => byCode code details
  | e => .other (utf8 (toString e))
where
  byCode (code : UInt32) (details : String) : FileReason :=
    if code = 2 then .absent
    else if code = 20 then .notDirectory
    else if code = 21 then .isDirectory
    else if code = 22 then .invalidName
    else if code = 36 then .nameTooLong
    else .other (utf8 details)

def attempt {α : Type} (action : FileAction) (path : Bytes) (operation : IO α) :
    IO (Except FileError α) := do
  try pure (.ok (← operation))
  catch e => pure (.error ⟨action, path, reasonOf e⟩)

def kindAt (path : Bytes) : IO IO.FS.FileType := do
  pure (← ((← IO.currentDir) / name path).metadata).type

def readFile (path : Bytes) : IO (Except FileError Bytes) := do
  match ← attempt .access path (kindAt path) with
  | .error e => pure (.error e)
  | .ok .dir => pure (.error ⟨.reading, path, .isDirectory⟩)
  | .ok _ => attempt .access path do pure (← IO.FS.readBinFile (name path)).data.toList

def createTemporary (directory : Bytes) : IO (Except FileError Bytes) := do
  let path := directory ++ utf8 "/tmp-" ++ decimal (← IO.monoNanosNow)
  attempt .access path do
    discard <| IO.FS.Handle.mk (name path) .writeNew
    pure path

def removeAt (path : Bytes) : IO (Except FileError Unit) := do
  match ← attempt .removal path (kindAt path) with
  | .error e => pure (if e.reason = .absent then .ok () else .error e)
  | .ok .dir => attempt .removal path (IO.FS.removeDirAll (name path))
  | .ok _ => attempt .removal path (IO.FS.removeFile (name path))

def files : Files IO where
  read := readFile
  write path content := attempt .access path (IO.FS.writeBinFile (name path) ⟨content.toArray⟩)
  createTemporary := createTemporary
  rename path target := attempt (.renaming target) path (IO.FS.rename (name path) (name target))
  makeDirectories path := do
    match ← attempt .creation path (kindAt path) with
    | .ok .dir => pure (.ok ())
    | .ok _ => pure (.error ⟨.creation, path, .notDirectory⟩)
    | .error _ => attempt .creation path (IO.FS.createDirAll (name path))
  remove := removeAt
  inspect path := attempt .inspection path (discard (kindAt path))

def logStamp : IO Bytes := do
  let now ← Std.Time.DateTime.now
  pure (utf8 "time=" ++ utf8 (now.format "uuuu-MM-dd'T'HH:mm:ss.SSSXXX") ++ utf8 " ")

def write (stream : IO.FS.Stream) (bytes : Bytes) : IO Unit := do
  stream.write ⟨bytes.toArray⟩
  stream.flush

def environment : IO Environment := do
  ["BEANS_CACHE_DIR", "BEANS_COLOR", "BEANS_MAX_WORDS"].mapM fun v => do
    pure (utf8 v, utf8 ((← IO.getEnv v).getD ""))

end Shading.Host

open Shading in
def main (words : List String) : IO UInt32 := do
  let output ← IO.getStdout
  let errors ← IO.getStderr
  let system : System IO :=
    { files := Host.files
      writeOutput := Host.write output
      writeError := Host.write errors
      logStamp := Host.logStamp
      environment := ← Host.environment
      workingDirectory := Text.utf8 (← IO.currentDir).toString
      platform := Text.utf8 "native"
      hasTerminal := ← errors.isTty }
  CommandLine.run system (words.map Text.utf8)
