import Shading.Binary.Listing
import Shading.Elaborate.Items
import Shading.Program.Assemble
import Shading.Syntax.Reader

/-!
Compilation: from a source to a program, to the binary of the program, and to
the listing of that binary.
-/

namespace Shading

inductive CompileError where
  | limit (e : Exhausted)
  | refused (why : Diagnostic)
  | fault (f : Fault)
  | assembly (e : AssembleError)
  | listing (e : Binary.DecodeError)
  deriving DecidableEq, Repr

def CompileError.message (source : Bytes) : CompileError → Bytes
  | .limit e => e.message
  | .refused why => (why.report source).text
  | .fault f => f.message
  | .assembly e => e.message
  | .listing e => e.message

/-- What is left of an elaboration once it has ended. -/
def Program.ofOutcome : Except Stop (Unit × Elaboration) → Except CompileError Program
  | .ok (_, state) => .ok state.program
  | .error (.refused why) => .error (.refused why)
  | .error (.fault f) => .error (.fault f)

def Program.ofSource (source : Bytes) (limits : Limits) : Except CompileError Program :=
  match Program.new limits with
  | .error e => .error (.limit e)
  | .ok program =>
    Program.ofOutcome ((Elaborate.sourceTree (.ofSource source)).run (.ofProgram program))

def compile (source : Bytes) (limits : Limits) : Except CompileError Bytes := do
  match (← Program.ofSource source limits).assemble with
  | .ok binary => pure binary
  | .error e => .error (.assembly e)

def compileListing (source : Bytes) (limits : Limits) : Except CompileError Bytes := do
  match Binary.listing (← compile source limits) with
  | .ok text => pure text
  | .error e => .error (.listing e)

end Shading
