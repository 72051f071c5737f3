import Shading.Binary.Decode
import Shading.Binary.Sink
import Shading.Program.Types

/-!
Assembling a program into a binary: the header and the instructions of every
section in the order of the format. An instruction with more words than its
first word can tell is refused. A program is visited twice, once to count its
words and once to write them into a buffer of that many words.
-/

namespace Shading

open Binary (Instruction Opcode)

namespace StorageClass

def binaryCode : StorageClass → UInt32
  | .input => 1
  | .output => 3
  | .function => 7
  | _ => 6

end StorageClass

namespace Stage

def executionModel : Stage → UInt32
  | .fragment => 4
  | _ => 0

end Stage

namespace Builtin

def binaryCode? : Builtin → Option UInt32
  | .position => some 0
  | _ => none

end Builtin

inductive AssembleError where
  | outOfRange
  | oversized (op : Opcode) (wordCount : Nat)
  | miscounted (packed counted : Nat)
  deriving DecidableEq, Repr

open Text in
def AssembleError.message : AssembleError → Bytes
  | .outOfRange => []
  | .oversized op wordCount =>
    utf8 "SPIR-V generation error: spirv: " ++ op.title ++ utf8 " needs " ++ decimal wordCount ++
      utf8 " words, at most " ++ decimal Binary.maxInstructionWords ++ utf8 " fit"
  | .miscounted packed counted =>
    utf8 "SPIR-V generation error: spirv: packed " ++ decimal packed ++
      utf8 " bytes but counted " ++
      decimal counted

structure Walk (σ : Type) where
  out : σ
  failure : Option AssembleError

def Walk.send {σ : Type} (sink : Binary.Sink σ) (walk : Walk σ) (i : Instruction) : Walk σ :=
  match walk.failure with
  | some _ => walk
  | none =>
    if i.isEncodable then { walk with out := sink.words (sink.word walk.out i.header) i.operands }
    else { walk with failure := some (.oversized i.opcode i.wordCount) }

abbrev Visit (σ : Type) := StateT (Walk σ) (Except Fault)

namespace Visit

variable {σ : Type}

def instruction (sink : Binary.Sink σ) (i : Instruction) : Visit σ Unit :=
  modify fun walk => walk.send sink i

def raw (sink : Binary.Sink σ) (words : List UInt32) : Visit σ Unit :=
  modify fun walk => { walk with out := sink.words walk.out words }

def header (sink : Binary.Sink σ) (header : Binary.Header) : Visit σ Unit :=
  modify fun walk => { walk with out := header.words.foldl sink.word walk.out }

end Visit

namespace Program

def formatVersion : UInt32 := 0x00010000

def extendedSetName : Bytes := Text.utf8 "GLSL.std.450"

def header (p : Program) : Binary.Header := ⟨Binary.magic, formatVersion, 0, p.nextId, 0⟩

def capabilities (p : Program) : List Instruction :=
  ⟨.capability, [1]⟩ :: if p.hasScalar .f64 then [⟨.capability, [10]⟩] else []

def preamble : List Instruction :=
  [⟨.extInstImport, extendedSetId :: Binary.packString extendedSetName⟩, ⟨.memoryModel, [0, 1]⟩]

def entryPoint (p : Program) (entry : EntryPoint) : Except Fault Instruction := do
  let procedure ← p.procedureAt entry.procedure
  let interface ← procedure.interface.toList.mapM fun ref => (p.globalAt ref).map (·.id)
  pure ⟨.entryPoint, entry.stage.executionModel :: procedure.id ::
    (Binary.packString entry.name ++ interface)⟩

def executionMode (p : Program) (entry : EntryPoint) : Except Fault (List Instruction) := do
  if entry.stage = .fragment then
    pure [⟨.executionMode, [(← p.procedureAt entry.procedure).id, 7]⟩]
  else pure []

def globalDecorations (g : Global) : List Instruction :=
  (match g.location with
    | some location =>
      if g.direction.isInterface then [⟨.decorate, [g.id, 30, location]⟩] else []
    | none => []) ++
  (match g.builtin.binaryCode? with
    | some code => [⟨.decorate, [g.id, 11, code]⟩]
    | none => [])

def memberDecorations (t : TypeEntry) : List Instruction :=
  match t.shape with
  | .record members =>
    members.zipIdx.filterMap fun (member, index) =>
      member.builtin.binaryCode?.map fun code =>
        ⟨.memberDecorate, [t.id, index.toUInt32, 11, code]⟩
  | _ => []

def typeDeclaration (p : Program) (t : TypeEntry) : Except Fault Instruction :=
  match t.shape with
  | .void => .ok ⟨.typeVoid, [t.id]⟩
  | .scalar .bool => .ok ⟨.typeBool, [t.id]⟩
  | .scalar .f32 => .ok ⟨.typeFloat, [t.id, 32]⟩
  | .scalar .f64 => .ok ⟨.typeFloat, [t.id, 64]⟩
  | .scalar .i32 => .ok ⟨.typeInt, [t.id, 32, 1]⟩
  | .scalar .u32 => .ok ⟨.typeInt, [t.id, 32, 0]⟩
  | .vector component size => do pure ⟨.typeVector, [t.id, ← p.typeId component, size]⟩
  | .pointer base storage => do
    pure ⟨.typePointer, [t.id, storage.binaryCode, ← p.typeId base]⟩
  | .procedure result => do pure ⟨.typeFunction, [t.id, ← p.typeId result]⟩
  | .record members => do
    pure ⟨.typeStruct, t.id :: (← members.mapM fun m => p.typeId m.type)⟩

def globalDeclaration (p : Program) (g : Global) : Except Fault Instruction := do
  pure ⟨.var, [← p.typeId g.pointer, g.id, g.direction.storageClass.binaryCode]⟩

def constantDeclaration (p : Program) (c : Constant) : Except Fault Instruction := do
  pure ⟨.constant, [← p.typeId c.type, c.id, c.bits]⟩

def visitFunction {σ : Type} (p : Program) (sink : Binary.Sink σ) (procedure : Procedure) :
    Visit σ Unit := do
  let result ← p.typeId procedure.result
  let type ← p.typeId procedure.type
  Visit.instruction sink ⟨.function, [result, procedure.id, 0, type]⟩
  Visit.instruction sink ⟨.label, [procedure.label]⟩
  Visit.raw sink (Binary.wordsOf procedure.locals.toList)
  Visit.raw sink (Binary.wordsOf procedure.body.toList)
  Visit.instruction sink ⟨.functionEnd, []⟩

def visit {σ : Type} (p : Program) (sink : Binary.Sink σ) : Visit σ Unit := do
  Visit.header sink p.header
  p.capabilities.forM (Visit.instruction sink)
  preamble.forM (Visit.instruction sink)
  p.entryPoints.toList.forM fun entry => do Visit.instruction sink (← p.entryPoint entry)
  p.entryPoints.toList.forM fun entry => do
    (← p.executionMode entry).forM (Visit.instruction sink)
  p.globals.toList.forM fun g => (globalDecorations g).forM (Visit.instruction sink)
  p.types.toList.forM fun t => (memberDecorations t).forM (Visit.instruction sink)
  p.types.toList.forM fun t => do Visit.instruction sink (← p.typeDeclaration t)
  p.globals.toList.forM fun g => do Visit.instruction sink (← p.globalDeclaration g)
  p.constants.toList.forM fun c => do Visit.instruction sink (← p.constantDeclaration c)
  p.procedures.toList.forM (p.visitFunction sink)

def sendTo {σ : Type} (p : Program) (sink : Binary.Sink σ) (out : σ) : Except AssembleError σ :=
  match (p.visit sink).run ⟨out, none⟩ with
  | .error _ => .error .outOfRange
  | .ok ((), walk) =>
    match walk.failure with
    | some e => .error e
    | none => .ok walk.out

def assemble (p : Program) : Except AssembleError Bytes := do
  let count ← p.sendTo Binary.Sink.counter 0
  let buffer ← p.sendTo Binary.Sink.emitter (.ofSize (4 * count))
  if buffer.overflow || buffer.offset ≠ buffer.size then
    throw (.miscounted buffer.offset buffer.size)
  else pure buffer.bytes

end Program

end Shading
