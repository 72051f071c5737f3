import Shading.Text.Basic

/-!
Operation codes of the binary format. A code is any 16-bit number; those that
the compiler writes or the listing lays out specially have names.
-/

namespace Shading.Binary

structure Opcode where
  code : UInt16
  deriving DecidableEq, Repr

namespace Opcode

@[match_pattern] abbrev nop : Opcode := ⟨0⟩
@[match_pattern] abbrev source : Opcode := ⟨3⟩
@[match_pattern] abbrev name : Opcode := ⟨5⟩
@[match_pattern] abbrev memberName : Opcode := ⟨6⟩
@[match_pattern] abbrev string : Opcode := ⟨7⟩
@[match_pattern] abbrev extension : Opcode := ⟨10⟩
@[match_pattern] abbrev extInstImport : Opcode := ⟨11⟩
@[match_pattern] abbrev extInst : Opcode := ⟨12⟩
@[match_pattern] abbrev memoryModel : Opcode := ⟨14⟩
@[match_pattern] abbrev entryPoint : Opcode := ⟨15⟩
@[match_pattern] abbrev executionMode : Opcode := ⟨16⟩
@[match_pattern] abbrev capability : Opcode := ⟨17⟩
@[match_pattern] abbrev typeVoid : Opcode := ⟨19⟩
@[match_pattern] abbrev typeBool : Opcode := ⟨20⟩
@[match_pattern] abbrev typeInt : Opcode := ⟨21⟩
@[match_pattern] abbrev typeFloat : Opcode := ⟨22⟩
@[match_pattern] abbrev typeVector : Opcode := ⟨23⟩
@[match_pattern] abbrev typeStruct : Opcode := ⟨30⟩
@[match_pattern] abbrev typePointer : Opcode := ⟨32⟩
@[match_pattern] abbrev typeFunction : Opcode := ⟨33⟩
@[match_pattern] abbrev constant : Opcode := ⟨43⟩
@[match_pattern] abbrev constantComposite : Opcode := ⟨44⟩
@[match_pattern] abbrev function : Opcode := ⟨54⟩
@[match_pattern] abbrev functionParameter : Opcode := ⟨55⟩
@[match_pattern] abbrev functionEnd : Opcode := ⟨56⟩
@[match_pattern] abbrev var : Opcode := ⟨59⟩
@[match_pattern] abbrev load : Opcode := ⟨61⟩
@[match_pattern] abbrev store : Opcode := ⟨62⟩
@[match_pattern] abbrev accessChain : Opcode := ⟨65⟩
@[match_pattern] abbrev decorate : Opcode := ⟨71⟩
@[match_pattern] abbrev memberDecorate : Opcode := ⟨72⟩
@[match_pattern] abbrev compositeConstruct : Opcode := ⟨80⟩
@[match_pattern] abbrev compositeExtract : Opcode := ⟨81⟩
@[match_pattern] abbrev iAdd : Opcode := ⟨128⟩
@[match_pattern] abbrev fAdd : Opcode := ⟨129⟩
@[match_pattern] abbrev iSub : Opcode := ⟨130⟩
@[match_pattern] abbrev fSub : Opcode := ⟨131⟩
@[match_pattern] abbrev iMul : Opcode := ⟨132⟩
@[match_pattern] abbrev fMul : Opcode := ⟨133⟩
@[match_pattern] abbrev uDiv : Opcode := ⟨134⟩
@[match_pattern] abbrev sDiv : Opcode := ⟨135⟩
@[match_pattern] abbrev fDiv : Opcode := ⟨136⟩
@[match_pattern] abbrev vectorTimesScalar : Opcode := ⟨142⟩
@[match_pattern] abbrev label : Opcode := ⟨248⟩
@[match_pattern] abbrev branch : Opcode := ⟨249⟩
@[match_pattern] abbrev exit : Opcode := ⟨253⟩
@[match_pattern] abbrev exitValue : Opcode := ⟨254⟩

def named : List (Opcode × String) := [
  (nop, "OpNop"),
  (source, "OpSource"),
  (name, "OpName"),
  (memberName, "OpMemberName"),
  (string, "OpString"),
  (extension, "OpExtension"),
  (extInstImport, "OpExtInstImport"),
  (extInst, "OpExtInst"),
  (memoryModel, "OpMemoryModel"),
  (entryPoint, "OpEntryPoint"),
  (executionMode, "OpExecutionMode"),
  (capability, "OpCapability"),
  (typeVoid, "OpTypeVoid"),
  (typeBool, "OpTypeBool"),
  (typeInt, "OpTypeInt"),
  (typeFloat, "OpTypeFloat"),
  (typeVector, "OpTypeVector"),
  (typeStruct, "OpTypeStruct"),
  (typePointer, "OpTypePointer"),
  (typeFunction, "OpTypeFunction"),
  (constant, "OpConstant"),
  (constantComposite, "OpConstantComposite"),
  (function, "OpFunction"),
  (functionParameter, "OpFunctionParameter"),
  (functionEnd, "OpFunctionEnd"),
  (var, "OpVariable"),
  (load, "OpLoad"),
  (store, "OpStore"),
  (accessChain, "OpAccessChain"),
  (decorate, "OpDecorate"),
  (memberDecorate, "OpMemberDecorate"),
  (compositeConstruct, "OpCompositeConstruct"),
  (compositeExtract, "OpCompositeExtract"),
  (iAdd, "OpIAdd"),
  (fAdd, "OpFAdd"),
  (iSub, "OpISub"),
  (fSub, "OpFSub"),
  (iMul, "OpIMul"),
  (fMul, "OpFMul"),
  (uDiv, "OpUDiv"),
  (sDiv, "OpSDiv"),
  (fDiv, "OpFDiv"),
  (vectorTimesScalar, "OpVectorTimesScalar"),
  (label, "OpLabel"),
  (branch, "OpBranch"),
  (exit, "OpReturn"),
  (exitValue, "OpReturnValue")]

def title (op : Opcode) : Bytes :=
  match named.find? fun entry => entry.1 = op with
  | some entry => Text.utf8 entry.2
  | none => Text.utf8 "Op" ++ Text.decimal op.code.toNat

end Opcode

end Shading.Binary
