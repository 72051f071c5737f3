import Shading.Binary.Decode
import Shading.Text.Quoted

/-!
Listings: a binary in assembly syntax, five header lines and one line per
instruction. Operands that a known operation gives a meaning are named; an
instruction with too few operands for its layout is listed like an unknown
one.
-/

namespace Shading.Binary

open Text

def nameOr (names : List (Nat × String)) (value : UInt32) : Bytes :=
  match names.find? fun entry => entry.1 = value.toNat with
  | some entry => utf8 entry.2
  | none => decimal value.toNat

def capabilityNames : List (Nat × String) :=
  [(0, "Matrix"), (1, "Shader"), (9, "Float16"), (10, "Float64"), (11, "Int64")]

def storageClassNames : List (Nat × String) :=
  [(0, "UniformConstant"), (1, "Input"), (2, "Uniform"), (3, "Output"), (4, "Workgroup"),
    (6, "Private"), (7, "Function"), (12, "StorageBuffer")]

def decorationNames : List (Nat × String) :=
  [(2, "Block"), (11, "BuiltIn"), (30, "Location"), (33, "Binding"), (34, "DescriptorSet"),
    (35, "Offset")]

def builtInNames : List (Nat × String) :=
  [(0, "Position"), (1, "PointSize"), (14, "FragCoord"), (22, "FragDepth"), (42, "VertexIndex"),
    (43, "InstanceIndex")]

def executionModeNames : List (Nat × String) :=
  [(7, "OriginUpperLeft"), (8, "OriginLowerLeft"), (17, "LocalSize")]

def executionModelNames : List (Nat × String) := [(0, "Vertex"), (4, "Fragment"), (5, "GLCompute")]

def addressingModelNames : List (Nat × String) :=
  [(0, "Logical"), (1, "Physical32"), (2, "Physical64")]

def memoryModelNames : List (Nat × String) :=
  [(0, "Simple"), (1, "GLSL450"), (2, "OpenCL"), (3, "Vulkan")]

def builtInDecoration : UInt32 := 11

def idText (id : UInt32) : Bytes := byte '%' :: decimal id.toNat

def idTexts (ids : List UInt32) : List Bytes := ids.map idText

def numberTexts (numbers : List UInt32) : List Bytes := numbers.map fun n => decimal n.toNat

def decorationTexts (decoration : UInt32) (rest : List UInt32) : List Bytes :=
  nameOr decorationNames decoration ::
    match rest with
    | [] => []
    | first :: _ =>
      if decoration = builtInDecoration then [nameOr builtInNames first] else numberTexts rest

namespace Instruction

def plainLine (i : Instruction) (operands : List Bytes) : Bytes :=
  blanks 15 ++ join (utf8 " ") (i.opcode.title :: operands)

def resultLine (i : Instruction) (id : UInt32) (operands : List Bytes) : Bytes :=
  padLeft 12 (byte ' ') (idText id) ++ utf8 " = " ++ join (utf8 " ") (i.opcode.title :: operands)

def typedLine (i : Instruction) (type id : UInt32) (operands : List Bytes) : Bytes :=
  i.resultLine id (idText type :: operands)

def line (i : Instruction) : Bytes :=
  match i.opcode, i.operands with
  | .capability, capability :: _ => i.plainLine [nameOr capabilityNames capability]
  | .extInstImport, id :: name => i.resultLine id [quote (unpackString name).1]
  | .memoryModel, addressing :: memory :: _ =>
    i.plainLine [nameOr addressingModelNames addressing, nameOr memoryModelNames memory]
  | .entryPoint, model :: function :: rest =>
    let (name, count) := unpackString rest
    i.plainLine ([nameOr executionModelNames model, idText function, quote name] ++
      idTexts (rest.drop count))
  | .executionMode, function :: mode :: rest =>
    i.plainLine ([idText function, nameOr executionModeNames mode] ++ numberTexts rest)
  | .name, target :: name => i.plainLine [idText target, quote (unpackString name).1]
  | .decorate, target :: decoration :: rest =>
    i.plainLine (idText target :: decorationTexts decoration rest)
  | .memberDecorate, target :: member :: decoration :: rest =>
    i.plainLine (idText target :: decimal member.toNat :: decorationTexts decoration rest)
  | .typeVoid, id :: _ => i.resultLine id []
  | .typeBool, id :: _ => i.resultLine id []
  | .label, id :: _ => i.resultLine id []
  | .typeInt, id :: rest => i.resultLine id (numberTexts rest)
  | .typeFloat, id :: rest => i.resultLine id (numberTexts rest)
  | .typeVector, id :: component :: size :: _ =>
    i.resultLine id [idText component, decimal size.toNat]
  | .typePointer, id :: storage :: base :: _ =>
    i.resultLine id [nameOr storageClassNames storage, idText base]
  | .typeStruct, id :: rest => i.resultLine id (idTexts rest)
  | .typeFunction, id :: rest => i.resultLine id (idTexts rest)
  | .constant, type :: id :: rest => i.typedLine type id (numberTexts rest)
  | .function, type :: id :: _ :: signature :: _ =>
    i.typedLine type id [utf8 "None", idText signature]
  | .var, type :: id :: storage :: _ => i.typedLine type id [nameOr storageClassNames storage]
  | .functionEnd, _ => i.plainLine []
  | .exit, _ => i.plainLine []
  | .store, operands => i.plainLine (idTexts operands)
  | .exitValue, operands => i.plainLine (idTexts operands)
  | .branch, operands => i.plainLine (idTexts operands)
  | _, type :: id :: rest => i.typedLine type id (idTexts rest)
  | _, operands => i.plainLine (idTexts operands)

end Instruction

def Header.lines (h : Header) : List Bytes :=
  [utf8 "; SPIR-V",
    utf8 "; Version: " ++ decimal ((h.version >>> 16).toUInt8).toNat ++ utf8 "." ++
      decimal ((h.version >>> 8).toUInt8).toNat,
    utf8 "; Generator: 0x" ++ hexDigits upperDigit 8 h.generator.toNat,
    utf8 "; Bound: " ++ decimal h.bound.toNat,
    utf8 "; Schema: " ++ decimal h.schema.toNat]

def Decoded.listing (d : Decoded) : Bytes :=
  (d.header.lines ++ d.instructions.map Instruction.line).flatMap fun text => text ++ utf8 "\n"

def listing (data : Bytes) : Except DecodeError Bytes :=
  let d := decode data
  match d.failure with
  | some e => .error e
  | none => .ok d.listing

end Shading.Binary
