import Shading.Binary.Listing
import Shading.Proofs.Text

/-!
Listings line by line. A binary that can be decoded is listed as the five lines
of its header and one line for every instruction, whatever the instructions
are: an operand is looked at only where there is one, and no text of a line
holds a line break, because names are written in quotes with theirs escaped.
-/

namespace Shading

open List

namespace Text

theorem oneLine_numericEscape {mark : Char} (hmark : newline ≠ byte mark) (width code : Nat) :
    OneLine (numericEscape mark width code) := by
  have hdigits : OneLine (hexDigits lowerDigit width code) := oneLine_hexDigits (by decide) _ _
  exact oneLine_cons.mpr ⟨by decide, oneLine_cons.mpr ⟨hmark, hdigits⟩⟩

theorem oneLine_encodeChar {c : Char} (h : c.toNat ≠ 0x0A) : OneLine (encodeChar c) := by
  have hbyte : ∀ n : Nat, n % 256 ≠ 0x0A → newline ≠ n.toUInt8 := by
    intro n hn heq
    have := congrArg UInt8.toNat heq
    simp only [Nat.toUInt8_eq, UInt8.toNat_ofNat'] at this
    exact hn this.symm
  have hc : c.toNat < 0x110000 := by
    have := c.valid
    simp only [UInt32.isValidChar, Nat.isValidChar] at this
    change c.val.toNat < _
    omega
  unfold encodeChar
  dsimp only
  split
  · exact oneLine_cons.mpr ⟨hbyte _ (by omega), not_mem_nil⟩
  split
  · simp only [oneLine_cons]
    exact ⟨hbyte _ (by omega), hbyte _ (by omega), not_mem_nil⟩
  split
  · simp only [oneLine_cons]
    exact ⟨hbyte _ (by omega), hbyte _ (by omega), hbyte _ (by omega), not_mem_nil⟩
  · simp only [oneLine_cons]
    exact ⟨hbyte _ (by omega), hbyte _ (by omega), hbyte _ (by omega), hbyte _ (by omega),
      not_mem_nil⟩

theorem oneLine_quoteChar (c : Char) : OneLine (quoteChar c) := by
  unfold quoteChar
  dsimp only
  split
  · next letter hletter =>
    have hletters : newline ≠ byte letter := by
      unfold escapeLetter? at hletter
      split at hletter <;> cases hletter <;> decide
    exact oneLine_cons.mpr ⟨by decide, oneLine_cons.mpr ⟨hletters, not_mem_nil⟩⟩
  · next hletter =>
    have hc : c.toNat ≠ 0x0A := by
      intro hc
      rw [hc] at hletter
      cases hletter
    split
    · exact oneLine_encodeChar hc
    split
    · exact oneLine_numericEscape (by decide) _ _
    split <;> exact oneLine_numericEscape (by decide) _ _

@[simp] theorem oneLine_quote (text : Bytes) : OneLine (quote text) := by
  have hpieces : OneLine ((pieces text).flatMap quotePiece) := by
    intro hmem
    obtain ⟨piece, -, hpiece⟩ := mem_flatMap.mp hmem
    cases piece with
    | char c => exact oneLine_quoteChar c hpiece
    | stray b => exact oneLine_numericEscape (by decide) _ _ hpiece
  exact oneLine_append.mpr ⟨oneLine_cons.mpr ⟨by decide, hpieces⟩, by decide⟩

end Text

namespace Binary

variable {op : Opcode}

open Text

theorem oneLine_nameOr {names : List (Nat × String)} (h : ∀ entry ∈ names, OneLine (utf8 entry.2))
    (value : UInt32) : OneLine (nameOr names value) := by
  unfold nameOr
  split
  · next entry hentry => exact h entry (mem_of_find?_eq_some hentry)
  · exact oneLine_decimal _

theorem oneLine_title (op : Opcode) : OneLine op.title := by
  have hnamed : ∀ entry ∈ Opcode.named, OneLine (utf8 entry.2) := by decide +kernel
  unfold Opcode.title
  split
  · next entry hentry => exact hnamed entry (mem_of_find?_eq_some hentry)
  · exact oneLine_append.mpr ⟨by decide, oneLine_decimal _⟩

@[simp] theorem oneLine_idText (id : UInt32) : OneLine (idText id) :=
  oneLine_cons.mpr ⟨by decide, oneLine_decimal _⟩

@[simp] theorem oneLines_idTexts (ids : List UInt32) : OneLines (idTexts ids) :=
  forall_mem_map.mpr fun id _ => oneLine_idText id

@[simp] theorem oneLines_numberTexts (numbers : List UInt32) : OneLines (numberTexts numbers) :=
  forall_mem_map.mpr fun _ _ => oneLine_decimal _

@[simp] theorem oneLines_decorationTexts (decoration : UInt32) (rest : List UInt32) :
    OneLines (decorationTexts decoration rest) := by
  unfold decorationTexts
  refine oneLines_cons.mpr ⟨oneLine_nameOr (by decide +kernel) _, ?_⟩
  split
  · exact oneLines_nil
  split
  · exact oneLines_cons.mpr ⟨oneLine_nameOr (by decide +kernel) _, oneLines_nil⟩
  · exact oneLines_numberTexts _

def lay (op : Opcode) : Option UInt32 → List Bytes → Bytes
  | none, texts => blanks 15 ++ join (utf8 " ") (op.title :: texts)
  | some id, texts =>
    padLeft 12 (byte ' ') (idText id) ++ utf8 " = " ++ join (utf8 " ") (op.title :: texts)

theorem oneLine_lay (op : Opcode) (result : Option UInt32) {texts : List Bytes}
    (h : OneLines texts) : OneLine (lay op result texts) := by
  have hwords : OneLine (join (utf8 " ") (op.title :: texts)) :=
    oneLine_join (by decide) (oneLines_cons.mpr ⟨oneLine_title _, h⟩)
  cases result with
  | none => exact oneLine_append.mpr ⟨oneLine_replicate _ (by decide), hwords⟩
  | some id =>
    have hid : OneLine (padLeft 12 (byte ' ') (idText id)) :=
      oneLine_append.mpr ⟨oneLine_replicate _ (by decide), oneLine_idText id⟩
    exact oneLine_append.mpr ⟨oneLine_append.mpr ⟨hid, by decide⟩, hwords⟩

namespace Instruction

variable (i : Instruction)

def IsLaid (op : Opcode) (text : Bytes) : Prop :=
  ∃ result texts, text = lay op result texts ∧ OneLines texts

variable {texts : List Bytes}

theorem isLaid_plainLine (h : OneLines texts) : IsLaid i.opcode (i.plainLine texts) :=
  ⟨none, texts, rfl, h⟩

theorem isLaid_resultLine (id : UInt32) (h : OneLines texts) :
    IsLaid i.opcode (i.resultLine id texts) := ⟨some id, texts, rfl, h⟩

theorem isLaid_typedLine (type id : UInt32) (h : OneLines texts) :
    IsLaid i.opcode (i.typedLine type id texts) :=
  i.isLaid_resultLine id (oneLines_cons.mpr ⟨oneLine_idText type, h⟩)

theorem isLaid_line : IsLaid i.opcode i.line := by
  unfold line
  split
  all_goals first
    | with_reducible apply isLaid_plainLine
    | with_reducible apply isLaid_resultLine
    | with_reducible apply isLaid_typedLine
  all_goals simp (disch := decide +kernel) [oneLine_nameOr]
  decide

theorem oneLine_line : OneLine i.line := by
  obtain ⟨result, texts, hline, htexts⟩ := i.isLaid_line
  rw [hline]
  exact oneLine_lay _ _ htexts

/-- The line of an instruction with its operands looked up by index, after a check of how many there
are. An index behind the last operand gives no line. -/
def lineByIndex (i : Instruction) : Option Bytes :=
  let at' (k : Nat) : Option UInt32 := i.operands[k]?
  let behind (k : Nat) : Option (List UInt32) :=
    if k ≤ i.operands.length then some (i.operands.drop k) else none
  let result (texts : List Bytes) : Option Bytes := do
    return i.resultLine (← at' 0) texts
  let typed (texts : List Bytes) : Option Bytes := do
    return i.typedLine (← at' 0) (← at' 1) texts
  let ids (k : Nat) := idTexts (i.operands.drop k)
  let numbers (k : Nat) := numberTexts (i.operands.drop k)
  let other := if 2 ≤ i.operands.length then typed (ids 2) else some (i.plainLine (ids 0))
  let need (count : Nat) (text : Option Bytes) : Option Bytes :=
    if count ≤ i.operands.length then text else other
  match i.opcode with
  | .capability => need 1 do
    return i.plainLine [nameOr capabilityNames (← at' 0)]
  | .extInstImport => need 1 do
    result [quote (unpackString (← behind 1)).1]
  | .memoryModel => need 2 do
    return i.plainLine [nameOr addressingModelNames (← at' 0), nameOr memoryModelNames (← at' 1)]
  | .entryPoint => need 2 do
    let (name, count) := unpackString (← behind 2)
    return i.plainLine ([nameOr executionModelNames (← at' 0), idText (← at' 1), quote name] ++
      ids (count + 2))
  | .executionMode => need 2 do
    return i.plainLine ([idText (← at' 0), nameOr executionModeNames (← at' 1)] ++ numbers 2)
  | .name => need 1 do
    return i.plainLine [idText (← at' 0), quote (unpackString (← behind 1)).1]
  | .decorate => need 2 do
    let texts := [idText (← at' 0), nameOr decorationNames (← at' 1)]
    if (← at' 1) = builtInDecoration ∧ 3 ≤ i.operands.length then
      return i.plainLine (texts ++ [nameOr builtInNames (← at' 2)])
    else return i.plainLine (texts ++ numbers 2)
  | .memberDecorate => need 3 do
    let texts := [idText (← at' 0), decimal (← at' 1).toNat, nameOr decorationNames (← at' 2)]
    if (← at' 2) = builtInDecoration ∧ 4 ≤ i.operands.length then
      return i.plainLine (texts ++ [nameOr builtInNames (← at' 3)])
    else return i.plainLine (texts ++ numbers 3)
  | .typeVoid => need 1 (result [])
  | .typeBool => need 1 (result [])
  | .label => need 1 (result [])
  | .typeInt => need 1 (result (numbers 1))
  | .typeFloat => need 1 (result (numbers 1))
  | .typeVector => need 3 do
    result [idText (← at' 1), decimal (← at' 2).toNat]
  | .typePointer => need 3 do
    result [nameOr storageClassNames (← at' 1), idText (← at' 2)]
  | .typeStruct => need 1 (result (ids 1))
  | .typeFunction => need 1 (result (ids 1))
  | .constant => need 2 (typed (numbers 2))
  | .function => need 4 do
    typed [utf8 "None", idText (← at' 3)]
  | .var => need 3 do
    typed [nameOr storageClassNames (← at' 2)]
  | .functionEnd => some (i.plainLine [])
  | .exit => some (i.plainLine [])
  | .store => some (i.plainLine (ids 0))
  | .exitValue => some (i.plainLine (ids 0))
  | .branch => some (i.plainLine (ids 0))
  | _ => other

def laidOut : List Opcode :=
  [.capability, .extInstImport, .memoryModel, .entryPoint, .executionMode, .name, .decorate,
    .memberDecorate, .typeVoid, .typeBool, .label, .typeInt, .typeFloat, .typeVector, .typePointer,
    .typeStruct, .typeFunction, .constant, .function, .var, .functionEnd, .exit, .store, .exitValue,
    .branch]

theorem line_other (h : op ∉ laidOut) (operands : List UInt32) :
    line ⟨op, operands⟩ = match operands with
      | type :: id :: rest => typedLine ⟨op, operands⟩ type id (idTexts rest)
      | _ => plainLine ⟨op, operands⟩ (idTexts operands) := by
  unfold line
  dsimp only
  split
  case h_26 => rfl
  case h_27 =>
    rcases operands with _ | ⟨a, _ | ⟨b, rest⟩⟩
    · rfl
    · rfl
    · simp_all
  all_goals exact absurd (by decide) h

theorem lineByIndex_other (h : op ∉ laidOut) (operands : List UInt32) :
    lineByIndex ⟨op, operands⟩ = some (line ⟨op, operands⟩) := by
  rw [line_other h]
  unfold lineByIndex
  dsimp only
  split
  case h_26 => rcases operands with _ | ⟨a, _ | ⟨b, rest⟩⟩ <;> rfl
  all_goals exact absurd (by decide) h

theorem lineByIndex_eq : i.lineByIndex = some i.line := by
  obtain ⟨op, operands⟩ := i
  by_cases h : op ∈ laidOut
  · simp only [laidOut, mem_cons, not_mem_nil, or_false] at h
    -- no case looks further than at the fourth operand
    rcases operands with _ | ⟨a, _ | ⟨b, _ | ⟨c, _ | ⟨d, rest⟩⟩⟩⟩
    all_goals
      rcases h with rfl | rfl | rfl | rfl | rfl | rfl | rfl | rfl | rfl | rfl | rfl | rfl | rfl |
        rfl | rfl | rfl | rfl | rfl | rfl | rfl | rfl | rfl | rfl | rfl | rfl
    all_goals try rfl
    -- what is left are the decorations, some of which have a name behind them
    · simp [line, lineByIndex, decorationTexts, numberTexts]
    · by_cases hb : b = builtInDecoration <;> simp [line, lineByIndex, decorationTexts, hb]
    · simp [line, lineByIndex, decorationTexts, numberTexts]
    · by_cases hb : b = builtInDecoration <;> simp [line, lineByIndex, decorationTexts, hb]
    · by_cases hc : c = builtInDecoration <;> simp [line, lineByIndex, decorationTexts, hc]
  · exact lineByIndex_other h operands

end Instruction

theorem oneLine_header (h : Header) : OneLines h.lines := by
  have hgenerator : OneLine (hexDigits upperDigit 8 h.generator.toNat) :=
    oneLine_hexDigits (by decide) _ _
  simp only [Header.lines, oneLines_cons, oneLine_append, oneLine_decimal, hgenerator, oneLines_nil,
    and_true]
  decide

/-- A binary is listed exactly if it can be decoded, as five lines for its header and one for each
of its instructions. Every line ends with the only line break in it, and no operand is looked up
that is not there. -/
theorem listing_lines (data : Bytes) :
    match listing data with
    | .error e => (decode data).failure = some e
    | .ok text => (decode data).failure = none ∧ ∃ header lines : List Bytes,
        header.length = 5 ∧ (decode data).instructions.map Instruction.lineByIndex =
          lines.map some ∧
        (∀ line ∈ header ++ lines, newline ∉ line) ∧
        text = (header ++ lines).flatMap (· ++ [newline]) := by
  unfold listing
  cases hfailure : (decode data).failure with
  | some e => simp [hfailure]
  | none =>
    simp only [hfailure]
    refine ⟨trivial, (decode data).header.lines, (decode data).instructions.map Instruction.line,
      rfl, ?_, ?_, rfl⟩
    · rw [map_map]
      exact map_congr_left fun i _ => i.lineByIndex_eq
    · exact oneLines_append.mpr ⟨oneLine_header _, forall_mem_map.mpr fun i _ => i.oneLine_line⟩

end Binary

end Shading
