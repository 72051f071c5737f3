import Shading.Proofs.Binary.Framing
import Shading.Proofs.Binary.Lines

/-!
What a listing tells. A line leaves out operands that its operation is not known
to have, and names some of the others. An instruction is legible if nothing is
left out of its line and the texts in it are plain; then the line tells the
instruction, and the lines of a binary tell all of them.
-/

namespace Shading

open List

variable {b : UInt8} {text : Bytes} {texts texts' : List Bytes} {result' : Option UInt32}
  {text' : Bytes}

namespace Text

theorem forall_byte {P : UInt8 → Prop} (h : ∀ n : Fin 256, P (UInt8.ofNat n)) (b : UInt8) :
    P b := by
  have hb := h ⟨b.toNat, b.toNat_lt⟩
  rwa [UInt8.ofNat_toNat] at hb

def isVisible (b : UInt8) : Bool := 0x21 ≤ b && b ≤ 0x7E && b ≠ byte '"' && b ≠ byte '\\'

def Visible (text : Bytes) : Prop := ∀ b ∈ text, isVisible b = true

instance (text : Bytes) : Decidable (Visible text) :=
  inferInstanceAs (Decidable (∀ b ∈ text, isVisible b = true))

theorem isVisible_lt (h : isVisible b = true) : b < 0x80 := by
  simp only [isVisible, Bool.and_eq_true, decide_eq_true_eq] at h
  exact UInt8.lt_of_le_of_lt h.1.1.2 (by decide)

theorem Visible.blankless (h : Visible text) : byte ' ' ∉ text :=
  fun hmem => absurd (h _ hmem) (by decide)

theorem Visible.zeroless (h : Visible text) : 0 ∉ text :=
  fun hmem => absurd (h _ hmem) (by decide)

theorem piecesFrom_visible (h : Visible text) (found : List Piece) :
    piecesFrom found 0 text = found.reverse ++ text.map fun b => .char (Char.ofNat b.toNat) := by
  induction text generalizing found with
  | nil => simp [piecesFrom]
  | cons b rest ih =>
    obtain ⟨hb, hrest⟩ := forall_mem_cons.mp h
    have hcharacter : character? (b :: rest) = some (Char.ofNat b.toNat, 1) := by
      simp only [character?, isVisible_lt hb, if_true]
    rw [piecesFrom, hcharacter]
    simp only [Nat.sub_self]
    rw [ih hrest]
    simp

theorem quoteChar_visible (h : isVisible b = true) : quoteChar (Char.ofNat b.toNat) = [b] := by
  refine forall_byte (P := fun b => isVisible b = true → quoteChar (Char.ofNat b.toNat) = [b])
    ?_ b h
  decide +kernel

theorem quote_visible (h : Visible text) : quote text = byte '"' :: (text ++ [byte '"']) := by
  have hpieces : (pieces text).flatMap quotePiece = text := by
    rw [pieces, piecesFrom_visible h, reverse_nil, nil_append, flatMap_map]
    induction text with
    | nil => rfl
    | cons b rest ih =>
      obtain ⟨hb, hrest⟩ := forall_mem_cons.mp h
      rw [flatMap_cons, ih hrest, quotePiece, quoteChar_visible hb]
      rfl
  rw [quote, hpieces]
  rfl

theorem quote_inj (h : Visible text) (h' : Visible text') (heq : quote text = quote text') :
    text = text' := by
  rw [quote_visible h, quote_visible h'] at heq
  exact append_cancel_right (cons.inj heq).2

theorem blankless_quote (h : Visible text) : byte ' ' ∉ quote text := by
  rw [quote_visible h]
  simp only [mem_cons, mem_append, not_mem_nil, or_false, not_or]
  exact ⟨by decide, h.blankless, by decide⟩

@[simp] theorem blankless_decimal (n : Nat) : byte ' ' ∉ decimal n :=
  fun hmem => absurd (toNat_of_mem_decimal hmem).1 (by decide)

theorem padLeft_inj {width : Nat} {fill b' : UInt8} (h : fill ≠ b) (h' : fill ≠ b')
    (heq : padLeft width fill (b :: text) = padLeft width fill (b' :: text')) :
    b :: text = b' :: text' := by
  have hdrop : ∀ count {c : UInt8} {rest : Bytes}, fill ≠ c →
      (replicate count fill ++ c :: rest).dropWhile (· = fill) = c :: rest := by
    intro count c rest hc
    rw [dropWhile_append_of_pos (by simp), dropWhile_cons_of_neg (by simpa using hc.symm)]
  have hboth := congrArg (dropWhile (· = fill)) heq
  rwa [padLeft, padLeft, hdrop _ h, hdrop _ h'] at hboth

theorem takeWhile_join {separator : UInt8} {first : Bytes} (h : separator ∉ first)
    (rest : List Bytes) : (join [separator] (first :: rest)).takeWhile (· ≠ separator) = first := by
  have hfirst : ∀ b ∈ first, decide (b ≠ separator) = true := by
    intro b hb
    exact decide_eq_true fun heq => h (heq ▸ hb)
  cases rest with
  | nil =>
    have hall : (first ++ []).takeWhile (· ≠ separator) = first ++ [] :=
      takeWhile_append_of_pos hfirst
    simpa [join] using hall
  | cons next rest =>
    rw [join, intercalate_cons_cons, append_assoc, takeWhile_append_of_pos hfirst,
      singleton_append, takeWhile_cons_of_neg (by simp), append_nil]

end Text

namespace Binary

open Text

variable {op op' : Opcode} {result : Option UInt32} {names : List (Nat × String)}

def ToldApart (names : List (Nat × String)) : Prop :=
  ∀ entry ∈ names, byte ' ' ∉ utf8 entry.2 ∧
    (∃ b ∈ utf8 entry.2, b.toNat < 0x30 ∨ 0x39 < b.toNat) ∧
    ∀ other ∈ names, utf8 entry.2 = utf8 other.2 → entry.1 = other.1
  deriving Decidable

/-- A table whose names are words without blanks, none of which is a number or stands twice. -/
class Distinguishes (names : List (Nat × String)) : Prop where
  told : ToldApart names

theorem tables_toldApart : ∀ names ∈ [capabilityNames, storageClassNames, decorationNames,
    builtInNames, executionModeNames, executionModelNames, addressingModelNames, memoryModelNames],
    ToldApart names := by
  decide +kernel

instance : Distinguishes capabilityNames := ⟨tables_toldApart _ (by simp)⟩
instance : Distinguishes storageClassNames := ⟨tables_toldApart _ (by simp)⟩
instance : Distinguishes decorationNames := ⟨tables_toldApart _ (by simp)⟩
instance : Distinguishes builtInNames := ⟨tables_toldApart _ (by simp)⟩
instance : Distinguishes executionModeNames := ⟨tables_toldApart _ (by simp)⟩
instance : Distinguishes executionModelNames := ⟨tables_toldApart _ (by simp)⟩
instance : Distinguishes addressingModelNames := ⟨tables_toldApart _ (by simp)⟩
instance : Distinguishes memoryModelNames := ⟨tables_toldApart _ (by simp)⟩

theorem ne_decimal (h : ∃ b ∈ text, b.toNat < 0x30 ∨ 0x39 < b.toNat) (n : Nat) :
    text ≠ decimal n := by
  rintro rfl
  obtain ⟨b, hb, hdigit⟩ := h
  have hlow := toNat_of_mem_decimal hb
  omega

theorem nameOr_cases (names : List (Nat × String)) (value : UInt32) :
    (∃ entry ∈ names, entry.1 = value.toNat ∧ nameOr names value = utf8 entry.2) ∨
      nameOr names value = decimal value.toNat := by
  unfold nameOr
  split
  · next entry hentry =>
    exact .inl ⟨entry, mem_of_find?_eq_some hentry,
      by simpa using find?_some hentry, rfl⟩
  · exact .inr rfl

@[simp] theorem nameOr_inj [Distinguishes names] {a b : UInt32} :
    nameOr names a = nameOr names b ↔ a = b := by
  refine ⟨fun heq => UInt32.toNat_inj.mp ?_, congrArg _⟩
  obtain ⟨entry, hentry, ha, hname⟩ | hname := nameOr_cases names a
  · obtain ⟨-, hword, hsame⟩ := Distinguishes.told entry hentry
    obtain ⟨other, hother, hb, hname'⟩ | hname' := nameOr_cases names b
    · rw [hname, hname'] at heq
      rw [← ha, ← hb]
      exact hsame other hother heq
    · rw [hname, hname'] at heq
      exact absurd heq (ne_decimal hword _)
  · obtain ⟨other, hother, hb, hname'⟩ | hname' := nameOr_cases names b
    · rw [hname, hname'] at heq
      exact absurd heq.symm (ne_decimal (Distinguishes.told other hother).2.1 _)
    · rw [hname, hname'] at heq
      exact decimal_inj heq

@[simp] theorem blankless_nameOr [Distinguishes names] (value : UInt32) :
    byte ' ' ∉ nameOr names value := by
  obtain ⟨entry, hentry, -, hname⟩ | hname := nameOr_cases names value
  · rw [hname]
    exact (Distinguishes.told entry hentry).1
  · rw [hname]
    exact blankless_decimal _

theorem title_cases (op : Opcode) :
    (∃ entry ∈ Opcode.named, entry.1 = op ∧ op.title = utf8 entry.2) ∨
      op.title = utf8 "Op" ++ decimal op.code.toNat := by
  unfold Opcode.title
  split
  · next entry hentry =>
    exact .inl ⟨entry, mem_of_find?_eq_some hentry,
      by simpa using find?_some hentry, rfl⟩
  · exact .inr rfl

theorem title_inj (h : op.title = op'.title) : op = op' := by
  have hnamed : ∀ entry ∈ Opcode.named,
      (∃ b ∈ (utf8 entry.2).drop 2, b.toNat < 0x30 ∨ 0x39 < b.toNat) ∧
      ∀ other ∈ Opcode.named, utf8 entry.2 = utf8 other.2 → entry.1 = other.1 := by decide +kernel
  have hnumber : ∀ entry ∈ Opcode.named, ∀ n, utf8 entry.2 ≠ utf8 "Op" ++ decimal n := by
    intro entry hentry n heq
    exact ne_decimal (hnamed entry hentry).1 n (congrArg (drop 2) heq)
  obtain ⟨entry, hentry, rfl, htitle⟩ | htitle := title_cases op
  · obtain ⟨other, hother, rfl, htitle'⟩ | htitle' := title_cases op'
    · rw [htitle, htitle'] at h
      exact (hnamed entry hentry).2 other hother h
    · rw [htitle, htitle'] at h
      exact absurd h (hnumber entry hentry _)
  · obtain ⟨other, hother, rfl, htitle'⟩ | htitle' := title_cases op'
    · rw [htitle, htitle'] at h
      exact absurd h.symm (hnumber other hother _)
    · rw [htitle, htitle'] at h
      have hcode := decimal_inj (append_cancel_left h)
      obtain ⟨code⟩ := op
      obtain ⟨code'⟩ := op'
      exact congrArg Opcode.mk (UInt16.toNat_inj.mp hcode)

theorem blankless_title (op : Opcode) : byte ' ' ∉ op.title := by
  have hnamed : ∀ entry ∈ Opcode.named, byte ' ' ∉ utf8 entry.2 := by decide +kernel
  obtain ⟨entry, hentry, -, htitle⟩ | htitle := title_cases op
  · rw [htitle]
    exact hnamed entry hentry
  · rw [htitle, mem_append, not_or]
    exact ⟨by decide, blankless_decimal _⟩

@[simp] theorem idText_inj {id id' : UInt32} : idText id = idText id' ↔ id = id' := by
  constructor
  · intro h
    exact UInt32.toNat_inj.mp (decimal_inj (cons.inj h).2)
  · exact congrArg idText

@[simp] theorem blankless_idText (id : UInt32) : byte ' ' ∉ idText id := by
  rw [idText, mem_cons, not_or]
  exact ⟨by decide, blankless_decimal _⟩

theorem length_idText (id : UInt32) : (idText id).length ≤ 11 := by
  have hdigits : (decimal id.toNat).length ≤ 10 := by
    rw [decimal, length_map]
    have hlt : id.toNat < 10 ^ 10 := Nat.lt_trans id.toNat_lt (by decide)
    exact (Nat.length_toDigits_le_iff (by decide) (by decide)).mpr hlt
  rw [idText, length_cons]
  omega

def Blankless (texts : List Bytes) : Prop := ∀ text ∈ texts, byte ' ' ∉ text

@[simp] theorem blankless_nil : Blankless [] := forall_mem_nil _

@[simp] theorem blankless_cons :
    Blankless (text :: texts) ↔ byte ' ' ∉ text ∧ Blankless texts := forall_mem_cons

@[simp] theorem blankless_idTexts (ids : List UInt32) : Blankless (idTexts ids) :=
  forall_mem_map.mpr fun id _ => blankless_idText id

@[simp] theorem blankless_numberTexts (numbers : List UInt32) : Blankless (numberTexts numbers) :=
  forall_mem_map.mpr fun _ _ => blankless_decimal _

@[simp] theorem idTexts_inj {ids ids' : List UInt32} : idTexts ids = idTexts ids' ↔ ids = ids' :=
  map_inj_right fun _ _ => idText_inj.mp

@[simp] theorem numberText_inj {n n' : UInt32} : decimal n.toNat = decimal n'.toNat ↔ n = n' :=
  ⟨fun h => UInt32.toNat_inj.mp (decimal_inj h), fun h => h ▸ rfl⟩

@[simp] theorem numberTexts_inj {numbers numbers' : List UInt32} :
    numberTexts numbers = numberTexts numbers' ↔ numbers = numbers' :=
  map_inj_right fun _ _ => numberText_inj.mp

theorem length_paddedId (id : UInt32) : (padLeft 12 (byte ' ') (idText id)).length = 12 := by
  have hlength := length_idText id
  rw [padLeft, length_append, length_replicate]
  omega

theorem lay_none_ne {id : UInt32} :
    lay op none texts ≠ lay op' (some id) texts' := by
  intro h
  have hmem : byte '%' ∈ (lay op' (some id) texts').take 15 := by
    have hlength := length_paddedId id
    rw [lay, append_assoc, take_append]
    apply mem_append_left
    rw [take_of_length_le (by omega), padLeft]
    exact mem_append_right _ mem_cons_self
  rw [← h, lay, take_left' (by rw [blanks, length_replicate])] at hmem
  exact absurd (eq_of_mem_replicate hmem) (by decide)

theorem lay_split (h : lay op result texts = lay op' result' texts') :
    result = result' ∧
      join (utf8 " ") (op.title :: texts) = join (utf8 " ") (op'.title :: texts') := by
  cases result with
  | none =>
    cases result' with
    | none => exact ⟨rfl, append_cancel_left h⟩
    | some id' => exact absurd h lay_none_ne
  | some id =>
    cases result' with
    | none => exact absurd h.symm lay_none_ne
    | some id' =>
      rw [lay, lay, append_assoc, append_assoc] at h
      obtain ⟨hid, hrest⟩ := append_inj h
        ((length_paddedId id).trans (length_paddedId id').symm)
      refine ⟨?_, append_cancel_left hrest⟩
      rw [idText_inj.mp (padLeft_inj (by decide) (by decide) hid)]

theorem lay_opcode (h : lay op result texts = lay op' result' texts') :
    op = op' := by
  have hwords := congrArg (takeWhile (· ≠ byte ' ')) (lay_split h).2
  rw [show utf8 " " = [byte ' '] from rfl, takeWhile_join (blankless_title op),
    takeWhile_join (blankless_title op')] at hwords
  exact title_inj hwords

theorem lay_inj (hblank : Blankless texts) (hblank' : Blankless texts')
    (h : lay op result texts = lay op' result' texts') :
    result = result' ∧ texts = texts' := by
  obtain ⟨hresult, hwords⟩ := lay_split h
  refine ⟨hresult, ?_⟩
  have htexts := join_inj (cons_ne_nil _ _) (cons_ne_nil _ _)
    (forall_mem_cons.mpr ⟨blankless_title op, hblank⟩)
    (forall_mem_cons.mpr ⟨blankless_title op', hblank'⟩) hwords
  exact (cons.inj htexts).2

theorem bytesOfWords_packFrom (packed : List UInt32) (text : Bytes) :
    ∃ count, bytesOfWords (packFrom packed text) =
      bytesOfWords packed.reverse ++ (text ++ List.replicate (count + 1) 0) := by
  have happend : ∀ words w, bytesOfWords (words ++ [w]) = bytesOfWords words ++ bytesOfWord w := by
    intro words w
    simp [bytesOfWords]
  induction packed, text using packFrom.induct with
  | case1 packed a b c d rest ih =>
    obtain ⟨count, hcount⟩ := ih
    refine ⟨count, ?_⟩
    rw [packFrom, hcount, reverse_cons, happend, bytesOfWord_wordOfBytes, append_assoc]
    rfl
  | case2 packed a b c =>
    refine ⟨0, ?_⟩
    rw [packFrom, reverse_cons, happend, bytesOfWord_wordOfBytes]
    rfl
  | case3 packed a b =>
    refine ⟨1, ?_⟩
    rw [packFrom, reverse_cons, happend, bytesOfWord_wordOfBytes]
    rfl
  | case4 packed a =>
    refine ⟨2, ?_⟩
    rw [packFrom, reverse_cons, happend, bytesOfWord_wordOfBytes]
    rfl
  | case5 packed =>
    refine ⟨3, ?_⟩
    rw [packFrom, reverse_cons, happend]
    rfl

theorem unpackString_append (text : Bytes) (rest : List UInt32) :
    unpackString (packString text ++ rest) =
      (text.takeWhile (· ≠ 0), (text.takeWhile (· ≠ 0)).length / 4 + 1) := by
  obtain ⟨count, hbytes⟩ := bytesOfWords_packFrom [] text
  have hall : bytesOfWords (packString text ++ rest) =
      text ++ 0 :: (replicate count 0 ++ bytesOfWords rest) := by
    rw [bytesOfWords, flatMap_append]
    change bytesOfWords (packFrom [] text) ++ bytesOfWords rest = _
    rw [hbytes, replicate_succ]
    simp [bytesOfWords]
  have htext : (bytesOfWords (packString text ++ rest)).takeWhile (· ≠ 0) =
      text.takeWhile (· ≠ 0) := by
    rw [hall, takeWhile_append]
    split
    · rw [takeWhile_cons_of_neg (by simp), append_nil]
      exact (List.takeWhile_prefix _).eq_of_length ‹_› |>.symm
    · rfl
  have hlength : (text.takeWhile (· ≠ 0)).length <
      (bytesOfWords (packString text ++ rest)).length := by
    have hle := (List.takeWhile_prefix (l := text) (· ≠ 0)).length_le
    rw [hall, length_append, length_cons]
    omega
  rw [unpackString]
  simp only [htext]
  rw [if_pos hlength]

theorem unpackString_packString (h : 0 ∉ text) (rest : List UInt32) :
    unpackString (packString text ++ rest) = (text, (packString text).length) := by
  have hplain : ∀ b ∈ text, decide (b ≠ 0) = true := fun b hb =>
    decide_eq_true fun hzero => h (hzero ▸ hb)
  have htext : text.takeWhile (· ≠ 0) = text := by
    have hall : (text ++ []).takeWhile (· ≠ 0) = text ++ [] := takeWhile_append_of_pos hplain
    simpa using hall
  rw [unpackString_append, htext, length_packString, stringWordCount]

theorem getLast?_packString (text : Bytes) :
    ∃ word, (packString text).getLast? = some word ∧ (bytesOfWord word).getLast? = some 0 := by
  obtain ⟨count, hbytes⟩ := bytesOfWords_packFrom [] text
  have hne : packString text ≠ [] := by
    have hlength := length_packString text
    rintro hnil
    rw [hnil, stringWordCount] at hlength
    cases hlength
  obtain ⟨before, word, hword⟩ : ∃ before word, packString text = before ++ [word] :=
    ⟨_, _, (dropLast_concat_getLast hne).symm⟩
  have hlast : (bytesOfWords (packString text)).getLast? = some 0 := by
    rw [packString, hbytes, replicate_succ']
    simp only [← append_assoc, getLast?_concat]
  refine ⟨word, by rw [hword, getLast?_concat], ?_⟩
  rw [hword, bytesOfWords, flatMap_append, flatMap_singleton, getLast?_append] at hlast
  exact hlast

/-- Strings are found again in words. At the start of any words, what is found of a packed string is
what stands before its first zero byte, in as many words as that takes. Without a zero byte it is
the whole string, and whatever follows it is read from the right place, as the variables of an entry
point are. Packing makes as many words as are counted, the last of which ends in a zero byte. -/
theorem strings_roundTrip (text : Bytes) (rest : List UInt32) :
    unpackString (packString text ++ rest) =
      (text.takeWhile (· ≠ 0), (text.takeWhile (· ≠ 0)).length / 4 + 1) ∧
    (0 ∉ text → unpackString (packString text ++ rest) = (text, stringWordCount text) ∧
      (packString text ++ rest).drop (unpackString (packString text ++ rest)).2 = rest ∧
      ∀ model function, Instruction.line
        ⟨.entryPoint, model :: function :: packString text ++ rest⟩ =
        Instruction.plainLine ⟨.entryPoint, model :: function :: packString text ++ rest⟩
          ([nameOr executionModelNames model, idText function, quote text] ++ idTexts rest)) ∧
    (packString text).length = stringWordCount text ∧
    ∃ word, (packString text).getLast? = some word ∧ (bytesOfWord word).getLast? = some 0 := by
  refine ⟨unpackString_append text rest, fun h => ?_, length_packString text,
    getLast?_packString text⟩
  have hunpack := unpackString_packString h rest
  have hdrop : (packString text ++ rest).drop (packString text).length = rest := drop_left
  refine ⟨by rw [hunpack, length_packString], by rw [hunpack, hdrop], fun model function => ?_⟩
  simp only [Instruction.line, hunpack, hdrop, cons_append]

/-- A name of four letters takes two words, and the two ids behind it are read after them. -/
theorem main_roundTrip : 0 ∉ Text.utf8 "main" ∧
    unpackString (packString (Text.utf8 "main") ++ [7, 8]) = (Text.utf8 "main", 2) := by
  have hplain : 0 ∉ Text.utf8 "main" := by decide
  exact ⟨hplain, ((strings_roundTrip (Text.utf8 "main") [7, 8]).2.1 hplain).1⟩

namespace Instruction

def Legible (i : Instruction) : Prop :=
  match i.opcode with
  | .capability | .typeVoid | .typeBool | .label => ∃ a, i.operands = [a]
  | .memoryModel => ∃ a b, i.operands = [a, b]
  | .typeVector | .typePointer | .decorate | .var => ∃ a b c, i.operands = [a, b, c]
  | .memberDecorate => ∃ a b c d, i.operands = [a, b, c, d]
  | .functionEnd | .exit => i.operands = []
  | .typeInt | .typeFloat | .typeStruct | .typeFunction => ∃ id rest, i.operands = id :: rest
  | .constant | .executionMode => ∃ a b rest, i.operands = a :: b :: rest
  | .function => ∃ type id signature, i.operands = [type, id, 0, signature]
  | .extInstImport | .name => ∃ id text, Visible text ∧ i.operands = id :: packString text
  | .entryPoint => ∃ model function text interface, Visible text ∧
      i.operands = model :: function :: (packString text ++ interface)
  | _ => True

variable {op : Opcode} {xs ys : List UInt32}

theorem same_of_lay {result : Option UInt32} (h : line ⟨op, xs⟩ = line ⟨op, ys⟩)
    (hx : line ⟨op, xs⟩ = lay op result texts) (hy : line ⟨op, ys⟩ = lay op result' texts')
    (hblank : Blankless texts) (hblank' : Blankless texts') :
    result = result' ∧ texts = texts' := by
  rw [hx, hy] at h
  exact lay_inj hblank hblank' h

theorem declared_inj (hline : ∀ id, line ⟨op, [id]⟩ = lay op (some id) []) (hx : ∃ a, xs = [a])
    (hy : ∃ a, ys = [a]) (h : line ⟨op, xs⟩ = line ⟨op, ys⟩) : xs = ys := by
  obtain ⟨id, rfl⟩ := hx
  obtain ⟨id', rfl⟩ := hy
  obtain ⟨hid, -⟩ := same_of_lay h (hline id) (hline id') blankless_nil blankless_nil
  rw [Option.some.inj hid]

theorem listed_inj {shown : List UInt32 → List Bytes} (hinj : ∀ {a b}, shown a = shown b ↔ a = b)
    (hblank : ∀ rest, Blankless (shown rest))
    (hline : ∀ id rest, line ⟨op, id :: rest⟩ = lay op (some id) (shown rest))
    (hx : ∃ id rest, xs = id :: rest) (hy : ∃ id rest, ys = id :: rest)
    (h : line ⟨op, xs⟩ = line ⟨op, ys⟩) : xs = ys := by
  obtain ⟨id, rest, rfl⟩ := hx
  obtain ⟨id', rest', rfl⟩ := hy
  obtain ⟨hid, htexts⟩ := same_of_lay h (hline id rest) (hline id' rest') (hblank _) (hblank _)
  rw [Option.some.inj hid, hinj.mp htexts]

theorem effect_inj (hline : ∀ ids, line ⟨op, ids⟩ = lay op none (idTexts ids))
    (h : line ⟨op, xs⟩ = line ⟨op, ys⟩) : xs = ys :=
  idTexts_inj.mp (same_of_lay h (hline xs) (hline ys) (blankless_idTexts _) (blankless_idTexts _)).2

theorem other_inj (hop : op ∉ laidOut) (h : line ⟨op, xs⟩ = line ⟨op, ys⟩) : xs = ys := by
  have hshape : ∀ operands, (∃ type id rest, operands = type :: id :: rest ∧
        line ⟨op, operands⟩ = lay op (some id) (idTexts (type :: rest))) ∨
      line ⟨op, operands⟩ = lay op none (idTexts operands) := by
    intro operands
    rw [line_other hop]
    rcases operands with _ | ⟨type, _ | ⟨id, rest⟩⟩
    · exact .inr rfl
    · exact .inr rfl
    · exact .inl ⟨type, id, rest, rfl, rfl⟩
  obtain ⟨type, id, rest, rfl, hx⟩ | hx := hshape xs
  · obtain ⟨type', id', rest', rfl, hy⟩ | hy := hshape ys
    · obtain ⟨hid, htexts⟩ := same_of_lay h hx hy (blankless_idTexts _) (blankless_idTexts _)
      obtain ⟨rfl, rfl⟩ := cons.inj (idTexts_inj.mp htexts)
      rw [Option.some.inj hid]
    · cases (same_of_lay h hx hy (blankless_idTexts _) (blankless_idTexts _)).1
  · obtain ⟨type', id', rest', rfl, hy⟩ | hy := hshape ys
    · cases (same_of_lay h hx hy (blankless_idTexts _) (blankless_idTexts _)).1
    · exact idTexts_inj.mp (same_of_lay h hx hy (blankless_idTexts _) (blankless_idTexts _)).2

@[simp] theorem decorationTexts_inj {a b a' b' : UInt32} :
    decorationTexts a [b] = decorationTexts a' [b'] ↔ a = a' ∧ b = b' := by
  refine ⟨fun h => ?_, fun ⟨ha, hb⟩ => ha ▸ hb ▸ rfl⟩
  obtain ⟨hfirst, hrest⟩ := cons.inj h
  obtain rfl := nameOr_inj.mp hfirst
  refine ⟨rfl, ?_⟩
  dsimp only at hrest
  split at hrest
  · exact nameOr_inj.mp (cons.inj hrest).1
  · exact (cons.inj (numberTexts_inj.mp hrest)).1

@[simp] theorem blankless_decorationTexts (a b : UInt32) : Blankless (decorationTexts a [b]) := by
  refine blankless_cons.mpr ⟨blankless_nameOr a, ?_⟩
  dsimp only
  split
  · exact blankless_cons.mpr ⟨blankless_nameOr b, blankless_nil⟩
  · exact blankless_numberTexts _

theorem plainLine_inj (h : plainLine ⟨op, xs⟩ texts = plainLine ⟨op, ys⟩ texts')
    (hblank : Blankless texts) (hblank' : Blankless texts') : texts = texts' := by
  have hlay : lay op none texts = lay op none texts' := h
  exact (lay_inj hblank hblank' hlay).2

theorem resultLine_inj {id id' : UInt32}
    (h : resultLine ⟨op, xs⟩ id texts = resultLine ⟨op, ys⟩ id' texts') (hblank : Blankless texts)
    (hblank' : Blankless texts') : id = id' ∧ texts = texts' := by
  have hlay : lay op (some id) texts = lay op (some id') texts' := h
  exact (lay_inj hblank hblank' hlay).imp_left Option.some.inj

theorem unpackString_visible (h : Visible text) : (unpackString (packString text)).1 = text := by
  have hunpack := unpackString_packString h.zeroless []
  rw [append_nil] at hunpack
  rw [hunpack]

theorem entryPoint_inj (hx : Legible ⟨.entryPoint, xs⟩) (hy : Legible ⟨.entryPoint, ys⟩)
    (h : line ⟨.entryPoint, xs⟩ = line ⟨.entryPoint, ys⟩) : xs = ys := by
  obtain ⟨model, function, text, interface, htext, hxs⟩ := hx
  obtain ⟨model', function', text', interface', htext', hys⟩ := hy
  have hline : ∀ {model function : UInt32} {text : Bytes} {interface : List UInt32}, Visible text →
      line ⟨.entryPoint, model :: function :: (packString text ++ interface)⟩ =
        lay .entryPoint none (nameOr executionModelNames model :: idText function :: quote text ::
          idTexts interface) := by
    intro model function text interface htext
    change plainLine _ ([_, _, quote (unpackString _).1] ++ idTexts (drop (unpackString _).2 _)) = _
    rw [unpackString_packString htext.zeroless, drop_left]
    rfl
  cases hxs
  cases hys
  obtain ⟨-, htexts⟩ := same_of_lay h (hline htext) (hline htext')
    (by simp [blankless_quote htext]) (by simp [blankless_quote htext'])
  simp only [cons.injEq, nameOr_inj, idText_inj, idTexts_inj] at htexts
  obtain ⟨rfl, rfl, hquote, rfl⟩ := htexts
  rw [quote_inj htext htext' hquote]

theorem extInstImport_inj (hx : Legible ⟨.extInstImport, xs⟩) (hy : Legible ⟨.extInstImport, ys⟩)
    (h : line ⟨.extInstImport, xs⟩ = line ⟨.extInstImport, ys⟩) : xs = ys := by
  obtain ⟨id, text, htext, rfl⟩ := hx
  obtain ⟨id', text', htext', rfl⟩ := hy
  simp only [line, unpackString_visible htext, unpackString_visible htext'] at h
  obtain ⟨rfl, htexts⟩ := resultLine_inj h (by simp [blankless_quote htext])
    (by simp [blankless_quote htext'])
  rw [quote_inj htext htext' (cons.inj htexts).1]

theorem name_inj (hx : Legible ⟨.name, xs⟩) (hy : Legible ⟨.name, ys⟩)
    (h : line ⟨.name, xs⟩ = line ⟨.name, ys⟩) : xs = ys := by
  obtain ⟨target, text, htext, rfl⟩ := hx
  obtain ⟨target', text', htext', rfl⟩ := hy
  simp only [line, unpackString_visible htext, unpackString_visible htext'] at h
  have htexts := plainLine_inj h (by simp [blankless_quote htext])
    (by simp [blankless_quote htext'])
  simp only [cons.injEq, idText_inj, and_true] at htexts
  rw [htexts.1, quote_inj htext htext' htexts.2]

/-- The operations whose operands are told one by one, without a string among them. -/
theorem spelt_inj
    (hop : op ∈ [.capability, .memoryModel, .executionMode, .decorate, .memberDecorate, .typeVector,
      .typePointer, .constant, .function, .var])
    (hx : Legible ⟨op, xs⟩) (hy : Legible ⟨op, ys⟩) (h : line ⟨op, xs⟩ = line ⟨op, ys⟩) :
    xs = ys := by
  have hnone : byte ' ' ∉ utf8 "None" := by decide
  simp only [mem_cons, not_mem_nil, or_false] at hop
  rcases hop with rfl | rfl | rfl | rfl | rfl | rfl | rfl | rfl | rfl | rfl
  all_goals
    first
    | obtain ⟨⟨_, rfl⟩, _, rfl⟩ := And.intro hx hy
    | obtain ⟨⟨_, _, rfl⟩, _, _, rfl⟩ := And.intro hx hy
    | obtain ⟨⟨_, _, _, rfl⟩, _, _, _, rfl⟩ := And.intro hx hy
    | obtain ⟨⟨_, _, _, _, rfl⟩, _, _, _, _, rfl⟩ := And.intro hx hy
    first
    | simpa using plainLine_inj h (by simp) (by simp)
    | simpa [and_left_comm] using resultLine_inj h (by simp [hnone]) (by simp [hnone])

theorem operands_inj (hx : Legible ⟨op, xs⟩) (hy : Legible ⟨op, ys⟩)
    (h : line ⟨op, xs⟩ = line ⟨op, ys⟩) : xs = ys := by
  by_cases hop : op ∈ laidOut
  · simp only [laidOut, mem_cons, not_mem_nil, or_false] at hop
    rcases hop with rfl | rfl | rfl | rfl | rfl | rfl | rfl | rfl | hop
    · exact spelt_inj (by simp) hx hy h
    · exact extInstImport_inj hx hy h
    · exact spelt_inj (by simp) hx hy h
    · exact entryPoint_inj hx hy h
    · exact spelt_inj (by simp) hx hy h
    · exact name_inj hx hy h
    · exact spelt_inj (by simp) hx hy h
    · exact spelt_inj (by simp) hx hy h
    rcases hop with rfl | rfl | rfl | rfl | rfl | rfl | rfl | rfl | rfl | hop
    · exact declared_inj (fun _ => rfl) hx hy h
    · exact declared_inj (fun _ => rfl) hx hy h
    · exact declared_inj (fun _ => rfl) hx hy h
    · exact listed_inj numberTexts_inj blankless_numberTexts (fun _ _ => rfl) hx hy h
    · exact listed_inj numberTexts_inj blankless_numberTexts (fun _ _ => rfl) hx hy h
    · exact spelt_inj (by simp) hx hy h
    · exact spelt_inj (by simp) hx hy h
    · exact listed_inj idTexts_inj blankless_idTexts (fun _ _ => rfl) hx hy h
    · exact listed_inj idTexts_inj blankless_idTexts (fun _ _ => rfl) hx hy h
    rcases hop with rfl | rfl | rfl | rfl | rfl | rfl | rfl | rfl
    · exact spelt_inj (by simp) hx hy h
    · exact spelt_inj (by simp) hx hy h
    · exact spelt_inj (by simp) hx hy h
    · exact Eq.trans hx (Eq.symm hy)
    · exact Eq.trans hx (Eq.symm hy)
    · exact effect_inj (fun _ => rfl) h
    · exact effect_inj (fun _ => rfl) h
    · exact effect_inj (fun _ => rfl) h
  · exact other_inj hop h

theorem Legible.line_inj {i j : Instruction} (hi : i.Legible) (hj : j.Legible)
    (h : i.line = j.line) : i = j := by
  obtain ⟨op, operands⟩ := i
  obtain ⟨op', operands'⟩ := j
  obtain ⟨result, texts, hline, -⟩ := isLaid_line ⟨op, operands⟩
  obtain ⟨result', texts', hline', -⟩ := isLaid_line ⟨op', operands'⟩
  obtain rfl : op = op' := lay_opcode (hline.symm.trans (h.trans hline'))
  rw [operands_inj hi hj h]

end Instruction

end Binary

end Shading
