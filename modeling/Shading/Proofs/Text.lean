import Shading.Text.Basic

/-!
What texts tell. Numbers and bytes can be read off their digits, and pieces off
their join, as long as the text between the pieces does not occur in them.
-/

namespace Shading.Text

open List

variable {n : Nat} {b : UInt8} {text : Bytes} {pieces texts : List Bytes}

section Digits

theorem toNat_digit {c : Char} (h : c ∈ Nat.toDigits 10 n) :
    0x30 ≤ c.toNat ∧ c.toNat ≤ 0x39 ∧ (byte c).toNat = c.toNat := by
  obtain ⟨hlow, hhigh⟩ := Char.isDigit_iff_toNat.mp
    (Nat.isDigit_of_mem_toDigits (by decide) (by decide) h)
  have hhigh : c.toNat ≤ 0x39 := hhigh
  refine ⟨hlow, hhigh, ?_⟩
  simp only [byte, Nat.toUInt8_eq, UInt8.toNat_ofNat']
  omega

theorem toNat_of_mem_decimal (h : b ∈ decimal n) : 0x30 ≤ b.toNat ∧ b.toNat ≤ 0x39 := by
  obtain ⟨c, hc, rfl⟩ := mem_map.mp h
  obtain ⟨hlow, hhigh, hbyte⟩ := toNat_digit hc
  rw [hbyte]
  exact ⟨hlow, hhigh⟩

theorem decimal_inj {k : Nat} (h : decimal n = decimal k) : n = k := by
  have hback : ∀ n, (decimal n).map (fun b => Char.ofNat b.toNat) = Nat.toDigits 10 n := by
    intro n
    rw [decimal, map_map]
    calc (Nat.toDigits 10 n).map ((fun b => Char.ofNat b.toNat) ∘ byte)
        = (Nat.toDigits 10 n).map id := by
          apply map_congr_left
          intro c hc
          simp [(toNat_digit hc).2.2]
      _ = Nat.toDigits 10 n := map_id _
  have hdigits : Nat.toDigits 10 n = Nat.toDigits 10 k := by rw [← hback, h, hback]
  have hnumbers := congrArg (fun digits => Nat.ofDigitChars 10 digits 0) hdigits
  simpa using hnumbers

theorem toNat_of_mem_signed {n : Int} (h : b ∈ signed n) :
    b = byte '-' ∨ 0x30 ≤ b.toNat ∧ b.toNat ≤ 0x39 := by
  cases n with
  | ofNat n => exact .inr (toNat_of_mem_decimal h)
  | negSucc n =>
    rcases mem_cons.mp h with heq | hmem
    · exact .inl heq
    · exact .inr (toNat_of_mem_decimal hmem)

theorem signed_inj {n k : Int} (h : signed n = signed k) : n = k := by
  have hminus : ∀ n k, decimal n ≠ byte '-' :: decimal k := by
    intro n k heq
    have hdigit : byte '-' ∈ decimal n := heq ▸ mem_cons_self
    exact absurd (toNat_of_mem_decimal hdigit).1 (by decide)
  cases n with
  | ofNat n =>
    cases k with
    | ofNat k => rw [decimal_inj h]
    | negSucc k => exact absurd h (hminus _ _)
  | negSucc n =>
    cases k with
    | ofNat k => exact absurd h.symm (hminus _ _)
    | negSucc k =>
      have hdigits : decimal (n + 1) = decimal (k + 1) := (cons.inj h).2
      rw [Nat.succ.inj (decimal_inj hdigits)]

theorem hexDigits_inj {digit : Nat → UInt8} (hdigit : ∀ a b : Fin 16, digit a = digit b → a = b)
    {a : UInt8} (h : hexDigits digit 2 a.toNat = hexDigits digit 2 b.toNat) : a = b := by
  have hinj : ∀ a b, digit (a % 16) = digit (b % 16) → a % 16 = b % 16 := by
    intro a b heq
    have ha : a % 16 < 16 := Nat.mod_lt _ (by decide)
    have hb : b % 16 < 16 := Nat.mod_lt _ (by decide)
    exact Fin.mk.inj (hdigit ⟨a % 16, ha⟩ ⟨b % 16, hb⟩ heq)
  simp only [hexDigits, nil_append, cons_append, cons.injEq, and_true] at h
  have hhigh := hinj _ _ h.1
  have hlow := hinj _ _ h.2
  have ha := a.toNat_lt
  have hb := b.toNat_lt
  exact UInt8.toNat_inj.mp (by omega)

theorem hex_inj {text' : Bytes} (h : hex text = hex text') : text = text' := by
  induction text generalizing text' with
  | nil =>
    cases text' with
    | nil => rfl
    | cons b rest => simp [hex, hexDigits] at h
  | cons a rest ih =>
    cases text' with
    | nil => simp [hex, hexDigits] at h
    | cons b rest' =>
      obtain ⟨hdigits, hrest⟩ := append_inj h rfl
      rw [hexDigits_inj (by decide) hdigits, ih hrest]

theorem forall_mem_hex {P : UInt8 → Prop} (hdigit : ∀ d : Fin 16, P (lowerDigit d))
    (h : b ∈ hex text) : P b := by
  obtain ⟨k, -, hk⟩ := mem_flatMap.mp h
  simp only [hexDigits, nil_append, cons_append, mem_cons, not_mem_nil,
    or_false] at hk
  rcases hk with rfl | rfl
  · exact hdigit ⟨_, Nat.mod_lt _ (by decide)⟩
  · exact hdigit ⟨_, Nat.mod_lt _ (by decide)⟩

end Digits

section Pieces

variable {separator : UInt8} {name : Bytes}

theorem splitFrom_found (found : List Bytes) (opened text : Bytes) :
    splitFrom separator found opened text =
      found.reverse ++ splitFrom separator [] opened text := by
  induction text generalizing found opened with
  | nil => simp [splitFrom]
  | cons b rest ih =>
    rw [splitFrom, splitFrom]
    split
    · rw [ih, ih [opened.reverse]]
      simp
    · rw [ih]

theorem splitFrom_plain (found : List Bytes) (opened : Bytes) (h : separator ∉ name) :
    splitFrom separator found opened name = found.reverse ++ [opened.reverse ++ name] := by
  induction name generalizing opened with
  | nil => simp [splitFrom]
  | cons b rest ih =>
    have hb : b ≠ separator := fun heq => h (heq ▸ mem_cons_self)
    rw [splitFrom, if_neg hb, ih _ fun hmem => h (mem_cons_of_mem _ hmem)]
    simp

theorem splitAt_plain (h : separator ∉ name) : splitAt separator name = [name] := by
  simp [splitAt, splitFrom_plain _ _ h]

theorem splitAt_append_cons (text more : Bytes) :
    splitAt separator (text ++ separator :: more) =
      splitAt separator text ++ splitAt separator more := by
  suffices hfrom : ∀ found opened, splitFrom separator found opened (text ++ separator :: more) =
      splitFrom separator found opened text ++ splitAt separator more from hfrom [] []
  induction text with
  | nil =>
    intro found opened
    rw [nil_append, splitFrom, splitFrom, if_pos rfl, splitFrom_found]
    rfl
  | cons b rest ih =>
    intro found opened
    rw [cons_append, splitFrom, splitFrom]
    split
    · exact ih _ _
    · exact ih _ _

theorem splitAt_cons (text : Bytes) :
    splitAt separator (separator :: text) = [] :: splitAt separator text :=
  splitAt_append_cons [] text

theorem splitAt_concat (text : Bytes) (h : separator ∉ name) :
    splitAt separator (text ++ separator :: name) = splitAt separator text ++ [name] := by
  rw [splitAt_append_cons, splitAt_plain h]

theorem splitAt_append (h : separator ∉ name) (text : Bytes) :
    splitAt separator (name ++ separator :: text) = name :: splitAt separator text := by
  rw [splitAt_append_cons, splitAt_plain h]
  rfl

theorem length_splitFrom (found : List Bytes) (opened text : Bytes) :
    (splitFrom separator found opened text).length = found.length + 1 + text.count separator := by
  fun_induction splitFrom separator found opened text with
  | case1 found opened => simp
  | case2 found opened rest ih =>
    rw [ih, count_cons_self, length_cons]
    omega
  | case3 found opened b rest hb ih => rw [ih, count_cons_of_ne hb]

theorem length_splitAt (text : Bytes) :
    (splitAt separator text).length = text.count separator + 1 := by
  rw [splitAt, length_splitFrom, length_nil, Nat.zero_add, Nat.add_comm]

theorem getElem?_splitAt {above below : Bytes}
    (habove : above = [] ∨ above.getLast? = some separator)
    (hname : separator ∉ name) (hbelow : below = [] ∨ below.head? = some separator) :
    (splitAt separator (above ++ name ++ below))[above.count separator]? = some name := by
  have hfirst : (splitAt separator (name ++ below))[0]? = some name := by
    rcases hbelow with rfl | hhead
    · rw [append_nil, splitAt_plain hname]
      rfl
    · obtain ⟨rest, rfl⟩ := head?_eq_some_iff.mp hhead
      rw [splitAt_append hname]
      rfl
  rcases habove with rfl | hlast
  · exact hfirst
  · obtain ⟨lines, rfl⟩ := getLast?_eq_some_iff.mp hlast
    have hcount : (lines ++ [separator]).count separator = (splitAt separator lines).length := by
      rw [length_splitAt, count_append, count_singleton_self]
    rw [append_assoc, append_assoc, singleton_append, splitAt_append_cons, hcount,
      getElem?_append_right (Nat.le_refl _), Nat.sub_self]
    exact hfirst

theorem mem_splitFrom {found : List Bytes} {opened piece : Bytes}
    (h : piece ∈ splitFrom separator found opened text) :
    piece ∈ found ∨ ∀ b ∈ piece, b ∈ opened ∨ b ≠ separator ∧ b ∈ text := by
  fun_induction splitFrom separator found opened text with
  | case1 found opened =>
    simp only [mem_reverse, mem_cons] at h
    rcases h with rfl | hfound
    · exact .inr fun b hb => .inl (mem_reverse.mp hb)
    · exact .inl hfound
  | case2 found opened rest ih =>
    rcases ih h with hfound | hrest
    · rcases mem_cons.mp hfound with rfl | hfound
      · exact .inr fun b hb => .inl (mem_reverse.mp hb)
      · exact .inl hfound
    · exact .inr fun b hb => .inr <| ((hrest b hb).resolve_left not_mem_nil).imp_right
        (mem_cons_of_mem _)
  | case3 found opened b rest hb ih =>
    refine (ih h).imp_right fun hrest other hother => ?_
    rcases hrest other hother with hopened | ⟨hplain, hmem⟩
    · rcases mem_cons.mp hopened with rfl | hopened
      · exact .inr ⟨hb, mem_cons_self⟩
      · exact .inl hopened
    · exact .inr ⟨hplain, mem_cons_of_mem _ hmem⟩

theorem mem_splitAt {piece : Bytes} (h : piece ∈ splitAt separator text) (hb : b ∈ piece) :
    b ≠ separator ∧ b ∈ text :=
  ((mem_splitFrom h).resolve_left not_mem_nil b hb).resolve_left not_mem_nil

theorem join_concat (between name : Bytes) (h : pieces ≠ []) :
    join between (pieces ++ [name]) = join between pieces ++ between ++ name := by
  induction pieces with
  | nil => exact absurd rfl h
  | cons piece rest ih =>
    cases rest with
    | nil => simp [join]
    | cons next rest =>
      have hrest := ih (cons_ne_nil _ _)
      simp only [join, cons_append, intercalate_cons_cons] at hrest ⊢
      rw [hrest]
      simp only [append_assoc]

theorem splitAt_join (hne : pieces ≠ []) (h : ∀ piece ∈ pieces, separator ∉ piece) :
    splitAt separator (join [separator] pieces) = pieces := by
  induction pieces with
  | nil => exact absurd rfl hne
  | cons first rest ih =>
    obtain ⟨hfirst, hrest⟩ := forall_mem_cons.mp h
    cases rest with
    | nil => simpa [join] using splitAt_plain hfirst
    | cons next rest =>
      have hjoin : join [separator] (first :: next :: rest) =
          first ++ separator :: join [separator] (next :: rest) := by
        simp [join]
      rw [hjoin, splitAt_append hfirst, ih (cons_ne_nil _ _) hrest]

theorem mem_join {separator : Bytes} (h : b ∈ join separator pieces) :
    b ∈ separator ∨ ∃ piece ∈ pieces, b ∈ piece := by
  induction pieces with
  | nil => simp [join] at h
  | cons piece rest ih =>
    cases rest with
    | nil => exact .inr ⟨piece, mem_cons_self, by simpa [join] using h⟩
    | cons next rest =>
      simp only [join, intercalate_cons_cons, mem_append] at h
      rcases h with (hpiece | hseparator) | hrest
      · exact .inr ⟨piece, mem_cons_self, hpiece⟩
      · exact .inl hseparator
      · rcases ih hrest with hseparator | ⟨other, hother, hmem⟩
        · exact .inl hseparator
        · exact .inr ⟨other, mem_cons_of_mem _ hother, hmem⟩

theorem join_inj {pieces' : List Bytes} (hne : pieces ≠ []) (hne' : pieces' ≠ [])
    (h : ∀ piece ∈ pieces, separator ∉ piece) (h' : ∀ piece ∈ pieces', separator ∉ piece)
    (heq : join [separator] pieces = join [separator] pieces') : pieces = pieces' := by
  rw [← splitAt_join hne h, heq, splitAt_join hne' h']

theorem append_cons_inj {first first' second second' : Bytes}
    (h : separator ∉ first) (h' : separator ∉ first')
    (heq : first ++ separator :: second = first' ++ separator :: second') :
    first = first' ∧ second = second' := by
  induction first generalizing first' with
  | nil =>
    cases first' with
    | nil => exact ⟨rfl, (cons.inj heq).2⟩
    | cons b rest => exact absurd (cons.inj heq).1 fun hb => h' (hb ▸ mem_cons_self)
  | cons b rest ih =>
    cases first' with
    | nil => exact absurd (cons.inj heq).1 fun hb => h (hb ▸ mem_cons_self)
    | cons b' rest' =>
      obtain ⟨hb, hrest⟩ := cons.inj heq
      have hih := ih (fun hmem => h (mem_cons_of_mem _ hmem))
        (fun hmem => h' (mem_cons_of_mem _ hmem)) hrest
      exact ⟨by rw [hb, hih.1], hih.2⟩

end Pieces

section Lines

/-- The byte that ends a line. -/
def newline : UInt8 := 0x0A

def OneLine (text : Bytes) : Prop := newline ∉ text

instance (text : Bytes) : Decidable (OneLine text) := inferInstanceAs (Decidable (newline ∉ text))

@[simp] theorem oneLine_cons : OneLine (b :: text) ↔ newline ≠ b ∧ OneLine text := by
  simp [OneLine]

@[simp] theorem oneLine_append {more : Bytes} :
    OneLine (text ++ more) ↔ OneLine text ∧ OneLine more := by
  simp [OneLine]

def OneLines (texts : List Bytes) : Prop := ∀ text ∈ texts, OneLine text

@[simp] theorem oneLines_nil : OneLines [] := forall_mem_nil _

@[simp] theorem oneLines_cons :
    OneLines (text :: texts) ↔ OneLine text ∧ OneLines texts := forall_mem_cons

@[simp] theorem oneLines_append {more : List Bytes} :
    OneLines (texts ++ more) ↔ OneLines texts ∧ OneLines more := forall_mem_append

theorem oneLine_replicate (count : Nat) (h : newline ≠ b) :
    OneLine (List.replicate count b) := fun hmem => h (eq_of_mem_replicate hmem)

theorem oneLine_join {separator : Bytes} (hsep : OneLine separator) (h : OneLines pieces) :
    OneLine (join separator pieces) := by
  unfold join
  induction pieces with
  | nil => exact not_mem_nil
  | cons piece rest ih =>
    obtain ⟨hpiece, hrest⟩ := oneLines_cons.mp h
    cases rest with
    | nil => simpa [intercalate] using hpiece
    | cons next rest =>
      rw [intercalate_cons_cons]
      exact oneLine_append.mpr ⟨oneLine_append.mpr ⟨hpiece, hsep⟩, ih hrest⟩

@[simp] theorem oneLine_decimal (n : Nat) : OneLine (decimal n) := by
  intro hmem
  exact absurd (toNat_of_mem_decimal hmem).1 (by decide)

theorem oneLine_hexDigits {digit : Nat → UInt8} (hdigit : ∀ d : Fin 16, newline ≠ digit d)
    (width n : Nat) : OneLine (hexDigits digit width n) := by
  induction width generalizing n with
  | zero => exact not_mem_nil
  | succ width ih =>
    have hlast : newline ≠ digit (n % 16) := hdigit ⟨n % 16, Nat.mod_lt _ (by decide)⟩
    exact oneLine_append.mpr ⟨ih _, by simpa [OneLine] using hlast⟩

end Lines

end Shading.Text
