import Shading.DiskCache.Entry

/-!
The written form of cache entries: an entry is read as it was written, whatever
follows it, as long as the size of its code fits in four bytes; of a longer code
only a part is read. Bytes that start like a binary hold no entry.
-/

namespace Shading.CacheEntry

open List

variable {count : Nat} {bytes : Bytes} {code : Option Bytes} {e : CacheEntry} {n fuel : Nat}

theorem bigEndian_succ (count n : Nat) :
    bigEndian (count + 1) n = bigEndian count (n / 256) ++ [n.toUInt8] := by
  simp only [bigEndian, range_succ, map_append, map_cons, map_nil]
  congr 1
  · apply map_congr_left
    intro i hi
    have hlt : i < count := mem_range.mp hi
    have hpow : count + 1 - 1 - i = (count - 1 - i) + 1 := by omega
    simp only [hpow, Nat.pow_eq, Nat.pow_succ', Nat.div_div_eq_div_mul]
  · simp

theorem length_bigEndian (count n : Nat) : (bigEndian count n).length = count := by
  simp [bigEndian]

theorem foldl_bigEndian (count n : Nat) :
    (bigEndian count n).foldl (fun n b => n * 256 + b.toNat) 0 = n % Nat.pow 256 count := by
  induction count generalizing n with
  | zero => exact (Nat.mod_one n).symm
  | succ count ih =>
    have hbyte : n.toUInt8.toNat = n % 256 := by simp
    rw [bigEndian_succ, foldl_append, ih, Nat.pow_eq, Nat.pow_eq, Nat.pow_succ', Nat.mod_mul]
    simp only [foldl_cons, foldl_nil, hbyte]
    omega

/-- What is read again of code: its size is written in four bytes. -/
def kept (code : Bytes) : Bytes := code.take (code.length % 0x100000000)

theorem kept_of_lt {code : Bytes} (h : code.length < 0x100000000) : kept code = code := by
  rw [kept, Nat.mod_eq_of_lt h, take_length]

namespace Decode

variable {rest : Bytes}

theorem run_bind {α β : Type} (x : Decode α) (f : α → Decode β) (bytes : Bytes) :
    (x >>= f) bytes = (x bytes).bind fun p => f p.1 p.2 := rfl

theorem run_map {α β : Type} (f : α → β) (x : Decode α) (bytes : Bytes) :
    (f <$> x) bytes = (x bytes).map fun p => (f p.1, p.2) := by
  change ((x bytes).bind fun p => some (f p.1, p.2)) = _
  cases x bytes with
  | none => rfl
  | some p => rfl

theorem run_pure {α : Type} (a : α) (bytes : Bytes) : (pure a : Decode α) bytes = some (a, bytes) :=
  rfl

theorem run_get (bytes : Bytes) : (get : Decode Bytes) bytes = some (bytes, bytes) := rfl

theorem byte_run (b : UInt8) : byte (b :: rest) = some (b, rest) := rfl

theorem take_run (h : count ≤ bytes.length) :
    take count (bytes ++ rest) = some (bytes.take count, bytes.drop count ++ rest) := by
  have htaken : (bytes ++ rest).take count = bytes.take count := take_append_of_le_length h
  have hleft : (bytes ++ rest).drop count = bytes.drop count ++ rest := drop_append_of_le_length h
  rw [take, run_bind, run_get]
  simp only [Option.bind_some, htaken, hleft, length_take_of_le h, if_true]
  rfl

theorem number_run (count n : Nat) :
    number count (bigEndian count n ++ rest) = some (n % Nat.pow 256 count, rest) := by
  have hlength := length_bigEndian count n
  rw [number, run_bind, take_run (Nat.le_of_eq hlength.symm), Option.bind_some, run_pure,
    take_of_length_le (Nat.le_of_eq hlength), drop_of_length_le (Nat.le_of_eq hlength),
    foldl_bigEndian, nil_append]

theorem size_name (h : n < 32) : size (0xA0 ||| n.toUInt8) = pure (some n) := by
  have hcode : ∀ n : Nat, n < 32 → 0xA0 ||| n.toUInt8 ≠ 0xC0 ∧ 0xA0 ≤ 0xA0 ||| n.toUInt8 ∧
      0xA0 ||| n.toUInt8 < 0xC0 ∧ (0xA0 ||| n.toUInt8).toNat - 0xA0 = n := by decide
  obtain ⟨hne, hle, hlt, hsize⟩ := hcode n h
  rw [size, if_neg hne, if_pos (by simp [hle, hlt]), hsize]

theorem bytes?_name {name : Bytes} (h : name.length < 32) :
    bytes? (encodeName name ++ rest) = some (some name, rest) := by
  simp only [bytes?, encodeName, cons_append, run_bind, byte_run, Option.bind_some,
    size_name h, run_pure, run_map, take_run (Nat.le_refl _), take_length, drop_length, nil_append,
    Option.map_some]

theorem bytes?_sized {code : UInt8} (hsize : size code = some <$> number count)
    (hkept : bytes.length % Nat.pow 256 count = bytes.length % 0x100000000) :
    bytes? (code :: (bigEndian count bytes.length ++ bytes) ++ rest) =
      some (some (kept bytes), bytes.drop (bytes.length % 0x100000000) ++ rest) := by
  simp only [bytes?, cons_append, append_assoc, run_bind, byte_run, Option.bind_some, hsize,
    run_map, number_run, Option.map_some, hkept, take_run (Nat.mod_le _ _), kept]

theorem bytes?_code (code : Option Bytes) (rest : Bytes) :
    ∃ left, bytes? (encodeCode code ++ rest) = some (code.map kept, left ++ rest) := by
  cases code with
  | none => exact ⟨[], rfl⟩
  | some bytes =>
    refine ⟨bytes.drop (bytes.length % 0x100000000), ?_⟩
    rw [encodeCode]
    split
    next hone => exact bytes?_sized rfl (by rw [Nat.mod_eq_of_lt hone, Nat.mod_eq_of_lt (by omega)])
    next =>
      split
      next htwo => exact bytes?_sized rfl (by rw [Nat.mod_eq_of_lt htwo, Nat.mod_eq_of_lt (by omega)])
      next => exact bytes?_sized rfl rfl

theorem integer_run (n : UInt16) :
    integer (0xCD :: bigEndian 2 n.toNat ++ rest) = some (n, rest) := by
  have hnumber : integer (0xCD :: bigEndian 2 n.toNat ++ rest) =
      (Nat.toUInt16 <$> number 2) (bigEndian 2 n.toNat ++ rest) := rfl
  rw [hnumber, run_map, number_run, Nat.mod_eq_of_lt n.toNat_lt]
  simp

theorem fields_schema (schema : UInt16) :
    fields (fuel + 1) (count + 1) e
      (encodeName schemaName ++ (0xCD :: bigEndian 2 schema.toNat) ++ rest) =
      fields fuel count { e with schema } rest := by
  have hname : schemaName.length < 32 := by decide
  rw [fields, append_assoc, run_bind, bytes?_name hname]
  simp only [Option.bind_some, Option.getD_some, if_true, run_bind]
  rw [integer_run]
  rfl

theorem fields_code (code : Option Bytes) (rest : Bytes) :
    ∃ left, fields (fuel + 1) (count + 1) e (encodeName codeName ++ encodeCode code ++ rest) =
      fields fuel count { e with code := code.map kept } (left ++ rest) := by
  obtain ⟨left, hleft⟩ := bytes?_code code rest
  refine ⟨left, ?_⟩
  have hname : codeName.length < 32 := by decide
  have hother : codeName ≠ schemaName := by decide
  rw [fields, append_assoc, run_bind, bytes?_name hname]
  simp only [Option.bind_some, Option.getD_some, if_neg hother, if_true, run_bind]
  rw [hleft]
  rfl

theorem entry_map (body : Bytes) : entry (0x82 :: body) = fields (body.length + 1) 2 {} body := by
  have hsize : mapSize 0x82 = pure 2 := rfl
  rw [entry, run_bind, byte_run]
  dsimp only [Option.bind_some]
  rw [if_neg (by decide), if_pos (by rfl), run_bind, hsize]
  simp only [run_pure, Option.bind_some, run_bind, run_get]

end Decode

theorem decode?_encode (e : CacheEntry) (rest : Bytes) :
    decode? (e.encode ++ rest) = some { e with code := e.code.map kept } := by
  have hencode : e.encode ++ rest = 0x82 :: (encodeName schemaName ++
      (0xCD :: bigEndian 2 e.schema.toNat) ++
      (encodeName codeName ++ encodeCode e.code ++ rest)) := by
    simp only [encode, cons_append, append_assoc]
  have hfields : ∀ fuel, ∃ left, Decode.fields (fuel + 1 + 1) 2 {} (encodeName schemaName ++
      (0xCD :: bigEndian 2 e.schema.toNat) ++ (encodeName codeName ++ encodeCode e.code ++ rest)) =
      some ({ e with code := e.code.map kept }, left ++ rest) := by
    intro fuel
    obtain ⟨left, hleft⟩ := Decode.fields_code e.code rest
    refine ⟨left, ?_⟩
    rw [Decode.fields_schema, hleft, Decode.fields]
    rfl
  obtain ⟨left, hrun⟩ := hfields _
  rw [hencode, decode?, StateT.run, Decode.entry_map]
  exact congrArg (Option.map (·.1)) hrun

theorem decode?_magic (rest : Bytes) : decode? (0x03 :: rest) = none := rfl

end Shading.CacheEntry
