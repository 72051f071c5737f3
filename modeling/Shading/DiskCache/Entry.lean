import Shading.Binary.Instruction

/-!
Entries of the disk cache: a schema number and code, written as a map of two
named values in a compact binary form. Reading takes the values in any order
and any encoding of theirs, skips values with other names, and takes missing
ones as empty.
-/

namespace Shading

def entrySchema : UInt16 := 1

structure CacheEntry where
  schema : UInt16 := 0
  code : Option Bytes := none
  deriving DecidableEq, Repr

namespace CacheEntry

def bigEndian (count n : Nat) : Bytes :=
  (List.range count).map fun i => (n / Nat.pow 256 (count - 1 - i)).toUInt8

def schemaName : Bytes := Text.utf8 "Schema"

def codeName : Bytes := Text.utf8 "Code"

def encodeName (name : Bytes) : Bytes := (0xA0 ||| name.length.toUInt8) :: name

def encodeCode : Option Bytes → Bytes
  | none => [0xC0]
  | some code =>
    if code.length < 0x100 then 0xC4 :: (bigEndian 1 code.length ++ code)
    else if code.length < 0x10000 then 0xC5 :: (bigEndian 2 code.length ++ code)
    else 0xC6 :: (bigEndian 4 code.length ++ code)

def encode (e : CacheEntry) : Bytes :=
  0x82 :: (encodeName schemaName ++ (0xCD :: bigEndian 2 e.schema.toNat) ++
    encodeName codeName ++ encodeCode e.code)

abbrev Decode := StateT Bytes Option

namespace Decode

def byte : Decode UInt8 := do
  match ← get with
  | b :: rest => do
    set rest
    pure b
  | [] => failure

def take (count : Nat) : Decode Bytes := do
  let bytes ← get
  let taken := bytes.take count
  if taken.length = count then
    set (bytes.drop count)
    pure taken
  else failure

def number (count : Nat) : Decode Nat := do
  pure ((← take count).foldl (fun n b => n * 256 + b.toNat) 0)

def size (code : UInt8) : Decode (Option Nat) :=
  if code = 0xC0 then pure none
  else if 0xA0 ≤ code && code < 0xC0 then pure (some (code.toNat - 0xA0))
  else if code = 0xD9 || code = 0xC4 then some <$> number 1
  else if code = 0xDA || code = 0xC5 then some <$> number 2
  else if code = 0xDB || code = 0xC6 then some <$> number 4
  else failure

def bytes? : Decode (Option Bytes) := do
  match ← size (← byte) with
  | none => pure none
  | some count => some <$> take count

def mapSize (code : UInt8) : Decode Nat :=
  if 0x80 ≤ code && code < 0x90 then pure (code.toNat - 0x80)
  else if code = 0xDE then number 2
  else if code = 0xDF then number 4
  else failure

def listSize (code : UInt8) : Decode Nat :=
  if 0x90 ≤ code && code < 0xA0 then pure (code.toNat - 0x90)
  else if code = 0xDC then number 2
  else if code = 0xDD then number 4
  else failure

def integer : Decode UInt16 := do
  let code ← byte
  if code = 0xC0 then pure 0
  else if code < 0x80 then pure code.toUInt16
  else if 0xE0 ≤ code then pure (0xFF00 ||| code.toUInt16)
  else if code = 0xCC then Nat.toUInt16 <$> number 1
  else if code = 0xD0 then do
    let n ← number 1
    pure (if n < 0x80 then n else n + 0xFF00).toUInt16
  else if code = 0xCD || code = 0xD1 then Nat.toUInt16 <$> number 2
  else if code = 0xCE || code = 0xD2 then Nat.toUInt16 <$> number 4
  else if code = 0xCF || code = 0xD3 then Nat.toUInt16 <$> number 8
  else failure

def skipStart : Decode Nat := do
  let code ← byte
  if code < 0x80 || 0xE0 ≤ code then pure 0
  else if code < 0x90 then pure ((code.toNat - 0x80) * 2)
  else if code < 0xA0 then pure (code.toNat - 0x90)
  else if code < 0xC0 then plain (code.toNat - 0xA0)
  else
    match code with
    | 0xC0 | 0xC2 | 0xC3 => pure 0
    | 0xCC | 0xD0 => plain 1
    | 0xCD | 0xD1 => plain 2
    | 0xCE | 0xD2 | 0xCA => plain 4
    | 0xCF | 0xD3 | 0xCB => plain 8
    | 0xC4 | 0xD9 => do plain (← number 1)
    | 0xC5 | 0xDA => do plain (← number 2)
    | 0xC6 | 0xDB => do plain (← number 4)
    | 0xDC => number 2
    | 0xDD => number 4
    | 0xDE => do pure ((← number 2) * 2)
    | 0xDF => do pure ((← number 4) * 2)
    | 0xD4 => plain 2
    | 0xD5 => plain 3
    | 0xD6 => plain 5
    | 0xD7 => plain 9
    | 0xD8 => plain 17
    | 0xC7 => do plain ((← number 1) + 1)
    | 0xC8 => do plain ((← number 2) + 1)
    | 0xC9 => do plain ((← number 4) + 1)
    | _ => failure
where
  plain (count : Nat) : Decode Nat := do
    discard <| take count
    pure 0

def skip : Nat → Nat → Decode Unit
  | _, 0 => pure ()
  | 0, _ + 1 => failure
  | fuel + 1, pending + 1 => do
    let inner ← skipStart
    skip fuel (pending + inner)

def fields : Nat → Nat → CacheEntry → Decode CacheEntry
  | _, 0, e => pure e
  | 0, _ + 1, _ => failure
  | fuel + 1, count + 1, e => do
    let name := (← bytes?).getD []
    if name = schemaName then fields fuel count { e with schema := ← integer }
    else if name = codeName then fields fuel count { e with code := ← bytes? }
    else do
      skip ((← get).length + 1) 1
      fields fuel count e

def entry : Decode CacheEntry := do
  let code ← byte
  if code = 0xC0 then pure {}
  else if (0x80 ≤ code && code < 0x90) || code = 0xDE || code = 0xDF then do
    let count ← mapSize code
    fields ((← get).length + 1) count {}
  else do
    match ← listSize code with
    | 0 => pure {}
    | 2 => do
      let schema ← integer
      pure { schema, code := ← bytes? }
    | _ => failure

end Decode

def decode? (bytes : Bytes) : Option CacheEntry := (Decode.entry.run bytes).map (·.1)

end CacheEntry

end Shading
