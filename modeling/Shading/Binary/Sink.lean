import Shading.Binary.Instruction

/-!
Receivers of words. A binary is sent word by word, first to a counter that
tells how much room it needs, and then into a buffer of that size.
-/

namespace Shading.Binary

structure Sink (σ : Type) where
  word : σ → UInt32 → σ
  words : σ → List UInt32 → σ

structure Buffer where
  size : Nat
  offset : Nat
  written : Bytes
  overflow : Bool
  deriving DecidableEq, Repr

namespace Buffer

def ofSize (size : Nat) : Buffer := ⟨size, 0, [], false⟩

def push (b : Buffer) (word : UInt32) : Buffer :=
  if b.size < b.offset + 4 then { b with overflow := true }
  else { b with offset := b.offset + 4, written := (bytesOfWord word).reverse ++ b.written }

def bytes (b : Buffer) : Bytes := b.written.reverse ++ List.replicate (b.size - b.offset) 0

end Buffer

namespace Sink

def counter : Sink Nat where
  word count _ := count + 1
  words count received := count + received.length

def emitter : Sink Buffer where
  word := Buffer.push
  words := List.foldl Buffer.push

end Sink

end Shading.Binary
