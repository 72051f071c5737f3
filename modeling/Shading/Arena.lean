import Shading.Limits

/-!
Bounded pools. An arena hands out indices in order and refuses an entry beyond
its limit; a word budget counts words against a limit.
-/

namespace Shading

structure Arena (α : Type) where
  items : Array α
  pool : Pool
  limit : Int64
  deriving Repr

namespace Arena

variable {α : Type}

def empty (pool : Pool) (limit : Int64) : Arena α := ⟨#[], pool, limit⟩

def size (a : Arena α) : Nat := a.items.size

def exhausted (a : Arena α) : Exhausted := ⟨a.pool, a.limit⟩

def hasRoom (a : Arena α) : Bool := fits (a.size + 1) a.limit

def hasIndex (a : Arena α) : Bool := a.size < UInt32.size

def add (a : Arena α) (item : α) : Arena α := { a with items := a.items.push item }

def push (a : Arena α) (item : α) : Except Exhausted (Nat × Arena α) :=
  if a.hasRoom then .ok (a.size, a.add item) else .error a.exhausted

def get? (a : Arena α) (index : Nat) : Option α := a.items[index]?

def modify (a : Arena α) (index : Nat) (change : α → α) : Arena α :=
  { a with items := a.items.modify index change }

def truncate? (a : Arena α) (count : Int) : Option (Arena α) :=
  if 0 ≤ count && count ≤ a.size then some { a with items := a.items.take count.toNat } else none

def toList (a : Arena α) : List α := a.items.toList

end Arena

structure WordBudget where
  used : Int64
  limit : Int64
  deriving DecidableEq, Repr

def WordBudget.reserve (b : WordBudget) (count : Int64) : Except Exhausted WordBudget :=
  if b.used + count > b.limit then .error ⟨.words, b.limit⟩
  else .ok { b with used := b.used + count }

end Shading
