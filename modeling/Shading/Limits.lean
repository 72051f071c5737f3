import Shading.Text.Basic

/-!
Limits on the size of a compilation, and the error of exceeding one. A limit
of zero or less stands for its default.
-/

namespace Shading

inductive Pool where
  | types
  | procedures
  | entryPoints
  | globals
  | locals
  | expressions
  | constants
  | interfaces
  | words
  | scopes
  | recordMembers
  | vectorElements
  | named (what : Bytes)
  deriving DecidableEq, Repr

def Pool.what : Pool → Bytes
  | .types => Text.utf8 "types"
  | .procedures => Text.utf8 "procedures"
  | .entryPoints => Text.utf8 "entry points"
  | .globals => Text.utf8 "globals"
  | .locals => Text.utf8 "local variables"
  | .expressions => Text.utf8 "expressions"
  | .constants => Text.utf8 "constants"
  | .interfaces => Text.utf8 "interfaces"
  | .words => Text.utf8 "instruction words"
  | .scopes => Text.utf8 "nested scopes"
  | .recordMembers => Text.utf8 "record members"
  | .vectorElements => Text.utf8 "vector elements"
  | .named what => what

def Pool.overflowMessage (p : Pool) : Bytes :=
  p.what ++ Text.utf8 " index overflow: out of range"

structure Exhausted where
  pool : Pool
  limit : Int64
  deriving DecidableEq, Repr

def Exhausted.message (e : Exhausted) : Bytes :=
  Text.utf8 "exceeded maximum number of " ++ e.pool.what ++ Text.utf8 " (" ++
    Text.signed e.limit.toInt ++ Text.utf8 ")"

structure Limits where
  types : Int64 := 0
  procedures : Int64 := 0
  entryPoints : Int64 := 0
  globals : Int64 := 0
  locals : Int64 := 0
  expressions : Int64 := 0
  constants : Int64 := 0
  interfaces : Int64 := 0
  words : Int64 := 0
  scopeDepth : Int64 := 0
  recordMembers : Int64 := 0
  vectorElements : Int64 := 0
  deriving DecidableEq, Repr

namespace Limits

def default : Limits where
  types := 256
  procedures := 32
  entryPoints := 8
  globals := 32
  locals := 128
  expressions := 1024
  constants := 256
  interfaces := 64
  words := 16384
  scopeDepth := 16
  recordMembers := 256
  vectorElements := 1024

def resolve (limit fallback : Int64) : Int64 := if limit ≤ 0 then fallback else limit

def withDefaults (l : Limits) : Limits where
  types := resolve l.types default.types
  procedures := resolve l.procedures default.procedures
  entryPoints := resolve l.entryPoints default.entryPoints
  globals := resolve l.globals default.globals
  locals := resolve l.locals default.locals
  expressions := resolve l.expressions default.expressions
  constants := resolve l.constants default.constants
  interfaces := resolve l.interfaces default.interfaces
  words := resolve l.words default.words
  scopeDepth := resolve l.scopeDepth default.scopeDepth
  recordMembers := resolve l.recordMembers default.recordMembers
  vectorElements := resolve l.vectorElements default.vectorElements

def toList (l : Limits) : List Int64 :=
  [l.types, l.procedures, l.entryPoints, l.globals, l.locals, l.expressions, l.constants,
    l.interfaces, l.words, l.scopeDepth, l.recordMembers, l.vectorElements]

end Limits

def fits (count : Nat) (limit : Int64) : Bool := (count : Int) ≤ limit.toInt

end Shading
