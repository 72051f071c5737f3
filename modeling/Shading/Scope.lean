import Shading.Program.Basic

/-!
Scopes: the variables that are visible, the latest last, and for every open
scope the number of variables there were when it was opened.
-/

namespace Shading

structure Scopes where
  locals : Arena Local
  marks : List Nat
  maxDepth : Int64
  deriving Repr

inductive ScopeError where
  | limit (e : Exhausted)
  | indexOverflow (pool : Pool)
  | underflow
  | shrunk (size mark : Nat)
  deriving DecidableEq, Repr

open Text in
def ScopeError.message : ScopeError → Bytes
  | .limit e => e.message
  | .indexOverflow pool => pool.overflowMessage
  | .underflow => utf8 "scope stack underflow"
  | .shrunk size mark =>
    utf8 "scope stack shrank below its marker (" ++ decimal size ++ utf8 " < " ++ decimal mark ++
      utf8 ")"

namespace Scopes

def ofLimits (limits : Limits) : Scopes := ⟨.empty .locals limits.locals, [], limits.scopeDepth⟩

def depth (s : Scopes) : Nat := s.marks.length

/-- Scopes are changed in place: an operation that fails leaves what it has changed by then. -/
abbrev Change := EStateM ScopeError Scopes

namespace Change

def push : Change Unit := do
  let s ← get
  unless fits (s.depth + 1) s.maxDepth do throw (.limit ⟨.scopes, s.maxDepth⟩)
  set { s with marks := s.locals.size :: s.marks }

def pop : Change Unit := do
  let s ← get
  match s.marks with
  | [] => throw .underflow
  | mark :: marks =>
    let some locals := s.locals.truncate? mark | throw (.shrunk s.locals.size mark)
    modify ({ · with marks })
    modify ({ · with locals })

def add (place : Local) : Change Unit := do
  let s ← get
  unless s.locals.hasRoom do throw (.limit s.locals.exhausted)
  unless s.locals.hasIndex do throw (.indexOverflow s.locals.pool)
  set { s with locals := s.locals.add place }

/-- The scopes behind a change that succeeds. -/
def after (change : Change Unit) (s : Scopes) : Except ScopeError Scopes :=
  match change s with
  | .ok _ t => .ok t
  | .error e _ => .error e

end Change

def push (s : Scopes) : Except ScopeError Scopes := Change.push.after s

def pop (s : Scopes) : Except ScopeError Scopes := Change.pop.after s

def add (s : Scopes) (place : Local) : Except ScopeError Scopes := (Change.add place).after s

def lookup (s : Scopes) (name : Bytes) : Option Local :=
  s.locals.toList.reverse.find? fun place => place.name = name

end Scopes

end Shading
