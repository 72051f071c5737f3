import Shading.Diagnostic
import Shading.Program.Basic

/-!
Syntax trees of the shading language, with the places that checks report.

A tree is read as far as its source allows. Where reading stopped, the parts
that were not read hold the failure instead, so a tree can be checked in the
order of its source and the first thing wrong with it, of either kind, is the
one that is reported.
-/

namespace Shading

abbrev Part (α : Type) := Except Diagnostic α

structure Name where
  text : Bytes
  pos : Position
  deriving DecidableEq, Repr

def vectorSize? (name : Bytes) : Option UInt32 :=
  if name = Text.utf8 "vec2" then some 2
  else if name = Text.utf8 "vec3" then some 3
  else if name = Text.utf8 "vec4" then some 4
  else none

inductive TypeSyntax where
  | missing (why : Diagnostic)
  | named (name : Name)
  | vector (pos : Position) (size : UInt32) (component : TypeSyntax) (close : Part Position)
  deriving Repr

namespace TypeSyntax

def start : TypeSyntax → Position
  | .missing why => why.pos
  | .named name => name.pos
  | .vector pos _ _ _ => pos

def last : TypeSyntax → Position
  | .missing why => why.pos
  | .named name => name.pos
  | .vector _ _ _ (.ok pos) => pos
  | .vector _ _ _ (.error why) => why.pos

end TypeSyntax

inductive Expr where
  | missing (why : Diagnostic)
  | var (name : Name)
  | number (bits : UInt32) (pos : Position)
  | paren (pos : Position) (inner : Expr) (close : Part Position)
  | vector (pos : Position) (first : Expr) (rest : List Expr) (close : Part Position)
  | sum (op : SumOperator) (opPos : Position) (left right : Expr)
  | scale (op : ScaleOperator) (opPos : Position) (left right : Expr)
  | stopped (operand : Expr) (why : Diagnostic)

namespace Expr

def closePos : Part Position → Position
  | .ok pos => pos
  | .error why => why.pos

def start : Expr → Position
  | .missing why => why.pos
  | .var name => name.pos
  | .number _ pos => pos
  | .paren pos _ _ => pos
  | .vector pos _ _ _ => pos
  | .sum _ _ left _ => left.start
  | .scale _ _ left _ => left.start
  | .stopped operand _ => operand.start

def last : Expr → Position
  | .missing why => why.pos
  | .var name => name.pos
  | .number _ pos => pos
  | .paren _ _ close => closePos close
  | .vector _ _ _ close => closePos close
  | .sum _ _ _ right => right.last
  | .scale _ _ _ right => right.last
  | .stopped operand _ => operand.last

end Expr

inductive Stmt where
  | declare (pos : Position) (name : Part Name) (type : TypeSyntax) (equal : Part Position)
      (value : Expr) (close : Part Position)
  | leave (pos : Position) (close : Position)
  | giveBack (pos : Position) (value : Expr) (close : Part Position)
  | group (pos : Position) (body : List Stmt) (close : Part Position)
  | evaluate (value : Expr) (close : Part Position)
  | assign (target : Expr) (opPos : Position) (value : Expr) (close : Part Position)

def Stmt.start : Stmt → Position
  | .declare pos .. => pos
  | .leave pos _ => pos
  | .giveBack pos _ _ => pos
  | .group pos _ _ => pos
  | .evaluate value _ => value.start
  | .assign target .. => target.start

structure Placement where
  pos : Position
  value : Part (Int64 × Position)
  deriving Repr

structure MemberSyntax where
  builtin : Builtin
  name : Part Name
  type : TypeSyntax
  close : Part Position
  deriving Repr

inductive Item where
  | stage (pos : Position) (stage : Stage) (close : Part Position)
  | builtin (pos : Position) (builtin : Builtin) (close : Part Position)
  | global (pos : Position) (direction : Direction) (name : Part Name) (type : TypeSyntax)
      (placement : Part (Option Placement))
  | record (pos : Position) (name : Part Name) (members : List MemberSyntax)
      (close : Part Position)
  | procedure (pos : Position) (name : Part Name) (result : TypeSyntax) (body : List Stmt)
      (close : Part Position)

structure SourceTree where
  items : List Item
  ending : Part Position

end Shading
