import Shading.Text.Basic

/-!
Colours on a terminal.
-/

namespace Shading.CommandLine

open Text

inductive Paint where
  | red
  | green
  | yellow
  | blue
  deriving DecidableEq, Repr

def Paint.code : Paint → Nat
  | .red => 31
  | .green => 32
  | .yellow => 33
  | .blue => 34

def paint (colored : Bool) (p : Paint) (text : Bytes) : Bytes :=
  if colored then
    utf8 "\x1b[" ++ decimal p.code ++ utf8 ";1m" ++ text ++ utf8 "\x1b[0;22m"
  else text

def errorLabel (colored : Bool) : Bytes := paint colored .red (utf8 "error:")

def paintVersion (colored : Bool) (version : Bytes) : Bytes :=
  let core := version.takeWhile (· ≠ byte '-')
  let suffix := version.drop (core.length + 1)
  match splitAt (byte '.') core with
  | major :: minor :: patch :: rest =>
    paint colored .yellow major ++ utf8 "." ++ paint colored .green minor ++ utf8 "." ++
      paint colored .blue (join (utf8 ".") (patch :: rest)) ++
      (if suffix = [] then [] else byte '-' :: suffix)
  | _ => version

end Shading.CommandLine
