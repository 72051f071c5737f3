import Shading.Text.Composed

/-!
File paths: elements divided by slashes.
-/

namespace Shading.Path

open Text (byte utf8)

def separator : UInt8 := byte '/'

def isAbsolute (path : Bytes) : Bool := path.head? = some separator

def resolve (rooted : Bool) (done : List Bytes) : List Bytes → List Bytes
  | [] => done.reverse
  | element :: rest =>
    if element = [] || element = utf8 "." then resolve rooted done rest
    else if element = utf8 ".." then
      match done with
      | last :: earlier =>
        if last = utf8 ".." then resolve rooted (element :: done) rest
        else resolve rooted earlier rest
      | [] => resolve rooted (if rooted then [] else [element]) rest
    else resolve rooted (element :: done) rest

def clean (path : Bytes) : Bytes :=
  let rooted := isAbsolute path
  let elements := Text.join [separator] (resolve rooted [] (Text.splitAt separator path))
  if rooted then separator :: elements
  else if elements = [] then utf8 "." else elements

def join (parts : List Bytes) : Bytes :=
  match parts.filter (· ≠ []) with
  | [] => []
  | parts => clean (Text.join [separator] parts)

def lastElement (path : Bytes) : Bytes := (path.reverse.takeWhile (· ≠ separator)).reverse

def directory (path : Bytes) : Bytes := clean (path.take (path.length - (lastElement path).length))

def extension (path : Bytes) : Bytes :=
  let element := lastElement path
  if element.contains (byte '.') then
    byte '.' :: (element.reverse.takeWhile (· ≠ byte '.')).reverse
  else []

def withExtension (path ending : Bytes) : Bytes :=
  path.take (path.length - (extension path).length) ++ ending

def absolute (base path : Bytes) : Bytes :=
  if isAbsolute path then clean path else join [base, path]

def key (path : Bytes) : Bytes := Text.composed (clean path)

end Shading.Path
