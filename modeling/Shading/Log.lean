import Shading.Files
import Shading.Text.Quoted

/-!
Log records and their form on one line: names and values divided by equal
signs, values in quotes where they could be misread.
-/

namespace Shading

inductive LogLevel where
  | debug
  | info
  | warn
  | error
  deriving DecidableEq, Repr

namespace LogLevel

def name : LogLevel → String
  | .debug => "DEBUG"
  | .info => "INFO"
  | .warn => "WARN"
  | .error => "ERROR"

def rank : LogLevel → Nat
  | .debug => 0
  | .info => 1
  | .warn => 2
  | .error => 3

end LogLevel

inductive DiskError where
  | file (e : FileError)
  | decode (key : Bytes)
  deriving DecidableEq, Repr

def DiskError.message : DiskError → Bytes
  | .file e => e.message
  | .decode key => Text.utf8 "decode cache entry " ++ Text.hex key ++ Text.utf8 ": malformed entry"

inductive LogValue where
  | text (text : Bytes)
  | number (n : Int)
  | failure (e : DiskError)
  deriving DecidableEq, Repr

def LogValue.render : LogValue → Bytes
  | .text t => t
  | .number n => Text.signed n
  | .failure e => e.message

structure LogRecord where
  level : LogLevel
  message : String
  values : List (String × LogValue)
  deriving DecidableEq, Repr

namespace LogRecord

open Text

def isPlain : Piece → Bool
  | .stray _ => false
  | .char c =>
    if c.toNat < 0x80 then 0x20 < c.toNat && c ≠ '"' && c ≠ '='
    else isPrintable c.toNat && c.toNat ≠ 0xFFFD

def field (text : Bytes) : Bytes :=
  if text ≠ [] && (pieces text).all isPlain then text else quote text

def line (r : LogRecord) : Bytes :=
  let fields := (utf8 "level=" ++ utf8 r.level.name) :: (utf8 "msg=" ++ field (utf8 r.message)) ::
    r.values.map fun (name, value) => utf8 name ++ utf8 "=" ++ field value.render
  join (utf8 " ") fields ++ utf8 "\n"

end LogRecord

end Shading
