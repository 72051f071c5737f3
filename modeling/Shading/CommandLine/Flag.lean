import Shading.Text.Quoted

/-!
The flags of a command line. A flag is written with its name behind two dashes
or, if it has one, with its letter behind one dash. Letters of flags that need
no value may stand together. A flag that needs a value takes it from behind an
equal sign, for a letter also from the rest of its word, or else from the next
word. Two dashes alone end the flags.
-/

namespace Shading.CommandLine

open Text

inductive Flag where
  | config
  | color
  | verbose
  | output
  | clean
  | help
  | version
  deriving DecidableEq, Repr

namespace Flag

def name : Flag → Bytes
  | .config => utf8 "config"
  | .color => utf8 "color"
  | .verbose => utf8 "verbose"
  | .output => utf8 "output"
  | .clean => utf8 "clean"
  | .help => utf8 "help"
  | .version => utf8 "version"

def letter? : Flag → Option UInt8
  | .verbose => some (byte 'v')
  | .output => some (byte 'o')
  | .help => some (byte 'h')
  | _ => none

def isSwitch : Flag → Bool
  | .verbose | .clean | .help | .version => true
  | .config | .color | .output => false

def label (f : Flag) : Bytes :=
  match f.letter? with
  | some letter => [byte '-', letter] ++ utf8 ", --" ++ f.name
  | none => utf8 "--" ++ f.name

end Flag

structure Options where
  config : Bytes := []
  color : Option Bytes := none
  verbose : Bool := false
  output : Bytes := []
  clean : Bool := false
  help : Bool := false
  version : Bool := false
  words : List Bytes := []
  deriving DecidableEq, Repr

inductive FlagError where
  | badForm (word : Bytes)
  | unknownName (name : Bytes)
  | unknownLetter (letter : UInt8) (letters : Bytes)
  | nameNeedsValue (flag : Flag)
  | letterNeedsValue (letter : UInt8)
  | badSwitch (flag : Flag) (value : Bytes)
  deriving DecidableEq, Repr

def shownLetter (b : UInt8) : Char :=
  if b < 0x80 then Char.ofNat b.toNat else if b < 0xC0 then Char.ofNat 0xC2 else Char.ofNat 0xC3

def FlagError.message : FlagError → Bytes
  | .badForm word => utf8 "bad flag syntax: " ++ word
  | .unknownName name => utf8 "unknown flag: --" ++ name
  | .unknownLetter letter letters =>
    utf8 "unknown shorthand flag: " ++ quoteLetter (shownLetter letter) ++ utf8 " in -" ++ letters
  | .nameNeedsValue flag => utf8 "flag needs an argument: --" ++ flag.name
  | .letterNeedsValue letter =>
    utf8 "flag needs an argument: " ++ quoteLetter (shownLetter letter) ++ utf8 " in -" ++ [letter]
  | .badSwitch flag value =>
    utf8 "invalid argument " ++ quote value ++ utf8 " for " ++ quote flag.label ++
      utf8 " flag: strconv.ParseBool: parsing " ++ quote value ++ utf8 ": invalid syntax"

def switch? (word : Bytes) : Option Bool :=
  if ["1", "t", "T", "TRUE", "true", "True"].any (utf8 · = word) then some true
  else if ["0", "f", "F", "FALSE", "false", "False"].any (utf8 · = word) then some false
  else none

namespace Options

def setSwitch (o : Options) (flag : Flag) (value : Bytes) (on : Bool) : Except FlagError Options :=
  match flag with
  | .verbose => .ok { o with verbose := on }
  | .clean => .ok { o with clean := on }
  | .help => .ok { o with help := on }
  | .version => .ok { o with version := on }
  | .config | .color | .output => .error (.badSwitch flag value)

def set (o : Options) (flag : Flag) (value : Bytes) : Except FlagError Options :=
  match flag with
  | .config => .ok { o with config := value }
  | .color => .ok { o with color := some value }
  | .output => .ok { o with output := value }
  | flag =>
    match switch? value with
    | some on => o.setSwitch flag value on
    | none => .error (.badSwitch flag value)

end Options

structure Reading where
  options : Options := {}
  pending : Option (Flag × Option UInt8) := none
  ended : Bool := false
  deriving DecidableEq, Repr

namespace Reading

def addWord (r : Reading) (word : Bytes) : Reading :=
  { r with options.words := r.options.words ++ [word] }

def give (r : Reading) (flag : Flag) (value : Bytes) : Except FlagError Reading := do
  pure { r with options := ← r.options.set flag value, pending := none }

def takeName (known : List Flag) (r : Reading) (text : Bytes) : Except FlagError Reading :=
  let name := text.takeWhile (· ≠ byte '=')
  match text.dropWhile (· ≠ byte '='), known.find? (·.name = name) with
  | _, none => .error (.unknownName name)
  | _ :: value, some flag => r.give flag value
  | [], some flag =>
    if flag.isSwitch then r.give flag (utf8 "true") else .ok { r with pending := some (flag, none) }

def takeLetters (known : List Flag) (r : Reading) : Bytes → Except FlagError Reading
  | [] => .ok r
  | letter :: rest =>
    if (utf8 "test.").isPrefixOf (letter :: rest) then .ok r
    else
      match known.find? (·.letter? = some letter) with
      | none => .error (.unknownLetter letter (letter :: rest))
      | some flag =>
        if rest.head? = some (byte '=') && 1 < rest.length then r.give flag (rest.drop 1)
        else if flag.isSwitch then do takeLetters known (← r.give flag (utf8 "true")) rest
        else if rest ≠ [] then r.give flag rest
        else .ok { r with pending := some (flag, some letter) }

def take (known : List Flag) (r : Reading) (word : Bytes) : Except FlagError Reading :=
  match r.pending with
  | some (flag, _) => r.give flag word
  | none =>
    if r.ended then .ok (r.addWord word)
    else
      match word with
      | dash :: b :: rest =>
        if dash ≠ byte '-' then .ok (r.addWord word)
        else if b ≠ byte '-' then takeLetters known r (b :: rest)
        else if rest = [] then .ok { r with ended := true }
        else if rest.head? = some (byte '-') || rest.head? = some (byte '=') then
          .error (.badForm word)
        else takeName known r rest
      | _ => .ok (r.addWord word)

def finish (r : Reading) : Except FlagError Options :=
  match r.pending with
  | none => .ok r.options
  | some (flag, none) => .error (.nameNeedsValue flag)
  | some (_, some letter) => .error (.letterNeedsValue letter)

end Reading

def Options.ofWords (known : List Flag) (words : List Bytes) : Except FlagError Options := do
  (← words.foldlM (Reading.take known) {}).finish

end Shading.CommandLine
