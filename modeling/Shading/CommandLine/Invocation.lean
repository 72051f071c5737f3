import Shading.CommandLine.Flag

/-!
What a command line asks for: a command, found among its words, with the
options and words that are left, whose number must fit the command.
-/

namespace Shading.CommandLine

open Text

inductive Command where
  | compile
  | listing
  | tokens
  | version
  | help
  | completion
  deriving DecidableEq, Repr

namespace Command

def all : List Command := [.compile, .listing, .tokens, .version, .help, .completion]

def name : Command → Bytes
  | .compile => utf8 "compile"
  | .listing => utf8 "dis"
  | .tokens => utf8 "tokens"
  | .version => utf8 "version"
  | .help => utf8 "help"
  | .completion => utf8 "completion"

def ofName? (name : Bytes) : Option Command := all.find? (·.name = name)

end Command

def programName : Bytes := utf8 "beansc"

def sharedFlags : List Flag := [.config, .color, .verbose]

def flagsOf : Option Command → List Flag
  | none => sharedFlags ++ [.help, .version]
  | some .compile => [.output, .clean] ++ sharedFlags ++ [.help]
  | some _ => sharedFlags ++ [.help]

inductive UsageError where
  | unknownCommand (name place : Bytes)
  | flag (e : FlagError)
  | noWords
  | notOneWord (count : Nat)
  deriving DecidableEq, Repr

def UsageError.message : UsageError → Bytes
  | .unknownCommand name place =>
    utf8 "unknown command " ++ quote name ++ utf8 " for " ++ quote place
  | .flag e => e.message
  | .noWords => utf8 "requires at least 1 arg(s), only received 0"
  | .notOneWord count => utf8 "accepts 1 arg(s), received " ++ decimal count

def takesNext (word : Bytes) : Bool :=
  if word.contains (byte '=') then false
  else
    match after? (utf8 "--") word, word with
    | some name, _ => !sharedFlags.any fun f => f.isSwitch && f.name = name
    | none, [dash, letter] =>
      dash = byte '-' && !sharedFlags.any fun f => f.isSwitch && f.letter? = some letter
    | none, _ => false

def plainWords : List Bytes → List Bytes
  | [] => []
  | word :: rest =>
    if word = utf8 "--" then []
    else if takesNext word then
      match rest with
      | [] | [_] => []
      | _ :: rest => plainWords rest
    else if word ≠ [] && word.head? ≠ some (byte '-') then word :: plainWords rest
    else plainWords rest

def withoutName (name : Bytes) : List Bytes → List Bytes
  | [] => []
  | word :: rest =>
    if word = utf8 "--" then word :: rest
    else if takesNext word then
      match rest with
      | [] => [word]
      | value :: rest => word :: value :: withoutName name rest
    else if word = name then rest
    else word :: withoutName name rest

def findCommand (words : List Bytes) : Except UsageError (Option Command × List Bytes) :=
  match plainWords words with
  | [] => .ok (none, words)
  | name :: _ =>
    match Command.ofName? name with
    | some command => .ok (some command, withoutName name words)
    | none => .error (.unknownCommand name programName)

inductive Invocation where
  | usage
  | versionNumber
  | run (command : Command) (options : Options)
  deriving DecidableEq, Repr

def checkWords (command : Command) (words : List Bytes) : Except UsageError Unit :=
  match command, words with
  | .compile, [] => .error .noWords
  | .listing, words | .tokens, words =>
    if words.length = 1 then .ok () else .error (.notOneWord words.length)
  | .version, word :: _ =>
    .error (.unknownCommand word (programName ++ utf8 " " ++ command.name))
  | _, _ => .ok ()

def Invocation.ofWords (words : List Bytes) : Except UsageError Invocation := do
  let (command, rest) ← findCommand words
  let options ← (Options.ofWords (flagsOf command) rest).mapError .flag
  if options.help then return .usage
  match command with
  | none => pure (if options.version then .versionNumber else .usage)
  | some .completion => pure .usage
  | some command => do
    checkWords command options.words
    pure (.run command options)

end Shading.CommandLine
