import DialectBindings.Path
import DialectBindings.Text.Blank
import DialectBindings.Text.Shown

/-!
# Arguments

Arguments are taken from left to right: flags, alone or several short ones after one dash, and
the files. After two dashes alone every argument is a file. The first fault ends the reading, and
so does a flag that asks for help.
-/

set_option autoImplicit false

namespace DialectBindings.CommandLine
open Text

inductive Flag
  | write
  | magic
  | version
  | help
  deriving Repr, DecidableEq

namespace Flag

def all : List Flag := [.write, .magic, .version, .help]

def longName : Flag → String
  | .write => "write"
  | .magic => "magic"
  | .version => "version"
  | .help => "help"

def letter : Flag → Char
  | .write => 'w'
  | .magic => 'm'
  | .version => 'V'
  | .help => 'h'

def ofLongName? (name : String) : Option Flag := all.find? (·.longName = name)

def ofLetter? (c : Char) : Option Flag := all.find? (·.letter = c)

end Flag

inductive UsageFault
  | unknown (parameter : String)
  | repeated (flag : Flag)
  | unneededValue (flag : Flag) (value : String)
  | emptyFile
  deriving Repr, DecidableEq

namespace UsageFault

def reason : UsageFault → String
  | .unknown parameter => "unknown parameter: " ++ parameter
  | .repeated flag => "the argument '--" ++ flag.longName ++ "' cannot be used multiple times"
  | .unneededValue flag value =>
    "unexpected value '" ++ String.ofList (shown value.toList) ++ "' for '--" ++ flag.longName ++
      "' found; no more were expected"
  | .emptyFile => "a value is required for '[DEFINITIONS]...' but none was supplied"

/-- The reason, of which only the first line is told if there is more to it than a parameter. -/
def message (f : UsageFault) : String :=
  match f with
  | .unknown _ => f.reason
  | _ => String.ofList ((lines f.reason.toList).headD [])

end UsageFault

inductive Stop
  | help
  | fault (fault : UsageFault)
  deriving Repr, DecidableEq

structure Arguments where
  files : List Path
  flags : List Flag
  deriving Repr, DecidableEq

namespace Arguments

def none : Arguments := ⟨[], []⟩

def hasEmptyFile (a : Arguments) : Bool := a.files.any (·.octets = [])

/-- An empty file name is noticed when the next flag is taken, or at the end. -/
def settle (a : Arguments) : Except Stop Arguments :=
  if a.hasEmptyFile then .error (.fault .emptyFile) else .ok a

def takeFlag (a : Arguments) (flag : Flag) : Except Stop Arguments := do
  let a ← a.settle
  if flag = .help then .error .help
  else if flag ∈ a.flags then .error (.fault (.repeated flag))
  else .ok { a with flags := a.flags ++ [flag] }

def takeFile (a : Arguments) (file : Octets) : Arguments := { a with files := a.files ++ [⟨file⟩] }

/-- A flag after two dashes. A value after an equals sign is one too many for any flag. -/
def takeLong (a : Arguments) (body : Octets) : Except Stop Arguments := do
  let name := body.takeWhile (· ≠ 61)
  let value := body.dropWhile (· ≠ 61)
  match (decode name).toOption.bind Flag.ofLongName? with
  | .none => .error (.fault (.unknown ("--" ++ lenient name)))
  | some flag =>
    match value with
    | [] => a.takeFlag flag
    | _ :: value => .error (.fault (.unneededValue flag (lenient value)))

def cutText (body : Octets) : List Char × Octets :=
  match decode body with
  | .ok text => (text.toList, [])
  | .error (.invalid _ index) => ((lenientChars (body.take index)), body.drop index)
  | .error (.incomplete index) => ((lenientChars (body.take index)), body.drop index)

def takeLetters (a : Arguments) (rest : Octets) : List Char → Except Stop Arguments
  | [] =>
    if rest = [] then .ok a else .error (.fault (.unknown ("-" ++ lenient rest)))
  | c :: more =>
    match Flag.ofLetter? c with
    | .none => .error (.fault (.unknown ("-" ++ c.toString)))
    | some flag => do (← a.takeFlag flag).takeLetters rest more

def takeAll (a : Arguments) : List Octets → Except Stop Arguments
  | [] => a.settle
  | argument :: rest =>
    match argument with
    | [45, 45] => (rest.foldl takeFile a).settle
    | 45 :: 45 :: body => do (← a.takeLong body).takeAll rest
    | 45 :: first :: more =>
      let (text, other) := cutText (first :: more)
      do (← a.takeLetters other text).takeAll rest
    | file => (a.takeFile file).takeAll rest

end Arguments

end DialectBindings.CommandLine
