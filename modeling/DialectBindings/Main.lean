import DialectBindings.CommandLine.Program
import DialectBindings.FileTree
import Std.Time.Format

/-!
# The command line

The host that is the machine itself, and the program run on it.
-/

set_option autoImplicit false

namespace DialectBindings.CommandLine
open Text

/-- The machine's number of a fault, which some calls give as its negative. -/
def isNumber (code expected : UInt32) : Bool := code == expected || code == 0 - expected

def faultOf (e : IO.Error) : IoFault :=
  match e with
  | .noFileOrDirectory .. => .missing
  | .alreadyExists .. => .alreadyThere
  | .inappropriateType _ code details =>
    if isNumber code 20 then .notDirectory
    else if isNumber code 21 then .isDirectory
    else .other details
  | .invalidArgument _ code details => if isNumber code 36 then .nameTooLong else .other details
  | e => .other e.toString

/-- An act on the file that a path names, unless no file can have that path. -/
def atPath {α : Type} (p : Path) (act : String → IO α) : IO (Except IoFault α) := do
  match FileTree.check p, decode p.octets with
  | .error fault, _ => return .error fault
  | _, .error fault => return .error (.badSequence fault)
  | .ok (), .ok name =>
    try return .ok (← act name)
    catch e => return .error (faultOf e)

def bytes (data : Octets) : ByteArray := ⟨data.toArray⟩

def answerOf (act : IO Unit) : IO (Except IoFault Unit) := do
  try return .ok (← act)
  catch e => return .error (faultOf e)

def put (stream : IO.FS.Stream) (text : String) : IO Unit := do
  let _ ← answerOf (stream.putStr text)
  let _ ← answerOf stream.flush

def now : IO String := do
  let time ← Std.Time.Timestamp.now
  let utc := Std.Time.PlainDateTime.ofWallTime (.ofNanoseconds time.toNanosecondsSinceUnixEpoch)
  return utc.format "uuuu-MM-dd'T'HH:mm:ss.SSSSSS'Z'"

instance : Host IO where
  read p := atPath p fun name => return (← IO.FS.readBinFile name).toList
  write p content := atPath p fun name => IO.FS.writeBinFile name (bytes content)
  makeDirectory p := atPath p fun name => IO.FS.createDir name
  isDirectory p := do
    let found ← atPath p fun name => do ((← IO.currentDir) / name).isDir
    return found.toOption.getD false
  send data := do
    let stream ← IO.getStdout
    answerOf do
      stream.write (bytes data)
      stream.flush
  progress text := do answerOf ((← IO.getStderr).putStr text)
  flushProgress := do answerOf (← IO.getStderr).flush
  log e := do
    if e.isToldAt .warn then
      put (← IO.getStderr) (e.line (← now) ++ "\n")

instance : Console IO where
  print text := do put (← IO.getStdout) text
  complain text := do put (← IO.getStderr) text

end DialectBindings.CommandLine

open DialectBindings in
def main (arguments : List String) : IO UInt32 := do
  let exit : CommandLine.Exit ← CommandLine.run (arguments.map Text.octets)
  return exit.code
