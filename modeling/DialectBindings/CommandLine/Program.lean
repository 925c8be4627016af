import DialectBindings.Batch
import DialectBindings.CommandLine.Request
import DialectBindings.Engine.Bindings

/-!
# The program

A command line is read and done what it asks for. A failure is told behind whatever progress was
shown, and the exit code says what came of the run.
-/

set_option autoImplicit false

namespace DialectBindings.CommandLine
open Text

/-- A host with two streams of text on which nothing is ever refused. -/
class Console (m : Type → Type) where
  print : String → m Unit
  complain : String → m Unit

def versionText : String := "0.4.0\n"

def helpText : String :=
  "Generate TypeScript MAVLink mappings from XML definitions\n\n" ++
  "Usage: mavlink-mapping-gen [OPTIONS] [DEFINITIONS]...\n\n" ++
  "Arguments:\n" ++
  "  [DEFINITIONS]...  Definition files, processed in the given order\n\n" ++
  "Options:\n" ++
  "  -w, --write    Write each file's code next to it as <name>.ts instead of stdout\n" ++
  "  -m, --magic    Also write magic-numbers.ts next to the first file (implies --write)\n" ++
  "  -V, --version  Print version\n" ++
  "  -h, --help     Print help\n"

inductive Exit
  | success
  | failure
  | usage
  deriving Repr, DecidableEq

def Exit.code : Exit → UInt32
  | .success => 0
  | .failure => 1
  | .usage => 2

variable {m : Type → Type} [Monad m] [Host m] [Console m]

def complaint (message : String) : String := "ERROR: " ++ message ++ "\n"

def perform : Request → m Exit
  | .help => do
    Console.print helpText
    return .success
  | .version => do
    Console.print versionText
    return .success
  | .refused fault => do
    Console.complain (complaint fault.message)
    return .usage
  | .nothing => do
    Console.complain (complaint "no input specified")
    return .failure
  | .generate files options => do
    match ← (Batch.run .bindings files options .standard).run with
    | .ok _ => return .success
    | .error failure =>
      Console.complain (complaint failure.message)
      return .failure

def run (arguments : List Octets) : m Exit := perform (Request.read arguments)

end DialectBindings.CommandLine
