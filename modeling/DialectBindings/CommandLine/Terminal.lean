import DialectBindings.CommandLine.Program
import DialectBindings.World

/-!
# Terminals

A host for the program that is a value: a file tree and the texts of the two streams. Progress,
warnings and complaints share the second one in the order in which they come.
-/

set_option autoImplicit false

namespace DialectBindings.CommandLine
open Text

structure Terminal where
  tree : FileTree
  output : Octets
  errors : String
  deriving Repr, DecidableEq

namespace Terminal

def start (tree : FileTree) : Terminal := ⟨tree, [], ""⟩

/-- What stands where a line of the log has its time. -/
def time : String := "<time>"

def display (text : String) : StateM Terminal Unit :=
  fun t => ((), { t with errors := t.errors ++ text })

def change (f : FileTree → Except IoFault FileTree) : StateM Terminal (Except IoFault Unit) :=
  fun t => ((t.tree.attempt f).1, { t with tree := (t.tree.attempt f).2 })

instance : Host (StateM Terminal) where
  read p := fun t => (t.tree.read p, t)
  write p content := change fun tree => tree.write p content
  makeDirectory p := change fun tree => tree.makeDirectory p
  isDirectory p := fun t => (t.tree.isDirectory p, t)
  send data := fun t => (.ok (), { t with output := t.output ++ data })
  progress text := do
    display text
    return .ok ()
  flushProgress := return .ok ()
  log e := if e.isToldAt .warn then display (e.line time ++ "\n") else pure ()

instance : Console (StateM Terminal) where
  print text := fun t => ((), { t with output := t.output ++ octets text })
  complain := display

end Terminal

end DialectBindings.CommandLine
