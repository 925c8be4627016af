import DialectBindings.Event
import DialectBindings.Failure

/-!
# Hosts

What a batch acts on: files and directories by path, an output stream, a display of its progress,
and a log. The display answers like any other stream, so it is for the batch to say what comes of
a text that it refuses; the log answers nothing.
-/

set_option autoImplicit false

namespace DialectBindings
open Text

class Host (m : Type → Type) where
  read : Path → m (Except IoFault Octets)
  write : Path → Octets → m (Except IoFault Unit)
  makeDirectory : Path → m (Except IoFault Unit)
  isDirectory : Path → m Bool
  send : Octets → m (Except IoFault Unit)
  progress : String → m (Except IoFault Unit)
  flushProgress : m (Except IoFault Unit)
  log : Event → m Unit

namespace Host

variable {m : Type → Type} [Monad m] [Host m]

abbrev Step (m : Type → Type) (α : Type) : Type := ExceptT Failure m α

/-- An answer of the host, whose fault fails the step. -/
def orFail {α : Type} (act : m (Except IoFault α)) (failure : IoFault → Failure) : Step m α :=
  ExceptT.mk do return (← act).mapError failure

def tell (e : Event) : Step m Unit := ExceptT.lift (log e)

/-- The pieces of a text are shown one by one, and none behind one that is refused. -/
def progressAll : List String → m (Except IoFault Unit)
  | [] => return .ok ()
  | piece :: rest => do
    match ← progress piece with
    | .ok () => progressAll rest
    | .error fault => return .error fault

/-- Directories are made from the outermost that is missing; what is there already is kept. -/
def ensureDirectory (p : Path) : m (Except IoFault Unit) := do
  match _h : p.parent? with
  | none => return .ok ()
  | some parent =>
    match ← makeDirectory p with
    | .ok () => return .ok ()
    | .error .missing =>
      match ← ensureDirectory parent with
      | .error fault => return .error fault
      | .ok () => makeOrKeep p
    | .error fault => settle p fault
  termination_by p.octets.length
  decreasing_by exact Path.parent?_length _h
where
  /-- A directory that is there already is as good as a new one. -/
  settle (p : Path) (fault : IoFault) : m (Except IoFault Unit) := do
    if fault = .alreadyThere then
      if ← isDirectory p then return .ok ()
    return .error fault
  makeOrKeep (p : Path) : m (Except IoFault Unit) := do
    match ← makeDirectory p with
    | .ok () => return .ok ()
    | .error fault => settle p fault

end Host

end DialectBindings
