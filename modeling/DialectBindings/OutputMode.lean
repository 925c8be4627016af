/-!
# Where a batch sends its code

A lone file without any option goes to the output stream; else every file gets an artifact.
-/

set_option autoImplicit false

namespace DialectBindings

structure BatchOptions where
  write : Bool
  magic : Bool
  deriving Repr, DecidableEq

inductive OutputMode
  | combined
  | perFile
  deriving Repr, DecidableEq

namespace OutputMode

def select (fileCount : Nat) (options : BatchOptions) : OutputMode :=
  if options.write || options.magic || fileCount > 1 then .perFile else .combined

def name : OutputMode → String
  | .combined => "Combined"
  | .perFile => "PerFile"

end OutputMode

end DialectBindings
