/-!
# Line buffers

Lines are collected in order and taken out all at once.
-/

set_option autoImplicit false

namespace DialectBindings

structure LineBuffer where
  lines : List String
  deriving Repr, DecidableEq

namespace LineBuffer

def empty : LineBuffer := ⟨[]⟩

def append (b : LineBuffer) (line : String) : LineBuffer := ⟨b.lines ++ [line]⟩

def appendAll (b : LineBuffer) (lines : List String) : LineBuffer := lines.foldl append b

def drain (b : LineBuffer) : List String × LineBuffer := (b.lines, empty)

def size (b : LineBuffer) : Nat := b.lines.length

def isEmpty (b : LineBuffer) : Bool := b.lines.isEmpty

@[simp] theorem appendAll_lines (b : LineBuffer) (lines : List String) :
    (b.appendAll lines).lines = b.lines ++ lines := by
  induction lines generalizing b with
  | nil => exact (List.append_nil _).symm
  | cons line rest ih => exact (ih (b.append line)).trans (List.append_assoc ..)

end LineBuffer

end DialectBindings
