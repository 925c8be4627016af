import DialectBindings.Text.Utf8

/-!
# Faults of reading and writing

What a file system or a stream answers when it does not do what it is asked for, and what is
wrong with octets that are no text.
-/

set_option autoImplicit false

namespace DialectBindings

inductive IoFault
  | missing
  | alreadyThere
  | notDirectory
  | isDirectory
  | nameTooLong
  | nulInName
  | streamFull
  | notText
  | badSequence (fault : Text.Utf8Fault)
  | other (message : String)
  deriving Repr, DecidableEq

namespace IoFault

def message : IoFault → String
  | .missing => "No such file or directory (os error 2)"
  | .alreadyThere => "File exists (os error 17)"
  | .notDirectory => "Not a directory (os error 20)"
  | .isDirectory => "Is a directory (os error 21)"
  | .nameTooLong => "File name too long (os error 36)"
  | .nulInName => "file name contained an unexpected NUL byte"
  | .streamFull => "stream is full"
  | .notText => "stream did not contain valid UTF-8"
  | .badSequence fault => fault.message
  | .other message => message

end IoFault

end DialectBindings
