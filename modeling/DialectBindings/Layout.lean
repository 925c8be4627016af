import DialectBindings.Path

/-!
# Where the files of a batch lie

The names of a definition file, and the paths of what belongs to it: its artifact, the template
that is put in front of its code, and the registry of a batch that starts with it.
-/

set_option autoImplicit false

namespace DialectBindings
open Text

namespace Path

def moduleName (file : Path) : String := lenient (file.stem?.getD [])

def dir (file : Path) : Path := file.parent?.getD ⟨[]⟩

def displayName (file : Path) : String := lenient (file.fileName?.getD file.octets)

end Path

structure Layout where
  extension : String
  templateMarker : String
  registryName : String
  deriving Repr, DecidableEq

namespace Layout

def standard : Layout := ⟨"ts", "imports", "magic-numbers"⟩

/-- An extension is part of a file name and has no slash. -/
def hasPlainExtension (l : Layout) : Bool := !(octets l.extension).contains Path.slash

/-- The path of a file's artifact, unless the extension is not plain. -/
def artifactPath? (l : Layout) (file : Path) : Option Path :=
  if l.hasPlainExtension then some (file.withExtension (octets l.extension)) else none

def templatePath (l : Layout) (file : Path) : Path :=
  file.withFileName
    (octets (file.moduleName ++ "." ++ l.templateMarker ++ "." ++ l.extension))

def registryPath (l : Layout) (first : Path) : Path :=
  first.dir.join (octets (l.registryName ++ "." ++ l.extension))

end Layout

end DialectBindings
