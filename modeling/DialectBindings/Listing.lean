import DialectBindings.Text.Blank

/-!
# Indented listings

A listing is written as directives. Lines stand two blanks deeper for every level of indentation,
and a documentation comment shows the lines of its paragraphs that are not blank.
-/

set_option autoImplicit false

namespace DialectBindings

inductive Directive
  | line (text : String)
  | blank
  | indent
  | dedent
  | doc (paragraphs : List String)
  deriving Repr, DecidableEq

namespace Listing
open Text

def margin (level : Nat) : String := String.ofList (List.replicate (2 * level) ' ')

def placed (level : Nat) (text : String) : String :=
  if text = "" then "" else margin level ++ text

/-- The end of a comment is broken up by a backslash. -/
def guarded : List Char → List Char
  | '*' :: '/' :: rest => '*' :: '\\' :: '/' :: guarded rest
  | c :: rest => c :: guarded rest
  | [] => []

def docLines (paragraphs : List String) : List (List Char) :=
  (paragraphs.flatMap fun p => (lines p.toList).map trim).filter (!·.isEmpty)

/-- A documentation comment, or nothing when it has nothing to show. -/
def comment (paragraphs : List String) : List String :=
  match docLines paragraphs with
  | [] => []
  | shown =>
    "/**" :: (shown.map fun l => " * " ++ String.ofList (guarded l)) ++ [" */"]

def written (level : Nat) : Directive → List String
  | .line text => [placed level text]
  | .blank => [""]
  | .indent => []
  | .dedent => []
  | .doc paragraphs => (comment paragraphs).map (placed level)

/-- The level after a directive; there is none below zero. -/
def nextLevel (level : Nat) : Directive → Nat
  | .indent => level + 1
  | .dedent => level - 1
  | _ => level

def linesFrom (level : Nat) : List Directive → List String
  | [] => []
  | d :: rest => written level d ++ linesFrom (nextLevel level d) rest

def levelAfter (level : Nat) (ds : List Directive) : Nat := ds.foldl nextLevel level

def indented (body : List Directive) : List Directive := .indent :: body ++ [.dedent]

theorem linesFrom_append (level : Nat) (ds es : List Directive) :
    linesFrom level (ds ++ es) = linesFrom level ds ++ linesFrom (levelAfter level ds) es := by
  induction ds generalizing level with
  | nil => rfl
  | cons d ds ih => simp [linesFrom, ih, levelAfter]

end Listing

end DialectBindings
