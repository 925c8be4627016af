import DialectBindings.Markup.Tag
import DialectBindings.Markup.Token

/-!
# The content of a document

The tokens of a document are read in order while end tags are matched with the tags they close;
reading stops at the first fault. What was read is then put together as a tree. A tree that the
reading left unfinished ends in the fault, or in the end of the document, at every level.
-/

set_option autoImplicit false

namespace DialectBindings.Markup

/-- A token after it was matched with those before it. -/
inductive Event
  | opening (tag : Tag)
  /-- An end tag, with the bindings that hold after it. -/
  | closing (outer : Scope)
  | text (value : Except Fault (List Char))

/-- The names and bindings of the open elements, the innermost first. -/
abbrev Open := List (List Char × Scope)

def Open.scope (o : Open) : Scope := (o.head?.map (·.2)).getD []

structure Reading where
  events : List Event
  stack : Open

namespace Reading

def enter (r : Reading) : Token → Except Fault Reading
  | .opening text isEmpty =>
    let tag := Tag.ofText r.stack.scope text
    if isEmpty then .ok { r with events := .closing r.stack.scope :: .opening tag :: r.events }
    else .ok ⟨.opening tag :: r.events, (tag.name, tag.scope) :: r.stack⟩
  | .closing name =>
    match r.stack with
    | [] => .error (.unmatchedEnd name)
    | (expected, _) :: outer =>
      if name = expected then .ok ⟨.closing (Open.scope outer) :: r.events, outer⟩
      else .error (.mismatchedEnd expected name)
  | .text s => .ok { r with events := .text (.ok s) :: r.events }
  | .reference name =>
    let value := (resolve 0 name).map ([·]) |>.mapError Fault.reference
    .ok { r with events := .text value :: r.events }

def run (r : Reading) (s : List Char) : Reading × Option Fault :=
  match _h : head s with
  | .ended => (r, none)
  | .faulty fault => (r, some fault)
  | .passed rest => run r rest
  | .token t rest =>
    match r.enter t with
    | .ok r => run r rest
    | .error fault => (r, some fault)
  termination_by s.length
  decreasing_by all_goals exact head_length (by simp [_h, Head.rest?])

end Reading

/-- What stands between a start tag and its end tag, or what is left of a document. -/
inductive Content
  /-- The end tag, with the bindings that hold when the reader looks past it. -/
  | closed (next : Scope)
  | ended
  | failed (fault : Fault)
  | text (value : Except Fault (List Char)) (rest : Content)
  | element (tag : Tag) (inner rest : Content)

namespace Content

/-- Texts that stand side by side are one text; a fault in either is a fault of the whole. -/
def prepend (value : Except Fault (List Char)) : Content → Content
  | .text after rest => .text (do return (← value) ++ (← after)) rest
  | c => .text value c

/-- The bindings that hold at the head of a content that follows an end tag. -/
def scopeAhead (outer : Scope) : Content → Scope
  | .element tag _ _ => tag.scope
  | _ => outer

/-- The bindings that hold once the reader looks past the end tag of a content. -/
def scopeAfter : Content → Scope
  | .closed next => next
  | .text _ rest => rest.scopeAfter
  | .element _ _ rest => rest.scopeAfter
  | _ => []

def width : Content → Nat
  | .text _ rest => rest.width + 1
  | .element _ _ rest => rest.width + 1
  | _ => 0

end Content

/-- The contents that follow a place, for it and for every element around it; beyond those known
there is only what the reading ended in. -/
structure Levels where
  known : List Content
  bottom : Content

namespace Levels

def top (l : Levels) : Content := l.known.headD l.bottom

def below (l : Levels) : Levels := { l with known := l.known.tail }

def push (l : Levels) (c : Content) : Levels := { l with known := c :: l.known }

def before (l : Levels) : Event → Levels
  | .text value => l.below.push (l.top.prepend value)
  | .closing outer => l.push (.closed (l.top.scopeAhead outer))
  | .opening tag => l.below.below.push (.element tag l.top l.below.top)

end Levels

def Content.ofChars (s : List Char) : Content :=
  let (reading, stop) := Reading.run ⟨[], []⟩ s
  let bottom := match stop with
    | none => Content.ended
    | some fault => .failed fault
  (reading.events.foldl Levels.before ⟨[], bottom⟩).top

def Content.ofDocument (s : List Char) : Content :=
  match s with
  | '\uFEFF' :: rest => ofChars rest
  | s => ofChars s

end DialectBindings.Markup
