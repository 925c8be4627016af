import DialectBindings.Markup.Source

/-!
# Records

A record is an element whose attributes, texts and child elements are found under keys. The
values found are given in the order they are read: the attributes first, then the children, and
all elements of a repeated key together where the first of them stands.
-/

set_option autoImplicit false

namespace DialectBindings.Markup
open Text

/-- How the values of one key are read. -/
structure Slot (α : Type) where
  read : Place → Source → Except Fault α
  /-- Whether elements of the key may be repeated. -/
  repeated : Bool := false

structure Schema (α : Type) where
  slot : String → Option (Slot α)
  /-- How children without a key of their own are read, texts among them; if there is no way,
  they are passed over. -/
  body : Option (Slot α) := none

/-- The key of a record's text. -/
def textKey : String := "$text"

/-- The key of the children that have none of their own. -/
def bodyKey : String := "$value"

/-- The first child and what follows it, unless the record is at its end. The name is that of the
record's element. -/
def Content.first? (name : List Char) : Content → Except Fault (Option (Source × Content))
  | .closed _ => .ok none
  | .ended => .error (.missingEnd name)
  | .failed fault => .error fault
  | .text value rest => do return some (.text (← value), rest)
  | .element tag inner rest => do
    tag.check
    return some (.element tag inner, rest)

theorem Content.first?_width {name : List Char} {c rest : Content} {s : Source}
    (h : c.first? name = .ok (some (s, rest))) : rest.width < c.width := by
  cases c with
  | closed next => simp [first?] at h
  | ended => simp [first?] at h
  | failed fault => simp [first?] at h
  | text value r =>
    cases value with
    | error fault => simp [first?, bind, Except.bind] at h
    | ok v =>
      simp only [first?, bind, Except.bind, pure, Except.pure, Except.ok.injEq, Option.some.injEq,
        Prod.mk.injEq] at h
      simp [← h.2, width]
  | element tag inner r =>
    simp only [first?, bind, Except.bind, pure, Except.pure] at h
    split at h
    · simp at h
    · simp only [Except.ok.injEq, Option.some.injEq, Prod.mk.injEq] at h
      simp [← h.2, width]

/-- The elements of a content that are asked for, and its texts if those are, read in order; and
the content without them. -/
def collect {α : Type} (wanted : Tag → Bool) (texts : Bool)
    (read : Source → Except Fault α) (name : List Char) :
    Content → Except Fault (List α × Content)
  | .closed next => .ok ([], .closed next)
  | .ended => .error (.missingEnd name)
  | .failed fault => .error fault
  | .text value rest => do
    let s ← value
    if texts then
      let a ← read (.text s)
      let (as, others) ← collect wanted texts read name rest
      return (a :: as, others)
    else
      let (as, others) ← collect wanted texts read name rest
      return (as, .text value others)
  | .element tag inner rest => do
    tag.check
    if wanted tag then
      let a ← read (.element tag inner)
      let (as, others) ← collect wanted texts read name rest
      return (a :: as, others)
    else
      inner.checkAside name
      let (as, others) ← collect wanted texts read name rest
      return (as, .element tag inner others)

theorem collect_width {α : Type} {wanted : Tag → Bool} {texts : Bool}
    {read : Source → Except Fault α} {name : List Char} {c others : Content} {as : List α}
    (h : collect wanted texts read name c = .ok (as, others)) : others.width ≤ c.width := by
  induction c generalizing as others with
  | closed next =>
    simp only [collect, Except.ok.injEq, Prod.mk.injEq] at h
    simp [← h.2]
  | ended => simp [collect] at h
  | failed fault => simp [collect] at h
  | text value rest ih =>
    simp only [collect, bind, Except.bind, pure, Except.pure] at h
    repeat' split at h
    all_goals first
      | (simp at h; done)
      | (rename_i hc
         simp only [Except.ok.injEq, Prod.mk.injEq] at h
         have := ih hc
         simp only [← h.2, Content.width]
         omega)
  | element tag inner rest _ ih =>
    simp only [collect, bind, Except.bind, pure, Except.pure] at h
    repeat' split at h
    all_goals first
      | (simp at h; done)
      | (rename_i hc
         simp only [Except.ok.injEq, Prod.mk.injEq] at h
         have := ih hc
         simp only [← h.2, Content.width]
         omega)

namespace Schema
variable {α : Type} (schema : Schema α)

def fill (place : Place) (seen : List String) (key : String) (slot : Slot α) (s : Source) :
    Except Fault α :=
  if key ∈ seen then .error (.duplicate key) else slot.read place s

def attributes (place : Place) (seen : List String) :
    List (Except Fault Attribute) → Except Fault (List String × List α)
  | [] => .ok (seen, [])
  | a :: rest => do
    let a ← a
    match schema.slot a.key with
    | none => attributes place seen rest
    | some slot => do
      let value ← fill place seen a.key slot (.attribute a.value)
      let (seen, values) ← attributes place (a.key :: seen) rest
      return (seen, value :: values)

/-- The children that are read together with a first one. -/
structure Group where
  wanted : Tag → Bool
  texts : Bool

/-- How a child is read, if it is: its key, and the group it is the first of. Text that is blank
is not read. -/
def find (s : Source) : Option (String × Slot α × Option Group) :=
  let rest : Option (String × Slot α × Option Group) :=
    schema.body.map fun slot =>
      (bodyKey, slot, some ⟨fun tag => (schema.slot tag.key).isNone, true⟩)
  match s with
  | .attribute _ => none
  | .text value =>
    if value.all isSpace then none
    else rest.or ((schema.slot textKey).map fun slot => (textKey, slot, none))
  | .element tag _ =>
    match schema.slot tag.key with
    | none => rest
    | some slot =>
      some (tag.key, slot, if slot.repeated then some ⟨(·.name == tag.name), false⟩ else none)

/-- The values among the children. After a group the reader has seen the end of the record. -/
def children (place : Place) (seen : List String) (c : Content) : Except Fault (List α) :=
  match _h : c.first? place.parent.name with
  | .error fault => .error fault
  | .ok none => .ok []
  | .ok (some (s, rest)) =>
    match schema.find s with
    | none => do
      s.readPresence
      children place seen rest
    | some (key, slot, none) => do
      let value ← fill place seen key slot s
      return value :: (← children place (key :: seen) rest)
    | some (key, slot, some group) => do
      let value ← fill place seen key slot s
      match _hc : collect group.wanted group.texts (slot.read place) place.parent.name rest with
      | .error fault => .error fault
      | .ok (more, others) =>
        let ahead := place.ahead.getD rest.scopeAfter
        return value :: more ++ (← children ⟨place.parent, some ahead⟩ (key :: seen) others)
  termination_by c.width
  decreasing_by
    all_goals have := Content.first?_width _h
    · exact this
    · exact this
    · have := collect_width _hc
      omega

def values (ahead : Option Scope) (tag : Tag) (inner : Content) : Except Fault (List α) := do
  let place : Place := ⟨tag, ahead⟩
  let (seen, found) ← schema.attributes place [] tag.attributes
  return found ++ (← schema.children place seen inner)

def read {β : Type} (build : List α → Except Fault β) (place : Place) :
    Source → Except Fault β
  | .element tag inner => do build (← schema.values place.ahead tag inner)
  | s => do .error (.wrongType (← s.chars) .record)

end Schema

end DialectBindings.Markup
