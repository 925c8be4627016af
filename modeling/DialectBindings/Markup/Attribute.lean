import DialectBindings.Markup.Reference
import DialectBindings.Text.Blank

/-!
# Attributes of a tag

The text of a tag after its name is scanned for keys and values. Every fault has a position in
octets from the start of the tag's text. The scan goes on after a fault where it can.
-/

set_option autoImplicit false

namespace DialectBindings.Markup
open Text

structure Attribute where
  name : List Char
  /-- The value as written, references included. -/
  value : List Char
  deriving Repr, DecidableEq

/-- What the scan meets: a key without a value, or a key with the value or the fault after it. -/
inductive Item
  | stray (position : Nat) (fault : AttributeFault)
  | keyed (name : List Char) (position : Nat) (value : Except (Nat × AttributeFault) (List Char))

def inKey (c : Char) : Bool := c != '=' && !isSpace c

theorem length_dropWhile_le (p : Char → Bool) (s : List Char) :
    (s.dropWhile p).length ≤ s.length :=
  (List.dropWhile_sublist p).length_le

def items (position : Nat) (s : List Char) : List Item :=
  match _hs : s.dropWhile isSpace with
  | [] => []
  | c :: rest =>
    let start := position + (s.takeWhile isSpace).length
    let name := c :: rest.takeWhile inKey
    let gap := (rest.dropWhile inKey).takeWhile isSpace
    let next := start + extent name + gap.length
    match _hk : (rest.dropWhile inKey).dropWhile isSpace with
    | [] => [.stray next .noEquals]
    | '=' :: after =>
      let place := next + 1 + (after.takeWhile isSpace).length
      match _hv : after.dropWhile isSpace with
      | [] => [.keyed name start (.error (place, .noValue))]
      | quote :: more =>
        if quote = '"' ∨ quote = '\'' then
          let value := more.takeWhile (· != quote)
          match _hq : more.dropWhile (· != quote) with
          | [] => [.keyed name start (.error (place + 1 + extent value, .unclosedQuote quote))]
          | _ :: left => .keyed name start (.ok value) :: items (place + 2 + extent value) left
        else
          let skipped := (quote :: more).takeWhile (!isSpace ·)
          .keyed name start (.error (place, .unquoted)) ::
            items (place + extent skipped) (more.dropWhile (!isSpace ·))
    | c' :: after => .stray next .noEquals :: items next (c' :: after)
  termination_by s.length
  decreasing_by
    all_goals
      have h₁ := length_dropWhile_le isSpace s
      have h₂ := length_dropWhile_le inKey rest
      have h₃ := length_dropWhile_le isSpace (rest.dropWhile inKey)
      rw [_hs] at h₁
      rw [_hk] at h₃
      simp only [List.length_cons] at h₁ h₃
    · have h₄ := length_dropWhile_le isSpace after
      have h₅ := length_dropWhile_le (· != quote) more
      rw [_hv] at h₄
      rw [_hq] at h₅
      simp only [List.length_cons] at h₄ h₅
      omega
    · have h₄ := length_dropWhile_le isSpace after
      have h₅ := length_dropWhile_le (!isSpace ·) more
      rw [_hv] at h₄
      simp only [List.length_cons] at h₄
      omega
    · simp only [List.length_cons]
      omega

/-- The attributes in order, a second one of the same name being a fault. `seen` holds the names
so far with their positions. -/
def distinct (seen : List (List Char × Nat)) : List Item → List (Except Fault Attribute)
  | [] => []
  | .stray position fault :: rest => .error (.attribute position fault) :: distinct seen rest
  | .keyed name position value :: rest =>
    match seen.lookup name with
    | some previous => .error (.attribute position (.duplicate previous)) :: distinct seen rest
    | none =>
      (match value with
        | .ok value => .ok ⟨name, value⟩
        | .error (place, fault) => .error (.attribute place fault)) ::
        distinct ((name, position) :: seen) rest

def splitName (name : List Char) : Option (List Char) × List Char :=
  match name.dropWhile (· != ':') with
  | [] => (none, name)
  | _ :: after => (some (name.takeWhile (· != ':')), after)

def localName (name : List Char) : List Char := (splitName name).2

/-- For an attribute that binds a prefix, the prefix; the default binding has no prefix. -/
def boundPrefix? : List Char → Option (Option (List Char))
  | ['x', 'm', 'l', 'n', 's'] => some none
  | 'x' :: 'm' :: 'l' :: 'n' :: 's' :: ':' :: name => some (some name)
  | _ => none

/-- The key under which a record finds an attribute: its name without a prefix, except that
bindings and the attributes of the reserved prefix keep their full names. -/
def Attribute.key (a : Attribute) : String :=
  let full := (boundPrefix? a.name).isSome || (splitName a.name).1 == some ['x', 'm', 'l']
  String.ofList ('@' :: if full then a.name else localName a.name)

end DialectBindings.Markup
