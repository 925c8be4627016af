import DialectBindings.Markup.Reference
import DialectBindings.Text.Blank

/-!
# Tokens of a marked-up document

What stands at the head of a text: a tag, a reference, a character of text or a section of raw
text. Comments, instructions and the document type are passed over. Line ends of any kind are
one line feed in the text that is read.
-/

set_option autoImplicit false

namespace DialectBindings.Markup
open Text

inductive Token
  /-- A start tag with the text inside it, and whether it is an end tag as well. -/
  | opening (text : List Char) (isEmpty : Bool)
  | closing (name : List Char)
  | text (s : List Char)
  | reference (name : List Char)
  deriving Repr, DecidableEq

/-- The head of a text: its end, a fault, something to pass over, or a token; with what follows. -/
inductive Head
  | ended
  | faulty (fault : Fault)
  | passed (rest : List Char)
  | token (t : Token) (rest : List Char)

def isLineEnd (c : Char) : Bool := c == '\r' || c == '\u0085' || c == '\u2028'

def normalized : List Char → List Char
  | '\r' :: '\n' :: rest => '\n' :: normalized rest
  | '\r' :: '\u0085' :: rest => '\n' :: normalized rest
  | c :: rest => (if isLineEnd c then '\n' else c) :: normalized rest
  | [] => []

def cutTag? (quote : Option Char) : List Char → Option (List Char × List Char)
  | [] => none
  | c :: rest =>
    let continued (quote : Option Char) :=
      (cutTag? quote rest).map fun (inside, after) => (c :: inside, after)
    match quote with
    | some q => continued (if c = q then none else quote)
    | none =>
      if c = '>' then some ([], rest)
      else continued (if c = '"' ∨ c = '\'' then some c else none)

/-- The text up to the `>` that balances the brackets, and what follows that. -/
def cutBalanced? (depth : Nat) : List Char → Option (List Char × List Char)
  | [] => none
  | c :: rest =>
    let continued (depth : Nat) :=
      (cutBalanced? depth rest).map fun (inside, after) => (c :: inside, after)
    if c = '<' then continued (depth + 1)
    else if c = '>' then if depth = 0 then some ([], rest) else continued (depth - 1)
    else continued depth

/-- The name in an end tag: blanks after it do not count unless there is nothing else. -/
def closingName (inside : List Char) : List Char :=
  let name := (inside.reverse.dropWhile isSpace).reverse
  if name.isEmpty then inside else name

def startTag (s : List Char) : Head :=
  match cutTag? none s with
  | none => .faulty .unclosedTag
  | some (inside, rest) =>
    if inside.getLast? = some '/' then .token (.opening inside.dropLast true) rest
    else .token (.opening inside false) rest

def closingTag (s : List Char) : Head :=
  match cutTag? none s with
  | none => .faulty .unclosedTag
  | some (inside, rest) => .token (.closing (closingName inside)) rest

/-- What follows `<?`; the instruction is complete only with a text or a second question mark. -/
def instruction (s : List Char) : Head :=
  if s.head? = some '>' then .faulty .unclosedInstruction
  else
    match cutAt? ['?', '>'] s with
    | none => .faulty .unclosedInstruction
    | some (_, rest) => .passed rest

def comment (s : List Char) : Head :=
  match cutAt? ['-', '-', '>'] s with
  | none => .faulty .unclosedComment
  | some (_, rest) => .passed rest

def rawText (s : List Char) : Head :=
  match cutAt? [']', ']', '>'] s with
  | none => .faulty .unclosedData
  | some (inside, rest) => .token (.text (normalized inside)) rest

def doctype (s : List Char) : Head :=
  match cutBalanced? 0 s with
  | none => .faulty .unclosedDoctype
  | some (inside, rest) =>
    if (inside.take 7).map Char.toLower ≠ ['d', 'o', 'c', 't', 'y', 'p', 'e'] then
      .faulty .unclosedDoctype
    else if (inside.drop 7).all isSpace then .faulty .namelessDoctype
    else .passed rest

def declaration : List Char → Head
  | '-' :: '-' :: rest => comment rest
  | '-' :: _ => .faulty .unclosedComment
  | '[' :: 'C' :: 'D' :: 'A' :: 'T' :: 'A' :: '[' :: rest => rawText rest
  | '[' :: _ => .faulty .unclosedData
  | 'D' :: rest => doctype ('D' :: rest)
  | 'd' :: rest => doctype ('d' :: rest)
  | _ => .faulty .unknownMarkup

def markup : List Char → Head
  | '/' :: rest => closingTag rest
  | '!' :: rest => declaration rest
  | '?' :: rest => instruction rest
  | s => startTag s

def inReference (c : Char) : Bool := c != ';' && c != '&' && c != '<'

def reference (s : List Char) : Head :=
  match s.dropWhile inReference with
  | ';' :: rest => .token (.reference (s.takeWhile inReference)) rest
  | _ => .faulty .unclosedReference

def head : List Char → Head
  | [] => .ended
  | '<' :: rest => markup rest
  | '&' :: rest => reference rest
  | '\r' :: '\n' :: rest => .token (.text ['\n']) rest
  | '\r' :: '\u0085' :: rest => .token (.text ['\n']) rest
  | c :: rest => .token (.text [if isLineEnd c then '\n' else c]) rest

def Head.rest? : Head → Option (List Char)
  | .passed rest => some rest
  | .token _ rest => some rest
  | _ => none

theorem cutTag?_length {quote : Option Char} {s inside rest : List Char}
    (h : cutTag? quote s = some (inside, rest)) : rest.length ≤ s.length := by
  induction s generalizing quote inside rest with
  | nil => simp [cutTag?] at h
  | cons c s ih =>
    simp only [cutTag?] at h
    split at h
    · obtain ⟨⟨i, r⟩, hr, he⟩ := Option.map_eq_some_iff.1 h
      simp only [Prod.mk.injEq] at he
      exact Nat.le_succ_of_le (he.2 ▸ ih hr)
    · split at h
      · simp only [Option.some.injEq, Prod.mk.injEq] at h
        simp [← h.2]
      · obtain ⟨⟨i, r⟩, hr, he⟩ := Option.map_eq_some_iff.1 h
        simp only [Prod.mk.injEq] at he
        exact Nat.le_succ_of_le (he.2 ▸ ih hr)

theorem cutBalanced?_length {depth : Nat} {s inside rest : List Char}
    (h : cutBalanced? depth s = some (inside, rest)) : rest.length ≤ s.length := by
  induction s generalizing depth inside rest with
  | nil => simp [cutBalanced?] at h
  | cons c s ih =>
    simp only [cutBalanced?] at h
    split at h
    · obtain ⟨⟨i, r⟩, hr, he⟩ := Option.map_eq_some_iff.1 h
      simp only [Prod.mk.injEq] at he
      exact Nat.le_succ_of_le (he.2 ▸ ih hr)
    · split at h
      · split at h
        · simp only [Option.some.injEq, Prod.mk.injEq] at h
          simp [← h.2]
        · obtain ⟨⟨i, r⟩, hr, he⟩ := Option.map_eq_some_iff.1 h
          simp only [Prod.mk.injEq] at he
          exact Nat.le_succ_of_le (he.2 ▸ ih hr)
      · obtain ⟨⟨i, r⟩, hr, he⟩ := Option.map_eq_some_iff.1 h
        simp only [Prod.mk.injEq] at he
        exact Nat.le_succ_of_le (he.2 ▸ ih hr)

theorem markup_length {s rest : List Char} (h : (markup s).rest? = some rest) :
    rest.length ≤ s.length := by
  have tag : ∀ {t r : List Char}, (startTag t).rest? = some r → r.length ≤ t.length := by
    intro t r h
    unfold startTag at h
    split at h
    · simp [Head.rest?] at h
    · rename_i hc
      split at h <;> simp only [Head.rest?, Option.some.injEq] at h <;>
        exact h ▸ cutTag?_length hc
  have type : ∀ {t r : List Char}, (doctype t).rest? = some r → r.length ≤ t.length := by
    intro t r h
    unfold doctype at h
    split at h
    · simp [Head.rest?] at h
    · rename_i hc
      split at h
      · simp [Head.rest?] at h
      · split at h
        · simp [Head.rest?] at h
        · simp only [Head.rest?, Option.some.injEq] at h
          exact h ▸ cutBalanced?_length hc
  unfold markup at h
  split at h
  · unfold closingTag at h
    split at h
    · simp [Head.rest?] at h
    · rename_i hc
      simp only [Head.rest?, Option.some.injEq] at h
      have := cutTag?_length hc
      simp only [← h, List.length_cons]
      omega
  · unfold declaration at h
    split at h
    · unfold comment at h
      split at h
      · simp [Head.rest?] at h
      · rename_i hc
        simp only [Head.rest?, Option.some.injEq] at h
        have := cutAt?_length hc
        simp only [← h, List.length_cons]
        omega
    · simp [Head.rest?] at h
    · unfold rawText at h
      split at h
      · simp [Head.rest?] at h
      · rename_i hc
        simp only [Head.rest?, Option.some.injEq] at h
        have := cutAt?_length hc
        simp only [← h, List.length_cons]
        omega
    · simp [Head.rest?] at h
    · exact Nat.le_succ_of_le (type h)
    · exact Nat.le_succ_of_le (type h)
    · simp [Head.rest?] at h
  · unfold instruction at h
    split at h
    · simp [Head.rest?] at h
    · split at h
      · simp [Head.rest?] at h
      · rename_i hc
        simp only [Head.rest?, Option.some.injEq] at h
        have := cutAt?_length hc
        simp only [← h, List.length_cons]
        omega
  · exact tag h

theorem head_length {s rest : List Char} (h : (head s).rest? = some rest) :
    rest.length < s.length := by
  unfold head at h
  split at h
  · simp [Head.rest?] at h
  · exact Nat.lt_succ_of_le (markup_length h)
  · rename_i t
    unfold reference at h
    split at h
    · rename_i hd
      simp only [Head.rest?, Option.some.injEq] at h
      have := (List.dropWhile_sublist (l := t) inReference).length_le
      rw [hd] at this
      simp only [← h, List.length_cons] at this ⊢
      omega
    · simp [Head.rest?] at h
  all_goals
    simp only [Head.rest?, Option.some.injEq] at h
    simp only [← h, List.length_cons]
    omega

end DialectBindings.Markup
