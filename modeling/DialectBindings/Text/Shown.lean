/-!
# Text without control sequences

A terminal takes some characters as orders: control characters, and sequences that an escape
character starts. What it would show of a text is the text without them, white space kept. A
character beyond ASCII inside a sequence breaks the sequence off, and only what follows its first
octet is shown.
-/

set_option autoImplicit false

namespace DialectBindings.Text

inductive ControlState
  | plain
  /-- Right after the escape character. -/
  | escape
  | intermediate
  /-- In a sequence that a letter ends. -/
  | parameters
  /-- In a string that a bell ends. -/
  | command
  /-- In a string that only another control sequence ends. -/
  | device
  deriving Repr, DecidableEq

namespace ControlState

def isKept (n : Nat) : Bool := n == 9 || n == 10 || n == 12 || n == 13

def advance (state : ControlState) (n : Nat) : ControlState :=
  match state with
  | .plain => .plain
  | .escape =>
    if n < 0x30 then .intermediate
    else if n = 0x5B then .parameters
    else if n = 0x5D then .command
    else if n = 0x50 ∨ n = 0x58 ∨ n = 0x5E ∨ n = 0x5F then .device
    else .plain
  | .intermediate => if n < 0x30 then .intermediate else .plain
  | .parameters => if n < 0x40 then .parameters else .plain
  | .command => .command
  | .device => .device

/-- The state after a control character, and whether the character is shown. -/
def control (state : ControlState) (n : Nat) : ControlState × Bool :=
  match state with
  | .command => (if n = 7 then .plain else .command, false)
  | .device => (.device, false)
  | state => if isKept n then (.plain, true) else (state, false)

def step (state : ControlState) (c : Char) : ControlState × List Char :=
  let n := c.toNat
  if 0x80 ≤ n then
    (.plain, if state = .plain then [c] else List.replicate (c.utf8Size - 1) '\uFFFD')
  else if n = 0x1B then (.escape, [])
  else if n = 0x18 ∨ n = 0x1A then (.plain, [])
  else if n = 0x7F then (state, [])
  else if n < 0x20 then
    let (next, isShown) := state.control n
    (next, if isShown then [c] else [])
  else (state.advance n, if state = .plain then [c] else [])

end ControlState

def shownFrom (state : ControlState) : List Char → List Char
  | [] => []
  | c :: rest => (state.step c).2 ++ shownFrom (state.step c).1 rest

def shown (s : List Char) : List Char := shownFrom .plain s

end DialectBindings.Text
