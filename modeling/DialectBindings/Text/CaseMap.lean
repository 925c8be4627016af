import DialectBindings.Text.CaseTable

/-!
# Full case mappings

The capital of a character may be several characters; characters are mapped one by one,
whatever stands beside them.
-/

set_option autoImplicit false

namespace DialectBindings.Text

def CaseRun.holds (run : CaseRun) (n : Nat) : Bool :=
  run.first ≤ n && n ≤ run.last && (n - run.first) % run.step == 0

def mapByRuns (runs : List CaseRun) (c : Char) : Char :=
  match runs.find? (·.holds c.toNat) with
  | some run => Char.ofNat ((c.toNat : Int) + run.shift).toNat
  | none => c

def capital (c : Char) : List Char :=
  if c.toNat < 128 then [c.toUpper]
  else
    match longCapitals.find? (·.1 == c.toNat) with
    | some (_, letters) => letters.map Char.ofNat
    | none => [mapByRuns upperRuns c]

/-- The small letter of a character; a capital I with a dot keeps its dot as a combining mark. -/
def small (c : Char) : List Char :=
  if c.toNat < 128 then [c.toLower]
  else if c.toNat = 0x130 then ['i', Char.ofNat 0x307]
  else [mapByRuns lowerRuns c]

end DialectBindings.Text
