import DialectBindings.IoFault
import DialectBindings.Path
import DialectBindings.Text.Blank

/-!
# File trees

Files and directories by their location. A path is followed name by name from the root or from
the working directory, and every name but the last has to lead to a directory. Nodes are only
ever added or given other content.
-/

set_option autoImplicit false

namespace DialectBindings
open Text

/-- The names that lead to a node from the root, the node's own name first. -/
abbrev Location := List Octets

inductive Node
  | file (content : Octets)
  | directory
  deriving Repr, DecidableEq

structure FileTree where
  nodes : List (Location × Node)
  workingDirectory : Location
  deriving Repr, DecidableEq

namespace Path

/-- The components that have to be followed, without any that a leading slash stands for. -/
def steps (p : Path) : List Component :=
  ((pieces slash p.octets).filter (· ≠ [])).map fun name =>
    if name = [dot] then .here else if name = [dot, dot] then .up else .name name

def isAbsolute (p : Path) : Bool := p.octets.head? == some slash

def hasFinalSlash (p : Path) : Bool := p.octets.getLast? == some slash

end Path

namespace FileTree

def nameLimit : Nat := 255

def pathLimit : Nat := 4096

/-- The node at a location; the root is always a directory. -/
def get? (t : FileTree) (l : Location) : Option Node :=
  if l = [] then some .directory else t.nodes.lookup l

def set (t : FileTree) (l : Location) (n : Node) : FileTree :=
  { t with nodes := t.nodes.filter (·.1 ≠ l) ++ [(l, n)] }

theorem get?_set (t : FileTree) {l : Location} (hl : l ≠ []) (n : Node) (k : Location) :
    (t.set l n).get? k = if k = l then some n else t.get? k := by
  by_cases hk : k = []
  · have hkl : k ≠ l := fun h => hl (h ▸ hk)
    simp [get?, hk, hl.symm]
  · simp only [get?, set, if_neg hk]
    induction t.nodes with
    | nil => by_cases h : k = l <;> simp [List.lookup_cons, h, beq_false_of_ne]
    | cons e rest ih =>
      obtain ⟨l', n'⟩ := e
      by_cases he : l' = l
      · rw [List.filter_cons_of_neg (by simpa using he), ih]
        by_cases h : k = l <;> simp [List.lookup_cons, h, he, beq_false_of_ne]
      · rw [List.filter_cons_of_pos (by simpa using he), List.cons_append, List.lookup_cons,
          List.lookup_cons, ih]
        by_cases h : k = l
        · simp [h, beq_false_of_ne (Ne.symm he)]
        · simp [h]

def follow (t : FileTree) (l : Location) : List Component → Except IoFault Location
  | [] => .ok l
  | step :: rest =>
    match t.get? l with
    | none => .error .missing
    | some (.file _) => .error .notDirectory
    | some .directory =>
      match step with
      | .name name =>
        if nameLimit < name.length then .error .nameTooLong else t.follow (name :: l) rest
      | .up => t.follow l.tail rest
      | _ => t.follow l rest

def start (t : FileTree) (p : Path) : Location :=
  if p.isAbsolute then [] else t.workingDirectory

/-- What no path may be, wherever it leads. -/
def check (p : Path) : Except IoFault Unit :=
  if p.octets.contains 0 then .error .nulInName
  else if p.octets = [] then .error .missing
  else if pathLimit ≤ p.octets.length then .error .nameTooLong
  else .ok ()

def locate (t : FileTree) (p : Path) : Except IoFault Location := do
  check p
  t.follow (t.start p) p.steps

def isDirectory (t : FileTree) (p : Path) : Bool :=
  match t.locate p with
  | .ok l => t.get? l = some .directory
  | .error _ => false

def read (t : FileTree) (p : Path) : Except IoFault Octets := do
  match t.get? (← t.locate p) with
  | none => .error .missing
  | some .directory => .error .isDirectory
  | some (.file content) => if p.hasFinalSlash then .error .notDirectory else .ok content

/-- The directory in which the last step of a path is made, and that step. -/
def locateParent (t : FileTree) (p : Path) : Except IoFault (Location × Option Component) := do
  check p
  let l ← t.follow (t.start p) p.steps.dropLast
  match t.get? l with
  | none => .error .missing
  | some (.file _) => .error .notDirectory
  | some .directory => .ok (l, p.steps.getLast?)

def write (t : FileTree) (p : Path) (content : Octets) : Except IoFault FileTree := do
  match ← t.locateParent p with
  | (l, some (.name name)) =>
    if p.hasFinalSlash then .error .isDirectory
    else if nameLimit < name.length then .error .nameTooLong
    else if t.get? (name :: l) = some .directory then .error .isDirectory
    else .ok (t.set (name :: l) (.file content))
  | _ => .error .isDirectory

def makeDirectory (t : FileTree) (p : Path) : Except IoFault FileTree := do
  match ← t.locateParent p with
  | (l, some (.name name)) =>
    if nameLimit < name.length then .error .nameTooLong
    else if (t.get? (name :: l)).isSome then .error .alreadyThere
    else .ok (t.set (name :: l) .directory)
  | _ => .error .alreadyThere

/-- A change that the tree may refuse, and then stays as it is. -/
def attempt (t : FileTree) (change : FileTree → Except IoFault FileTree) :
    Except IoFault Unit × FileTree :=
  match change t with
  | .ok changed => (.ok (), changed)
  | .error fault => (.error fault, t)

def relative? (base l : Location) : Option Path :=
  if base.isSuffixOf l then
    some ⟨[Path.slash].intercalate (l.take (l.length - base.length)).reverse⟩
  else none

/-- What is below the working directory and was not, or with other content, in an earlier tree. -/
def changes (earlier later : FileTree) : List (Path × Node) :=
  later.nodes.filterMap fun (l, _) => do
    let n ← later.get? l
    if earlier.get? l = some n then none
    else return (← relative? later.workingDirectory l, n)

theorem exists_mem_nodes {t : FileTree} {l : Location} {n : Node} (hl : l ≠ [])
    (h : t.get? l = some n) : ∃ m, (l, m) ∈ t.nodes := by
  rw [get?, if_neg hl] at h
  obtain ⟨before, after, hs, -⟩ := List.lookup_eq_some_iff.1 h
  exact ⟨n, by simp [hs]⟩

theorem mem_changes {earlier later : FileTree} {p : Path} {n : Node} :
    (p, n) ∈ earlier.changes later ↔ ∃ l, later.get? l = some n ∧ earlier.get? l ≠ some n ∧
      relative? later.workingDirectory l = some p := by
  have hstep (l : Location) : (do
      let n ← later.get? l
      if earlier.get? l = some n then none
      else return (← relative? later.workingDirectory l, n)) = some (p, n) ↔
      later.get? l = some n ∧ earlier.get? l ≠ some n ∧
        relative? later.workingDirectory l = some p := by
    simp only [bind, Option.bind_eq_some_iff, Option.ite_none_left_eq_some]
    constructor
    · rintro ⟨m, hm, hne, q, hq, he⟩
      cases he
      exact ⟨hm, hne, hq⟩
    · rintro ⟨hn, hne, hp⟩
      exact ⟨n, hn, hne, p, hp, rfl⟩
  rw [changes, List.mem_filterMap]
  constructor
  · rintro ⟨⟨l, m⟩, -, h⟩
    exact ⟨l, (hstep l).1 h⟩
  · rintro ⟨l, h⟩
    have hl : l ≠ [] := by
      rintro rfl
      exact h.2.1 h.1
    obtain ⟨m, hm⟩ := exists_mem_nodes hl h.1
    exact ⟨(l, m), hm, (hstep l).2 h⟩

end FileTree

end DialectBindings
