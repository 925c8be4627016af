import DialectBindings.Text.Utf8

/-!
# Paths

A path is a sequence of octets in which slashes part components. Empty components and single
dots do not count, except a dot at the very start. Operations keep the octets of what they leave
alone, so two spellings of one path stay two.
-/

set_option autoImplicit false

namespace DialectBindings
open Text

structure Path where
  octets : Octets
  deriving Repr, DecidableEq

inductive Component
  | root
  | here
  | up
  | name (octets : Octets)
  deriving Repr, DecidableEq

namespace Path

def slash : UInt8 := 47

def dot : UInt8 := 46

def ofString (s : String) : Path := ⟨Text.octets s⟩

def display (p : Path) : String := lenient p.octets

/-- The slash or dot that starts a path and counts as a component, and the octets after it. -/
def cutStart : Octets → Octets × Octets
  | [46] => ([46], [])
  | 46 :: 47 :: rest => ([46], 47 :: rest)
  | 47 :: rest => ([47], rest)
  | s => ([], s)

/-- Octets in reverse order without the components at their end that do not count. -/
def trimmed (back : Octets) : Octets :=
  if back.takeWhile (· != slash) = [] ∨ back.takeWhile (· != slash) = [dot] then
    match _h : back.dropWhile (· != slash) with
    | [] => []
    | _ :: rest => trimmed rest
  else back
  termination_by back.length
  decreasing_by
    have := (List.dropWhile_sublist (l := back) (· != slash)).length_le
    rw [_h] at this
    exact this

/-- The last component, the octets before it, and the octets of the path without it. -/
def last? (p : Path) : Option (Component × Octets × Octets) :=
  let (start, body) := cutStart p.octets
  let back := trimmed body.reverse
  let name := (back.takeWhile (· != slash)).reverse
  let before := back.dropWhile (· != slash)
  if back = [] then
    match start with
    | [] => none
    | [46] => some (.here, [], [])
    | _ => some (.root, [], [])
  else
    let component := if name = [dot, dot] then .up else .name name
    some (component, start ++ before.reverse, start ++ (trimmed before.tail).reverse)

theorem trimmed_length (back : Octets) : (trimmed back).length ≤ back.length := by
  induction h : back.length using Nat.strongRecOn generalizing back with
  | _ n ih =>
    unfold trimmed
    split
    · split
      · simp
      · rename_i rest hd
        have hl := (List.dropWhile_sublist (l := back) (· != slash)).length_le
        rw [hd] at hl
        simp only [List.length_cons] at hl
        have := ih rest.length (by omega) rest rfl
        omega
    · omega

theorem cutStart_length (s : Octets) :
    (cutStart s).1.length + (cutStart s).2.length = s.length := by
  unfold cutStart
  split <;> simp <;> omega

theorem last?_length {p : Path} {c : Component} {before parent : Octets}
    (h : p.last? = some (c, before, parent)) : parent.length < p.octets.length := by
  have hc := cutStart_length p.octets
  simp only [last?] at h
  split at h
  · rename_i hb
    split at h
    · simp at h
    · rename_i hs
      simp only [Option.some.injEq, Prod.mk.injEq] at h
      simp only [hs, List.length_singleton] at hc
      simp only [← h.2.2, List.length_nil]
      omega
    · rename_i hs _
      simp only [Option.some.injEq, Prod.mk.injEq] at h
      have : 0 < (cutStart p.octets).1.length := List.length_pos_iff.2 hs
      simp only [← h.2.2, List.length_nil]
      omega
  · rename_i hb
    simp only [Option.some.injEq, Prod.mk.injEq] at h
    have hpos : 0 < (trimmed (cutStart p.octets).2.reverse).length := List.length_pos_iff.2 hb
    have ht := trimmed_length (cutStart p.octets).2.reverse
    have hd := (List.dropWhile_sublist
      (l := trimmed (cutStart p.octets).2.reverse) (· != slash)).length_le
    have hu := trimmed_length
      ((trimmed (cutStart p.octets).2.reverse).dropWhile (· != slash)).tail
    simp only [List.length_reverse, List.length_tail] at ht hu
    simp only [← h.2.2, List.length_append, List.length_reverse]
    omega

def fileName? (p : Path) : Option Octets :=
  match p.last? with
  | some (.name name, _) => some name
  | _ => none

def parent? (p : Path) : Option Path :=
  match p.last? with
  | none => none
  | some (.root, _) => none
  | some (_, _, parent) => some ⟨parent⟩

theorem parent?_length {p q : Path} (h : p.parent? = some q) :
    q.octets.length < p.octets.length := by
  unfold parent? at h
  split at h
  · simp at h
  · simp at h
  · rename_i hl
    simp only [Option.some.injEq] at h
    exact h ▸ last?_length hl

def splitName (name : Octets) : Octets × Option Octets :=
  let back := name.reverse
  match back.dropWhile (· != dot) with
  | [] => (name, none)
  | [_] => (name, none)
  | _ :: stem => (stem.reverse, some (back.takeWhile (· != dot)).reverse)

def stem? (p : Path) : Option Octets := p.fileName?.map fun name => (splitName name).1

def extension? (p : Path) : Option Octets := p.fileName?.bind fun name => (splitName name).2

def setExtension (p : Path) (extension : Octets) : Path :=
  match p.last? with
  | some (.name name, before, _) =>
    ⟨before ++ (splitName name).1 ++ if extension = [] then [] else dot :: extension⟩
  | _ => p

/-- The path with another extension. As many octets as the old extension has are cut off at the
end first, whatever they are. -/
def withExtension (p : Path) (extension : Octets) : Path :=
  let old := (p.extension?.map List.length).getD 0
  setExtension ⟨p.octets.take (p.octets.length - old)⟩ extension

/-- One path after another; a path from the root takes the place of the first. -/
def join (p : Path) (next : Octets) : Path :=
  match next with
  | 47 :: _ => ⟨next⟩
  | _ =>
    match p.octets.getLast? with
    | none => ⟨next⟩
    | some 47 => ⟨p.octets ++ next⟩
    | some _ => ⟨p.octets ++ slash :: next⟩

/-- The path with another file name, or with one more component if it has no file name. -/
def withFileName (p : Path) (name : Octets) : Path :=
  if p.fileName?.isSome then (p.parent?.getD p).join name else p.join name

end Path

end DialectBindings
