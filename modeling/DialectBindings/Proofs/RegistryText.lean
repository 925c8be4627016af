import DialectBindings.Proofs.Cuts
import DialectBindings.Proofs.Numerals
import DialectBindings.Proofs.Overrides

/-!
# The text of the registry

The text of a registry is read back line by line: between its first and its last line each states an
id in quotes and a magic number. What is read is what the registry holds, so registries with one
text are equal. A registry that messages were folded into holds an id exactly if one of them gave
it a magic number, and the last that did decides.
-/

set_option autoImplicit false

namespace DialectBindings.Registry
open Text

/-! ## Rows -/

/-- The quoted id and the magic number that a line states, both decimal. -/
def readRow (line : List Char) : Option (UInt32 × UInt8) :=
  match cutAt? ['\''] line with
  | some ([' ', ' '], rest) => do
    let (id, rest) ← cutAt? ['\'', ':', ' '] rest
    let (magic, rest) ← cutAt? [','] rest
    if rest.isEmpty then return (← word? id, ← byte? magic) else none
  | _ => none

def rowLine (e : UInt32 × UInt8) : List Char :=
  [' ', ' '] ++ (['\''] ++ (Nat.toDigits 10 e.1.toNat ++
    (['\'', ':', ' '] ++ (Nat.toDigits 10 e.2.toNat ++ [',']))))

theorem toList_row (e : UInt32 × UInt8) : (row e).toList = rowLine e ++ ['\n'] := by
  simp [row, rowLine]

theorem not_mem_toDigits {c : Char} (hc : c.isDigit = false) (n : Nat) :
    c ∉ Nat.toDigits 10 n := by
  intro h
  rw [Nat.isDigit_of_mem_toDigits (by decide) (by decide) h] at hc
  cases hc

theorem readRow_rowLine (e : UInt32 × UInt8) : readRow (rowLine e) = some e := by
  have hquote : cutAt? ['\''] (rowLine e) = some ([' ', ' '], _) :=
    cutAt?_of_not_mem (by decide) _
  have hid : cutAt? ['\'', ':', ' '] (_ ++ _) = some (Nat.toDigits 10 e.1.toNat, _) :=
    cutAt?_of_not_mem (not_mem_toDigits rfl _) (Nat.toDigits 10 e.2.toNat ++ [','])
  have hmagic : cutAt? [','] (_ ++ _) = some (Nat.toDigits 10 e.2.toNat, []) :=
    cutAt?_of_not_mem (not_mem_toDigits rfl _) []
  simp only [readRow, hquote, hid, Option.bind_eq_bind, Option.bind_some]
  rw [List.append_nil] at hmagic
  simp [hmagic, word?_toDigits, byte?_toDigits]

theorem newline_not_mem_rowLine (e : UInt32 × UInt8) : '\n' ∉ rowLine e := by
  simp [rowLine, not_mem_toDigits]

/-! ## The text -/

def firstLine : String := "export const MSG_ID_MAGIC_NUMBER: Record<string, number> = \x7b"

def lastLine : String := "\x7d"

/-- The entries of a text of whole lines, one for each line between the first and the last. -/
def readRows (text : String) : Option (List (UInt32 × UInt8)) :=
  match pieces '\n' text.toList with
  | first :: rest =>
    match rest.reverse with
    | [] :: last :: rows =>
      if first = firstLine.toList ∧ last = lastLine.toList then rows.reverse.mapM readRow else none
    | _ => none
  | [] => none

def textLines (r : Registry) : List (List Char) :=
  [firstLine.toList] ++ r.entries.map rowLine ++ [lastLine.toList]

theorem newline_not_mem_textLines {r : Registry} {line : List Char} (h : line ∈ r.textLines) :
    '\n' ∉ line := by
  rw [textLines, List.mem_append, List.mem_append, List.mem_map, List.mem_singleton,
    List.mem_singleton] at h
  rcases h with (rfl | ⟨e, -, rfl⟩) | rfl
  · decide
  · exact newline_not_mem_rowLine e
  · decide

theorem toList_render (r : Registry) : r.render.toList = r.textLines.flatMap (· ++ ['\n']) := by
  have hfirst : "export const MSG_ID_MAGIC_NUMBER: Record<string, number> = \x7b\n" =
      firstLine ++ "\n" := by decide
  have hlast : "\x7d\n" = lastLine ++ "\n" := by decide
  have hrows : (String.join (r.entries.map row)).toList =
      (r.entries.map rowLine).flatMap (· ++ ['\n']) := by
    simp only [String.toList_join, List.flatMap_map, toList_row]
  unfold render
  rw [hfirst, hlast]
  simp [hrows, textLines]

theorem mapM_readRow (entries : List (UInt32 × UInt8)) :
    (entries.map rowLine).mapM readRow = some entries := by
  induction entries with
  | nil => rfl
  | cons e entries ih =>
    rw [List.map_cons, List.mapM_cons, readRow_rowLine, ih]
    rfl

theorem readRows_render (r : Registry) : readRows r.render = some r.entries := by
  rw [readRows, toList_render, pieces_ended fun _ => newline_not_mem_textLines, textLines]
  simp [-List.mapM_map, mapM_readRow]

theorem eq_of_entries {r s : Registry} (h : r.entries = s.entries) : r = s := by
  cases r
  cases s
  cases h
  rfl

theorem render_inj {r s : Registry} (h : r.render = s.render) : r = s := by
  have hread := readRows_render r
  rw [h, readRows_render s] at hread
  exact eq_of_entries (Option.some.inj hread).symm

/-! ## What is held -/

/-- The last of the messages that give an id a magic number gives it this one. -/
def GivenLast (ms : List MessageSummary) (id : UInt32) (magic : UInt8) : Prop :=
  ∃ before m after, ms = before ++ m :: after ∧ m.id = id ∧ m.magic = some magic ∧
    ∀ n ∈ after, n.id = id → n.magic = none

variable {r : Registry} {ms : List MessageSummary} {id : UInt32} {magic : UInt8}

theorem givenLast_cons {m : MessageSummary} :
    GivenLast (m :: ms) id magic ↔ GivenLast ms id magic ∨
      m.id = id ∧ m.magic = some magic ∧ ∀ n ∈ ms, n.id = id → n.magic = none := by
  constructor
  · rintro ⟨before, k, after, hms, hk⟩
    cases before with
    | nil =>
      obtain ⟨rfl, rfl⟩ := List.cons.inj hms
      exact .inr hk
    | cons b before =>
      obtain ⟨rfl, rfl⟩ := List.cons.inj hms
      exact .inl ⟨before, k, after, rfl, hk⟩
  · rintro (⟨before, k, after, rfl, hk⟩ | hm)
    · exact ⟨m :: before, k, after, rfl, hk⟩
    · exact ⟨[], m, ms, rfl, hm⟩

/-- What is held was given last, or it was held before and no message gives the id another. -/
theorem get?_addAll_iff : (r.addAll ms).get? id = some magic ↔
    GivenLast ms id magic ∨ r.get? id = some magic ∧ ∀ m ∈ ms, m.id = id → m.magic = none := by
  induction ms generalizing r with
  | nil => simp [GivenLast, addAll]
  | cons m ms ih =>
    change ((r.add m).addAll ms).get? id = _ ↔ _
    rw [ih, givenLast_cons, get?_add, List.forall_mem_cons, or_assoc]
    apply or_congr_right
    by_cases hid : m.id = id
    · cases hm : m.magic <;> simp [hid]
    · simp [hid]

theorem mem_entries_iff : (id, magic) ∈ r.entries ↔ r.get? id = some magic := by
  obtain ⟨entries, sorted⟩ := r
  change _ ↔ entries.lookup id = some magic
  induction entries with
  | nil => simp
  | cons e entries ih =>
    obtain ⟨i, held⟩ := e
    obtain ⟨hfirst, hrest⟩ := List.pairwise_cons.1 sorted
    rw [List.mem_cons, ih hrest, List.lookup_cons]
    by_cases hid : id = i
    · subst hid
      rw [lookup_of_below hfirst]
      simp [eq_comm]
    · simp [hid, beq_false_of_ne]

/-- The text of a registry that messages were folded into is read back row by row as what it holds:
strictly ascending ids, and with each the magic number that it was given last. No other registry
has its text. -/
theorem render_read (files : List (List MessageSummary)) :
    readRows (empty.addFiles files).render = some (empty.addFiles files).entries ∧
    (empty.addFiles files).entries.Pairwise (·.1.toNat < ·.1.toNat) ∧
    (∀ id magic, (id, magic) ∈ (empty.addFiles files).entries ↔
      GivenLast files.flatten id magic) ∧
    ∀ r : Registry, r.render = (empty.addFiles files).render → r = empty.addFiles files := by
  refine ⟨readRows_render _, ?_, fun id magic => ?_, fun r => render_inj⟩
  · exact (empty.addFiles files).sorted.imp UInt32.lt_iff_toNat_lt.1
  · rw [mem_entries_iff, addFiles_eq, get?_addAll_iff]
    exact or_iff_left fun held => nomatch held.1

example : readRows (empty.addFiles [[⟨300, "A", some 217⟩, ⟨4, "B", none⟩],
    [⟨20, "C", some 50⟩]]).render = some [(20, 50), (300, 217)] := by decide +kernel

end DialectBindings.Registry
