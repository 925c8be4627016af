import DialectBindings.Proofs.Listings
import DialectBindings.Proofs.WholeLines
import Mathlib.Data.List.Forall2

/-!
# Documentation comments

A comment shows the lines of its paragraphs that are left when they are trimmed, each with its end
marks broken up, so that the mark comes in nowhere but at the end of the last line. No line of a
comment has a line feed.
-/

set_option autoImplicit false

namespace DialectBindings

theorem Text.newline_not_mem_lines {s l : List Char} (hl : l ∈ lines s) : '\n' ∉ l := by
  fun_induction lines s generalizing l with
  | case1 => cases hl
  | case2 rest ih =>
    rcases List.mem_cons.1 hl with rfl | hl
    · exact List.not_mem_nil
    · exact ih hl
  | case3 rest ih =>
    rcases List.mem_cons.1 hl with rfl | hl
    · exact List.not_mem_nil
    · exact ih hl
  | case4 c rest _ hc hn ih =>
    obtain rfl := List.mem_singleton.1 hl
    simpa using Ne.symm hc
  | case5 c rest _ hc line more hm ih =>
    rw [hm] at ih
    rcases List.mem_cons.1 hl with rfl | hl
    · rw [List.mem_cons, not_or]
      exact ⟨Ne.symm hc, ih List.mem_cons_self⟩
    · exact ih (List.mem_cons_of_mem _ hl)

namespace Listing
open Text Script

def endMark : List Char := ['*', '/']

def brokenMark : List Char := ['*', '\\', '/']

def IsOpen (s : List Char) : Prop := ¬ endMark <:+: s

/-- One text has broken marks where the other has marks, and no other difference. -/
def BreaksMarks (s t : List Char) : Prop :=
  ∃ parts, (∀ part ∈ parts, IsOpen part) ∧ s = endMark.intercalate parts ∧
    t = brokenMark.intercalate parts

/-! ## Marks -/

theorem isOpen_nil : IsOpen [] := by
  rw [IsOpen, List.infix_nil]
  exact List.cons_ne_nil _ _

theorem isOpen_cons {c : Char} {s : List Char} :
    IsOpen (c :: s) ↔ ¬ (c = '*' ∧ s.head? = some '/') ∧ IsOpen s := by
  have hmark : endMark <+: c :: s ↔ c = '*' ∧ s.head? = some '/' := by
    cases s with
    | nil => simp [endMark]
    | cons d s => simp [endMark, List.cons_prefix_cons, eq_comm]
  rw [IsOpen, List.infix_cons_iff, hmark, not_or, IsOpen]

theorem isOpen_append_cons {a b : List Char} {c : Char} (hs : c ≠ '*') (hd : c ≠ '/') :
    IsOpen (a ++ c :: b) ↔ IsOpen a ∧ IsOpen b := by
  induction a with
  | nil => simp [isOpen_cons, hs, isOpen_nil]
  | cons x a ih =>
    cases a with
    | nil => simp_all [isOpen_cons]
    | cons y a => simp_all [isOpen_cons, and_assoc]

theorem isOpen_margin (n : Nat) (s : List Char) :
    IsOpen (List.replicate n ' ' ++ s) ↔ IsOpen s := by
  induction n with
  | zero => rfl
  | succ n ih => simp [List.replicate_succ, isOpen_cons, ih]

theorem head?_guarded (s : List Char) : (guarded s).head? = s.head? := by
  fun_cases guarded s <;> rfl

theorem guarded_isOpen (s : List Char) : IsOpen (guarded s) := by
  fun_induction guarded s with
  | case1 rest ih => simpa [isOpen_cons] using ih
  | case2 c rest hne ih =>
    refine isOpen_cons.2 ⟨?_, ih⟩
    rintro ⟨hc, hr⟩
    rw [head?_guarded, List.head?_eq_some_iff] at hr
    obtain ⟨rest', rfl⟩ := hr
    exact hne rest' hc rfl
  | case3 => exact isOpen_nil

theorem intercalate_cons (mark : List Char) (c : Char) (part : List Char)
    (more : List (List Char)) :
    mark.intercalate ((c :: part) :: more) = c :: mark.intercalate (part :: more) := by
  cases more with
  | nil => simp
  | cons next more => simp [List.intercalate_cons_cons]

theorem guarded_breaksMarks (s : List Char) : BreaksMarks s (guarded s) := by
  -- By the marks as `guarded` finds them, for parts of which there is at least one.
  have hparts : ∃ part more, (∀ p ∈ part :: more, IsOpen p) ∧
      s = endMark.intercalate (part :: more) ∧
      guarded s = brokenMark.intercalate (part :: more) := by
    fun_induction guarded s with
    | case1 rest ih =>
      obtain ⟨part, more, hopen, hs, ht⟩ := ih
      refine ⟨[], part :: more, List.forall_mem_cons.2 ⟨isOpen_nil, hopen⟩, ?_, ?_⟩
      · rw [List.intercalate_cons_cons, ← hs]
        rfl
      · rw [List.intercalate_cons_cons, ← ht]
        rfl
    | case2 c rest hne ih =>
      obtain ⟨part, more, hopen, hs, ht⟩ := ih
      obtain ⟨hpart, hmore⟩ := List.forall_mem_cons.1 hopen
      refine ⟨c :: part, more, List.forall_mem_cons.2 ⟨isOpen_cons.2 ⟨?_, hpart⟩, hmore⟩, ?_, ?_⟩
      · rintro ⟨hc, hp⟩
        obtain ⟨part', rfl⟩ := List.head?_eq_some_iff.1 hp
        rw [intercalate_cons] at hs
        exact hne _ hc hs
      · rw [intercalate_cons, ← hs]
      · rw [intercalate_cons, ← ht]
    | case3 => exact ⟨[], [], by simpa using isOpen_nil, rfl, rfl⟩
  obtain ⟨part, more, hopen, hs, ht⟩ := hparts
  exact ⟨part :: more, hopen, hs, ht⟩

/-! ## Lines -/

/-- What a comment is at a level for the lines that it shows. -/
structure IsComment (level : Nat) (shown : List (List Char)) (written : List String) : Prop where
  framed : ∃ bodies, List.Forall₂ BreaksMarks shown bodies ∧
    written = (margin level ++ "/**") ::
      bodies.map (fun body => margin level ++ " * " ++ String.ofList body) ++
      [margin level ++ " */"]
  one_line_each : ∀ line ∈ written, '\n' ∉ line.toList
  ends : ∃ before, ("\n".intercalate written).toList = before ++ endMark
  ends_once : ∀ before after,
    ("\n".intercalate written).toList = before ++ endMark ++ after → after = []

theorem isOpen_lines {ls : List (List Char)} (h : ∀ l ∈ ls, IsOpen l) :
    IsOpen (['\n'].intercalate ls) := by
  induction ls with
  | nil => exact isOpen_nil
  | cons l ls ih =>
    obtain ⟨hl, hls⟩ := List.forall_mem_cons.1 h
    cases ls with
    | nil => simpa using hl
    | cons next more =>
      rw [List.intercalate_cons_cons, List.append_assoc, List.singleton_append,
        isOpen_append_cons (by decide) (by decide)]
      exact ⟨hl, ih hls⟩

theorem intercalate_concat {ls : List (List Char)} (h : ls ≠ []) (last : List Char) :
    ['\n'].intercalate (ls ++ [last]) = ['\n'].intercalate ls ++ '\n' :: last := by
  induction ls with
  | nil => exact absurd rfl h
  | cons l ls ih =>
    cases ls with
    | nil => simp [List.intercalate_cons_cons]
    | cons next more =>
      rw [List.cons_append, List.cons_append, List.intercalate_cons_cons, ← List.cons_append,
        ih (List.cons_ne_nil _ _), List.intercalate_cons_cons]
      simp

theorem endMark_once {text before after : List Char} (h : IsOpen (text ++ ['*']))
    (he : text ++ endMark = before ++ endMark ++ after) : after = [] := by
  obtain rfl | ⟨init, last, rfl⟩ := List.eq_nil_or_concat after
  · rfl
  · have hsplit : (text ++ ['*']) ++ ['/'] = (before ++ endMark ++ init) ++ [last] := by
      simpa [endMark] using he
    obtain ⟨hinit, -⟩ := List.append_inj' hsplit rfl
    exact absurd ⟨before, init, hinit.symm⟩ h

theorem docLines_mem {paragraphs : List String} {l : List Char} (h : l ∈ docLines paragraphs) :
    '\n' ∉ l := by
  obtain ⟨p, -, hl⟩ := List.mem_flatMap.1 (List.mem_filter.1 h).1
  obtain ⟨line, hline, rfl⟩ := List.mem_map.1 hl
  exact fun hn => newline_not_mem_lines hline (mem_of_mem_trim hn)

theorem written_comment {level : Nat} {paragraphs : List String} (h : docLines paragraphs ≠ []) :
    written level (.doc paragraphs) = (margin level ++ "/**") ::
      ((docLines paragraphs).map guarded).map
        (fun body => margin level ++ " * " ++ String.ofList body) ++ [margin level ++ " */"] := by
  have hstar (text : String) : placed level (" * " ++ text) = margin level ++ " * " ++ text := by
    rw [placed_of_ne (by simp), String.append_assoc]
  rw [written, comment]
  split
  · rename_i hn
    exact absurd hn h
  · simp only [List.map_cons, List.map_append, List.map_map, List.map_nil, Function.comp_def, hstar]
    rw [placed_of_ne (by decide), placed_of_ne (by decide)]

theorem margin_toList (level : Nat) : (margin level).toList = List.replicate (2 * level) ' ' :=
  String.toList_ofList

theorem written_one_line {level : Nat} {paragraphs : List String} (h : docLines paragraphs ≠ []) :
    ∀ line ∈ written level (.doc paragraphs), '\n' ∉ line.toList := by
  have hline {s : List Char} (hs : '\n' ∉ s) : '\n' ∉ (margin level).toList ++ s := by
    simpa [margin_toList] using hs
  rw [written_comment h, List.cons_append, List.forall_mem_cons, List.forall_mem_append,
    List.forall_mem_map, List.forall_mem_map]
  refine ⟨?_, fun l hl => ?_, List.forall_mem_singleton.2 ?_⟩
  · rw [String.toList_append]
    exact hline (by decide)
  · have hguarded : '\n' ∉ guarded l := (mem_guarded (by decide)).not.2 (docLines_mem hl)
    rw [String.toList_append, String.toList_append, List.append_assoc, String.toList_ofList]
    exact hline (by simpa using hguarded)
  · rw [String.toList_append]
    exact hline (by decide)

theorem written_text (level : Nat) {paragraphs : List String} (h : docLines paragraphs ≠ []) :
    ∃ text, ("\n".intercalate (written level (.doc paragraphs))).toList = text ++ endMark ∧
      IsOpen (text ++ ['*']) := by
  let spaces := List.replicate (2 * level) ' '
  let front : List (List Char) := (spaces ++ ['/', '*', '*']) ::
    (docLines paragraphs).map fun l => spaces ++ ' ' :: '*' :: ' ' :: guarded l
  have hfront : ∀ l ∈ front, IsOpen l := by
    refine List.forall_mem_cons.2 ⟨?_, List.forall_mem_map.2 fun l _ => ?_⟩
    · simp [spaces, isOpen_margin, isOpen_cons, isOpen_nil]
    · simp [spaces, isOpen_margin, isOpen_cons, guarded_isOpen]
  have hlines : (written level (.doc paragraphs)).map String.toList =
      front ++ [spaces ++ ' ' :: endMark] := by
    rw [written_comment h]
    simp [front, spaces, margin_toList, endMark]
  refine ⟨['\n'].intercalate front ++ '\n' :: (spaces ++ [' ']), ?_, ?_⟩
  · have hfeed : "\n".toList = ['\n'] := rfl
    rw [String.toList_intercalate, hlines, hfeed, intercalate_concat (List.cons_ne_nil _ _)]
    simp [front]
  · rw [List.append_assoc, List.cons_append, isOpen_append_cons (by decide) (by decide)]
    refine ⟨isOpen_lines hfront, ?_⟩
    simp [spaces, isOpen_margin, isOpen_cons, isOpen_nil]

theorem isComment_docLines {level : Nat} {paragraphs : List String}
    (h : docLines paragraphs ≠ []) :
    IsComment level (docLines paragraphs) (written level (.doc paragraphs)) := by
  obtain ⟨text, htext, hopen⟩ := written_text level h
  have hbodies : List.Forall₂ BreaksMarks (docLines paragraphs)
      ((docLines paragraphs).map guarded) := by
    rw [List.forall₂_map_right_iff, List.forall₂_same]
    exact fun l _ => guarded_breaksMarks l
  exact {
    framed := ⟨_, hbodies, written_comment h⟩
    one_line_each := written_one_line h
    ends := ⟨text, htext⟩
    ends_once := fun before after he => endMark_once hopen (htext.symm.trans he) }

/-- Paragraphs whose lines are all blank are not written. Of others a comment is written that shows
the lines that are not blank. -/
theorem written_doc (level : Nat) (paragraphs : List String) :
    let trimmed := paragraphs.flatMap fun p => (lines p.toList).map trim
    (∀ l ∈ trimmed, l = []) ∧ written level (.doc paragraphs) = [] ∨
      (∃ l ∈ trimmed, l ≠ []) ∧
        IsComment level (trimmed.filter (· ≠ [])) (written level (.doc paragraphs)) := by
  intro trimmed
  have hshown : docLines paragraphs = trimmed.filter (· ≠ []) := by
    rw [docLines]
    exact List.filter_congr fun l _ => by cases l <;> rfl
  by_cases hall : ∀ l ∈ trimmed, l = []
  · have hnone : docLines paragraphs = [] := by
      rw [hshown]
      simpa using hall
    exact .inl ⟨hall, by rw [written, comment, hnone]; rfl⟩
  · have hsome : ∃ l ∈ trimmed, l ≠ [] := by simpa using hall
    have hne : docLines paragraphs ≠ [] := by
      rw [hshown]
      simpa using hsome
    exact .inr ⟨hsome, hshown ▸ isComment_docLines hne⟩

end Listing
end DialectBindings
