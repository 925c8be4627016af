import DialectBindings.Text.Blank
import Mathlib.Data.List.TakeWhile

/-!
# Texts that are cut

A text without a mark in front of the mark tells where a text is cut at it first, and lines that are
put one after the other come back when the text is cut at the line feeds. Trimming takes away what
is of a class at the two ends, and a part without blanks is what is left exactly if all that stands
around it are blanks.
-/

set_option autoImplicit false

namespace DialectBindings.Text

theorem cut_at {α : Type} {mark : α} {a b s t : List α} (ha : mark ∉ a) (hb : mark ∉ b)
    (h : a ++ mark :: s = b ++ mark :: t) : a = b ∧ s = t := by
  induction a generalizing b with
  | nil =>
    cases b with
    | nil => exact ⟨rfl, (List.cons.inj h).2⟩
    | cons y b => exact absurd ((List.cons.inj h).1 ▸ List.mem_cons_self) hb
  | cons x a ih =>
    rw [List.mem_cons, not_or] at ha
    cases b with
    | nil => exact absurd (List.cons.inj h).1.symm ha.1
    | cons y b =>
      rw [List.mem_cons, not_or] at hb
      obtain ⟨rfl, hrest⟩ := List.cons.inj h
      obtain ⟨rfl, hst⟩ := ih ha.2 hb.2 hrest
      exact ⟨rfl, hst⟩

theorem cutAt?_of_not_mem {c : Char} {marker before : List Char} (h : c ∉ before)
    (after : List Char) :
    cutAt? (c :: marker) (before ++ (c :: marker ++ after)) = some (before, after) := by
  induction before with
  | nil =>
    have hmark : (c :: marker).isPrefixOf (c :: marker ++ after) = true :=
      List.isPrefixOf_iff_prefix.2 (List.prefix_append _ _)
    rw [List.nil_append, List.cons_append, cutAt?, ← List.cons_append, if_pos hmark, List.drop_left]
  | cons d before ih =>
    rw [List.mem_cons, not_or] at h
    have hmark : ¬ (c :: marker).isPrefixOf (d :: (before ++ (c :: marker ++ after))) = true := by
      simp [List.isPrefixOf, h.1]
    rw [List.cons_append, cutAt?, if_neg hmark, ih h.2]
    rfl

section Pieces
variable {α : Type} [DecidableEq α] {separator : α} {a : List α}

theorem pieces_ne_nil (separator : α) (a : List α) : pieces separator a ≠ [] := by
  cases a with
  | nil => simp [pieces]
  | cons c a =>
    rw [pieces]
    split
    · simp
    · split <;> simp

theorem pieces_append (separator : α) (a b : List α) :
    pieces separator (a ++ separator :: b) = pieces separator a ++ pieces separator b := by
  induction a with
  | nil => simp [pieces]
  | cons c a ih =>
    rw [List.cons_append, pieces, pieces, ih]
    by_cases hc : c = separator
    · simp [hc]
    · rw [if_neg hc, if_neg hc]
      cases hp : pieces separator a with
      | nil => exact absurd hp (pieces_ne_nil separator a)
      | cons piece more => rfl

theorem eq_separator_of_pieces (h : (pieces separator a).filter (· ≠ []) = []) :
    ∀ c ∈ a, c = separator := by
  induction a with
  | nil => simp
  | cons c a ih =>
    rw [pieces] at h
    by_cases hc : c = separator
    · rw [if_pos hc] at h
      intro d hd
      rcases List.mem_cons.1 hd with rfl | hd
      · exact hc
      · exact ih (by simpa using h) d hd
    · rw [if_neg hc] at h
      split at h <;> simp at h

theorem pieces_of_not_mem (h : separator ∉ a) : pieces separator a = [a] := by
  induction a with
  | nil => rfl
  | cons c a ih =>
    rw [List.mem_cons, not_or] at h
    rw [pieces, if_neg (Ne.symm h.1), ih h.2]

theorem pieces_ended {parts : List (List α)} (h : ∀ part ∈ parts, separator ∉ part) :
    pieces separator (parts.flatMap (· ++ [separator])) = parts ++ [[]] := by
  induction parts with
  | nil => rfl
  | cons part parts ih =>
    obtain ⟨hpart, hparts⟩ := List.forall_mem_cons.1 h
    rw [List.flatMap_cons, List.append_assoc, List.singleton_append, pieces_append,
      pieces_of_not_mem hpart, ih hparts]
    rfl

end Pieces

section Trim
variable {p : Char → Bool} {s t : List Char}

theorem trimBy_eq_nil_iff : trimBy p s = [] ↔ s.all p = true := by
  rw [trimBy, List.reverse_eq_nil_iff, List.dropWhile_eq_nil_iff, List.all_eq_true]
  constructor
  · intro h c hc
    rw [← List.takeWhile_append_dropWhile (p := p) (l := s), List.mem_append] at hc
    rcases hc with hc | hc
    · exact List.mem_takeWhile_imp hc
    · exact h c (List.mem_reverse.2 hc)
  · intro h c hc
    exact h c ((List.dropWhile_sublist p).subset (List.mem_reverse.1 hc))

theorem trimBy_append_left (h : s.all p = true) : trimBy p (s ++ t) = trimBy p t := by
  rw [trimBy, trimBy, List.dropWhile_append_of_pos (List.all_eq_true.1 h)]

theorem trimBy_append_right (h : t.all p = true) : trimBy p (s ++ t) = trimBy p s := by
  by_cases hs : s.all p = true
  · rw [trimBy_append_left hs, trimBy_eq_nil_iff.2 h, trimBy_eq_nil_iff.2 hs]
  · have hne : s.dropWhile p ≠ [] := by
      rw [ne_eq, List.dropWhile_eq_nil_iff, ← List.all_eq_true]
      exact hs
    have hback : ∀ c ∈ t.reverse, p c = true := by
      intro c hc
      exact List.all_eq_true.1 h c (List.mem_reverse.1 hc)
    have hdrop : (s ++ t).dropWhile p = s.dropWhile p ++ t := by
      rw [List.dropWhile_append, if_neg (by simpa using hne)]
    rw [trimBy, trimBy, hdrop, List.reverse_append, List.dropWhile_append_of_pos hback]

theorem dropWhile_of_none (h : ∀ c ∈ s, p c = false) : s.dropWhile p = s := by
  cases s with
  | nil => rfl
  | cons c s => exact List.dropWhile_cons_of_neg (by simp [h c List.mem_cons_self])

theorem trimBy_of_none (h : ∀ c ∈ s, p c = false) : trimBy p s = s := by
  rw [trimBy, dropWhile_of_none h, dropWhile_of_none fun c hc => h c (List.mem_reverse.1 hc),
    List.reverse_reverse]

theorem exists_trimBy (p : Char → Bool) (s : List Char) :
    ∃ front back, front.all p = true ∧ back.all p = true ∧ s = front ++ trimBy p s ++ back := by
  refine ⟨s.takeWhile p, ((s.dropWhile p).reverse.takeWhile p).reverse, List.all_takeWhile, ?_, ?_⟩
  · rw [List.all_reverse]
    exact List.all_takeWhile
  · rw [trimBy, List.append_assoc, ← List.reverse_append, List.takeWhile_append_dropWhile,
      List.reverse_reverse, List.takeWhile_append_dropWhile]

end Trim

/-- A text with nothing but blanks around a part of it. -/
def Padded (text s : List Char) : Prop :=
  ∃ front back, front.all isBlank = true ∧ back.all isBlank = true ∧ s = front ++ text ++ back

variable {s text : List Char}

theorem padded_self (text : List Char) : Padded text text :=
  ⟨[], [], rfl, rfl, by rw [List.nil_append, List.append_nil]⟩

theorem trim_eq_iff (ht : ∀ c ∈ text, isBlank c = false) : trim s = text ↔ Padded text s := by
  constructor
  · rintro rfl
    exact exists_trimBy isBlank s
  · rintro ⟨front, back, hfront, hback, rfl⟩
    rw [trim, trimBy_append_right hback, trimBy_append_left hfront, trimBy_of_none ht]

end DialectBindings.Text
