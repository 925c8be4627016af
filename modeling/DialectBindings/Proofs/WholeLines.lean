import DialectBindings.Listing
import DialectBindings.Proofs.Literals
import DialectBindings.Proofs.Marks

/-!
# Lines without line ends

What the script takes for the end of a line: besides the line feed, by which a listing is cut, the
carriage return and two separators. A listing's lines have none of them inside just when its texts
have none: its lines as they are, and the texts of its comments once they are cut into lines and
trimmed. Names have the line ends in Pascal and camel case that they have as they are.
-/

set_option autoImplicit false

namespace DialectBindings

namespace Script
open Text Identifier

def IsWhole (s : List Char) : Prop := ∀ c ∈ s, endsLine c = false

def Whole (s : String) : Prop := IsWhole s.toList

/-- A text for a comment: what is between its line feeds has no line ends but blank ones at its
ends. -/
def Tidy (s : String) : Prop := ∀ l ∈ lines s.toList, IsWhole (trim l)

instance (s : List Char) : Decidable (IsWhole s) := List.decidableBAll _ s

instance (s : String) : Decidable (Whole s) := inferInstanceAs (Decidable (IsWhole _))

instance (s : String) : Decidable (Tidy s) := inferInstanceAs (Decidable (∀ l ∈ _, _))

@[simp] theorem isWhole_nil : IsWhole [] := nofun

@[simp] theorem isWhole_cons {c : Char} {s : List Char} :
    IsWhole (c :: s) ↔ endsLine c = false ∧ IsWhole s :=
  List.forall_mem_cons

@[simp] theorem isWhole_append {s t : List Char} : IsWhole (s ++ t) ↔ IsWhole s ∧ IsWhole t :=
  List.forall_mem_append

@[simp] theorem whole_append {s t : String} : Whole (s ++ t) ↔ Whole s ∧ Whole t := by
  simp [Whole]

theorem whole_ofList {s : List Char} : Whole (String.ofList s) ↔ IsWhole s := by
  simp [Whole]

theorem isWhole_congr {s t : List Char} (h : ∀ x, endsLine x = true → (x ∈ s ↔ x ∈ t)) :
    IsWhole s ↔ IsWhole t := by
  have hmem (s : List Char) : IsWhole s ↔ ∀ x, endsLine x = true → x ∉ s := by
    refine ⟨fun hs x hx hm => ?_, fun hs c hc => ?_⟩
    · cases (hs x hm).symm.trans hx
    · exact Bool.eq_false_iff.2 fun he => hs c he hc
  rw [hmem, hmem]
  exact forall₂_congr fun x hx => not_congr (h x hx)

theorem isMark_of_endsLine {c : Char} (h : endsLine c = true) : IsMark c := by
  simp only [endsLine, Bool.or_eq_true, beq_iff_eq] at h
  rcases h with ((rfl | rfl) | rfl) | rfl <;> decide

@[simp] theorem whole_pascal {name : String} : Whole (pascal name) ↔ Whole name := by
  rw [pascal, whole_ofList]
  exact isWhole_congr fun x hx => mem_pascalChars (isMark_of_endsLine hx)

@[simp] theorem whole_camel {name : String} : Whole (camel name) ↔ Whole name := by
  rw [camel, whole_ofList]
  exact isWhole_congr fun x hx => mem_camelChars (isMark_of_endsLine hx)

theorem isWhole_of_digits {s : List Char} (h : ∀ c ∈ s, c.isDigit = true) : IsWhole s := by
  intro c hc
  refine Bool.eq_false_iff.2 fun he => ?_
  simp only [endsLine, Bool.or_eq_true, beq_iff_eq] at he
  rcases he with ((rfl | rfl) | rfl) | rfl <;> cases h _ hc

@[simp] theorem whole_number (n : Nat) : Whole n.repr := by
  rw [Whole, Nat.toList_repr]
  exact isWhole_of_digits fun c hc => Nat.isDigit_of_mem_toDigits (by decide) (by decide) hc

@[simp] theorem whole_intercalate {texts : List String} :
    Whole (", ".intercalate texts) ↔ ∀ s ∈ texts, Whole s := by
  induction texts with
  | nil => simp [Whole]
  | cons s rest ih =>
    cases rest with
    | nil => simp [String.intercalate_singleton]
    | cons t rest =>
      have hc : Whole ", " := by decide
      rw [String.intercalate_cons_cons, whole_append, whole_append, ih, List.forall_mem_cons]
      simp [hc]

theorem mem_of_mem_lines {s l : List Char} {c : Char} (hl : l ∈ lines s) (hc : c ∈ l) : c ∈ s := by
  fun_induction lines s generalizing l with
  | case1 => cases hl
  | case2 rest ih =>
    rcases List.mem_cons.1 hl with rfl | hl
    · cases hc
    · exact List.mem_cons_of_mem _ (List.mem_cons_of_mem _ (ih hl hc))
  | case3 rest ih =>
    rcases List.mem_cons.1 hl with rfl | hl
    · cases hc
    · exact List.mem_cons_of_mem _ (ih hl hc)
  | case4 d rest _ _ hn ih =>
    obtain rfl := List.mem_singleton.1 hl
    exact List.mem_singleton.1 hc ▸ List.mem_cons_self
  | case5 d rest _ _ line more hm ih =>
    rcases List.mem_cons.1 hl with rfl | hl
    · rcases List.mem_cons.1 hc with rfl | hc
      · exact List.mem_cons_self
      · exact List.mem_cons_of_mem _ (ih (hm ▸ List.mem_cons_self) hc)
    · exact List.mem_cons_of_mem _ (ih (hm ▸ List.mem_cons_of_mem _ hl) hc)

theorem mem_of_mem_trim {s : List Char} {c : Char} (hc : c ∈ trim s) : c ∈ s := by
  rw [trim, trimBy, List.mem_reverse] at hc
  have hc := (List.dropWhile_sublist _).subset hc
  exact (List.dropWhile_sublist _).subset (List.mem_reverse.1 hc)

theorem Whole.tidy {s : String} (h : Whole s) : Tidy s :=
  fun _ hl c hc => h c (mem_of_mem_lines hl (mem_of_mem_trim hc))

end Script

def Directive.Whole : Directive → Prop
  | .line text => Script.Whole text
  | .doc paragraphs => ∀ p ∈ paragraphs, Script.Tidy p
  | _ => True

namespace Listing
open Script Text

theorem mem_guarded {c : Char} (hc : c ≠ '\\') {s : List Char} : c ∈ guarded s ↔ c ∈ s := by
  fun_induction guarded s with
  | case1 rest ih => simp [ih, hc]
  | case2 d rest _ ih => simp [ih]
  | case3 => rfl

theorem isWhole_guarded {s : List Char} : IsWhole (guarded s) ↔ IsWhole s := by
  refine isWhole_congr fun x hx => mem_guarded ?_
  rintro rfl
  cases hx

theorem whole_placed {level : Nat} {text : String} :
    Whole (placed level text) ↔ Whole text := by
  have hm : Whole (margin level) := by
    rw [margin, whole_ofList]
    intro c hc
    rw [List.eq_of_mem_replicate hc]
    rfl
  rw [placed]
  split
  · rename_i he
    rw [he]
  · rw [whole_append]
    exact and_iff_right hm

theorem comment_whole {paragraphs : List String} :
    (∀ line ∈ comment paragraphs, Whole line) ↔ ∀ p ∈ paragraphs, Tidy p := by
  have hdoc : (∀ l ∈ docLines paragraphs, IsWhole l) ↔ ∀ p ∈ paragraphs, Tidy p := by
    simp only [docLines, List.mem_filter, List.mem_flatMap, List.mem_map]
    constructor
    · intro h p hp l hl
      by_cases he : trim l = []
      · rw [he]
        exact isWhole_nil
      · exact h _ ⟨⟨p, hp, l, hl, rfl⟩, by simpa using he⟩
    · rintro h _ ⟨⟨p, hp, l, hl, rfl⟩, -⟩
      exact h p hp l hl
  rw [← hdoc, comment]
  split
  · rename_i he
    simp [he]
  · rename_i hne
    have hopen : Whole "/**" := by decide
    have hstar : Whole " * " := by decide
    have hclose : Whole " */" := by decide
    rw [List.cons_append, List.forall_mem_cons, List.forall_mem_append, List.forall_mem_map]
    simp [hopen, hstar, hclose, whole_ofList, isWhole_guarded]

theorem linesFrom_whole {level : Nat} {ds : List Directive} :
    (∀ line ∈ linesFrom level ds, Whole line) ↔ ∀ d ∈ ds, d.Whole := by
  have hwritten (level : Nat) (d : Directive) :
      (∀ line ∈ written level d, Whole line) ↔ d.Whole := by
    cases d with
    | line text => simpa [written, Directive.Whole] using whole_placed
    | blank => simp [written, Directive.Whole, Whole]
    | indent => simp [written, Directive.Whole]
    | dedent => simp [written, Directive.Whole]
    | doc paragraphs => simpa [written, Directive.Whole, whole_placed] using comment_whole
  induction ds generalizing level with
  | nil => simp [linesFrom]
  | cons d ds ih =>
    rw [linesFrom, List.forall_mem_append, List.forall_mem_cons]
    exact and_congr (hwritten level d) ih

theorem whole_flatMap {α : Type} {f : α → List Directive} {xs : List α} :
    (∀ d ∈ xs.flatMap f, d.Whole) ↔ ∀ x ∈ xs, ∀ d ∈ f x, d.Whole := by
  simp only [List.mem_flatMap]
  exact ⟨fun h x hx d hd => h d ⟨x, hx, hd⟩, fun h d ⟨x, hx, hd⟩ => h x hx d hd⟩

theorem whole_indented {body : List Directive} :
    (∀ d ∈ indented body, d.Whole) ↔ ∀ d ∈ body, d.Whole := by
  simp [indented, Directive.Whole, or_imp, forall_and]

end Listing

end DialectBindings
