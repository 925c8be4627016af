import DialectBindings.Listing

/-!
# Lines of listings

A listing that ends at the level it started at can stand anywhere, and its lines are those of its
parts. Indenting such a listing puts its lines one level deeper and nothing else.
-/

set_option autoImplicit false

namespace DialectBindings.Listing

variable {α : Type} {level : Nat}

@[simp] theorem linesFrom_nil : linesFrom level [] = [] := rfl

@[simp] theorem linesFrom_line (text : String) (rest : List Directive) :
    linesFrom level (.line text :: rest) = placed level text :: linesFrom level rest := rfl

@[simp] theorem linesFrom_blank (rest : List Directive) :
    linesFrom level (.blank :: rest) = "" :: linesFrom level rest := rfl

@[simp] theorem linesFrom_doc (paragraphs : List String) (rest : List Directive) :
    linesFrom level (.doc paragraphs :: rest) =
      (comment paragraphs).map (placed level) ++ linesFrom level rest := rfl

theorem levelAfter_append (ds es : List Directive) :
    levelAfter level (ds ++ es) = levelAfter (levelAfter level ds) es := by
  rw [levelAfter, List.foldl_append]
  rfl

/-- A listing that ends at the level it started at. -/
def Balanced (ds : List Directive) : Prop := ∀ level, levelAfter level ds = level

theorem balanced_nil : Balanced [] := fun _ => rfl

theorem balanced_line (text : String) : Balanced [.line text] := fun _ => rfl

theorem balanced_append {ds es : List Directive} (hd : Balanced ds) (he : Balanced es) :
    Balanced (ds ++ es) := by
  intro level
  rw [levelAfter_append, hd, he]

theorem balanced_cons {d : Directive} {ds : List Directive} (hd : Balanced [d])
    (hs : Balanced ds) : Balanced (d :: ds) :=
  balanced_append hd hs

theorem balanced_flatMap {f : α → List Directive} (hf : ∀ x, Balanced (f x)) (xs : List α) :
    Balanced (xs.flatMap f) := by
  induction xs with
  | nil => exact balanced_nil
  | cons x xs ih =>
    rw [List.flatMap_cons]
    exact balanced_append (hf x) ih

theorem balanced_texts (text : α → String) (xs : List α) :
    Balanced (xs.map fun x => .line (text x)) := by
  induction xs with
  | nil => exact balanced_nil
  | cons x xs ih => exact balanced_cons (balanced_line (text x)) ih

theorem balanced_indented {body : List Directive} (hb : Balanced body) :
    Balanced (indented body) := by
  intro level
  change levelAfter (level + 1) (body ++ [.dedent]) = level
  rw [levelAfter_append, hb]
  rfl

theorem linesFrom_append_of_balanced {ds : List Directive} (hd : Balanced ds)
    (es : List Directive) : linesFrom level (ds ++ es) = linesFrom level ds ++ linesFrom level es := by
  rw [linesFrom_append, hd]

theorem linesFrom_indented {body : List Directive} (hb : Balanced body) (rest : List Directive) :
    linesFrom level (indented body ++ rest) =
      linesFrom (level + 1) body ++ linesFrom level rest := by
  rw [linesFrom_append_of_balanced (balanced_indented hb)]
  change linesFrom (level + 1) (body ++ [.dedent]) ++ _ = _
  rw [linesFrom_append]
  simp [linesFrom, written]

theorem linesFrom_flatMap {f : α → List Directive} (hf : ∀ x, Balanced (f x)) (xs : List α) :
    linesFrom level (xs.flatMap f) = xs.flatMap fun x => linesFrom level (f x) := by
  induction xs with
  | nil => rfl
  | cons x xs ih =>
    rw [List.flatMap_cons, linesFrom_append_of_balanced (hf x), ih, List.flatMap_cons]

theorem linesFrom_texts (text : α → String) (xs : List α) :
    linesFrom level (xs.map fun x => .line (text x)) = xs.map fun x => placed level (text x) := by
  induction xs with
  | nil => rfl
  | cons x xs ih => rw [List.map_cons, linesFrom_line, ih, List.map_cons]

theorem placed_zero (text : String) : placed 0 text = text := by
  rw [placed]
  split
  · rename_i h
    exact h.symm
  · exact String.empty_append

theorem placed_of_ne {text : String} (h : text ≠ "") : placed level text = margin level ++ text :=
  if_neg h

theorem placed_one {text : String} (h : text ≠ "") : placed 1 text = "  " ++ text := placed_of_ne h

theorem placed_two {text : String} (h : text ≠ "") : placed 2 text = "    " ++ text :=
  placed_of_ne h

end DialectBindings.Listing
