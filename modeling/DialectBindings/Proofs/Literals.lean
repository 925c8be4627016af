import DialectBindings.Proofs.Results
import DialectBindings.Text.Blank
import DialectBindings.Text.Numeral
import Mathlib.Data.List.Basic

/-!
# Literals of the script

How a line of the script is read: literals in single quotes, and other characters one by one. A
literal's value is a sequence of UTF-16 code units, and an escape stands for fewer of them than it
is written with. So a text between two quotes is read as one literal of its own value just when it
is plain: it has no quote, no backslash, no line feed and no carriage return.
-/

set_option autoImplicit false

namespace DialectBindings.Script
open Text Results

def codeUnits (n : Nat) : List Nat :=
  if n < 0x10000 then [n] else [0xD800 + (n - 0x10000) / 0x400, 0xDC00 + (n - 0x10000) % 0x400]

def units (s : List Char) : List Nat := s.flatMap fun c => codeUnits c.toNat

def width (s : List Char) : Nat := (units s).length

def endsLine (c : Char) : Bool :=
  c == '\n' || c == '\r' || c == '\u2028' || c == '\u2029'

def escaped (c : Char) : Nat :=
  match c with
  | 'b' => 8
  | 't' => 9
  | 'n' => 10
  | 'v' => 11
  | 'f' => 12
  | 'r' => 13
  | c => c.toNat

/-- What an escape stands for after its backslash, and what follows it. A line end that is escaped
stands for nothing, and octal escapes are refused. -/
def escape? : List Char → Option (List Nat × List Char)
  | [] => none
  | '\r' :: '\n' :: rest => some ([], rest)
  | 'x' :: a :: b :: rest => (digits 16 0x100 [a, b]).toOption.map fun n => ([n], rest)
  | 'u' :: '\x7b' :: rest =>
    match rest.dropWhile (· != '\x7d') with
    | [] => none
    | _ :: after =>
      (digits 16 0x110000 (rest.takeWhile (· != '\x7d'))).toOption.map fun n => (codeUnits n, after)
  | 'u' :: a :: b :: c :: d :: rest =>
    (digits 16 0x10000 [a, b, c, d]).toOption.map fun n => ([n], rest)
  | c :: rest =>
    if endsLine c then some ([], rest)
    else if c = '0' then if rest.head?.any Char.isDigit then none else some ([0], rest)
    else if c.isDigit || c == 'x' || c == 'u' then none
    else some (codeUnits (escaped c), rest)

theorem width_nil : width [] = 0 := rfl

theorem width_append (s t : List Char) : width (s ++ t) = width s + width t := by
  simp [width, units]

theorem width_cons (c : Char) (s : List Char) :
    width (c :: s) = (codeUnits c.toNat).length + width s := by
  simp [width, units]

theorem codeUnits_length (n : Nat) : 1 ≤ (codeUnits n).length ∧ (codeUnits n).length ≤ 2 := by
  rw [codeUnits]
  split <;> simp

theorem length_le_width (s : List Char) : s.length ≤ width s := by
  induction s with
  | nil => exact Nat.le_refl 0
  | cons c s ih =>
    have := (codeUnits_length c.toNat).1
    rw [width_cons, List.length_cons]
    omega

theorem eq_of_width {s t a b : List Char} (h : s ++ a = t ++ b) (hw : width s = width t) :
    s = t := by
  have hnil {more : List Char} (hm : width more = 0) : more = [] :=
    List.length_eq_zero_iff.1 (Nat.le_zero.1 (hm ▸ length_le_width more))
  obtain ⟨more, rfl, -⟩ | ⟨more, rfl, -⟩ := List.append_eq_append_iff.1 h
  · rw [width_append] at hw
    obtain rfl : more = [] := hnil (by omega)
    rw [List.append_nil]
  · rw [width_append] at hw
    obtain rfl : more = [] := hnil (by omega)
    rw [List.append_nil]

theorem codeUnits_escaped (c : Char) : (codeUnits (escaped c)).length ≤ width [c] := by
  have hc := (codeUnits_length c.toNat).1
  rw [width_cons, width_nil, Nat.add_zero]
  unfold escaped
  split <;> first | exact hc | exact Nat.le_refl _

theorem escape?_taken {s rest : List Char} {us : List Nat} (h : escape? s = some (us, rest)) :
    ∃ taken, s = taken ++ rest ∧ us.length ≤ width taken := by
  unfold escape? at h
  split at h
  · cases h
  · cases h
    exact ⟨['\r', '\n'], rfl, Nat.zero_le _⟩
  · rename_i a b _
    obtain ⟨n, -, he⟩ := Option.map_eq_some_iff.1 h
    cases he
    exact ⟨['x', a, b], rfl, Nat.le_trans (by simp) (length_le_width ['x', a, b])⟩
  · rename_i s
    split at h
    · cases h
    · rename_i c after hd
      obtain ⟨n, -, he⟩ := Option.map_eq_some_iff.1 h
      cases he
      have hs := List.takeWhile_append_dropWhile (p := (· != '\x7d')) (l := s)
      refine ⟨'u' :: '\x7b' :: s.takeWhile (· != '\x7d') ++ [c], ?_, ?_⟩
      · rw [hd] at hs
        simpa using hs.symm
      · refine Nat.le_trans (codeUnits_length n).2 (Nat.le_trans ?_ (length_le_width _))
        simp
  · rename_i a b c d _ _
    obtain ⟨n, -, he⟩ := Option.map_eq_some_iff.1 h
    cases he
    exact ⟨['u', a, b, c, d], rfl, Nat.le_trans (by simp) (length_le_width ['u', a, b, c, d])⟩
  · rename_i c s _ _ _ _
    refine ⟨[c], ?_⟩
    repeat' split at h
    all_goals cases h
    · exact ⟨rfl, Nat.zero_le _⟩
    · exact ⟨rfl, length_le_width [c]⟩
    · exact ⟨rfl, codeUnits_escaped c⟩

/-- The value of a literal after its opening quote, and what follows its closing one. -/
def literal? : List Char → Option (List Nat × List Char)
  | [] => none
  | c :: rest =>
    if c = '\'' then some ([], rest)
    else if c = '\\' then
      match _h : escape? rest with
      | none => none
      | some (us, after) => (literal? after).map fun (value, left) => (us ++ value, left)
    else if c = '\n' ∨ c = '\r' then none
    else (literal? rest).map fun (value, left) => (codeUnits c.toNat ++ value, left)
  termination_by s => s.length
  decreasing_by
    · obtain ⟨taken, rfl, -⟩ := escape?_taken _h
      simp only [List.length_cons, List.length_append]
      omega
    · simp only [List.length_cons]
      omega

/-- A text that stands for itself between quotes. -/
def IsPlain (s : List Char) : Prop := ∀ c ∈ s, c ≠ '\'' ∧ c ≠ '\\' ∧ c ≠ '\n' ∧ c ≠ '\r'

instance (s : List Char) : Decidable (IsPlain s) := List.decidableBAll _ s

theorem literal?_plain {t : List Char} (h : IsPlain t) (s : List Char) :
    literal? (t ++ '\'' :: s) = some (units t, s) := by
  induction t with
  | nil =>
    rw [List.nil_append, literal?, if_pos rfl]
    rfl
  | cons c t ih =>
    obtain ⟨⟨hquote, hslash, hfeed, hreturn⟩, hrest⟩ := List.forall_mem_cons.1 h
    rw [List.cons_append, literal?, if_neg hquote, if_neg hslash,
      if_neg (not_or.2 ⟨hfeed, hreturn⟩), ih hrest]
    rfl

theorem literal?_taken {s left : List Char} {value : List Nat}
    (h : literal? s = some (value, left)) :
    ∃ raw, s = raw ++ '\'' :: left ∧ value.length ≤ width raw ∧
      (value.length = width raw → IsPlain raw) := by
  fun_induction literal? s generalizing value with
  | case1 => cases h
  | case2 rest =>
    cases h
    exact ⟨[], rfl, Nat.le_refl 0, fun _ => nofun⟩
  | case3 => cases h
  | case4 rest us after he _ ih =>
    obtain ⟨⟨more, left'⟩, hm, hv⟩ := Option.map_eq_some_iff.1 h
    cases hv
    obtain ⟨taken, rfl, hus⟩ := escape?_taken he
    obtain ⟨raw, rfl, hraw, -⟩ := ih hm
    have hw : (us ++ more).length < width ('\\' :: taken ++ raw) := by
      have := (codeUnits_length '\\'.toNat).1
      rw [List.cons_append, width_cons, width_append, List.length_append]
      omega
    refine ⟨'\\' :: taken ++ raw, by simp, Nat.le_of_lt hw, fun he => absurd he (Nat.ne_of_lt hw)⟩
  | case5 => cases h
  | case6 c rest hquote hslash hends ih =>
    obtain ⟨⟨more, left'⟩, hm, hv⟩ := Option.map_eq_some_iff.1 h
    cases hv
    obtain ⟨raw, rfl, hraw, hplain⟩ := ih hm
    rw [not_or] at hends
    refine ⟨c :: raw, rfl, ?_, fun he => ?_⟩
    · rw [List.length_append, width_cons]
      omega
    · rw [List.length_append, width_cons] at he
      exact List.forall_mem_cons.2 ⟨⟨hquote, hslash, hends⟩, hplain (by omega)⟩

inductive Token
  | char (c : Char)
  | literal (value : List Nat)
  deriving Repr, DecidableEq

def tokens? : List Char → Option (List Token)
  | [] => some []
  | c :: rest =>
    if c = '\'' then
      match _h : literal? rest with
      | none => none
      | some (value, left) => (tokens? left).map (.literal value :: ·)
    else (tokens? rest).map (.char c :: ·)
  termination_by s => s.length
  decreasing_by
    · obtain ⟨raw, rfl, -⟩ := literal?_taken _h
      simp only [List.length_cons, List.length_append]
      omega
    · simp only [List.length_cons]
      omega

/-- The code units that tokens are written with at least: a literal has its quotes besides. -/
def weight : List Token → Nat
  | [] => 0
  | .char c :: rest => (codeUnits c.toNat).length + weight rest
  | .literal value :: rest => value.length + 2 + weight rest

theorem weight_append (ts us : List Token) : weight (ts ++ us) = weight ts + weight us := by
  induction ts with
  | nil => exact (Nat.zero_add _).symm
  | cons t ts ih =>
    cases t <;> rw [List.cons_append, weight, weight, ih] <;> omega

theorem weight_chars (s : List Char) : weight (s.map .char) = width s := by
  induction s with
  | nil => rfl
  | cons c s ih => rw [List.map_cons, weight, ih, width_cons]

theorem tokens?_weight {s : List Char} {ts : List Token} (h : tokens? s = some ts) :
    weight ts ≤ width s := by
  fun_induction tokens? s generalizing ts with
  | case1 =>
    cases h
    exact Nat.le_refl 0
  | case2 => cases h
  | case3 rest value left hl ih =>
    obtain ⟨more, hm, rfl⟩ := Option.map_eq_some_iff.1 h
    obtain ⟨raw, rfl, hraw, -⟩ := literal?_taken hl
    have hw := ih hm
    have hq : (codeUnits '\''.toNat).length = 1 := rfl
    rw [weight, width_cons, width_append, width_cons, hq]
    omega
  | case4 c rest hc ih =>
    obtain ⟨more, hm, rfl⟩ := Option.map_eq_some_iff.1 h
    rw [weight, width_cons]
    exact Nat.add_le_add_left (ih hm) _

/-- A line is put together from code and from texts between quotes. -/
inductive Part
  | code (text : String)
  | quoted (text : String)
  deriving Repr, DecidableEq

namespace Part

def chars : Part → List Char
  | code text => text.toList
  | quoted text => '\'' :: (text.toList ++ ['\''])

def tokens : Part → List Token
  | code text => text.toList.map .char
  | quoted text => [.literal (units text.toList)]

def IsClean : Part → Prop
  | code text => '\'' ∉ text.toList
  | quoted text => IsPlain text.toList

instance : (p : Part) → Decidable p.IsClean
  | code text => inferInstanceAs (Decidable ('\'' ∉ text.toList))
  | quoted text => inferInstanceAs (Decidable (IsPlain text.toList))

theorem weight_tokens (p : Part) : weight p.tokens = width p.chars := by
  cases p with
  | code text => exact weight_chars text.toList
  | quoted text =>
    have hq : (codeUnits '\''.toNat).length = 1 := rfl
    have hn : width [] = 0 := rfl
    have hw : (units text.toList).length = width text.toList := rfl
    rw [chars, tokens, weight, weight, width_cons, width_append, width_cons, hq, hn, hw]
    omega

end Part

/-- Each part is read as what it is meant for: code as it stands, and a text between quotes as one
literal of the text's own value. -/
def IsRead (parts : List Part) : Prop :=
  tokens? (parts.flatMap Part.chars) = some (parts.flatMap Part.tokens)

theorem weight_parts (parts : List Part) :
    weight (parts.flatMap Part.tokens) = width (parts.flatMap Part.chars) := by
  induction parts with
  | nil => rfl
  | cons p parts ih =>
    rw [List.flatMap_cons, List.flatMap_cons, weight_append, width_append, p.weight_tokens, ih]

theorem tokens?_code {t : List Char} {s : List Char} {ts : List Token} :
    tokens? (t ++ s) = some (t.map .char ++ ts) ↔ '\'' ∉ t ∧ tokens? s = some ts := by
  induction t with
  | nil => simp
  | cons c t ih =>
    rw [List.cons_append, tokens?, List.mem_cons, not_or, and_assoc, ← ih]
    by_cases hc : c = '\''
    · rw [if_pos hc]
      simp only [hc, not_true_eq_false, false_and, iff_false]
      split
      · nofun
      · intro h
        obtain ⟨more, -, hm⟩ := Option.map_eq_some_iff.1 h
        cases hm
    · rw [if_neg hc]
      simp [Ne.symm hc]

theorem tokens?_quoted {t s : List Char} {ts : List Token} (hw : weight ts = width s) :
    tokens? ('\'' :: (t ++ '\'' :: s)) = some (.literal (units t) :: ts) ↔
      IsPlain t ∧ tokens? s = some ts := by
  constructor
  · intro h
    rw [tokens?, if_pos rfl] at h
    split at h
    · cases h
    · rename_i value left hl
      obtain ⟨more, hm, he⟩ := Option.map_eq_some_iff.1 h
      cases he
      -- No escape can make up for another: nothing that is read has lost code units.
      obtain ⟨raw, hraw, hvalue, hplain⟩ := literal?_taken hl
      have hmore := tokens?_weight hm
      have hlen := congrArg width hraw
      rw [width_append, width_append, width_cons, width_cons] at hlen
      change width t ≤ width raw at hvalue
      have hsame : width t = width raw := by omega
      obtain rfl : t = raw := eq_of_width hraw hsame
      obtain rfl : s = left := (List.cons.inj (List.append_cancel_left hraw)).2
      exact ⟨hplain rfl, hm⟩
  · rintro ⟨hplain, hs⟩
    rw [tokens?, if_pos rfl]
    split
    · rename_i hn
      cases hn.symm.trans (literal?_plain hplain s)
    · rename_i value left hl
      cases hl.symm.trans (literal?_plain hplain s)
      rw [hs]
      rfl

/-- A line is read as its parts are meant just when its code has no quotes and its texts are
plain. -/
theorem isRead_iff {parts : List Part} : IsRead parts ↔ ∀ p ∈ parts, p.IsClean := by
  induction parts with
  | nil => simp [IsRead, tokens?]
  | cons p parts ih =>
    rw [List.forall_mem_cons, ← ih, IsRead, List.flatMap_cons, List.flatMap_cons]
    cases p with
    | code text => exact tokens?_code
    | quoted text =>
      have := tokens?_quoted (t := text.toList) (weight_parts parts)
      simpa [Part.chars, Part.tokens, Part.IsClean, IsRead] using this

instance (parts : List Part) : Decidable (IsRead parts) := decidable_of_iff' _ isRead_iff

end DialectBindings.Script
