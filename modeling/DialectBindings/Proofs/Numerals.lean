import DialectBindings.Proofs.Cuts
import DialectBindings.Proofs.Results
import DialectBindings.Text.Numeral

/-!
# Numerals read back

The decimal numeral of a number below a bound is read as that number.
-/

set_option autoImplicit false

namespace DialectBindings.Text
open Results

theorem digit?_digitChar {d : Nat} (h : d < 10) : digit? 10 d.digitChar = some d := by
  have hn := Nat.toNat_digitChar_of_lt_ten h
  have hrange : 48 ≤ 48 + d ∧ 48 + d ≤ 57 := by omega
  simp only [digit?, hn, if_pos hrange, Nat.add_sub_cancel_left, if_pos h]

theorem moreDigits_append (base bound value : Nat) (s t : List Char) :
    moreDigits base bound value (s ++ t) =
      (moreDigits base bound value s >>= fun reached => moreDigits base bound reached t) := by
  induction s generalizing value with
  | nil => rfl
  | cons c s ih =>
    rw [List.cons_append, moreDigits, moreDigits]
    cases digit? base c with
    | none => rfl
    | some d =>
      dsimp only
      split
      · exact ih _
      · rfl

theorem moreDigits_digitChar {value d bound : Nat} (hd : d < 10) (h : value * 10 + d < bound) :
    moreDigits 10 bound value [d.digitChar] = .ok (value * 10 + d) := by
  rw [moreDigits, digit?_digitChar hd]
  exact if_pos h

theorem moreDigits_toDigits {n bound : Nat} (h : n < bound) :
    moreDigits 10 bound 0 (Nat.toDigits 10 n) = .ok n := by
  induction n using Nat.strongRecOn with
  | ind n ih =>
    by_cases hn : n < 10
    · rw [Nat.toDigits_of_lt_base hn, moreDigits_digitChar hn (by omega), Nat.zero_mul, Nat.zero_add]
    · have hdivision : n / 10 * 10 + n % 10 = n := by omega
      rw [Nat.toDigits_of_base_le (by decide) (by omega), moreDigits_append,
        ih (n / 10) (by omega) (by omega), ok_bind,
        moreDigits_digitChar (Nat.mod_lt n (by decide)) (by omega), hdivision]

theorem isDigit_ne {c d : Char} (h : c.isDigit = true) (hd : d.isDigit = false) : c ≠ d := by
  rintro rfl
  rw [h] at hd
  cases hd

theorem isDigit_not_space {c : Char} (h : c.isDigit = true) : isSpace c = false := by
  simp only [isSpace, Bool.or_eq_false_iff, beq_eq_false_iff_ne]
  exact ⟨⟨⟨isDigit_ne h rfl, isDigit_ne h rfl⟩, isDigit_ne h rfl⟩, isDigit_ne h rfl⟩

theorem numeral?_toDigits {n bound : Nat} (h : n < bound) :
    numeral? 10 bound (Nat.toDigits 10 n) = some n := by
  have hall : ∀ c ∈ Nat.toDigits 10 n, c.isDigit = true := fun c hc =>
    Nat.isDigit_of_mem_toDigits (by decide) (by decide) hc
  have hread := moreDigits_toDigits h
  cases hs : Nat.toDigits 10 n with
  | nil => exact absurd hs Nat.toDigits_ne_nil
  | cons c s =>
    rw [hs] at hall hread
    have hplus : c ≠ '+' := isDigit_ne (hall c List.mem_cons_self) rfl
    have hdigits : digits 10 bound (c :: s) = .ok n := hread
    unfold numeral?
    split
    · rename_i he
      cases he
      exact absurd rfl hplus
    · rw [hdigits]
      rfl

theorem trimBy_toDigits (n : Nat) : trimBy isSpace (Nat.toDigits 10 n) = Nat.toDigits 10 n := by
  apply trimBy_of_none
  intro c hc
  exact isDigit_not_space (Nat.isDigit_of_mem_toDigits (by decide) (by decide) hc)

theorem word?_toDigits (n : UInt32) : word? (Nat.toDigits 10 n.toNat) = some n := by
  rw [word?, numeral?_toDigits n.toNat_lt]
  exact congrArg some n.ofNat_toNat

theorem byte?_toDigits (n : UInt8) : byte? (Nat.toDigits 10 n.toNat) = some n := by
  rw [byte?, numeral?_toDigits n.toNat_lt]
  exact congrArg some n.ofNat_toNat

theorem toList_word (n : UInt32) : (toString n).toList = Nat.toDigits 10 n.toNat := Nat.toList_repr

theorem toList_byte (n : UInt8) : (toString n).toList = Nat.toDigits 10 n.toNat := Nat.toList_repr

end DialectBindings.Text
