import DialectBindings.Proofs.Cuts
import DialectBindings.Proofs.Numerals
import Mathlib.Data.List.Forall2
import Mathlib.Data.Nat.Digits.Defs

/-!
# What numerals denote

Digits of a base denote a number as it is always written, the last of them counting once. Reading
digits comes to this number if it is below the bound, and to nothing else: however many digits there
are, and whatever zeros stand in front of them, a number is refused only if it is not below.
-/

set_option autoImplicit false

namespace DialectBindings.Text

def smallDigits : List Char := "0123456789abcdef".toList

def capitalDigits : List Char := "0123456789ABCDEF".toList

def IsDigit (base : Nat) (c : Char) (d : Nat) : Prop :=
  d < base ∧ (smallDigits[d]? = some c ∨ capitalDigits[d]? = some c)

/-- One digit of a base or more, and the number that they denote. -/
def Denotes (base : Nat) (s : List Char) (n : Nat) : Prop :=
  s ≠ [] ∧ ∃ ds, List.Forall₂ (IsDigit base) s ds ∧ n = Nat.ofDigits base ds.reverse

def IsSign (s : List Char) : Prop := s = [] ∨ s = ['+']

/-- Digits after at most one plus sign. -/
def IsNumeral (base : Nat) (s : List Char) (n : Nat) : Prop :=
  ∃ sign digits, IsSign sign ∧ Denotes base digits n ∧ s = sign ++ digits

/-! ## Single digits -/

variable {base bound n : Nat} {c : Char} {d : Nat} {s : List Char}

theorem smallDigit_iff (h : d < 16) :
    smallDigits[d]? = some c ↔ c.toNat = if d < 10 then 48 + d else 87 + d := by
  have hd : smallDigits[d]?.map Char.toNat = some (if d < 10 then 48 + d else 87 + d) := by
    revert d
    decide
  have hinj : Function.Injective Char.toNat := fun _ _ => Char.toNat_inj.1
  rw [← (Option.map_injective hinj).eq_iff, hd, Option.map_some, Option.some.injEq, eq_comm]

theorem capitalDigit_iff (h : d < 16) :
    capitalDigits[d]? = some c ↔ c.toNat = if d < 10 then 48 + d else 55 + d := by
  have hd : capitalDigits[d]?.map Char.toNat = some (if d < 10 then 48 + d else 55 + d) := by
    revert d
    decide
  have hinj : Function.Injective Char.toNat := fun _ _ => Char.toNat_inj.1
  rw [← (Option.map_injective hinj).eq_iff, hd, Option.map_some, Option.some.injEq, eq_comm]

theorem isDigit_iff (h : base ≤ 16) : IsDigit base c d ↔ d < base ∧
    (c.toNat = (if d < 10 then 48 + d else 87 + d) ∨
      c.toNat = if d < 10 then 48 + d else 55 + d) := by
  rw [IsDigit, and_congr_right_iff]
  intro hd
  rw [smallDigit_iff (by omega), capitalDigit_iff (by omega)]

theorem digit?_eq_some (h : base ≤ 16) : digit? base c = some d ↔ IsDigit base c d := by
  rw [isDigit_iff h]
  simp only [digit?, Option.ite_none_right_eq_some, Option.some.injEq]
  split_ifs <;> omega

theorem IsDigit.not_blank (hd : IsDigit base c d) (h : base ≤ 16) : isBlank c = false := by
  rw [isDigit_iff h] at hd
  simp only [isBlank, Bool.or_eq_false_iff, Bool.and_eq_false_iff, decide_eq_false_iff_not,
    beq_eq_false_iff_ne]
  split_ifs at hd <;> omega

theorem IsDigit.ne_plus (hd : IsDigit base c d) (h : base ≤ 16) : c ≠ '+' := by
  rintro rfl
  rw [isDigit_iff h] at hd
  have hplus : '+'.toNat = 43 := rfl
  split_ifs at hd <;> omega

/-! ## Digits one after the other -/

theorem moreDigits_eq_ok {value : Nat} (h : base ≤ 16) (hbase : 0 < base) (hv : value < bound) :
    moreDigits base bound value s = .ok n ↔ n < bound ∧ ∃ ds, List.Forall₂ (IsDigit base) s ds ∧
      n = value * base ^ s.length + Nat.ofDigits base ds.reverse := by
  induction s generalizing value with
  | nil =>
    simp only [moreDigits, Except.ok.injEq, List.forall₂_nil_left_iff, exists_eq_left,
      List.length_nil, pow_zero, List.reverse_nil, Nat.ofDigits_nil]
    omega
  | cons c s ih =>
    -- One more digit moves the number one place up.
    have hplace (d : Nat) (ds : List Nat) (hl : ds.length = s.length) :
        value * base ^ (c :: s).length + Nat.ofDigits base (d :: ds).reverse =
          (value * base + d) * base ^ s.length + Nat.ofDigits base ds.reverse := by
      rw [Nat.ofDigits_reverse_cons, hl, List.length_cons]
      ring
    rw [moreDigits]
    constructor
    · intro hread
      cases hd : digit? base c with
      | none =>
        rw [hd] at hread
        cases hread
      | some d =>
        rw [hd] at hread
        dsimp only at hread
        split at hread
        · rename_i hlt
          obtain ⟨hn, ds, hds, hvalue⟩ := (ih hlt).1 hread
          refine ⟨hn, d :: ds, .cons ((digit?_eq_some h).1 hd) hds, ?_⟩
          rw [hvalue, hplace d ds hds.length_eq.symm]
        · cases hread
    · rintro ⟨hn, _, hall, hvalue⟩
      obtain ⟨d, ds, hd, hds, rfl⟩ := List.forall₂_cons_left_iff.1 hall
      rw [hplace d ds hds.length_eq.symm] at hvalue
      have hle : value * base + d ≤ n :=
        calc value * base + d ≤ (value * base + d) * base ^ s.length :=
              Nat.le_mul_of_pos_right _ (Nat.pow_pos hbase)
          _ ≤ n := hvalue ▸ Nat.le_add_right _ _
      rw [(digit?_eq_some h).2 hd]
      dsimp only
      rw [if_pos (Nat.lt_of_le_of_lt hle hn)]
      exact (ih (Nat.lt_of_le_of_lt hle hn)).2 ⟨hn, ds, hds, hvalue⟩

theorem digits_eq_ok (h : base ≤ 16) (hbase : 0 < base) (hbound : 0 < bound) :
    digits base bound s = .ok n ↔ n < bound ∧ Denotes base s n := by
  cases s with
  | nil => simp [digits, Denotes]
  | cons c s =>
    rw [digits, moreDigits_eq_ok h hbase hbound, Denotes]
    · simp
    · simp

/-! ## Numerals -/

theorem Denotes.zeros (hn : Denotes base s n) (hbase : 0 < base) (k : Nat) :
    Denotes base (List.replicate k '0' ++ s) n := by
  obtain ⟨hne, ds, hds, rfl⟩ := hn
  have hzero : IsDigit base '0' 0 := ⟨hbase, .inl rfl⟩
  have hzeros : List.Forall₂ (IsDigit base) (List.replicate k '0') (List.replicate k 0) := by
    induction k with
    | zero => exact .nil
    | succ k ih => exact .cons hzero ih
  refine ⟨List.append_ne_nil_of_right_ne_nil _ hne, _, List.rel_append hzeros hds, ?_⟩
  rw [List.reverse_append, List.reverse_replicate, Nat.ofDigits_append_replicate_zero]

theorem Denotes.not_blank (hn : Denotes base s n) (h : base ≤ 16) :
    ∀ c ∈ s, isBlank c = false := by
  obtain ⟨-, ds, hds, -⟩ := hn
  exact ((List.forall₂_and_left _ _).1 (hds.imp fun c d hd => ⟨hd.not_blank h, hd⟩)).1

theorem not_denotes_plus (h : base ≤ 16) : ¬ Denotes base ('+' :: s) n := by
  rintro ⟨-, ds, hds, -⟩
  obtain ⟨d, ds, hd, -, -⟩ := List.forall₂_cons_left_iff.1 hds
  exact hd.ne_plus h rfl

theorem toOption_eq_some {ε α : Type} {x : Except ε α} {a : α} :
    x.toOption = some a ↔ x = .ok a := by
  cases x <;> simp [Except.toOption]

/-- A numeral is read just when it denotes a number below the bound, and as this number. -/
theorem numeral?_eq_some (h : base ≤ 16) (hbase : 0 < base) (hbound : 0 < bound) :
    numeral? base bound s = some n ↔ n < bound ∧ IsNumeral base s n := by
  unfold numeral?
  split
  · rename_i rest
    rw [toOption_eq_some, digits_eq_ok h hbase hbound, and_congr_right_iff]
    intro _
    constructor
    · exact fun hd => ⟨['+'], rest, .inr rfl, hd, rfl⟩
    · rintro ⟨sign, digits, rfl | rfl, hd, he⟩
      · obtain rfl : '+' :: rest = digits := he
        exact absurd hd (not_denotes_plus h)
      · cases he
        exact hd
  · rename_i hplus
    rw [toOption_eq_some, digits_eq_ok h hbase hbound, and_congr_right_iff]
    intro _
    constructor
    · exact fun hd => ⟨[], s, .inl rfl, hd, rfl⟩
    · rintro ⟨sign, digits, rfl | rfl, hd, he⟩
      · obtain rfl : s = digits := he
        exact hd
      · exact absurd he (hplus digits)

theorem IsNumeral.unique {m : Nat} (hn : IsNumeral base s n) (hm : IsNumeral base s m)
    (h : base ≤ 16) (hbase : 0 < base) : n = m := by
  have hread {k : Nat} (hk : k < n + m + 1) (hs : IsNumeral base s k) :
      numeral? base (n + m + 1) s = some k :=
    (numeral?_eq_some h hbase (Nat.succ_pos _)).2 ⟨hk, hs⟩
  exact Option.some.inj ((hread (by omega) hn).symm.trans (hread (by omega) hm))

theorem IsSign.not_blank {sign : List Char} (h : IsSign sign) : ∀ c ∈ sign, isBlank c = false := by
  rcases h with rfl | rfl <;> simp [isBlank]

theorem IsNumeral.not_blank (hn : IsNumeral base s n) (h : base ≤ 16) :
    ∀ c ∈ s, isBlank c = false := by
  obtain ⟨sign, digits, hsign, hdigits, rfl⟩ := hn
  intro c hc
  rcases List.mem_append.1 hc with hc | hc
  · exact hsign.not_blank c hc
  · exact hdigits.not_blank h c hc

theorem isNumeral_trim (h : base ≤ 16) :
    IsNumeral base (trim s) n ↔ ∃ text, IsNumeral base text n ∧ Padded text s := by
  constructor
  · exact fun hn => ⟨trim s, hn, (trim_eq_iff (hn.not_blank h)).1 rfl⟩
  · rintro ⟨text, hn, hs⟩
    rwa [(trim_eq_iff (hn.not_blank h)).2 hs]

theorem byte?_eq_some {b : UInt8} : byte? s = some b ↔ IsNumeral 10 s b.toNat := by
  rw [byte?, Option.map_eq_some_iff]
  constructor
  · rintro ⟨n, hn, rfl⟩
    obtain ⟨hlt, hn⟩ := (numeral?_eq_some (by decide) (by decide) (by decide)).1 hn
    rwa [UInt8.toNat_ofNat_of_lt' hlt]
  · intro h
    exact ⟨b.toNat, (numeral?_eq_some (by decide) (by decide) (by decide)).2 ⟨b.toNat_lt, h⟩,
      b.ofNat_toNat⟩

theorem word_eq_some (h : base ≤ 16) (hbase : 0 < base) {w : UInt32} :
    (numeral? base 4294967296 s).map UInt32.ofNat = some w ↔ IsNumeral base s w.toNat := by
  rw [Option.map_eq_some_iff]
  constructor
  · rintro ⟨n, hn, rfl⟩
    obtain ⟨hlt, hn⟩ := (numeral?_eq_some h hbase (by decide)).1 hn
    rwa [UInt32.toNat_ofNat_of_lt' hlt]
  · intro hw
    exact ⟨w.toNat, (numeral?_eq_some h hbase (by decide)).2 ⟨w.toNat_lt, hw⟩, w.ofNat_toNat⟩

theorem isNumeral_toDigits (n : Nat) : IsNumeral 10 (Nat.toDigits 10 n) n :=
  ((numeral?_eq_some (by decide) (by decide) (Nat.succ_pos n)).1
    (numeral?_toDigits (Nat.lt_succ_self n))).2

end DialectBindings.Text
