import DialectBindings.Proofs.Conversion
import DialectBindings.Proofs.Denotations

/-!
# Values that entries give

A value is a numeral between blanks, hexadecimal behind its lead and decimal else. It is read as the
number that it denotes if a word holds this number, and no number comes to another one. So an entry
that gives a value has the number that its text denotes.
-/

set_option autoImplicit false

namespace DialectBindings.Definition
open Text Results

/-- What stands in front of the digits of a value, and the base that it sets. -/
inductive Lead : List Char → Nat → Prop
  | decimal : Lead [] 10
  | hexadecimal {x : Char} (h : x = 'x' ∨ x = 'X') : Lead ['0', x] 16

def IsValue (s : List Char) (n : Nat) : Prop :=
  ∃ lead base numeral, Lead lead base ∧ IsNumeral base numeral n ∧ s = lead ++ numeral

/-- A text, with blanks around it or without, gives a number. -/
def Gives (raw : String) (n : Nat) : Prop :=
  ∃ text, IsValue text n ∧ Padded text raw.toList

/-- An entry has the number that its declaration gives, if it gives one. -/
def Given (declared : EntryDecl) (entry : Entry) : Prop :=
  entry.name = declared.name ∧ ∀ raw, declared.value = some raw → Gives raw entry.value.toNat

variable {raw : String} {s text : List Char} {n m : Nat}

/-! ## Decimal and hexadecimal values -/

theorem Lead.base_le {lead : List Char} {base : Nat} (h : Lead lead base) : base ≤ 16 := by
  cases h <;> decide

theorem Lead.base_pos {lead : List Char} {base : Nat} (h : Lead lead base) : 0 < base := by
  cases h <;> decide

theorem Lead.not_blank {lead : List Char} {base : Nat} (h : Lead lead base) :
    ∀ c ∈ lead, isBlank c = false := by
  cases h with
  | decimal => nofun
  | hexadecimal h => rcases h with rfl | rfl <;> simp [isBlank]

theorem not_decimal {x : Char} (hx : x = 'x' ∨ x = 'X') : ¬ IsNumeral 10 ('0' :: x :: s) n := by
  rintro ⟨sign, digits, rfl | rfl, ⟨-, ds, hds, -⟩, he⟩
  · obtain rfl : '0' :: x :: s = digits := he
    obtain ⟨-, ds, -, hds, -⟩ := List.forall₂_cons_left_iff.1 hds
    obtain ⟨d, -, hd, -, -⟩ := List.forall₂_cons_left_iff.1 hds
    rw [isDigit_iff (by decide)] at hd
    rcases hx with rfl | rfl
    · have hletter : 'x'.toNat = 120 := rfl
      split_ifs at hd <;> omega
    · have hletter : 'X'.toNat = 88 := rfl
      split_ifs at hd <;> omega
  · cases he

theorem isValue_hexadecimal {x : Char} (hx : x = 'x' ∨ x = 'X') :
    IsValue ('0' :: x :: s) n ↔ IsNumeral 16 s n := by
  constructor
  · rintro ⟨lead, base, numeral, hlead, hn, he⟩
    cases hlead with
    | decimal =>
      obtain rfl : '0' :: x :: s = numeral := he
      exact absurd hn (not_decimal hx)
    | hexadecimal =>
      cases he
      exact hn
  · exact fun hn => ⟨_, 16, s, .hexadecimal hx, hn, rfl⟩

theorem isValue_decimal (h : ∀ x more, x = 'x' ∨ x = 'X' → s ≠ '0' :: x :: more) :
    IsValue s n ↔ IsNumeral 10 s n := by
  constructor
  · rintro ⟨lead, base, numeral, hlead, hn, he⟩
    cases hlead with
    | decimal =>
      obtain rfl : s = numeral := he
      exact hn
    | hexadecimal hx => exact absurd he (h _ _ hx)
  · exact fun hn => ⟨[], 10, s, .decimal, hn, rfl⟩

theorem IsValue.not_blank (h : IsValue text n) : ∀ c ∈ text, isBlank c = false := by
  obtain ⟨lead, base, numeral, hlead, hn, rfl⟩ := h
  intro c hc
  rcases List.mem_append.1 hc with hc | hc
  · exact hlead.not_blank c hc
  · exact hn.not_blank hlead.base_le c hc

theorem IsValue.unique (hn : IsValue s n) (hm : IsValue s m) : n = m := by
  by_cases h : ∃ x more, (x = 'x' ∨ x = 'X') ∧ s = '0' :: x :: more
  · obtain ⟨x, more, hx, rfl⟩ := h
    rw [isValue_hexadecimal hx] at hn hm
    exact hn.unique hm (by decide) (by decide)
  · have hs : ∀ x more, x = 'x' ∨ x = 'X' → s ≠ '0' :: x :: more :=
      fun x more hx he => h ⟨x, more, hx, he⟩
    rw [isValue_decimal hs] at hn hm
    exact hn.unique hm (by decide) (by decide)

/-! ## Reading a value -/

theorem gives_iff : Gives raw n ↔ IsValue (trim raw.toList) n := by
  constructor
  · rintro ⟨text, hn, hs⟩
    rwa [(trim_eq_iff hn.not_blank).2 hs]
  · exact fun hn => ⟨trim raw.toList, hn, (trim_eq_iff hn.not_blank).1 rfl⟩

theorem value?_eq_some {v : UInt32} : value? raw = some v ↔ Gives raw v.toNat := by
  rw [gives_iff, value?]
  generalize trim raw.toList = s
  split
  · rw [isValue_hexadecimal (.inl rfl), word_eq_some (by decide) (by decide)]
  · rw [isValue_hexadecimal (.inr rfl), word_eq_some (by decide) (by decide)]
  · rename_i hsmall hcapital
    have hs : ∀ x more, x = 'x' ∨ x = 'X' → s ≠ '0' :: x :: more := by
      rintro x more (rfl | rfl)
      · exact hsmall more
      · exact hcapital more
    rw [isValue_decimal hs]
    exact word_eq_some (by decide) (by decide)

theorem value?_of_gives (h : Gives raw n) :
    value? raw = if n < UInt32.size then some (.ofNat n) else none := by
  split
  · rename_i hn
    rw [value?_eq_some, UInt32.toNat_ofNat_of_lt' hn]
    exact h
  · rename_i hn
    rw [Option.eq_none_iff_forall_ne_some]
    intro v hv
    rw [value?_eq_some] at hv
    rw [gives_iff] at h hv
    exact hn (h.unique hv ▸ v.toNat_lt)

/-! ## Entries of a dialect -/

theorem checkEntries_given {enum : String} {next : UInt32} {declared : List EntryDecl}
    {entries : List Entry} (h : checkEntries enum next declared = .ok entries) :
    List.Forall₂ Given declared entries := by
  induction declared generalizing next entries with
  | nil =>
    cases h
    exact .nil
  | cons e rest ih =>
    obtain ⟨n, more, hn, hm, rfl⟩ := checkEntries_cons_ok h
    refine .cons ⟨rfl, fun raw hv => ?_⟩ (ih hm)
    rw [EntryDecl.number?, hv] at hn
    exact value?_eq_some.1 hn

theorem checkEnum_given {block : EnumDecl} {e : Enum} (h : checkEnum block = .ok e) :
    List.Forall₂ Given block.entries e.entries := by
  obtain ⟨entries, he, h⟩ := bind_eq_ok.1 h
  cases h
  exact checkEntries_given he

theorem blocks_given {declared : List EnumDecl} {blocks : List Enum} (name : String)
    (h : declared.map checkEnum = blocks.map .ok) :
    List.Forall₂ Given ((declared.filter (·.name == name)).flatMap (·.entries))
      ((blocks.filter (·.name == name)).flatMap (·.entries)) :=
  List.rel_flatMap (blocks_checked name h) fun _ _ hb => checkEnum_given hb

theorem parse_given {source : String} {d : Dialect} (h : Dialect.parse source = .ok d) :
    ∃ document, Document.parse source = .ok document ∧ ∀ e ∈ d.enums,
      List.Forall₂ Given ((document.enums.filter (·.name == e.name)).flatMap (·.entries))
        e.entries := by
  obtain ⟨document, hd, hc⟩ := Dialect.parse_ok h
  refine ⟨document, hd, fun e he => ?_⟩
  obtain ⟨blocks, hblocks, hjoins⟩ := (Document.check_defines hc).enums
  obtain ⟨first, -, hjoined⟩ := hjoins.joined e he
  have hentries : e.entries = (blocks.filter (·.name == e.name)).flatMap (·.entries) :=
    congrArg Enum.entries hjoined
  rw [hentries]
  exact blocks_given e.name hblocks

/-- A text is read as a word just when it gives the number of this word. A number that no word
holds is not read, and zeros in front of the digits do not count. In an accepted definition every
entry that gives a value has the number of its text. -/
theorem values_given :
    (∀ raw v, value? raw = some v ↔ Gives raw v.toNat) ∧
    (∀ raw lead base sign digits n zeros, Lead lead base → IsSign sign → Denotes base digits n →
      Padded (lead ++ sign ++ List.replicate zeros '0' ++ digits) raw.toList →
      value? raw = if n < UInt32.size then some (.ofNat n) else none) ∧
    ∀ source d, Dialect.parse source = .ok d → ∃ document, Document.parse source = .ok document ∧
      ∀ e ∈ d.enums, List.Forall₂ Given
        ((document.enums.filter (·.name == e.name)).flatMap (·.entries)) e.entries := by
  refine ⟨fun raw v => value?_eq_some, ?_, fun source d => parse_given⟩
  intro raw lead base sign digits n zeros hlead hsign hdigits hraw
  have hnumeral : IsNumeral base (sign ++ (List.replicate zeros '0' ++ digits)) n :=
    ⟨sign, _, hsign, hdigits.zeros hlead.base_pos zeros, rfl⟩
  refine value?_of_gives ⟨_, ⟨lead, base, _, hlead, hnumeral, ?_⟩, hraw⟩
  rw [List.append_assoc, List.append_assoc]

example : value? " 0x+00fF\n" = some 255 ∧ value? "4294967296" = none ∧ value? "0x" = none := by
  decide +kernel

end DialectBindings.Definition
