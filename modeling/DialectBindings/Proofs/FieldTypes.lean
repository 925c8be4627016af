import DialectBindings.Definition.Check
import DialectBindings.Proofs.Denotations

/-!
# Texts of field types

A text is a type if it is a name between blanks, or such a name and then the length of an array in
brackets with nothing behind them. A bracket that opens no length is the first thing to be wrong
with a text; any other text that is no type has an unknown name.
-/

set_option autoImplicit false

namespace DialectBindings
open Text

namespace Scalar

def typeName : Scalar → String
  | .versionMarker => "uint8_t_mavlink_version"
  | scalar => scalar.wireName

def plain : Scalar → Scalar
  | .versionMarker => .uint8
  | scalar => scalar

theorem typeName_plain (scalar : Scalar) : scalar.plain.typeName = scalar.wireName := by
  cases scalar <;> rfl

theorem ofName?_eq_some {name : String} {scalar : Scalar} :
    ofName? name = some scalar ↔ name = scalar.typeName := by
  constructor
  · intro h
    unfold ofName? at h
    split at h <;> cases h <;> rfl
  · rintro rfl
    cases scalar <;> rfl

theorem typeName_not_blank (scalar : Scalar) : ∀ c ∈ scalar.typeName.toList, isBlank c = false := by
  have hnone : scalar.typeName.toList.all (!isBlank ·) = true := by
    cases scalar <;> decide +kernel
  simpa using hnone

theorem typeName_no_bracket (scalar : Scalar) : '[' ∉ scalar.typeName.toList := by
  cases scalar <;> decide

end Scalar

namespace Definition

def IsLength (s : List Char) (n : Nat) : Prop :=
  ∃ numeral inner, IsNumeral 10 numeral n ∧ Padded numeral inner ∧ s = inner ++ [']'] ∧
    1 ≤ n ∧ n ≤ 255

/-- A text as a type. -/
inductive IsType : List Char → FieldType → Prop
  | single {name : List Char} (scalar : Scalar) (h : Padded scalar.typeName.toList name) :
    IsType name ⟨scalar, none⟩
  | array {name rest : List Char} (scalar : Scalar) (h : Padded scalar.typeName.toList name)
    {n : UInt8} (hn : IsLength rest n.toNat) : IsType (name ++ '[' :: rest) ⟨scalar, some n⟩

/-- Behind the first opening bracket there is no length. -/
def Unmeasured (s : List Char) : Prop :=
  ∃ name rest, s = name ++ '[' :: rest ∧ '[' ∉ name ∧ ∀ n, ¬ IsLength rest n

variable {raw : String} {name rest : List Char} {scalar : Scalar} {t : FieldType}

/-! ## The two parts of a type -/

theorem named_iff : Scalar.ofName? (String.ofList (trim name)) = some scalar ↔
    Padded scalar.typeName.toList name := by
  rw [Scalar.ofName?_eq_some, ← trim_eq_iff scalar.typeName_not_blank, ← String.toList_inj,
    String.toList_ofList]

theorem no_bracket (h : Padded scalar.typeName.toList name) : '[' ∉ name := by
  obtain ⟨front, back, hfront, hback, rfl⟩ := h
  have hblank {s : List Char} (hs : s.all isBlank = true) : '[' ∉ s := by
    intro hmem
    exact absurd (List.all_eq_true.1 hs _ hmem) (by decide)
  simp [hblank hfront, hblank hback, scalar.typeName_no_bracket]

theorem arrayLength?_eq_some {n : UInt8} : arrayLength? rest = some n ↔ IsLength rest n.toNat := by
  have hpos : 0 < n ↔ 1 ≤ n.toNat := UInt8.lt_iff_toNat_lt
  have hmost : n.toNat ≤ 255 := Nat.le_of_lt_succ n.toNat_lt
  have hinner (inner : List Char) : (byte? (trim inner)).filter (0 < ·) = some n ↔
      IsLength (inner ++ [']']) n.toNat := by
    rw [Option.filter_eq_some_iff, byte?_eq_some, isNumeral_trim (by decide), decide_eq_true_iff,
      hpos]
    constructor
    · rintro ⟨⟨numeral, hn, hs⟩, h⟩
      exact ⟨numeral, inner, hn, hs, rfl, h, hmost⟩
    · rintro ⟨numeral, other, hn, hs, he, h, -⟩
      obtain ⟨rfl, -⟩ := List.append_inj' he rfl
      exact ⟨⟨numeral, hn, hs⟩, h⟩
  unfold arrayLength?
  split
  · rename_i h
    obtain ⟨inner, rfl⟩ := List.getLast?_eq_some_iff.1 h
    rw [List.dropLast_concat, hinner]
  · rename_i h
    refine iff_of_false nofun ?_
    rintro ⟨numeral, inner, -, -, rfl, -⟩
    exact h (List.getLast?_concat)

/-! ## Texts with a bracket and without -/

theorem readType_single (h : '[' ∉ raw.toList) : readType raw =
    match Scalar.ofName? (String.ofList (trim raw.toList)) with
    | some scalar => .ok ⟨scalar, none⟩
    | none => .error .unknown := by
  have hall : ∀ c ∈ raw.toList, (c != '[') = true := by
    intro c hc
    exact bne_iff_ne.2 fun he => h (he ▸ hc)
  rw [readType, List.takeWhile_eq_self_iff.2 hall, List.dropWhile_eq_nil_iff.2 hall]
  rfl

theorem readType_bracket (h : raw.toList = name ++ '[' :: rest) (hname : '[' ∉ name) :
    readType raw =
      match arrayLength? rest with
      | none => .error .arrayLength
      | some n =>
        match Scalar.ofName? (String.ofList (trim name)) with
        | some scalar => .ok ⟨scalar, some n⟩
        | none => .error .unknown := by
  have hall : ∀ c ∈ name, (c != '[') = true := by
    intro c hc
    exact bne_iff_ne.2 fun he => hname (he ▸ hc)
  have htake : raw.toList.takeWhile (· != '[') = name := by
    rw [h, List.takeWhile_append_of_pos hall, List.takeWhile_cons_of_neg (by decide),
      List.append_nil]
  have hdrop : raw.toList.dropWhile (· != '[') = '[' :: rest := by
    rw [h, List.dropWhile_append_of_pos hall, List.dropWhile_cons_of_neg (by decide)]
  rw [readType, htake, hdrop]
  dsimp only
  cases arrayLength? rest <;> rfl

theorem isType_single (h : '[' ∉ name) :
    IsType name t ↔ ∃ scalar : Scalar, Padded scalar.typeName.toList name ∧ t = ⟨scalar, none⟩ := by
  constructor
  · intro ht
    cases ht with
    | single scalar hs => exact ⟨scalar, hs, rfl⟩
    | array scalar hs hn => exact absurd (by simp) h
  · rintro ⟨scalar, hs, rfl⟩
    exact .single scalar hs

theorem isType_bracket (hname : '[' ∉ name) :
    IsType (name ++ '[' :: rest) t ↔ ∃ (scalar : Scalar) (n : UInt8),
      Padded scalar.typeName.toList name ∧ IsLength rest n.toNat ∧ t = ⟨scalar, some n⟩ := by
  constructor
  · intro ht
    generalize hs : name ++ '[' :: rest = s at ht
    cases ht with
    | single scalar hp =>
      exact absurd (hs ▸ List.mem_append_right _ List.mem_cons_self) (no_bracket hp)
    | array scalar hp hn =>
      obtain ⟨rfl, rfl⟩ := cut_at hname (no_bracket hp) hs
      exact ⟨scalar, _, hp, hn, rfl⟩
  · rintro ⟨scalar, n, hp, hn, rfl⟩
    exact .array scalar hp hn

/-! ## What a text comes to -/

theorem readType_ok : readType raw = .ok t ↔ IsType raw.toList t := by
  by_cases hb : '[' ∈ raw.toList
  · obtain ⟨name, rest, hraw, hname⟩ := List.eq_append_cons_of_mem hb
    rw [readType_bracket hraw hname, hraw, isType_bracket hname]
    simp only [← named_iff, ← arrayLength?_eq_some]
    cases arrayLength? rest <;> cases Scalar.ofName? (String.ofList (trim name)) <;>
      simp [eq_comm]
  · rw [readType_single hb, isType_single hb]
    simp only [← named_iff]
    cases Scalar.ofName? (String.ofList (trim raw.toList)) <;> simp [eq_comm]

theorem readType_unmeasured :
    readType raw = .error .arrayLength ↔ Unmeasured raw.toList := by
  by_cases hb : '[' ∈ raw.toList
  · obtain ⟨name, rest, hraw, hname⟩ := List.eq_append_cons_of_mem hb
    have hlength : arrayLength? rest = none ↔ ∀ n, ¬ IsLength rest n := by
      rw [Option.eq_none_iff_forall_ne_some]
      simp only [ne_eq, arrayLength?_eq_some]
      constructor
      · intro h n hn
        obtain ⟨-, -, -, -, -, -, hmost⟩ := id hn
        refine h (UInt8.ofNat n) ?_
        rwa [UInt8.toNat_ofNat_of_lt' (Nat.lt_succ_of_le hmost)]
      · exact fun h n => h n.toNat
    have hfirst : Unmeasured raw.toList ↔ ∀ n, ¬ IsLength rest n := by
      constructor
      · rintro ⟨other, more, hs, hother, hn⟩
        obtain ⟨-, rfl⟩ := cut_at hname hother (hraw.symm.trans hs)
        exact hn
      · exact fun h => ⟨name, rest, hraw, hname, h⟩
    rw [hfirst, ← hlength, readType_bracket hraw hname]
    cases arrayLength? rest <;> cases Scalar.ofName? (String.ofList (trim name)) <;> simp
  · rw [readType_single hb]
    have hnone : ¬ Unmeasured raw.toList := by
      rintro ⟨name, rest, hs, -⟩
      exact hb (hs ▸ List.mem_append_right _ List.mem_cons_self)
    cases Scalar.ofName? (String.ofList (trim raw.toList)) <;> simp [hnone]

theorem isType_displayName {s : List Char} (h : IsType s t) :
    IsType t.displayName.toList ⟨t.scalar.plain, t.length⟩ := by
  have hname (scalar : Scalar) : Padded scalar.plain.typeName.toList scalar.wireName.toList := by
    rw [scalar.typeName_plain]
    exact padded_self _
  cases h with
  | single scalar => exact .single _ (hname scalar)
  | @array name rest scalar _ n hn =>
    obtain ⟨-, -, -, -, -, hbounds⟩ := hn
    have hdigits : IsLength (Nat.toDigits 10 n.toNat ++ [']']) n.toNat :=
      ⟨_, _, isNumeral_toDigits n.toNat, padded_self _, rfl, hbounds⟩
    have htext : (FieldType.displayName ⟨scalar, some n⟩).toList =
        scalar.wireName.toList ++ '[' :: (Nat.toDigits 10 n.toNat ++ [']']) := by
      simp [FieldType.displayName, Nat.toList_repr]
    rw [htext]
    exact .array _ (hname scalar) hdigits

/-- A text is read as a type just when it is one, and as this type. Of the texts that are none,
those without a length behind their first bracket are told from those with an unknown name. A type
that was read is read again from how it is shown. -/
theorem readType_outcome (raw : String) :
    (∀ t, readType raw = .ok t ↔ IsType raw.toList t) ∧
    (readType raw = .error .arrayLength ↔ Unmeasured raw.toList) ∧
    (readType raw = .error .unknown ↔
      ¬ Unmeasured raw.toList ∧ ∀ t, ¬ IsType raw.toList t) ∧
    ∀ t, IsType raw.toList t → readType t.displayName = .ok ⟨t.scalar.plain, t.length⟩ := by
  refine ⟨fun t => readType_ok, readType_unmeasured, ?_, fun t ht => ?_⟩
  · simp only [← readType_unmeasured, ← readType_ok]
    rcases readType raw with (_ | _) | t <;> simp
  · exact readType_ok.2 (isType_displayName ht)

example : readType " float [ +004\t]" = .ok ⟨.float, some 4⟩ ∧
    readType "char[4" = .error .arrayLength ∧ readType "word[0]" = .error .arrayLength ∧
    readType "word[4]" = .error .unknown := by decide +kernel

end Definition

end DialectBindings
