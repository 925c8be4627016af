import DialectBindings.Proofs.Outline
import Mathlib.Algebra.Ring.Nat
import Mathlib.Logic.ExistsUnique

/-!
# The field table of a message

The rows of a field table lie one after the other. Those of the base fields fill the payload and
those of the extension fields lie behind it. As the elements are powers of two in size and the
largest come first, every base field is aligned to its elements.
-/

set_option autoImplicit false

namespace DialectBindings

theorem Scalar.size_eq_pow (s : Scalar) : ∃ k, s.size = 2 ^ k := by
  cases s with
  | char | int8 | uint8 | versionMarker => exact ⟨0, rfl⟩
  | int16 | uint16 => exact ⟨1, rfl⟩
  | int32 | uint32 | float => exact ⟨2, rfl⟩
  | int64 | uint64 | double => exact ⟨3, rfl⟩

theorem Scalar.size_dvd {s t : Scalar} (h : s.size ≤ t.size) : s.size ∣ t.size := by
  obtain ⟨k, hk⟩ := s.size_eq_pow
  obtain ⟨l, hl⟩ := t.size_eq_pow
  rw [hk, hl] at h ⊢
  exact Nat.pow_dvd_pow 2 ((Nat.pow_le_pow_iff_right (by decide)).1 h)

theorem Field.elementSize_dvd_size (f : Field) : f.elementSize ∣ f.size := by
  rw [Field.elementSize, Field.size, FieldType.size]
  split
  · exact Nat.dvd_mul_right _ _
  · exact Nat.dvd_refl _

theorem larger_trans {α : Type} (key : α → Nat) (a b c : α)
    (hab : decide (key b ≤ key a) = true) (hbc : decide (key c ≤ key b) = true) :
    decide (key c ≤ key a) = true := by
  rw [decide_eq_true_iff] at hab hbc ⊢
  exact Nat.le_trans hbc hab

theorem larger_total {α : Type} (key : α → Nat) (a b : α) :
    (decide (key b ≤ key a) || decide (key a ≤ key b)) = true := by
  rw [Bool.or_eq_true, decide_eq_true_iff, decide_eq_true_iff]
  exact Nat.le_total (key b) (key a)

namespace Message

theorem sortedFields_perm (m : Message) : m.sortedFields.Perm m.baseFields :=
  List.mergeSort_perm _ _

theorem sortedFields_pairwise (m : Message) :
    m.sortedFields.Pairwise fun f g => g.elementSize ≤ f.elementSize :=
  (List.pairwise_mergeSort (larger_trans Field.elementSize) (larger_total Field.elementSize)
    m.baseFields).imp of_decide_eq_true

theorem wireFields_perm (m : Message) : m.wireFields.Perm m.fields := by
  have hb := m.sortedFields_perm.append_right m.extensionFields
  have hf := List.filter_append_perm (fun f : Field => !f.isExtension) m.fields
  simp only [Bool.not_not] at hf
  exact hb.trans hf

theorem mem_sortedFields {m : Message} {f : Field} (h : f ∈ m.sortedFields) :
    f.isExtension = false := by
  simpa using (List.mem_filter.1 (m.sortedFields_perm.mem_iff.1 h)).2

theorem mem_extensionFields {m : Message} {f : Field} (h : f ∈ m.extensionFields) :
    f.isExtension = true :=
  (List.mem_filter.1 h).2

theorem payloadLength_eq (m : Message) :
    m.payloadLength = (m.sortedFields.map Field.size).sum := by
  rw [(m.sortedFields_perm.map Field.size).sum_nat, payloadLength]
  induction m.baseFields with
  | nil => rfl
  | cons f fields ih => rw [List.foldr_cons, ih, List.map_cons, List.sum_cons]

end Message

namespace Bindings
open Listing

theorem withOffsets_fields (offset : Nat) (fields : List Field) :
    (withOffsets offset fields).map (·.2) = fields := by
  induction fields generalizing offset with
  | nil => rfl
  | cons f fields ih => rw [withOffsets, List.map_cons, ih]

theorem withOffsets_append (offset : Nat) (fields rest : List Field) :
    withOffsets offset (fields ++ rest) = withOffsets offset fields ++
      withOffsets (offset + (fields.map Field.size).sum) rest := by
  induction fields generalizing offset with
  | nil => rfl
  | cons f fields ih =>
    rw [List.cons_append, withOffsets, ih, withOffsets, List.map_cons, List.sum_cons,
      Nat.add_assoc, List.cons_append]

theorem withOffsets_head {offset : Nat} {fields : List Field} {row : Nat × Field}
    (h : (withOffsets offset fields).head? = some row) : row.1 = offset := by
  cases fields with
  | nil => cases h
  | cons f fields =>
    cases h
    rfl

theorem withOffsets_follows {offset i : Nat} {fields : List Field} {row next : Nat × Field}
    (hrow : (withOffsets offset fields)[i]? = some row)
    (hnext : (withOffsets offset fields)[i + 1]? = some next) :
    next.1 = row.1 + row.2.size := by
  induction fields generalizing offset i with
  | nil => cases hrow
  | cons f fields ih =>
    rw [withOffsets, List.getElem?_cons_succ] at hnext
    cases i with
    | zero =>
      cases hrow
      rw [← List.head?_eq_getElem?] at hnext
      exact withOffsets_head hnext
    | succ i => exact ih hrow hnext

theorem withOffsets_start {offset : Nat} {fields : List Field} {row : Nat × Field}
    (h : row ∈ withOffsets offset fields) : offset ≤ row.1 := by
  induction fields generalizing offset with
  | nil => cases h
  | cons f fields ih =>
    rcases List.mem_cons.1 h with rfl | h
    · exact Nat.le_refl offset
    · exact Nat.le_trans (Nat.le_add_right _ _) (ih h)

theorem withOffsets_end {offset : Nat} {fields : List Field} {row : Nat × Field}
    (h : row ∈ withOffsets offset fields) :
    row.1 + row.2.size ≤ offset + (fields.map Field.size).sum := by
  induction fields generalizing offset with
  | nil => cases h
  | cons f fields ih =>
    rw [List.map_cons, List.sum_cons]
    rcases List.mem_cons.1 h with rfl | h
    · exact Nat.add_le_add_left (Nat.le_add_right _ _) offset
    · have := ih h
      omega

theorem withOffsets_pairwise (offset : Nat) (fields : List Field) :
    (withOffsets offset fields).Pairwise fun row later => row.1 + row.2.size ≤ later.1 := by
  induction fields generalizing offset with
  | nil => exact .nil
  | cons f fields ih => exact .cons (fun later h => withOffsets_start h) (ih _)

theorem withOffsets_covers {offset b : Nat} {fields : List Field} (hs : offset ≤ b)
    (he : b < offset + (fields.map Field.size).sum) :
    ∃ row ∈ withOffsets offset fields, row.1 ≤ b ∧ b < row.1 + row.2.size := by
  induction fields generalizing offset with
  | nil => exact absurd he (Nat.not_lt.2 hs)
  | cons f fields ih =>
    rw [List.map_cons, List.sum_cons] at he
    by_cases hf : b < offset + f.size
    · exact ⟨(offset, f), List.mem_cons_self, hs, hf⟩
    · obtain ⟨row, hr, h⟩ := ih (Nat.not_lt.1 hf) (by omega)
      exact ⟨row, List.mem_cons_of_mem _ hr, h⟩

theorem withOffsets_aligned {offset : Nat} {fields : List Field}
    (hp : fields.Pairwise fun f g => g.elementSize ≤ f.elementSize)
    (ho : ∀ f ∈ fields, f.elementSize ∣ offset) {row : Nat × Field}
    (h : row ∈ withOffsets offset fields) : row.2.elementSize ∣ row.1 := by
  induction fields generalizing offset with
  | nil => cases h
  | cons f fields ih =>
    obtain ⟨hf, hp⟩ := List.pairwise_cons.1 hp
    rcases List.mem_cons.1 h with rfl | h
    · exact ho f List.mem_cons_self
    · refine ih hp (fun g hg => ?_) h
      have hgf : g.elementSize ∣ f.elementSize := Scalar.size_dvd (hf g hg)
      exact Nat.dvd_add (ho g (List.mem_cons_of_mem _ hg)) (Nat.dvd_trans hgf f.elementSize_dvd_size)

/-- Rows of a field table that lay out the payload of a message: one for every field, in wire
order. Those of the base fields fill the payload octet by octet. -/
structure LaysOut (rows : List (Nat × Field)) (m : Message) : Prop where
  wire_order : rows.map (·.2) = m.wireFields
  one_each : (rows.map (·.2)).Perm m.fields
  starts : ∀ first, rows.head? = some first → first.1 = 0
  follows : ∀ i row next, rows[i]? = some row → rows[i + 1]? = some next →
    next.1 = row.1 + row.2.size
  fills : ∀ b < m.payloadLength, ∃! i : Nat, ∃ row : Nat × Field, rows[i]? = some row ∧
    row.2.isExtension = false ∧ row.1 ≤ b ∧ b < row.1 + row.2.size
  inside : ∀ row ∈ rows, row.2.isExtension = false → row.1 + row.2.size ≤ m.payloadLength
  behind : ∀ row ∈ rows, row.2.isExtension = true → m.payloadLength ≤ row.1
  aligned : ∀ row ∈ rows, row.2.isExtension = false → row.2.elementSize ∣ row.1

theorem mem_withOffsets {offset : Nat} {fields : List Field} {row : Nat × Field}
    (h : row ∈ withOffsets offset fields) : row.2 ∈ fields := by
  have hm := List.mem_map_of_mem (f := (·.2)) h
  rwa [withOffsets_fields] at hm

theorem withOffsets_wireFields (m : Message) :
    withOffsets 0 m.wireFields =
      withOffsets 0 m.sortedFields ++ withOffsets m.payloadLength m.extensionFields := by
  rw [Message.wireFields, withOffsets_append, Nat.zero_add, Message.payloadLength_eq]

theorem base_row {m : Message} {row : Nat × Field} (h : row ∈ withOffsets 0 m.wireFields)
    (he : row.2.isExtension = false) : row ∈ withOffsets 0 m.sortedFields := by
  rw [withOffsets_wireFields] at h
  refine (List.mem_append.1 h).resolve_right fun h => ?_
  have := Message.mem_extensionFields (mem_withOffsets h)
  simp_all

theorem extension_row {m : Message} {row : Nat × Field} (h : row ∈ withOffsets 0 m.wireFields)
    (he : row.2.isExtension = true) : row ∈ withOffsets m.payloadLength m.extensionFields := by
  rw [withOffsets_wireFields] at h
  refine (List.mem_append.1 h).resolve_left fun h => ?_
  have := Message.mem_sortedFields (mem_withOffsets h)
  simp_all

theorem row_unique {fields : List Field} {offset i j b : Nat} {row other : Nat × Field}
    (hi : (withOffsets offset fields)[i]? = some row)
    (hj : (withOffsets offset fields)[j]? = some other)
    (hrow : row.1 ≤ b ∧ b < row.1 + row.2.size)
    (hother : other.1 ≤ b ∧ b < other.1 + other.2.size) : i = j := by
  have hp := List.pairwise_iff_getElem.1 (withOffsets_pairwise offset fields)
  obtain ⟨hil, rfl⟩ := List.getElem?_eq_some_iff.1 hi
  obtain ⟨hjl, rfl⟩ := List.getElem?_eq_some_iff.1 hj
  rcases Nat.lt_trichotomy i j with h | h | h
  · have := hp i j hil hjl h
    omega
  · exact h
  · have := hp j i hjl hil h
    omega

theorem withOffsets_laysOut (m : Message) : LaysOut (withOffsets 0 m.wireFields) m where
  wire_order := withOffsets_fields 0 m.wireFields
  one_each := by
    rw [withOffsets_fields]
    exact m.wireFields_perm
  starts _ h := withOffsets_head h
  follows _ _ _ hrow hnext := withOffsets_follows hrow hnext
  fills b hb := by
    rw [Message.payloadLength_eq, ← Nat.zero_add (List.sum _)] at hb
    obtain ⟨row, hr, hrow⟩ := withOffsets_covers (Nat.zero_le b) hb
    have hext := Message.mem_sortedFields (mem_withOffsets hr)
    have hmem : row ∈ withOffsets 0 m.wireFields := by
      rw [withOffsets_wireFields]
      exact List.mem_append_left _ hr
    obtain ⟨i, hi⟩ := List.mem_iff_getElem?.1 hmem
    refine ⟨i, ⟨row, hi, hext, hrow⟩, ?_⟩
    rintro j ⟨other, hj, -, hother⟩
    exact row_unique hj hi hother hrow
  inside row h he := by
    rw [Message.payloadLength_eq]
    simpa using withOffsets_end (base_row h he)
  behind row h he := withOffsets_start (extension_row h he)
  aligned row h he :=
    withOffsets_aligned m.sortedFields_pairwise (fun f _ => Nat.dvd_zero _) (base_row h he)

/-- The field table that the class of a message shows, beside the length of its payload. A row
shows where its field starts, and how many octets it takes. -/
theorem messageDeclaration_table (d : Dialect) (m : Message) :
    linesFrom 0 (messageDeclaration d m) = (messagePart d m).lines ∧
      (messagePart d m).payloadLength = m.payloadLength ∧
      ∃ rows : List (Nat × Field),
        (messagePart d m).rows = rows.map (fun (offset, f) =>
          "    new MavLinkPacketField('" ++ f.name ++ "', '" ++ Identifier.camel f.name ++ "', " ++
            toString offset ++ ", " ++ (if f.isExtension then "true" else "false") ++ ", " ++
            toString f.size ++ ", '" ++ f.type.displayName ++ "', '" ++ f.units.getD "" ++
            "'),") ∧
          LaysOut rows m := by
  refine ⟨messageDeclaration_lines d m, rfl, withOffsets 0 m.wireFields, ?_,
    withOffsets_laysOut m⟩
  exact List.map_congr_left fun row _ => fieldRow_text row.1 row.2

end Bindings
end DialectBindings
