import DialectBindings.Proofs.Payload
import Mathlib.Data.List.FinRange

/-!
# The wire order

Sorting by size keeps what is of one size as it was, so the base fields of a message go out as those
of eight octets, then those of four, of two and of one, each as declared. As an arrangement of the
places of a declaration the wire order is the only one of its kind. The checksum and the length of
the payload depend on the base fields of each size alone.
-/

set_option autoImplicit false

namespace DialectBindings

/-! ## Classes of a sorted list -/

section Classes
variable {α : Type} {key : α → Nat}

theorem filter_mergeSort (key : α → Nat) (l : List α) (k : Nat) :
    (l.mergeSort fun a b => key b ≤ key a).filter (key · == k) = l.filter (key · == k) := by
  have hclass : (l.filter (key · == k)).Pairwise fun a b => decide (key b ≤ key a) = true := by
    refine List.pairwise_of_forall_mem_list fun a ha b hb => ?_
    have ha : key a = k := by simpa using (List.mem_filter.1 ha).2
    have hb : key b = k := by simpa using (List.mem_filter.1 hb).2
    simp [ha, hb]
  have hsub := (List.sublist_mergeSort (larger_trans key) (larger_total key) hclass
    List.filter_sublist).filter (key · == k)
  rw [List.filter_filter] at hsub
  simp only [Bool.and_self] at hsub
  exact (hsub.eq_of_length ((List.mergeSort_perm _ _).filter _).length_eq.symm).symm

theorem mergeSort_ties {R : α → α → Prop} {l : List α} (h : l.Pairwise R) :
    (l.mergeSort fun a b => key b ≤ key a).Pairwise fun a b => key a = key b → R a b := by
  refine List.pairwise_iff_forall_sublist.2 fun {a b} hsub he => ?_
  have hclass := hsub.filter (key · == key a)
  rw [filter_mergeSort, List.filter_eq_self.2 (by simp [he])] at hclass
  exact List.pairwise_iff_forall_sublist.1 h (hclass.trans List.filter_sublist)

theorem filter_largest {k : Nat} {l : List α} (hs : l.Pairwise fun a b => key b ≤ key a)
    (hk : ∀ a ∈ l, key a ≤ k) : l = l.filter (key · == k) ++ l.filter (key · < k) := by
  induction l with
  | nil => rfl
  | cons a l ih =>
    obtain ⟨ha, hs⟩ := List.pairwise_cons.1 hs
    obtain ⟨hak, hk⟩ := List.forall_mem_cons.1 hk
    rcases Nat.lt_or_eq_of_le hak with hlt | heq
    · -- Nothing behind a smaller key is as large as the largest.
      have hnone : l.filter (key · == k) = [] := by
        refine List.filter_eq_nil_iff.2 fun b hb => ?_
        have := ha b hb
        simp only [beq_iff_eq]
        omega
      have hall : l.filter (key · < k) = l := by
        refine List.filter_eq_self.2 fun b hb => ?_
        have := ha b hb
        simp only [decide_eq_true_eq]
        omega
      rw [List.filter_cons_of_neg (by simp; omega), List.filter_cons_of_pos (by simpa using hlt),
        hnone, hall, List.nil_append]
    · rw [List.filter_cons_of_pos (by simpa using heq), List.filter_cons_of_neg (by simp; omega),
        List.cons_append, ← ih hs hk]

/-- A sorted list is made up of its classes, one after the other. -/
theorem eq_flatMap_classes (key : α → Nat) {keys : List Nat} (hkeys : keys.Pairwise (· > ·))
    {l : List α} (hs : l.Pairwise fun a b => key b ≤ key a) (hm : ∀ a ∈ l, key a ∈ keys) :
    l = keys.flatMap fun k => l.filter (key · == k) := by
  induction keys generalizing l with
  | nil => exact List.eq_nil_iff_forall_not_mem.2 fun a ha => List.not_mem_nil (hm a ha)
  | cons k keys ih =>
    obtain ⟨hk, hkeys⟩ := List.pairwise_cons.1 hkeys
    have hle : ∀ a ∈ l, key a ≤ k := by
      intro a ha
      rcases List.mem_cons.1 (hm a ha) with h | h
      · exact Nat.le_of_eq h
      · exact Nat.le_of_lt (hk _ h)
    have hrest : ∀ a ∈ l.filter (key · < k), key a ∈ keys := by
      intro a ha
      obtain ⟨ha, hlt⟩ := List.mem_filter.1 ha
      have hlt : key a < k := by simpa using hlt
      exact (List.mem_cons.1 (hm a ha)).resolve_left (Nat.ne_of_lt hlt)
    have hsame : (keys.flatMap fun j => (l.filter (key · < k)).filter (key · == j)) =
        keys.flatMap fun j => l.filter (key · == j) := by
      refine List.flatMap_congr fun j hj => ?_
      rw [List.filter_filter]
      refine List.filter_congr fun a _ => ?_
      have := hk j hj
      by_cases h : key a = j
      · simp [h, this]
      · simp [h]
    calc l = l.filter (key · == k) ++ l.filter (key · < k) := filter_largest hs hle
      _ = l.filter (key · == k) ++
          keys.flatMap fun j => (l.filter (key · < k)).filter (key · == j) := by
        rw [← ih hkeys (hs.filter _) hrest]
      _ = (k :: keys).flatMap fun j => l.filter (key · == j) := by
        rw [hsame, List.flatMap_cons]

end Classes

namespace Message

/-! ## The places of a declaration -/

/-- Of two places of a declaration, one whose field goes out before that of the other. -/
structure Precedes (fields : List Field) (i j : Fin fields.length) : Prop where
  base_first : fields[i].isExtension = true → fields[j].isExtension = true
  larger_first : fields[i].isExtension = false → fields[j].isExtension = false →
    fields[j].elementSize ≤ fields[i].elementSize
  ties_declared : fields[i].isExtension = false → fields[j].isExtension = false →
    fields[i].elementSize = fields[j].elementSize → i < j
  extensions_declared : fields[i].isExtension = true → fields[j].isExtension = true → i < j

/-- The places of a declaration in the order in which their fields go out: every place once, base
fields before extension fields, of base fields the larger elements first and those of one size as
declared, and extension fields as declared. -/
structure WireOrder (fields : List Field) (places : List (Fin fields.length)) : Prop where
  each_once : places.Perm (List.finRange fields.length)
  ordered : places.Pairwise (Precedes fields)

theorem Precedes.asymm {fields : List Field} {i j : Fin fields.length}
    (h : Precedes fields i j) (h' : Precedes fields j i) : False := by
  cases hi : fields[i].isExtension with
  | true =>
    have hj := h.base_first hi
    exact lt_asymm (h.extensions_declared hi hj) (h'.extensions_declared hj hi)
  | false =>
    have hj : fields[j].isExtension = false :=
      Bool.eq_false_iff.2 fun hj => Bool.false_ne_true (hi.symm.trans (h'.base_first hj))
    have hsize := Nat.le_antisymm (h'.larger_first hj hi) (h.larger_first hi hj)
    exact lt_asymm (h.ties_declared hi hj hsize) (h'.ties_declared hj hi hsize.symm)

theorem WireOrder.unique {fields : List Field} {places others : List (Fin fields.length)}
    (h : WireOrder fields places) (h' : WireOrder fields others) : others = places :=
  List.Perm.eq_of_pairwise (fun _ _ _ _ hij hji => (hij.asymm hji).elim) h'.ordered h.ordered
    (h'.each_once.trans h.each_once.symm)

def basePlaces (fields : List Field) : List (Fin fields.length) :=
  (List.finRange fields.length).filter fun i => !fields[i].isExtension

def sortedPlaces (fields : List Field) : List (Fin fields.length) :=
  (basePlaces fields).mergeSort fun i j => fields[j].elementSize ≤ fields[i].elementSize

def extensionPlaces (fields : List Field) : List (Fin fields.length) :=
  (List.finRange fields.length).filter fun i => fields[i].isExtension

theorem finRange_fields (fields : List Field) :
    (List.finRange fields.length).map (fun i => fields[i]) = fields :=
  List.map_getElem_finRange fields

theorem sortedPlaces_fields (m : Message) :
    (sortedPlaces m.fields).map (fun i => m.fields[i]) = m.sortedFields := by
  have hbase : (basePlaces m.fields).map (fun i => m.fields[i]) = m.baseFields := by
    conv => rhs; rw [baseFields, ← finRange_fields m.fields, List.filter_map]
    rfl
  rw [sortedPlaces, sortedFields, ← hbase]
  exact List.map_mergeSort fun i _ j _ => rfl

theorem extensionPlaces_fields (m : Message) :
    (extensionPlaces m.fields).map (fun i => m.fields[i]) = m.extensionFields := by
  conv => rhs; rw [extensionFields, ← finRange_fields m.fields, List.filter_map]
  rfl

theorem sortedPlaces_perm (fields : List Field) :
    (sortedPlaces fields).Perm (basePlaces fields) :=
  List.mergeSort_perm _ _

theorem mem_sortedPlaces {fields : List Field} {i : Fin fields.length}
    (h : i ∈ sortedPlaces fields) : fields[i].isExtension = false := by
  simpa using (List.mem_filter.1 ((sortedPlaces_perm fields).mem_iff.1 h)).2

theorem mem_extensionPlaces {fields : List Field} {i : Fin fields.length}
    (h : i ∈ extensionPlaces fields) : fields[i].isExtension = true :=
  (List.mem_filter.1 h).2

theorem sortedPlaces_ordered (fields : List Field) :
    (sortedPlaces fields).Pairwise (Precedes fields) := by
  let size : Fin fields.length → Nat := fun i => fields[i].elementSize
  have hsizes : (sortedPlaces fields).Pairwise fun i j => size j ≤ size i :=
    (List.pairwise_mergeSort (larger_trans size) (larger_total size) _).imp of_decide_eq_true
  have hties : (sortedPlaces fields).Pairwise fun i j => size i = size j → i < j :=
    mergeSort_ties ((List.pairwise_lt_finRange _).filter _)
  refine (hsizes.and hties).imp_of_mem fun {i j} hi hj h => ?_
  have hi := mem_sortedPlaces hi
  exact {
    base_first := fun he => by rw [hi] at he; cases he
    larger_first := fun _ _ => h.1
    ties_declared := fun _ _ => h.2
    extensions_declared := fun he => by rw [hi] at he; cases he }

theorem extensionPlaces_ordered (fields : List Field) :
    (extensionPlaces fields).Pairwise (Precedes fields) := by
  have hplaces : (extensionPlaces fields).Pairwise fun i j => i < j :=
    (List.pairwise_lt_finRange _).filter _
  refine hplaces.imp_of_mem fun {i j} hi hj h => ?_
  have hi := mem_extensionPlaces hi
  exact {
    base_first := fun _ => mem_extensionPlaces hj
    larger_first := fun hb => by rw [hi] at hb; cases hb
    ties_declared := fun hb => by rw [hi] at hb; cases hb
    extensions_declared := fun _ _ => h }

theorem wireOrder_places (fields : List Field) :
    WireOrder fields (sortedPlaces fields ++ extensionPlaces fields) where
  each_once := by
    have hb := (sortedPlaces_perm fields).append_right (extensionPlaces fields)
    have hf := List.filter_append_perm (fun i : Fin fields.length => !fields[i].isExtension)
      (List.finRange fields.length)
    simp only [Bool.not_not] at hf
    exact hb.trans hf
  ordered := by
    refine List.pairwise_append.2
      ⟨sortedPlaces_ordered fields, extensionPlaces_ordered fields, fun i hi j hj => ?_⟩
    have hi := mem_sortedPlaces hi
    have hj := mem_extensionPlaces hj
    exact {
      base_first := fun _ => hj
      larger_first := fun _ hb => by rw [hj] at hb; cases hb
      ties_declared := fun _ hb => by rw [hj] at hb; cases hb
      extensions_declared := fun he => by rw [hi] at he; cases he }

/-- The wire fields of a message are its fields in the wire order of their places, and there is no
other wire order of these places. -/
theorem wireFields_order (m : Message) :
    ∃ places, WireOrder m.fields places ∧ m.wireFields = places.map (fun i => m.fields[i]) ∧
      ∀ others, WireOrder m.fields others → others = places := by
  refine ⟨sortedPlaces m.fields ++ extensionPlaces m.fields, wireOrder_places m.fields, ?_,
    fun others h => (wireOrder_places m.fields).unique h⟩
  rw [List.map_append, sortedPlaces_fields, extensionPlaces_fields, wireFields]

end Message

/-! ## What the checksum depends on -/

namespace Field

/-- What a checksum takes of a field: the name of its type, its own name and its length. -/
def wireKey (f : Field) : String × String × Option UInt8 :=
  (f.type.scalar.wireName, f.name, f.type.length)

def keySignature (key : String × String × Option UInt8) : Text.Octets :=
  Text.octets key.1 ++ Text.octets " " ++ Text.octets key.2.1 ++ Text.octets " " ++ key.2.2.toList

def keySize (key : String × String × Option UInt8) : Nat :=
  ((Scalar.ofName? key.1).elim 0 Scalar.size) * key.2.2.elim 1 UInt8.toNat

theorem size_wireKey (f : Field) : f.size = keySize f.wireKey := by
  have hname (s : Scalar) : (Scalar.ofName? s.wireName).elim 0 Scalar.size = s.size := by
    cases s <;> rfl
  rw [keySize, wireKey, hname, size, FieldType.size]
  cases f.type.length with
  | none => exact (Nat.mul_one _).symm
  | some n => rfl

end Field

namespace Message

def sizeClass (m : Message) (size : Nat) : List Field :=
  m.baseFields.filter (·.elementSize == size)

def elementSizes : List Nat := [8, 4, 2, 1]

theorem elementSize_mem (f : Field) : f.elementSize ∈ elementSizes := by
  rw [Field.elementSize]
  cases f.type.scalar <;> decide

theorem sizeClass_eq_nil (m : Message) {size : Nat} (h : size ∉ elementSizes) :
    m.sizeClass size = [] := by
  refine List.filter_eq_nil_iff.2 fun f _ hf => h ?_
  rw [← eq_of_beq hf]
  exact elementSize_mem f

theorem sortedFields_classes (m : Message) :
    m.sortedFields = elementSizes.flatMap m.sizeClass := by
  rw [eq_flatMap_classes Field.elementSize (by decide) m.sortedFields_pairwise
    fun f _ => elementSize_mem f]
  exact List.flatMap_congr fun size _ => filter_mergeSort Field.elementSize m.baseFields size

/-- Messages of one name have one checksum and one length of payload if their base fields of each
size do not differ in the names of their types, their names and lengths. -/
theorem crcExtra_of_classes {m n : Message} (hname : m.name = n.name)
    (hclasses : ∀ size, (m.sizeClass size).map Field.wireKey =
      (n.sizeClass size).map Field.wireKey) :
    m.crcExtra = n.crcExtra ∧ m.payloadLength = n.payloadLength := by
  have hkeys : m.sortedFields.map Field.wireKey = n.sortedFields.map Field.wireKey := by
    rw [sortedFields_classes, sortedFields_classes, List.map_flatMap, List.map_flatMap]
    exact List.flatMap_congr fun size _ => hclasses size
  have hsignature (m : Message) : m.sortedFields.flatMap Field.signature =
      (m.sortedFields.map Field.wireKey).flatMap Field.keySignature := by
    rw [List.flatMap_map]
    rfl
  have hsizes (m : Message) : m.sortedFields.map Field.size =
      (m.sortedFields.map Field.wireKey).map Field.keySize := by
    rw [List.map_map]
    exact List.map_congr_left fun f _ => f.size_wireKey
  constructor
  · rw [crcExtra, crcExtra, signature, signature, hname, hsignature, hsignature, hkeys]
  · rw [payloadLength_eq, payloadLength_eq, hsizes, hsizes, hkeys]

theorem crcExtra_of_classes_mixed :
    let field (name : String) (scalar : Scalar) (length : Option UInt8) : Field :=
      ⟨name, ⟨scalar, length⟩, none, none, "", false⟩
    let m : Message := ⟨1, "M", "", [field "a" .uint8 none, field "b" .uint16 (some 2),
      field "c" .versionMarker none], false, none⟩
    let n : Message := ⟨2, "M", "other", [⟨"b", ⟨.uint16, some 2⟩, none, some "m", "", false⟩,
      field "a" .uint8 none, ⟨"x", ⟨.double, none⟩, none, none, "", true⟩,
      field "c" .uint8 none], true, none⟩
    m.name = n.name ∧
      (∀ size, (m.sizeClass size).map Field.wireKey = (n.sizeClass size).map Field.wireKey) ∧
      m.crcExtra = n.crcExtra ∧ m.payloadLength = n.payloadLength := by
  intro field m n
  have hclasses (size : Nat) :
      (m.sizeClass size).map Field.wireKey = (n.sizeClass size).map Field.wireKey := by
    by_cases h : size ∈ elementSizes
    · revert size
      decide
    · rw [sizeClass_eq_nil m h, sizeClass_eq_nil n h]
  exact ⟨rfl, hclasses, crcExtra_of_classes rfl hclasses⟩

end Message
end DialectBindings
