import DialectBindings.Definition.Check
import DialectBindings.Proofs.Batches
import DialectBindings.Proofs.Cuts
import DialectBindings.Proofs.Octets
import DialectBindings.Proofs.WireOrder

/-!
# What a signature tells

The octets of a checksum, read back. Names end at blanks, but the length of an array stands right
before the name of the next type. The length 117 is the octet of the letter `u`, and a signed
integer behind it is an unsigned one behind no length at all. Messages whose names have no blanks
share their octets just when they are the same once such lengths are read as letters.
-/

set_option autoImplicit false

namespace DialectBindings
open Text

theorem Text.octets_inj {s t : String} (h : octets s = octets t) : s = t := by
  rw [← String.toByteArray_inj, ← String.ofList_toList (s := s), ← String.ofList_toList (s := t),
    String.toByteArray_ofList, String.toByteArray_ofList]
  exact congrArg List.toByteArray h

theorem Text.cut_blank {a b s t : Octets} (ha : 32 ∉ a) (hb : 32 ∉ b)
    (h : a ++ 32 :: s = b ++ 32 :: t) : a = b ∧ s = t := cut_at ha hb h

namespace Field

abbrev Key := String × String × Option UInt8

def wireNames : List String :=
  ["char", "int8_t", "uint8_t", "int16_t", "uint16_t", "int32_t", "uint32_t", "float", "int64_t",
    "uint64_t", "double"]

def signedNames : List String := ["int8_t", "int16_t", "int32_t", "int64_t"]

/-- An array whose length is read as the first letter of the type behind it. -/
def lends (key next : Key) : Bool := key.2.2 == some 117 && signedNames.contains next.1

def lend (key : Key) : List Key → List Key
  | [] => [key]
  | next :: more =>
    if lends key next then (key.1, key.2.1, none) :: ("u" ++ next.1, next.2) :: more
    else key :: next :: more

/-- Keys with all such lengths as letters. -/
def settled (keys : List Key) : List Key := keys.foldr lend []

def Settled (keys : List Key) : Prop := keys.IsChain fun key next => lends key next = false

/-- The name of a type, and a name without blanks. -/
structure IsKey (key : Key) : Prop where
  type : key.1 ∈ wireNames
  name : 32 ∉ octets key.2.1

instance (keys : List Key) : Decidable (Settled keys) :=
  inferInstanceAs (Decidable (keys.IsChain _))

theorem wireName_mem (s : Scalar) : s.wireName ∈ wireNames := by
  cases s <;> decide

theorem unsigned_mem : ∀ type ∈ signedNames, "u" ++ type ∈ wireNames := by
  decide

theorem not_mem_wireName : ∀ type ∈ wireNames, 32 ∉ octets type := by
  decide +kernel

theorem wireName_tail : ∀ type ∈ wireNames, ∀ next ∈ wireNames, (octets type).tail = octets next →
    type = "u" ++ next ∧ next ∈ signedNames := by
  decide +kernel

theorem lends_iff {key next : Key} : lends key next = true ↔
    key.2.2 = some 117 ∧ next.1 ∈ signedNames := by
  simp [lends]

theorem keySignature_eq (key : Key) : keySignature key =
    octets key.1 ++ 32 :: (octets key.2.1 ++ 32 :: key.2.2.toList) := by
  have hblank : octets " " = [32] := by decide
  rw [keySignature, hblank]
  simp

/-! ## Lengths as letters -/

variable {key : Key} {keys others : List Key}

theorem lend_signature (key : Key) (keys : List Key) :
    (lend key keys).flatMap keySignature = keySignature key ++ keys.flatMap keySignature := by
  cases keys with
  | nil => rfl
  | cons next more =>
    rw [lend]
    split
    · rename_i h
      have hletter : octets ("u" ++ next.1) = 117 :: octets next.1 := octets_append "u" next.1
      simp [keySignature_eq, hletter, (lends_iff.1 h).1]
    · rfl

theorem lend_isKey (hk : IsKey key) (h : ∀ k ∈ keys, IsKey k) : ∀ k ∈ lend key keys, IsKey k := by
  cases keys with
  | nil => simpa [lend] using hk
  | cons next more =>
    obtain ⟨hnext, hmore⟩ := List.forall_mem_cons.1 h
    rw [lend]
    split
    · rename_i hl
      have hletter : IsKey ("u" ++ next.1, next.2) :=
        ⟨unsigned_mem _ (lends_iff.1 hl).2, hnext.name⟩
      have hshort : IsKey (key.1, key.2.1, none) := ⟨hk.type, hk.name⟩
      exact List.forall_mem_cons.2 ⟨hshort, List.forall_mem_cons.2 ⟨hletter, hmore⟩⟩
    · exact List.forall_mem_cons.2 ⟨hk, h⟩

theorem lend_settled (h : Settled keys) : Settled (lend key keys) := by
  cases keys with
  | nil => exact .singleton _
  | cons next more =>
    rw [lend]
    split
    · -- The letter leaves the length of its key as it was, and there is none before it.
      have hletter : Settled (("u" ++ next.1, next.2) :: more) := by
        cases more with
        | nil => exact .singleton _
        | cons last more => exact List.isChain_cons_cons.2 (List.isChain_cons_cons.1 h)
      exact List.isChain_cons_cons.2 ⟨rfl, hletter⟩
    · rename_i hl
      exact List.isChain_cons_cons.2 ⟨Bool.eq_false_iff.2 hl, h⟩

theorem settled_signature (keys : List Key) :
    (settled keys).flatMap keySignature = keys.flatMap keySignature := by
  induction keys with
  | nil => rfl
  | cons key keys ih =>
    rw [settled, List.foldr_cons, lend_signature, List.flatMap_cons, ← ih]
    rfl

theorem settled_isKey (h : ∀ k ∈ keys, IsKey k) : ∀ k ∈ settled keys, IsKey k := by
  induction keys with
  | nil => nofun
  | cons key keys ih =>
    obtain ⟨hk, h⟩ := List.forall_mem_cons.1 h
    exact lend_isKey hk (ih h)

theorem settled_settled (keys : List Key) : Settled (settled keys) := by
  induction keys with
  | nil => exact .nil
  | cons key keys ih => exact lend_settled ih

/-! ## Reading back -/

theorem length_not_read {length : UInt8} (hl : key.2.2 = some length)
    (hs : Settled (key :: others)) (hkeys : ∀ k ∈ keys, IsKey k) (hothers : ∀ k ∈ others, IsKey k) :
    keys.flatMap keySignature ≠ length :: others.flatMap keySignature := by
  intro h
  cases keys with
  | nil => cases h
  | cons k keys =>
    have htype := (hkeys k List.mem_cons_self).type
    cases others with
    | nil =>
      have hlength := congrArg List.length h
      simp [keySignature_eq] at hlength
      omega
    | cons next more =>
      have hnext := (hothers next List.mem_cons_self).type
      simp only [List.flatMap_cons, keySignature_eq, List.append_assoc, List.cons_append] at h
      have hlength : length ≠ 32 := by
        rintro rfl
        have hempty : octets k.1 = octets "" :=
          (cut_blank (not_mem_wireName _ htype) List.not_mem_nil h).1
        exact absurd (octets_inj hempty ▸ htype) (by decide)
      have hblank : 32 ∉ length :: octets next.1 := by
        simpa [hlength.symm] using not_mem_wireName _ hnext
      have hname : octets k.1 = length :: octets next.1 :=
        (cut_blank (not_mem_wireName _ htype) hblank h).1
      obtain ⟨hu, hsigned⟩ := wireName_tail _ htype _ hnext (congrArg List.tail hname)
      have hletter : octets k.1 = 117 :: octets next.1 := by
        rw [hu]
        exact octets_append "u" next.1
      obtain ⟨rfl, -⟩ := List.cons.inj (hname.symm.trans hletter)
      have hlends : lends key next = true := lends_iff.2 ⟨hl, hsigned⟩
      cases hlends.symm.trans (List.isChain_cons_cons.1 hs).1

/-- Keys are read back from their octets where no length is read as a letter. -/
theorem keySignatures_inj (hkeys : ∀ k ∈ keys, IsKey k) (hothers : ∀ k ∈ others, IsKey k)
    (hk : Settled keys) (ho : Settled others)
    (h : keys.flatMap keySignature = others.flatMap keySignature) : keys = others := by
  induction keys generalizing others with
  | nil =>
    cases others with
    | nil => rfl
    | cons next more => simp [keySignature_eq] at h
  | cons key keys ih =>
    cases others with
    | nil => simp [keySignature_eq] at h
    | cons next more =>
      obtain ⟨hkey, hrest⟩ := List.forall_mem_cons.1 hkeys
      obtain ⟨hnext, hmore⟩ := List.forall_mem_cons.1 hothers
      simp only [List.flatMap_cons, keySignature_eq, List.append_assoc, List.cons_append] at h
      obtain ⟨htype, h⟩ :=
        cut_blank (not_mem_wireName _ hkey.type) (not_mem_wireName _ hnext.type) h
      obtain ⟨hname, h⟩ := cut_blank hkey.name hnext.name h
      obtain ⟨type, name, length⟩ := key
      obtain ⟨type', name', length'⟩ := next
      obtain rfl := octets_inj htype
      obtain rfl := octets_inj hname
      have hih := ih hrest hmore (List.IsChain.of_cons hk) (List.IsChain.of_cons ho)
      cases length with
      | none =>
        cases length' with
        | none => rw [hih h]
        | some n => exact absurd h (length_not_read rfl ho hrest hmore)
      | some n =>
        cases length' with
        | none => exact absurd h.symm (length_not_read rfl hk hmore hrest)
        | some n' =>
          obtain ⟨rfl, htail⟩ := List.cons.inj h
          rw [hih htail]

end Field

namespace Message

/-- What a message puts into its checksum besides its name, field by field. -/
def wireKeys (m : Message) : List Field.Key := m.sortedFields.map Field.wireKey

/-- A message whose names have no blanks. -/
structure Spaceless (m : Message) : Prop where
  name : ' ' ∉ m.name.toList
  fields : ∀ f ∈ m.baseFields, ' ' ∉ f.name.toList

theorem signature_eq (m : Message) :
    m.signature = octets m.name ++ 32 :: m.wireKeys.flatMap Field.keySignature := by
  have hblank : octets " " = [32] := by decide
  have hkeys : m.sortedFields.flatMap Field.signature =
      m.wireKeys.flatMap Field.keySignature := by
    rw [wireKeys, List.flatMap_map]
    rfl
  rw [signature, hblank, hkeys, List.append_assoc, List.singleton_append]

theorem wireKeys_classes (m : Message) :
    m.wireKeys = (elementSizes.flatMap m.sizeClass).map Field.wireKey := by
  rw [wireKeys, sortedFields_classes]

theorem Spaceless.isKey {m : Message} (h : m.Spaceless) : ∀ k ∈ m.wireKeys, Field.IsKey k := by
  intro k hk
  obtain ⟨f, hf, rfl⟩ := List.mem_map.1 hk
  have hf := m.sortedFields_perm.mem_iff.1 hf
  exact ⟨Field.wireName_mem f.type.scalar, not_mem_octets (by decide) (h.fields f hf)⟩

/-- Messages whose names have no blanks share a signature just when they have one name and their
base fields agree in the wire order by type, name and length, but for lengths that are read as the
letter of the type behind them. Without such lengths they agree altogether. -/
theorem signature_tells {m n : Message} (hm : m.Spaceless) (hn : n.Spaceless) :
    (m.signature = n.signature ↔
      m.name = n.name ∧ Field.settled m.wireKeys = Field.settled n.wireKeys) ∧
    (m.signature = n.signature → Field.Settled m.wireKeys → Field.Settled n.wireKeys →
      m.name = n.name ∧ m.wireKeys = n.wireKeys) := by
  have hcut (h : m.signature = n.signature) : m.name = n.name ∧
      m.wireKeys.flatMap Field.keySignature = n.wireKeys.flatMap Field.keySignature := by
    rw [signature_eq, signature_eq] at h
    obtain ⟨hname, hkeys⟩ := cut_blank (not_mem_octets (c := ' ') (by decide) hm.name)
      (not_mem_octets (c := ' ') (by decide) hn.name) h
    exact ⟨octets_inj hname, hkeys⟩
  refine ⟨⟨fun h => ?_, fun ⟨hname, hkeys⟩ => ?_⟩, fun h hsm hsn => ?_⟩
  · obtain ⟨hname, hkeys⟩ := hcut h
    rw [← Field.settled_signature, ← Field.settled_signature n.wireKeys] at hkeys
    exact ⟨hname, Field.keySignatures_inj (Field.settled_isKey hm.isKey)
      (Field.settled_isKey hn.isKey) (Field.settled_settled _) (Field.settled_settled _) hkeys⟩
  · rw [signature_eq, signature_eq, hname, ← Field.settled_signature, hkeys,
      Field.settled_signature]
  · obtain ⟨hname, hkeys⟩ := hcut h
    exact ⟨hname, Field.keySignatures_inj hm.isKey hn.isKey hsm hsn hkeys⟩

theorem signature_tells_letters :
    let field (name : String) (scalar : Scalar) (length : Option UInt8) : Field :=
      ⟨name, ⟨scalar, length⟩, none, none, "", false⟩
    let message (fields : List Field) : Message := ⟨1, "M", "", fields, false, none⟩
    let m := message [field "a" .char (some 117), field "b" .int8 (some 117), field "c" .int8 none]
    let n := message [field "a" .char none, field "b" .uint8 none, field "c" .versionMarker none]
    let k := message [field "a" .char (some 116), field "b" .int8 none, field "c" .uint8 none]
    m.Spaceless ∧ n.Spaceless ∧ k.Spaceless ∧ m.signature = n.signature ∧
      m.signature ≠ k.signature := by
  intro field message m n k
  have hm : m.Spaceless := ⟨by decide, by decide⟩
  have hn : n.Spaceless := ⟨by decide, by decide⟩
  have hk : k.Spaceless := ⟨by decide, by decide⟩
  refine ⟨hm, hn, hk, (signature_tells hm hn).1.2 ⟨rfl, ?_⟩, fun h => ?_⟩
  · rw [wireKeys_classes, wireKeys_classes]
    decide +kernel
  · have hkeys := ((signature_tells hm hk).1.1 h).2
    rw [wireKeys_classes, wireKeys_classes] at hkeys
    exact absurd hkeys (by decide +kernel)

end Message

namespace Definition

/-- Two messages that are checked, one with an array of 117 before a signed integer and the other
with a single element before an unsigned one. -/
theorem signature_shared :
    let d : MessageDecl := ⟨1, "M", [.field ⟨"char[117]", "a", none, none, ""⟩,
      .field ⟨"int8_t", "b", none, none, ""⟩]⟩
    let d' : MessageDecl := ⟨2, "M", [.field ⟨"char", "a", none, none, ""⟩,
      .field ⟨"uint8_t", "b", none, none, ""⟩]⟩
    ∃ m n, checkMessage d = .ok m ∧ checkMessage d' = .ok n ∧ m.Spaceless ∧ n.Spaceless ∧
      m.signature = n.signature ∧ m.wireKeys ≠ n.wireKeys := by
  intro d d'
  let field (name : String) (scalar : Scalar) (length : Option UInt8) : Field :=
    ⟨name, ⟨scalar, length⟩, none, none, "", false⟩
  refine ⟨⟨1, "M", "", [field "a" .char (some 117), field "b" .int8 none], false, none⟩,
    ⟨2, "M", "", [field "a" .char none, field "b" .uint8 none], false, none⟩,
    ?_, ?_, ?_, ?_, ?_, ?_⟩
  · decide +kernel
  · decide +kernel
  · exact ⟨by decide, by decide⟩
  · exact ⟨by decide, by decide⟩
  · rw [Message.signature_eq, Message.signature_eq, Message.wireKeys_classes,
      Message.wireKeys_classes]
    decide +kernel
  · rw [Message.wireKeys_classes, Message.wireKeys_classes]
    decide +kernel

end Definition
end DialectBindings
