import DialectBindings.Proofs.Octets

/-!
# Octets that are read back

The octets of a text are read as that text. A character is written as a lead octet, which says how
many octets follow it, and as octets of six bits each; a reader puts these bits together again. An
ASCII character's octet is part of no other character, so a text may be cut there.
-/

set_option autoImplicit false

namespace DialectBindings.Text
open Results

theorem exists_octet {n : Nat} (h : n < 256) : ∃ octet : UInt8, octet.toNat = n :=
  ⟨UInt8.ofNat n, by rw [UInt8.toNat_ofNat', Nat.mod_eq_of_lt h]⟩

theorem exists_tail (n : Nat) : ∃ octet : UInt8, octet.toNat = 0x80 + n % 64 ∧
    isTail octet = true ∧ ∀ value, grown value octet = value * 64 + n % 64 := by
  obtain ⟨octet, ho⟩ := exists_octet (show 0x80 + n % 64 < 256 by omega)
  refine ⟨octet, ho, isTail_iff.2 (by omega), fun value => ?_⟩
  unfold grown
  omega

theorem tails_whole {value size : Nat} {more : Octets} (h : ∀ o ∈ more, isTail o = true)
    (rest : Octets) : tails value size more.length (more ++ rest) =
      .char (Char.ofNat (more.foldl grown value)) (size + more.length) := by
  induction more generalizing value size with
  | nil => rfl
  | cons o more ih =>
    obtain ⟨ho, hmore⟩ := List.forall_mem_cons.1 h
    have hsize : size + (o :: more).length = size + 1 + more.length := by
      rw [List.length_cons]
      omega
    have hrest := @ih (grown value o) (size + 1) hmore
    rw [hsize, List.length_cons, List.cons_append, tails, if_pos ho, List.foldl_cons]
    exact hrest

theorem lead?_of_leads {first next : UInt8} {bits count : Nat}
    (h : Leads first next next bits count) (ht : isTail next = true) :
    ∃ low high, lead? first = some (bits, count, low, high) ∧ low ≤ next ∧ next ≤ high := by
  obtain ⟨hlow, hhigh⟩ := isTail_iff.1 ht
  simp only [lead?, UInt8.le_iff_toNat_le]
  cases h with
  | one h hl hh =>
    refine ⟨0x80, 0xBF, ?_, hlow, hhigh⟩
    rw [if_pos (by omega), h, Nat.add_sub_cancel_left]
  | two h hh hzero hmost =>
    rw [h]
    by_cases h0 : bits = 0
    · exact ⟨0xA0, 0xBF, by simp [h0], hzero h0, hhigh⟩
    by_cases h13 : bits = 13
    · exact ⟨0x80, 0x9F, by simp [h13], hlow, hmost h13⟩
    · refine ⟨0x80, 0xBF, ?_, hlow, hhigh⟩
      rw [if_neg (by omega), if_neg (by omega), if_neg (by omega), if_pos (by omega),
        Nat.add_sub_cancel_left]
  | three h hh hzero hmost =>
    rw [h]
    by_cases h0 : bits = 0
    · exact ⟨0x90, 0xBF, by simp [h0], hzero h0, hhigh⟩
    by_cases h4 : bits = 4
    · exact ⟨0x80, 0x8F, by simp [h4], hlow, hmost h4⟩
    · refine ⟨0x80, 0xBF, ?_, hlow, hhigh⟩
      rw [if_neg (by omega), if_neg (by omega), if_neg (by omega), if_neg (by omega),
        if_neg (by omega), if_pos (by omega), Nat.add_sub_cancel_left]

theorem Leads.beyond {first low high : UInt8} {bits count : Nat}
    (h : Leads first low high bits count) : 0x80 ≤ first.toNat := by
  cases h <;> omega

theorem head_of_leads {first next : UInt8} {more : Octets} {bits : Nat}
    (h : Leads first next next bits (next :: more).length)
    (ht : ∀ o ∈ next :: more, isTail o = true) (rest : Octets) :
    head first (next :: more ++ rest) =
      .char (Char.ofNat ((next :: more).foldl grown bits)) ((next :: more).length + 1) := by
  have hfirst : ¬ first < 0x80 := fun hlt => Nat.not_lt.2 h.beyond (UInt8.lt_iff_toNat_lt.1 hlt)
  obtain ⟨low, high, hlead, hlow, hhigh⟩ := lead?_of_leads h (ht next List.mem_cons_self)
  rw [head, if_neg hfirst, hlead, List.cons_append]
  simp only [hlow, hhigh, decide_true, Bool.and_self, if_true]
  rw [Nat.add_comm]
  exact tails_whole ht rest

/-- A character is read as it is written, whatever comes after it. -/
theorem head_utf8 (c : Char) (rest : Octets) :
    ∃ first more, String.utf8EncodeChar c = first :: more ∧
      head first (more ++ rest) = .char c (more.length + 1) := by
  obtain ⟨n, hv, rfl⟩ : ∃ n : Nat, n.isValidChar ∧ Char.ofNat n = c :=
    ⟨c.toNat, c.valid, Char.ofNat_toNat c⟩
  have hv : n < 0xD800 ∨ 0xDFFF < n ∧ n < 0x110000 := hv
  by_cases h1 : n < 0x80
  · obtain ⟨first, hfirst⟩ := exists_octet (show n < 256 by omega)
    have hc : (Char.ofNat n).toNat = n := val_ofNat hv
    refine ⟨first, [], ?_, ?_⟩
    · rw [utf8_ascii (by omega), hc, ← hfirst, UInt8.ofNat_toNat]
    · rw [List.nil_append, head_letter (by omega), hfirst]
      rfl
  obtain ⟨d, hd, hdtail, hdgrown⟩ := exists_tail n
  by_cases h2 : n ≤ 0x7FF
  · obtain ⟨first, hfirst⟩ := exists_octet (show 0xC0 + n / 64 < 256 by omega)
    have hleads : Leads first d d (n / 64) [d].length := .one hfirst (by omega) (by omega)
    have hvalue : [d].foldl grown (n / 64) = n := by
      rw [List.foldl_cons, List.foldl_nil, hdgrown, Nat.div_add_mod']
    refine ⟨first, [d], utf8_two (by omega) h2 hfirst hd, ?_⟩
    rw [head_of_leads hleads (by simpa using hdtail), hvalue]
  obtain ⟨e, he, hetail, hegrown⟩ := exists_tail (n / 64)
  by_cases h3 : n ≤ 0xFFFF
  · obtain ⟨first, hfirst⟩ := exists_octet (show 0xE0 + n / 4096 < 256 by omega)
    have hleads : Leads first e e (n / 4096) [e, d].length :=
      .two hfirst (by omega) (by omega) (by omega)
    have hvalue : [e, d].foldl grown (n / 4096) = n := by
      rw [List.foldl_cons, List.foldl_cons, List.foldl_nil, hegrown, hdgrown]
      omega
    refine ⟨first, [e, d], utf8_three (by omega) h3 hv hfirst he hd, ?_⟩
    rw [head_of_leads hleads (by simpa using ⟨hetail, hdtail⟩), hvalue]
  · obtain ⟨f, hf, hftail, hfgrown⟩ := exists_tail (n / 4096)
    obtain ⟨first, hfirst⟩ := exists_octet (show 0xF0 + n / 262144 < 256 by omega)
    have hleads : Leads first f f (n / 262144) [f, e, d].length :=
      .three hfirst (by omega) (by omega) (by omega)
    have hvalue : [f, e, d].foldl grown (n / 262144) = n := by
      rw [List.foldl_cons, List.foldl_cons, List.foldl_cons, List.foldl_nil, hfgrown, hegrown,
        hdgrown]
      omega
    refine ⟨first, [f, e, d], utf8_four (by omega) (by omega) hfirst hf he hd, ?_⟩
    rw [head_of_leads hleads (by simpa using ⟨hftail, hetail, hdtail⟩), hvalue]

theorem decodeFrom_encode (index : Nat) (text : List Char) :
    decodeFrom index (encode text) = .ok text := by
  induction text generalizing index with
  | nil => rw [encode, List.flatMap_nil, decodeFrom]
  | cons c text ih =>
    obtain ⟨first, more, hc, hhead⟩ := head_utf8 c (encode text)
    rw [encode, List.flatMap_cons, ← encode, hc, List.cons_append, decodeFrom, hhead]
    simp only [Nat.add_sub_cancel, List.drop_left]
    rw [ih]
    rfl

theorem decode_octets (text : String) : decode (octets text) = .ok text := by
  rw [decode, octets, decodeFrom_encode]
  exact congrArg Except.ok String.ofList_toList

theorem lenient_octets (text : String) : lenient (octets text) = text :=
  lenient_decode (decode_octets text)

/-- What stands before an ASCII character in the octets of a text is the octets of a text. -/
theorem encode_cut {c : Char} (hc : c.toNat < 128) {text : List Char} {a b : Octets}
    (h : encode text = a ++ UInt8.ofNat c.toNat :: b) : ∃ front, encode front = a := by
  induction text generalizing a with
  | nil => simp [encode] at h
  | cons d text ih =>
    rw [encode, List.flatMap_cons, ← encode] at h
    obtain ⟨cut, rfl, hrest⟩ | ⟨cut, hd, hrest⟩ := List.append_eq_append_iff.1 h
    · obtain ⟨front, rfl⟩ := ih hrest
      exact ⟨d :: front, by rw [encode, List.flatMap_cons, ← encode]⟩
    · cases cut with
      | nil => exact ⟨[d], by simpa [encode] using hd⟩
      | cons o cut =>
        obtain ⟨rfl, -⟩ := List.cons.inj hrest
        obtain rfl := eq_of_mem_utf8 hc (hd ▸ List.mem_append_right a List.mem_cons_self)
        rw [utf8_ascii hc] at hd
        have hlength := congrArg List.length hd
        rw [List.length_singleton, List.length_append, List.length_cons] at hlength
        obtain rfl := List.eq_nil_of_length_eq_zero (show a.length = 0 by omega)
        exact ⟨[], rfl⟩

end DialectBindings.Text
