import DialectBindings.Proofs.Results
import DialectBindings.Text.Utf8
import Mathlib.Data.List.Basic

/-!
# Octets of a text that was read

A strict reader takes one sequence of octets after the other, and the character that it makes of a
sequence is written as that sequence. So the octets of a text that was read are those it was read
from. A lenient reader reads the same text, and where there is none it adds no ASCII character.
-/

set_option autoImplicit false

namespace DialectBindings.Text
open Results

def grown (value : Nat) (octet : UInt8) : Nat := value * 64 + (octet.toNat - 0x80)

theorem tails_char {value size count n : Nat} {rest : Octets} {c : Char}
    (h : tails value size count rest = .char c n) :
    ∃ more, more.length = count ∧ rest = more ++ rest.drop count ∧ n = size + count ∧
      (∀ o ∈ more, isTail o = true) ∧ c = Char.ofNat (more.foldl grown value) := by
  induction count generalizing value size rest with
  | zero =>
    cases h
    exact ⟨[], rfl, rfl, rfl, nofun, rfl⟩
  | succ count ih =>
    cases rest with
    | nil => cases h
    | cons octet rest =>
      rw [tails] at h
      split at h
      · rename_i ho
        obtain ⟨more, hlen, hrest, hn, htails, hc⟩ := ih h
        refine ⟨octet :: more, by rw [List.length_cons, hlen], ?_, by omega,
          List.forall_mem_cons.2 ⟨ho, htails⟩, ?_⟩
        · rw [List.drop_succ_cons, List.cons_append, ← hrest]
        · rw [List.foldl_cons]
          exact hc
      · cases h

theorem isTail_iff {octet : UInt8} :
    isTail octet = true ↔ 0x80 ≤ octet.toNat ∧ octet.toNat ≤ 0xBF := by
  simp [isTail, UInt8.le_iff_toNat_le]

/-- What a lead octet says: its bits, and what the next octet has to be where few bits or many
could denote too little or too much. -/
inductive Leads (first low high : UInt8) (bits : Nat) : Nat → Prop
  | one (h : first.toNat = 0xC0 + bits) (hl : 2 ≤ bits) (hh : bits ≤ 31) : Leads first low high bits 1
  | two (h : first.toNat = 0xE0 + bits) (hh : bits ≤ 15) (hlow : bits = 0 → 0xA0 ≤ low.toNat)
      (hhigh : bits = 13 → high.toNat ≤ 0x9F) : Leads first low high bits 2
  | three (h : first.toNat = 0xF0 + bits) (hh : bits ≤ 4) (hlow : bits = 0 → 0x90 ≤ low.toNat)
      (hhigh : bits = 4 → high.toNat ≤ 0x8F) : Leads first low high bits 3

theorem lead?_leads {first low high : UInt8} {bits count : Nat}
    (h : lead? first = some (bits, count, low, high)) : Leads first low high bits count := by
  simp only [lead?] at h
  repeat' split at h
  all_goals
    simp only [Option.some.injEq, Prod.mk.injEq, reduceCtorEq] at h
    try obtain ⟨rfl, rfl, rfl, rfl⟩ := h
  · exact .one (by omega) (by omega) (by omega)
  · exact .two (by omega) (by omega) (fun _ => by decide) (fun hb => by omega)
  · exact .two (by omega) (by omega) (fun hb => by omega) (fun _ => by decide)
  · exact .two (by omega) (by omega) (fun hb => by omega) (fun hb => by omega)
  · exact .three (by omega) (by omega) (fun _ => by decide) (fun hb => by omega)
  · exact .three (by omega) (by omega) (fun hb => by omega) (fun hb => by omega)
  · exact .three (by omega) (by omega) (fun hb => by omega) (fun _ => by decide)

theorem val_ofNat {n : Nat} (h : n.isValidChar) : (Char.ofNat n).val.toNat = n := by
  rw [Char.ofNat, dif_pos h]
  rfl

theorem ofNat_eq_iff {n : Nat} {octet : UInt8} : UInt8.ofNat n = octet ↔ n % 256 = octet.toNat := by
  rw [← UInt8.toNat_inj, UInt8.toNat_ofNat']

theorem utf8_two {n : Nat} {a b : UInt8} (hl : 0x80 ≤ n) (hh : n ≤ 0x7FF)
    (ha : a.toNat = 0xC0 + n / 64) (hb : b.toNat = 0x80 + n % 64) :
    String.utf8EncodeChar (Char.ofNat n) = [a, b] := by
  have hv : n.isValidChar := .inl (by omega)
  simp only [String.utf8EncodeChar, val_ofNat hv]
  rw [if_neg (by omega), if_pos (by omega)]
  simp only [List.cons.injEq, ofNat_eq_iff, and_true]
  omega

theorem utf8_three {n : Nat} {a b c : UInt8} (hl : 0x800 ≤ n) (hh : n ≤ 0xFFFF)
    (hv : n.isValidChar) (ha : a.toNat = 0xE0 + n / 4096) (hb : b.toNat = 0x80 + n / 64 % 64)
    (hc : c.toNat = 0x80 + n % 64) : String.utf8EncodeChar (Char.ofNat n) = [a, b, c] := by
  simp only [String.utf8EncodeChar, val_ofNat hv]
  rw [if_neg (by omega), if_neg (by omega), if_pos (by omega)]
  simp only [List.cons.injEq, ofNat_eq_iff, and_true]
  omega

theorem utf8_four {n : Nat} {a b c d : UInt8} (hl : 0x10000 ≤ n) (hh : n ≤ 0x10FFFF)
    (ha : a.toNat = 0xF0 + n / 262144) (hb : b.toNat = 0x80 + n / 4096 % 64)
    (hc : c.toNat = 0x80 + n / 64 % 64) (hd : d.toNat = 0x80 + n % 64) :
    String.utf8EncodeChar (Char.ofNat n) = [a, b, c, d] := by
  have hv : n.isValidChar := .inr ⟨by omega, by omega⟩
  simp only [String.utf8EncodeChar, val_ofNat hv]
  rw [if_neg (by omega), if_neg (by omega), if_neg (by omega)]
  simp only [List.cons.injEq, ofNat_eq_iff, and_true]
  omega

theorem tails_octets {first next low high : UInt8} {bits count size : Nat} {more : Octets} {c : Char}
    (hl : Leads first low high bits count) (hlow : low.toNat ≤ next.toNat)
    (hhigh : next.toNat ≤ high.toNat) (h : tails bits 1 count (next :: more) = .char c size) :
    String.utf8EncodeChar c ++ (next :: more).drop (size - 1) = first :: next :: more := by
  obtain ⟨follow, hlen, hrest, rfl, htails, rfl⟩ := tails_char h
  generalize hn : follow.foldl grown bits = n
  suffices hw : String.utf8EncodeChar (Char.ofNat n) = first :: follow by
    rw [Nat.add_sub_cancel_left, hw, List.cons_append, ← hrest]
  cases hl with
  | one hfirst hl hh =>
    obtain ⟨a, rfl⟩ := List.length_eq_one_iff.1 hlen
    have ha := isTail_iff.1 (htails a (by simp))
    simp only [List.foldl_cons, List.foldl_nil] at hn
    unfold grown at hn
    exact utf8_two (by omega) (by omega) (by omega) (by omega)
  | two hfirst hh hzero hmost =>
    obtain ⟨a, b, rfl⟩ := List.length_eq_two.1 hlen
    obtain rfl : next = a := (List.cons.inj hrest).1
    have ha := isTail_iff.1 (htails next (by simp))
    have hb := isTail_iff.1 (htails b (by simp))
    simp only [List.foldl_cons, List.foldl_nil] at hn
    unfold grown at hn
    have hv : n < 0xD800 ∨ 0xDFFF < n ∧ n < 0x110000 := by omega
    exact utf8_three (by omega) (by omega) hv (by omega) (by omega) (by omega)
  | three hfirst hh hzero hmost =>
    obtain ⟨a, b, d, rfl⟩ := List.length_eq_three.1 hlen
    obtain rfl : next = a := (List.cons.inj hrest).1
    have ha := isTail_iff.1 (htails next (by simp))
    have hb := isTail_iff.1 (htails b (by simp))
    have hd := isTail_iff.1 (htails d (by simp))
    simp only [List.foldl_cons, List.foldl_nil] at hn
    unfold grown at hn
    exact utf8_four (by omega) (by omega) (by omega) (by omega) (by omega) (by omega)

theorem head_octets {first : UInt8} {rest : Octets} {c : Char} {size : Nat}
    (h : head first rest = .char c size) :
    String.utf8EncodeChar c ++ rest.drop (size - 1) = first :: rest := by
  unfold head at h
  split at h
  · rename_i hf
    obtain ⟨rfl, rfl⟩ := Head.char.inj h
    have hf : first.toNat < 128 := hf
    have hv : first.toNat.isValidChar := .inl (by omega)
    have hsmall : first.toNat ≤ 127 := by omega
    simp [String.utf8EncodeChar, val_ofNat hv, hsmall]
  · split at h
    · cases h
    · rename_i bits count low high hl
      split at h
      · cases h
      · rename_i next more
        split at h
        · rename_i hr
          obtain ⟨hlow, hhigh⟩ : low.toNat ≤ next.toNat ∧ next.toNat ≤ high.toNat := by
            simpa [Bool.and_eq_true, UInt8.le_iff_toNat_le] using hr
          exact tails_octets (lead?_leads hl) hlow hhigh h
        · cases h

theorem encode_decodeFrom {index : Nat} {s : Octets} {text : List Char}
    (h : decodeFrom index s = .ok text) : encode text = s := by
  fun_induction decodeFrom index s generalizing text with
  | case1 index =>
    cases h
    rfl
  | case2 index first rest c size hh ih =>
    obtain ⟨more, hm, rfl⟩ := map_eq_ok.1 h
    rw [encode, List.flatMap_cons, ← encode, ih hm]
    exact head_octets hh
  | case3 index first rest size hh => cases h
  | case4 index first rest hh => cases h

theorem octets_decode {s : Octets} {text : String} (h : decode s = .ok text) : octets text = s := by
  obtain ⟨chars, hc, rfl⟩ := map_eq_ok.1 h
  rw [octets, String.toList_ofList, encode_decodeFrom hc]

/-! ## ASCII characters and lenient reading -/

theorem utf8_ascii {c : Char} (h : c.toNat < 128) :
    String.utf8EncodeChar c = [UInt8.ofNat c.toNat] := by
  have hc : c.val.toNat ≤ 127 := Nat.le_of_lt_succ h
  simp only [String.utf8EncodeChar]
  rw [if_pos hc]
  rfl

theorem head_letter {first : UInt8} (h : first.toNat < 128) (rest : Octets) :
    head first rest = .char (Char.ofNat first.toNat) 1 := by
  rw [head, if_pos]
  exact UInt8.lt_iff_toNat_lt.2 h

theorem lenientChars_letter {first : UInt8} (h : first.toNat < 128) (rest : Octets) :
    lenientChars (first :: rest) = Char.ofNat first.toNat :: lenientChars rest := by
  rw [lenientChars, head_letter h]
  rfl

theorem head_ascii {first : UInt8} {rest : Octets} {c : Char} {size : Nat}
    (h : head first rest = .char c size) (hc : c.toNat < 128) : UInt8.ofNat c.toNat = first := by
  have hfirst := head_octets h
  rw [utf8_ascii hc] at hfirst
  exact (List.cons.inj hfirst).1

theorem not_mem_lenientChars {c : Char} (hc : c.toNat < 128) {s : Octets}
    (h : UInt8.ofNat c.toNat ∉ s) : c ∉ lenientChars s := by
  have hreplaced : c ≠ '\uFFFD' := by
    rintro rfl
    exact absurd hc (by decide)
  fun_induction lenientChars s with
  | case1 => exact List.not_mem_nil
  | case2 first rest d size hh ih =>
    rw [List.mem_cons, not_or] at h ⊢
    exact ⟨fun he => h.1 (head_ascii (he ▸ hh) hc), ih fun hm => h.2 (List.mem_of_mem_drop hm)⟩
  | case3 first rest size hh ih =>
    rw [List.mem_cons, not_or] at h ⊢
    exact ⟨hreplaced, ih fun hm => h.2 (List.mem_of_mem_drop hm)⟩
  | case4 first rest hh => simpa using hreplaced

theorem eq_of_mem_utf8 {c d : Char} (hc : c.toNat < 128)
    (h : UInt8.ofNat c.toNat ∈ String.utf8EncodeChar d) : c = d := by
  have hn (n : Nat) : UInt8.ofNat c.toNat = UInt8.ofNat n ↔ n % 256 = c.toNat := by
    rw [eq_comm, ofNat_eq_iff, UInt8.toNat_ofNat', Nat.mod_eq_of_lt (by omega : c.toNat < 256)]
  rcases Nat.lt_or_ge d.toNat 128 with hd | hd
  · rw [utf8_ascii hd, List.mem_singleton, hn, Nat.mod_eq_of_lt (by omega)] at h
    exact Char.toNat_inj.1 h.symm
  · have hd : 128 ≤ d.val.toNat := hd
    simp only [String.utf8EncodeChar] at h
    rw [if_neg (by omega)] at h
    split at h
    · simp only [List.mem_cons, List.not_mem_nil, or_false, hn] at h
      omega
    · split at h
      · simp only [List.mem_cons, List.not_mem_nil, or_false, hn] at h
        omega
      · simp only [List.mem_cons, List.not_mem_nil, or_false, hn] at h
        omega

theorem not_mem_octets {c : Char} (hc : c.toNat < 128) {s : String} (h : c ∉ s.toList) :
    UInt8.ofNat c.toNat ∉ octets s := by
  rw [octets, encode, List.mem_flatMap]
  rintro ⟨d, hd, hm⟩
  exact h (eq_of_mem_utf8 hc hm ▸ hd)

theorem not_mem_lenient {c : Char} (hc : c.toNat < 128) {s : Octets}
    (h : UInt8.ofNat c.toNat ∉ s) : UInt8.ofNat c.toNat ∉ octets (lenient s) := by
  apply not_mem_octets hc
  rw [lenient, String.toList_ofList]
  exact not_mem_lenientChars hc h

theorem lenientChars_decodeFrom {index : Nat} {s : Octets} {text : List Char}
    (h : decodeFrom index s = .ok text) : lenientChars s = text := by
  fun_induction decodeFrom index s generalizing text with
  | case1 index =>
    cases h
    rw [lenientChars]
  | case2 index first rest c size hh ih =>
    obtain ⟨more, hm, rfl⟩ := map_eq_ok.1 h
    rw [lenientChars, hh]
    exact congrArg (c :: ·) (ih hm)
  | case3 index first rest size hh => cases h
  | case4 index first rest hh => cases h

theorem lenient_decode {s : Octets} {text : String} (h : decode s = .ok text) :
    lenient s = text := by
  obtain ⟨chars, hc, rfl⟩ := map_eq_ok.1 h
  rw [lenient, lenientChars_decodeFrom hc]

theorem octets_lenient_ascii {s : Octets} (h : ∀ octet ∈ s, octet.toNat < 128) :
    octets (lenient s) = s := by
  rw [octets, lenient, String.toList_ofList]
  induction s with
  | nil => rw [lenientChars, encode, List.flatMap_nil]
  | cons first rest ih =>
    obtain ⟨hf, hr⟩ := List.forall_mem_cons.1 h
    have hc : (Char.ofNat first.toNat).toNat = first.toNat := val_ofNat (.inl (by omega))
    rw [lenientChars_letter hf, encode, List.flatMap_cons, ← encode, ih hr, utf8_ascii (by omega),
      hc, UInt8.ofNat_toNat, List.singleton_append]

end DialectBindings.Text
