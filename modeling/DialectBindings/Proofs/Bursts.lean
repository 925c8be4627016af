import DialectBindings.Proofs.Division
import Mathlib.Data.List.GetD
import Mathlib.Data.Nat.Digits.Lemmas

/-!
# Errors that a checksum notices

Two runs of octets that differ in a burst of bits no longer than the register leave different
checksums. By linearity the difference of the registers is what the differing bits alone leave in a
register that is clear. Read backwards from a clear register, bits that cancel out are the register
that they cancel: sixteen of them fill it, and no more come in before it has to be clear again. Bits
that are alike in front of the burst leave a clear register clear, and those behind it keep
different registers apart.
-/

set_option autoImplicit false

namespace DialectBindings.Checksum

/-! ## Registers that bits cancel -/

def number (bs : List Bool) : Nat := Nat.ofDigits 2 (bs.map Bool.toNat)

theorem number_cons (b : Bool) (bs : List Bool) : number (b :: bs) = b.toNat + 2 * number bs := by
  rw [number, List.map_cons, Nat.ofDigits_cons]
  rfl

theorem number_lt (bs : List Bool) : number bs < 2 ^ bs.length := by
  induction bs with
  | nil => decide
  | cons b bs ih =>
    have hb := b.toNat_lt
    rw [number_cons, List.length_cons, Nat.pow_succ]
    omega

theorem number_eq_zero {bs : List Bool} (h : number bs = 0) : ∀ b ∈ bs, b = false := by
  induction bs with
  | nil => exact nofun
  | cons b bs ih =>
    rw [number_cons] at h
    refine List.forall_mem_cons.2 ⟨?_, ih (by omega)⟩
    cases b with
    | false => rfl
    | true => simp at h

theorem toNat_half (register : UInt16) : (register >>> 1).toNat = register.toNat / 2 := by
  simp [Nat.shiftRight_eq_div_pow]

theorem polynomial_le (register : UInt16) :
    2 ^ 15 ≤ ((register >>> 1) ^^^ polynomial).toNat := by
  have hlow : (register >>> 1).toNat < 2 ^ 15 := by
    have := register.toNat_lt
    rw [toNat_half]
    omega
  apply Nat.ge_two_pow_of_testBit
  rw [UInt16.toNat_xor, Nat.testBit_xor, Nat.testBit_lt_two_pow hlow]
  decide

theorem toNat_of_shiftBit {register : UInt16} {bit : Bool}
    (h : (shiftBit register bit).toNat < 2 ^ 15) :
    register.toNat = bit.toNat + 2 * (shiftBit register bit).toNat := by
  rw [shiftBit] at h ⊢
  split
  · rename_i hb
    have hbit : bit.toNat = register.toNat % 2 := by
      rw [← hb, Nat.testBit_zero]
      rcases Nat.mod_two_eq_zero_or_one register.toNat with h0 | h1
      · simp [h0]
      · simp [h1]
    rw [toNat_half]
    omega
  · rename_i hb
    rw [if_neg hb] at h
    exact absurd (polynomial_le register) (by omega)

theorem toNat_of_feed {register : UInt16} {bs : List Bool} (hl : bs.length ≤ 16)
    (h : feed register bs = 0) : register.toNat = number bs := by
  induction bs generalizing register with
  | nil =>
    obtain rfl : register = 0 := h
    rfl
  | cons b bs ih =>
    rw [List.length_cons] at hl
    have hrest := ih (by omega) h
    have hsmall : number bs < 2 ^ 15 :=
      (number_lt bs).trans_le (Nat.pow_le_pow_right (by decide) (by omega))
    rw [number_cons, ← hrest]
    exact toNat_of_shiftBit (hrest ▸ hsmall)

theorem feed_quiet {bs : List Bool} (h : ∀ b ∈ bs, b = false) : feed 0 bs = 0 := by
  induction bs with
  | nil => rfl
  | cons b bs ih =>
    obtain ⟨rfl, hbs⟩ := List.forall_mem_cons.1 h
    exact ih hbs

theorem eq_zero_of_feed_quiet {register : UInt16} {bs : List Bool} (hb : ∀ b ∈ bs, b = false)
    (h : feed register bs = 0) : register = 0 := by
  induction bs generalizing register with
  | nil => exact h
  | cons b bs ih =>
    obtain ⟨rfl, hbs⟩ := List.forall_mem_cons.1 hb
    have hfirst : feed register [false] = 0 := ih hbs h
    exact UInt16.toNat_inj.1 (toNat_of_feed (by decide) hfirst)

/-- Bits that leave a clear register clear, with none set but in sixteen places in a row, are clear
themselves. -/
theorem quiet_of_feed {ds : List Bool} {first : Nat}
    (h : ∀ i, ds[i]? = some true → first ≤ i ∧ i < first + 16) (hz : feed 0 ds = 0) :
    ∀ b ∈ ds, b = false := by
  let front := ds.take first
  let window := (ds.drop first).take 16
  let back := (ds.drop first).drop 16
  have hsplit : ds = front ++ (window ++ back) := by
    rw [List.take_append_drop, List.take_append_drop]
  have hfront : ∀ b ∈ front, b = false := by
    intro b hb
    obtain ⟨i, hi⟩ := List.mem_iff_getElem?.1 hb
    simp only [front, List.getElem?_take, Option.ite_none_right_eq_some] at hi
    cases b with
    | false => rfl
    | true => have := h i hi.2; omega
  have hback : ∀ b ∈ back, b = false := by
    intro b hb
    obtain ⟨i, hi⟩ := List.mem_iff_getElem?.1 hb
    simp only [back, List.getElem?_drop] at hi
    cases b with
    | false => rfl
    | true => have := h _ hi; omega
  have hwindow : ∀ b ∈ window, b = false := by
    rw [hsplit, feed_append, feed_append, feed_quiet hfront] at hz
    exact number_eq_zero (toNat_of_feed (List.length_take_le 16 _)
      (eq_zero_of_feed_quiet hback hz)).symm
  rw [hsplit]
  exact List.forall_mem_append.2 ⟨hfront, List.forall_mem_append.2 ⟨hwindow, hback⟩⟩

/-! ## Differences -/

theorem feed_difference (r s : UInt16) {bs cs : List Bool} (hl : bs.length = cs.length)
    (h : feed r bs = feed s cs) : feed (r ^^^ s) (List.zipWith xor bs cs) = 0 := by
  rw [feed_xor r s hl, h, UInt16.xor_self]

theorem accumulate_injective (octets : List UInt8) :
    Function.Injective fun register => accumulate register octets := by
  intro r s h
  simp only [accumulate_divide, divide] at h
  have hzero := feed_difference r s rfl h
  rw [List.zipWith_self] at hzero
  have hquiet : ∀ b ∈ (octets.flatMap bits).map fun b => xor b b, b = false :=
    List.forall_mem_map.2 fun b _ => Bool.xor_self b
  exact UInt16.xor_eq_zero_iff.1 (eq_zero_of_feed_quiet hquiet hzero)

/-- The bit at a place of octets: those of an octet come one after the other, the least significant
first. -/
def bitAt (octets : List UInt8) (i : Nat) : Bool := (octets.getD (i / 8) 0).toNat.testBit (i % 8)

/-- The bits in which octets differ lie at so many places in a row. -/
def IsBurst (width : Nat) (s t : List UInt8) : Prop :=
  ∃ first, ∀ i, bitAt s i ≠ bitAt t i → first ≤ i ∧ i < first + width

theorem flatMap_bits (octets : List UInt8) :
    octets.flatMap bits = (List.range (8 * octets.length)).map (bitAt octets) := by
  induction octets with
  | nil => rfl
  | cons o octets ih =>
    have hfirst : bits o = (List.range 8).map (bitAt (o :: octets)) := by
      refine List.map_congr_left fun i hi => ?_
      have hi := List.mem_range.1 hi
      have hdiv : i / 8 = 0 := by omega
      have hmod : i % 8 = i := by omega
      rw [bitAt, hdiv, hmod, List.getD_cons_zero]
    have hrest : bitAt octets = bitAt (o :: octets) ∘ (8 + ·) := by
      funext i
      have hdiv : (8 + i) / 8 = i / 8 + 1 := by omega
      have hmod : (8 + i) % 8 = i % 8 := by omega
      rw [Function.comp_apply, bitAt, bitAt, hdiv, hmod, List.getD_cons_succ]
    rw [List.flatMap_cons, ih, hfirst, hrest, List.length_cons, Nat.mul_succ, Nat.add_comm,
      List.range_add, List.map_append, List.map_map]

theorem bitAt_beyond {octets : List UInt8} {i : Nat} (h : 8 * octets.length ≤ i) :
    bitAt octets i = false := by
  rw [bitAt, List.getD_eq_default octets 0 (by omega)]
  exact Nat.zero_testBit _

theorem eq_of_bitAt {s t : List UInt8} (hl : s.length = t.length)
    (h : ∀ i, bitAt s i = bitAt t i) : s = t := by
  refine List.ext_getElem hl fun k hs ht => UInt8.toNat_inj.1 (Nat.eq_of_testBit_eq fun j => ?_)
  by_cases hj : j < 8
  · have hdiv : (8 * k + j) / 8 = k := by omega
    have hmod : (8 * k + j) % 8 = j := by omega
    have hbit := h (8 * k + j)
    rwa [bitAt, bitAt, hdiv, hmod, List.getD_eq_getElem s 0 hs, List.getD_eq_getElem t 0 ht] at hbit
  · have hsmall (o : UInt8) : o.toNat.testBit j = false :=
      Nat.testBit_lt_two_pow (o.toNat_lt.trans_le (Nat.pow_le_pow_right (by decide) (by omega)))
    rw [hsmall, hsmall]

theorem zipWith_bits {s t : List UInt8} (hl : s.length = t.length) :
    List.zipWith xor (s.flatMap bits) (t.flatMap bits) =
      (List.range (8 * s.length)).map fun i => bitAt s i ^^ bitAt t i := by
  rw [flatMap_bits, flatMap_bits, ← hl, List.zipWith_map, List.zipWith_self]

/-- Different checksums are left by octets of one length that differ in a burst of at most sixteen
bits, whatever the register held before, and different registers stay different over one and the
same octet. -/
theorem bursts_noticed :
    (∀ s t : List UInt8, s.length = t.length → s ≠ t → IsBurst 16 s t →
      ∀ register, accumulate register s ≠ accumulate register t) ∧
    ∀ octet, Function.Injective fun register => step register octet := by
  refine ⟨fun s t hl hne ⟨first, hburst⟩ register hsame => hne ?_,
    fun octet => accumulate_injective [octet]⟩
  rw [accumulate_divide, accumulate_divide] at hsame
  have hbits : (s.flatMap bits).length = (t.flatMap bits).length := by
    rw [flatMap_bits, flatMap_bits, List.length_map, List.length_map, hl]
  have hzero := feed_difference register register hbits hsame
  rw [UInt16.xor_self, zipWith_bits hl] at hzero
  have hset (i : Nat) (hi : ((List.range (8 * s.length)).map
      fun i => bitAt s i ^^ bitAt t i)[i]? = some true) : first ≤ i ∧ i < first + 16 := by
    simp only [List.getElem?_map, Option.map_eq_some_iff, List.getElem?_eq_some_iff,
      List.getElem_range] at hi
    obtain ⟨j, ⟨-, rfl⟩, hdiffer⟩ := hi
    exact hburst i (by simpa using hdiffer)
  refine eq_of_bitAt hl fun i => ?_
  by_cases hi : i < 8 * s.length
  · simpa using List.forall_mem_map.1 (quiet_of_feed hset hzero) i (List.mem_range.2 hi)
  · rw [bitAt_beyond (by omega), bitAt_beyond (by omega)]

theorem bursts_noticed_across :
    let s : List UInt8 := [0x31, 0x32, 0x33, 0x34, 0x35]
    let t : List UInt8 := [0x31, 0xD2, 0xCC, 0x2B, 0x35]
    s.length = t.length ∧ s ≠ t ∧ IsBurst 16 s t ∧
      accumulate start s ≠ accumulate start t := by
  intro s t
  have hne : s ≠ t := by decide
  have hinside : ∀ i < 40, bitAt s i ≠ bitAt t i → 13 ≤ i ∧ i < 13 + 16 := by decide
  have hburst : IsBurst 16 s t := by
    refine ⟨13, fun i hi => ?_⟩
    by_cases h : i < 40
    · exact hinside i h hi
    · rw [bitAt_beyond (by simp only [s, List.length_cons, List.length_nil]; omega),
        bitAt_beyond (by simp only [t, List.length_cons, List.length_nil]; omega)] at hi
      exact absurd rfl hi
  exact ⟨rfl, hne, hburst, bursts_noticed.1 s t rfl hne hburst start⟩

/-- Seventeen bits in a row can cancel out: those of the polynomial with its leading one. -/
example : accumulate start [0x11, 0x08, 0x01] = accumulate start [0, 0, 0] := by decide

end DialectBindings.Checksum
