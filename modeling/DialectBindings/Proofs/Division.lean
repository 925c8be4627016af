import DialectBindings.Checksum
import Mathlib.Data.List.Basic

/-!
# The checksum as a division of bits

The register taken bit by bit: it moves down by one place, and the polynomial is added when the bit
that leaves it is not the bit that comes in. Registers and bits go in by exclusive or alone, so an
octet can be taken apart: the half of the register that it meets cancels as much of it, the other
half moves down, and what is left over is one of 256 octets for a register that is clear.
-/

set_option autoImplicit false

namespace DialectBindings.Checksum

/-- The polynomial, its lowest power in the highest bit. -/
def polynomial : UInt16 := 0x8408

def shiftBit (register : UInt16) (bit : Bool) : UInt16 :=
  if register.toNat.testBit 0 = bit then register >>> 1 else (register >>> 1) ^^^ polynomial

def bits (octet : UInt8) : List Bool := (List.range 8).map octet.toNat.testBit

def feed (register : UInt16) (bs : List Bool) : UInt16 := bs.foldl shiftBit register

/-- The register after octets that are fed to it bit by bit. -/
def divide (register : UInt16) (octets : List UInt8) : UInt16 := feed register (octets.flatMap bits)

/-- What a bit that differs adds to the register. -/
def added (differs : Bool) : UInt16 := if differs then polynomial else 0

theorem shiftBit_eq (register : UInt16) (bit : Bool) :
    shiftBit register bit = (register >>> 1) ^^^ added (register.toNat.testBit 0 ^^ bit) := by
  rw [shiftBit, added]
  cases register.toNat.testBit 0 <;> cases bit <;> simp

theorem added_xor (b c : Bool) : added (b ^^ c) = added b ^^^ added c := by
  cases b <;> cases c <;> decide

theorem shiftBit_xor (r s : UInt16) (b c : Bool) :
    shiftBit (r ^^^ s) (b ^^ c) = shiftBit r b ^^^ shiftBit s c := by
  have hshift : (r ^^^ s) >>> 1 = (r >>> 1) ^^^ (s >>> 1) := by
    apply UInt16.toBitVec_inj.1
    simp [BitVec.ushiftRight_xor_distrib]
  have hdiffers : ((r ^^^ s).toNat.testBit 0 ^^ (b ^^ c)) =
      ((r.toNat.testBit 0 ^^ b) ^^ (s.toNat.testBit 0 ^^ c)) := by
    rw [UInt16.toNat_xor, Nat.testBit_xor]
    simp only [Bool.xor_assoc, Bool.xor_left_comm]
  rw [shiftBit_eq, shiftBit_eq, shiftBit_eq, hshift, hdiffers, added_xor]
  ac_rfl

theorem feed_append (register : UInt16) (bs cs : List Bool) :
    feed register (bs ++ cs) = feed (feed register bs) cs :=
  List.foldl_append

theorem feed_xor (r s : UInt16) {bs cs : List Bool} (h : bs.length = cs.length) :
    feed (r ^^^ s) (List.zipWith xor bs cs) = feed r bs ^^^ feed s cs := by
  induction bs generalizing r s cs with
  | nil =>
    obtain rfl := List.eq_nil_of_length_eq_zero h.symm
    rfl
  | cons b bs ih =>
    cases cs with
    | nil => cases h
    | cons c cs =>
      change feed (shiftBit (r ^^^ s) (b ^^ c)) (List.zipWith xor bs cs) = _
      rw [shiftBit_xor, ih _ _ (Nat.succ.inj h)]
      rfl

@[simp] theorem bits_length (octet : UInt8) : (bits octet).length = 8 := rfl

theorem bits_xor (o p : UInt8) : bits (o ^^^ p) = List.zipWith xor (bits o) (bits p) := by
  rw [bits, bits, bits, List.zipWith_map, List.zipWith_self]
  refine List.map_congr_left fun i _ => ?_
  rw [UInt8.toNat_xor, Nat.testBit_xor]

theorem feed_bits_xor (r s : UInt16) (o p : UInt8) :
    feed (r ^^^ s) (bits (o ^^^ p)) = feed r (bits o) ^^^ feed s (bits p) := by
  rw [bits_xor, feed_xor r s (by simp)]

theorem forall_octets {p : UInt8 → Prop} (h : ∀ n < 256, p (UInt8.ofNat n)) (o : UInt8) : p o := by
  have := h o.toNat o.toNat_lt
  rwa [UInt8.ofNat_toNat] at this

theorem feed_low (o : UInt8) : feed o.toUInt16 (bits o) = 0 :=
  forall_octets (p := fun o => feed o.toUInt16 (bits o) = 0) (by decide +kernel) o

theorem feed_high (o : UInt8) : feed (o.toUInt16 <<< 8) (bits 0) = o.toUInt16 :=
  forall_octets (p := fun o => feed (o.toUInt16 <<< 8) (bits 0) = o.toUInt16) (by decide +kernel) o

theorem feed_clear (o : UInt8) : feed 0 (bits o) = step 0 o :=
  forall_octets (p := fun o => feed 0 (bits o) = step 0 o) (by decide +kernel) o

theorem halves (register : UInt16) :
    register = ((register >>> 8).toUInt8.toUInt16 <<< 8) ^^^ register.toUInt8.toUInt16 := by
  apply UInt16.toBitVec_inj.1
  apply BitVec.eq_of_getLsbD_eq
  intro i hi
  simp only [UInt16.toBitVec_xor, UInt16.toBitVec_shiftLeft, UInt8.toBitVec_toUInt16,
    UInt16.toBitVec_toUInt8, UInt16.toBitVec_shiftRight, BitVec.getLsbD_xor]
  by_cases hlow : i < 8
  · simp [hi, hlow]
  · have hplace : 8 + (i - 8) = i := by omega
    have hlt : i - 8 < 8 := by omega
    simp [hi, hlow, hplace, hlt]

theorem step_eq (register : UInt16) (o : UInt8) :
    step register o = (register >>> 8).toUInt8.toUInt16 ^^^ step 0 (o ^^^ register.toUInt8) := by
  have hhigh : (register >>> 8).toUInt8.toUInt16 = register >>> 8 := by
    apply UInt16.toNat_inj.1
    have := register.toNat_lt
    simp [Nat.shiftRight_eq_div_pow]
    omega
  have hshift : (0 : UInt16) >>> 8 = 0 := rfl
  have hlow : (0 : UInt16).toUInt8 = 0 := rfl
  simp only [step, hhigh, hshift, hlow, UInt8.xor_zero, UInt16.zero_xor, UInt16.xor_assoc]

/-- An octet that is folded in by halves is fed bit by bit. -/
theorem step_feed (register : UInt16) (o : UInt8) : step register o = feed register (bits o) := by
  let high := (register >>> 8).toUInt8
  let low := register.toUInt8
  have hr : register = (high.toUInt16 <<< 8) ^^^ (low.toUInt16 ^^^ 0) := by
    rw [UInt16.xor_zero]
    exact halves register
  have ho : o = 0 ^^^ (low ^^^ (o ^^^ low)) := by
    rw [UInt8.zero_xor, UInt8.xor_comm o, ← UInt8.xor_assoc, UInt8.xor_self, UInt8.zero_xor]
  calc step register o = high.toUInt16 ^^^ (0 ^^^ step 0 (o ^^^ low)) := by
        rw [UInt16.zero_xor]
        exact step_eq register o
    _ = feed ((high.toUInt16 <<< 8) ^^^ (low.toUInt16 ^^^ 0))
        (bits (0 ^^^ (low ^^^ (o ^^^ low)))) := by
      rw [feed_bits_xor, feed_bits_xor, feed_high, feed_low, feed_clear]
    _ = feed register (bits o) := by rw [← hr, ← ho]

theorem accumulate_divide (register : UInt16) (octets : List UInt8) :
    accumulate register octets = divide register octets := by
  induction octets generalizing register with
  | nil => rfl
  | cons o octets ih =>
    change accumulate (step register o) octets = _
    rw [ih, step_feed, divide, divide, List.flatMap_cons, feed_append]

/-- However octets are cut into chunks, the register divides them bit by bit by the polynomial, from
the ones that it holds at first and from whatever else it may hold. -/
theorem accumulate_chunks (chunks : List (List UInt8)) :
    chunks.foldl accumulate start = divide 0xFFFF chunks.flatten ∧
      ∀ register, chunks.foldl accumulate register = divide register chunks.flatten := by
  have hall (register : UInt16) :
      chunks.foldl accumulate register = divide register chunks.flatten := by
    induction chunks generalizing register with
    | nil => rfl
    | cons chunk chunks ih =>
      rw [List.foldl_cons, ih, List.flatten_cons, ← accumulate_divide, ← accumulate_divide,
        accumulate_append]
  exact ⟨hall start, hall⟩

end DialectBindings.Checksum
