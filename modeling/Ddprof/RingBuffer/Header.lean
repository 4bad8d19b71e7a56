import Ddprof.RingBuffer.Basic
import Mathlib.Data.Nat.Bitwise

/-!
Sizes and header words of ring buffers.

The space of a sample is its size and the size of its header, rounded up to the
alignment. A header word is the size of the sample below two flags, and each bit
operation of the code sets, clears or tests one of them.
-/

namespace Ddprof

/-! ### Sizes -/

theorem u64_of_lt {x : ℕ} (h : x < 2 ^ 64) : u64 x = x := by
  rw [u64, Nat.mod_eq_of_lt h]

/-- Rounding up runs over the end of the type for the largest numbers. -/
theorem alignUp_eight_eq_u64 {x : ℕ} (hx : x < 2 ^ 64) : alignUp x 8 = u64 ((x + 7) / 8 * 8) := by
  rcases Nat.eq_zero_or_pos x with rfl | hpos
  · decide +kernel
  have hsub : u64 (x + 2 ^ 64 - 1) = x - 1 := by
    rw [u64, show x + 2 ^ 64 - 1 = x - 1 + 2 ^ 64 by omega, Nat.add_mod_right]
    exact Nat.mod_eq_of_lt (by omega)
  have hor : (x - 1) ||| (8 - 1) = (x - 1) / 8 * 8 + 7 := by
    have h := Nat.two_pow_add_eq_or_of_lt (i := 3) (b := 7) (by norm_num) ((x - 1) / 8)
    have hsplit : (x - 1) = 2 ^ 3 * ((x - 1) / 8) ||| (x - 1) % 8 := by
      rw [← Nat.two_pow_add_eq_or_of_lt (Nat.mod_lt _ (by norm_num))]
      omega
    have hlow : (x - 1) % 8 ||| 7 = 7 := by
      have : (x - 1) % 8 < 8 := Nat.mod_lt _ (by norm_num)
      interval_cases (x - 1) % 8 <;> rfl
    calc (x - 1) ||| (8 - 1) = (2 ^ 3 * ((x - 1) / 8) ||| (x - 1) % 8) ||| 7 := by rw [← hsplit]
      _ = 2 ^ 3 * ((x - 1) / 8) ||| 7 := by rw [Nat.or_assoc, hlow]
      _ = (x - 1) / 8 * 8 + 7 := by rw [← h]; ring
  rw [alignUp, hsub, hor]
  congr 1
  omega

theorem alignUp_eight {x : ℕ} (hx : x < 2 ^ 63) : alignUp x 8 = (x + 7) / 8 * 8 := by
  rw [alignUp_eight_eq_u64 (by omega), u64_of_lt (by omega)]

theorem alignUp_of_dvd {x : ℕ} (hx : x < 2 ^ 63) (hdvd : 8 ∣ x) :
    alignUp x ringBufferAlignment = x := by
  rw [ringBufferAlignment, alignUp_eight hx]
  omega

theorem sampleSpace_eq {n : ℕ} (hn : n < 2 ^ 62) : sampleSpace n = (n + 15) / 8 * 8 := by
  rw [sampleSpace, MpscHeader.sizeOf, ringBufferAlignment, u64_of_lt (by omega),
    alignUp_eight (by omega)]

/-! ### Header words -/

namespace MpscHeader

/-- The two flags as the two highest bits. -/
def flags (busy discarded : Bool) : ℕ := 2 * busy.toNat + discarded.toNat

def encode (size : ℕ) (busy discarded : Bool) : ℕ := 2 ^ 62 * flags busy discarded + size

variable {size : ℕ} {busy discarded : Bool}

section Bits

variable (hs : size < 2 ^ 62) (f c : ℕ)
include hs

theorem word_or : (2 ^ 62 * f + size) ||| 2 ^ 62 * c = 2 ^ 62 * (f ||| c) + size := by
  refine Nat.eq_of_testBit_eq fun i => ?_
  rw [Nat.testBit_or, Nat.testBit_two_pow_mul_add _ hs, Nat.testBit_two_pow_mul_add _ hs,
    Nat.testBit_two_pow_mul]
  split_ifs with hi
  · simp [Nat.not_le.mpr hi]
  · simp [Nat.testBit_or, Nat.not_lt.mp hi]

theorem word_xor : (2 ^ 62 * f + size) ^^^ 2 ^ 62 * c = 2 ^ 62 * (f ^^^ c) + size := by
  refine Nat.eq_of_testBit_eq fun i => ?_
  rw [Nat.testBit_xor, Nat.testBit_two_pow_mul_add _ hs, Nat.testBit_two_pow_mul_add _ hs,
    Nat.testBit_two_pow_mul]
  split_ifs with hi
  · simp [Nat.not_le.mpr hi]
  · simp [Nat.testBit_xor, Nat.not_lt.mp hi]

theorem word_and : (2 ^ 62 * f + size) &&& 2 ^ 62 * c = 2 ^ 62 * (f &&& c) := by
  refine Nat.eq_of_testBit_eq fun i => ?_
  rw [Nat.testBit_and, Nat.testBit_two_pow_mul_add _ hs, Nat.testBit_two_pow_mul,
    Nat.testBit_two_pow_mul]
  split_ifs with hi
  · simp [Nat.not_le.mpr hi]
  · simp [Nat.testBit_and, Nat.not_lt.mp hi]

theorem word_and_low :
    (2 ^ 62 * f + size) &&& (2 ^ 62 * c + (2 ^ 62 - 1)) = 2 ^ 62 * (f &&& c) + size := by
  refine Nat.eq_of_testBit_eq fun i => ?_
  rw [Nat.testBit_and, Nat.testBit_two_pow_mul_add _ hs,
    Nat.testBit_two_pow_mul_add _ (by norm_num), Nat.testBit_two_pow_mul_add _ hs,
    Nat.testBit_two_pow_sub_one]
  split_ifs with hi
  · simp [hi]
  · rw [Nat.testBit_and]

end Bits

theorem discardBit_eq : discardBit = 2 ^ 62 * 1 := rfl

theorem busyBit_eq : busyBit = 2 ^ 62 * 2 := rfl

theorem encode_lt (hs : size < 2 ^ 62) : encode size busy discarded < 2 ^ 64 := by
  have : flags busy discarded ≤ 3 := by cases busy <;> cases discarded <;> decide
  rw [encode]
  omega

theorem isBusy_encode (hs : size < 2 ^ 62) : isBusy (encode size busy discarded) = busy := by
  rw [isBusy, encode, busyBit_eq, word_and hs]
  cases busy <;> cases discarded <;> rfl

theorem isDiscarded_encode (hs : size < 2 ^ 62) :
    isDiscarded (encode size busy discarded) = discarded := by
  rw [isDiscarded, encode, discardBit_eq, word_and hs]
  cases busy <;> cases discarded <;> rfl

theorem or_busyBit (hs : size < 2 ^ 62) : size ||| busyBit = encode size true false := by
  have h := word_or hs 0 2
  rwa [Nat.mul_zero, Nat.zero_add] at h

theorem xor_busyBit (hs : size < 2 ^ 62) :
    encode size true discarded ^^^ busyBit = encode size false discarded := by
  rw [encode, encode, busyBit_eq, word_xor hs]
  cases discarded <;> rfl

theorem encode_or_discardBit (hs : size < 2 ^ 62) :
    encode size busy discarded ||| discardBit = encode size busy true := by
  rw [encode, encode, discardBit_eq, word_or hs]
  cases busy <;> cases discarded <;> rfl

theorem getSize_encode (hs : size < 2 ^ 62) : getSize (encode size false discarded) = size := by
  rw [getSize, encode, show 2 ^ 64 - 1 - discardBit = 2 ^ 62 * 2 + (2 ^ 62 - 1) from rfl,
    word_and_low hs]
  cases discarded <;> simp [flags]

end MpscHeader

end Ddprof
