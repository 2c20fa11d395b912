import MultiKeyFHE.Library.BitReversal
import Mathlib.Data.Int.ModEq
import Mathlib.Data.Nat.Bitwise
import Mathlib.Tactic.IntervalCases

/-!
# `ReverseBits`

The bit reversal of `nbtheory.h`: bytes are reversed by a table, put in the opposite order and shifted into
place. All of this happens in `int`. With four bytes the highest one reaches the sign bit, so for an odd number the
last shift brings in ones from above.
-/

namespace MultiKeyFHE.NbTheory

def reverseByteTable : List ℕ := [
  0x00, 0x80, 0x40, 0xc0, 0x20, 0xa0, 0x60, 0xe0, 0x10, 0x90, 0x50, 0xd0, 0x30, 0xb0, 0x70, 0xf0, 0x08, 0x88,
  0x48, 0xc8, 0x28, 0xa8, 0x68, 0xe8, 0x18, 0x98, 0x58, 0xd8, 0x38, 0xb8, 0x78, 0xf8, 0x04, 0x84, 0x44, 0xc4,
  0x24, 0xa4, 0x64, 0xe4, 0x14, 0x94, 0x54, 0xd4, 0x34, 0xb4, 0x74, 0xf4, 0x0c, 0x8c, 0x4c, 0xcc, 0x2c, 0xac,
  0x6c, 0xec, 0x1c, 0x9c, 0x5c, 0xdc, 0x3c, 0xbc, 0x7c, 0xfc, 0x02, 0x82, 0x42, 0xc2, 0x22, 0xa2, 0x62, 0xe2,
  0x12, 0x92, 0x52, 0xd2, 0x32, 0xb2, 0x72, 0xf2, 0x0a, 0x8a, 0x4a, 0xca, 0x2a, 0xaa, 0x6a, 0xea, 0x1a, 0x9a,
  0x5a, 0xda, 0x3a, 0xba, 0x7a, 0xfa, 0x06, 0x86, 0x46, 0xc6, 0x26, 0xa6, 0x66, 0xe6, 0x16, 0x96, 0x56, 0xd6,
  0x36, 0xb6, 0x76, 0xf6, 0x0e, 0x8e, 0x4e, 0xce, 0x2e, 0xae, 0x6e, 0xee, 0x1e, 0x9e, 0x5e, 0xde, 0x3e, 0xbe,
  0x7e, 0xfe, 0x01, 0x81, 0x41, 0xc1, 0x21, 0xa1, 0x61, 0xe1, 0x11, 0x91, 0x51, 0xd1, 0x31, 0xb1, 0x71, 0xf1,
  0x09, 0x89, 0x49, 0xc9, 0x29, 0xa9, 0x69, 0xe9, 0x19, 0x99, 0x59, 0xd9, 0x39, 0xb9, 0x79, 0xf9, 0x05, 0x85,
  0x45, 0xc5, 0x25, 0xa5, 0x65, 0xe5, 0x15, 0x95, 0x55, 0xd5, 0x35, 0xb5, 0x75, 0xf5, 0x0d, 0x8d, 0x4d, 0xcd,
  0x2d, 0xad, 0x6d, 0xed, 0x1d, 0x9d, 0x5d, 0xdd, 0x3d, 0xbd, 0x7d, 0xfd, 0x03, 0x83, 0x43, 0xc3, 0x23, 0xa3,
  0x63, 0xe3, 0x13, 0x93, 0x53, 0xd3, 0x33, 0xb3, 0x73, 0xf3, 0x0b, 0x8b, 0x4b, 0xcb, 0x2b, 0xab, 0x6b, 0xeb,
  0x1b, 0x9b, 0x5b, 0xdb, 0x3b, 0xbb, 0x7b, 0xfb, 0x07, 0x87, 0x47, 0xc7, 0x27, 0xa7, 0x67, 0xe7, 0x17, 0x97,
  0x57, 0xd7, 0x37, 0xb7, 0x77, 0xf7, 0x0f, 0x8f, 0x4f, 0xcf, 0x2f, 0xaf, 0x6f, 0xef, 0x1f, 0x9f, 0x5f, 0xdf,
  0x3f, 0xbf, 0x7f, 0xff]

def reverseByte (x : ℕ) : ℕ := reverseByteTable.getD x 0

def shiftTrick : List ℕ := [0, 7, 6, 5, 4, 3, 2, 1]

/-- `x >> shift` for an `int` with the bits of `x`, converted to `usint`. -/
def shiftInt (x shift : ℕ) : ℕ := ((x : ℤ).bmod (2 ^ 32) / 2 ^ shift % 2 ^ 32).toNat

def reverseBits (num msb : ℕ) : ℕ :=
  let msbb := (msb >>> 3) + (if msb &&& 0x7 ≠ 0 then 1 else 0)
  let shift := shiftTrick.getD (msb &&& 0x7) 0
  match msbb with
  | 1 => shiftInt (reverseByte (num &&& 0xff)) shift
  | 2 => shiftInt (reverseByte (num &&& 0xff) <<< 8 ||| reverseByte ((num >>> 8) &&& 0xff)) shift
  | 3 => shiftInt (reverseByte (num &&& 0xff) <<< 16 ||| reverseByte ((num >>> 8) &&& 0xff) <<< 8 |||
      reverseByte ((num >>> 16) &&& 0xff)) shift
  | 4 => shiftInt (reverseByte (num &&& 0xff) <<< 24 ||| reverseByte ((num >>> 8) &&& 0xff) <<< 16 |||
      reverseByte ((num >>> 16) &&& 0xff) <<< 8 ||| reverseByte ((num >>> 24) &&& 0xff)) shift
  | _ => 2 ^ 32 - 1

theorem reverseByte_eq : ∀ x < 2 ^ 8, reverseByte x = BitReversal.reverseBits 8 x := by decide +kernel

theorem reverseByte_and (num : ℕ) : reverseByte (num &&& 0xff) = BitReversal.reverseBits 8 num := by
  have low : num &&& 0xff = num % 2 ^ 8 := Nat.and_two_pow_sub_one_eq_mod num 8
  rw [low, reverseByte_eq _ (Nat.mod_lt _ (by norm_num)), BitReversal.reverseBits_mod]

theorem shiftInt_mul {x y shift : ℕ} (h : x = y * 2 ^ shift) (small : x < 2 ^ 24) : shiftInt x shift = y := by
  have below : y ≤ x := by
    rw [h]
    exact Nat.le_mul_of_pos_right y (by positivity)
  have plain : (x : ℤ).bmod (2 ^ 32) = x := by
    refine Int.bmod_eq_of_le_mul_two ?_ ?_ <;> norm_num at small ⊢ <;> omega
  have shifted : (x : ℤ) / 2 ^ shift = y := by
    rw [h, Nat.cast_mul, Nat.cast_pow, Nat.cast_two]
    exact Int.mul_ediv_cancel _ (by positivity)
  have word : (y : ℤ) % 2 ^ 32 = y := by
    refine Int.emod_eq_of_lt (Int.natCast_nonneg y) ?_
    norm_num at small ⊢
    omega
  unfold shiftInt
  rw [plain, shifted, word]
  exact Int.toNat_natCast y

theorem shift_eq : ∀ msb < 25, 1 ≤ msb → (msb >>> 3) + (if msb &&& 0x7 ≠ 0 then 1 else 0) = (msb + 7) / 8 ∧
    shiftTrick.getD (msb &&& 0x7) 0 = 8 * ((msb + 7) / 8) - msb := by decide

/-- The reversed bytes in the opposite order, cut to the bits asked for. -/
theorem shiftInt_reversed {bits num msb : ℕ} (hnum : num < 2 ^ msb) (le : msb ≤ bits) (small : bits ≤ 24) :
    shiftInt (BitReversal.reverseBits bits num) (bits - msb) = BitReversal.reverseBits msb num := by
  refine shiftInt_mul ?_ ?_
  · rw [← BitReversal.reverseBits_of_lt hnum, Nat.add_sub_cancel' le]
  · exact (BitReversal.reverseBits_lt bits num).trans_le (Nat.pow_le_pow_right (by norm_num) small)

theorem reverseBits_two_bytes (num : ℕ) :
    BitReversal.reverseBits 8 num <<< 8 ||| BitReversal.reverseBits 8 (num >>> 8) = BitReversal.reverseBits 16 num := by
  rw [← Nat.shiftLeft_add_eq_or_of_lt (BitReversal.reverseBits_lt 8 _), Nat.shiftLeft_eq, Nat.shiftRight_eq_div_pow]
  exact (BitReversal.reverseBits_add 8 8 num).symm

theorem reverseBits_three_bytes (num : ℕ) :
    BitReversal.reverseBits 8 num <<< 16 ||| BitReversal.reverseBits 8 (num >>> 8) <<< 8 |||
      BitReversal.reverseBits 8 (num >>> 16) = BitReversal.reverseBits 24 num := by
  rw [show 16 = 8 + 8 from rfl, Nat.shiftLeft_add, ← Nat.shiftLeft_or_distrib, reverseBits_two_bytes,
    ← Nat.shiftLeft_add_eq_or_of_lt (BitReversal.reverseBits_lt 8 _), Nat.shiftLeft_eq, Nat.shiftRight_eq_div_pow]
  exact (BitReversal.reverseBits_add 16 8 num).symm

theorem reverseBits_eq {num msb : ℕ} (one : 1 ≤ msb) (small : msb ≤ 24) (hnum : num < 2 ^ msb) :
    reverseBits num msb = BitReversal.reverseBits msb num := by
  obtain ⟨bytes, shift⟩ := shift_eq msb (by omega) one
  unfold reverseBits
  simp only [bytes, shift, reverseByte_and, reverseBits_two_bytes, reverseBits_three_bytes]
  obtain h | h | h : (msb + 7) / 8 = 1 ∨ (msb + 7) / 8 = 2 ∨ (msb + 7) / 8 = 3 := by omega
  all_goals
    simp only [h]
    exact shiftInt_reversed hnum (by omega) (by norm_num)

/-- From 25 bits on the reversal of one is not even a number of that many bits. -/
theorem le_reverseBits_one {msb : ℕ} (large : 25 ≤ msb) (fits : msb ≤ 31) : 2 ^ msb ≤ reverseBits 1 msb := by
  interval_cases msb <;> decide

end MultiKeyFHE.NbTheory
