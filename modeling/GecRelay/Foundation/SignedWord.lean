import Mathlib.Algebra.Order.Ring.Abs
import Mathlib.Data.Int.Order.Basic

/-!
# Signed machine words as integers

`Int64` and `Int32` wrap around. As long as a result fits, sums, differences,
products and left shifts are those of the integers; a right shift is a division
that rounds down, and a mask of low bits is a remainder.
-/

namespace GecRelay.Foundation

theorem bmod_of_abs_lt {v : ℤ} (k : ℕ) (h : |v| < 2 ^ k) : v.bmod (2 ^ (k + 1)) = v := by
  obtain ⟨hlo, hhi⟩ := abs_lt.mp h
  have htwo : ((2 ^ (k + 1) : ℕ) : ℤ) = 2 * 2 ^ k := by
    rw [pow_succ, mul_comm]
    exact_mod_cast rfl
  refine Int.bmod_eq_of_le ?_ ?_
  · rw [htwo, Int.mul_ediv_cancel_left _ two_ne_zero]
    exact hlo.le
  · rw [htwo]
    omega

theorem toInt_shl {w : ℕ} (x : BitVec w) (k : ℕ) :
    (x <<< k).toInt = (x.toInt * 2 ^ k).bmod (2 ^ w) := by
  rw [BitVec.toInt_shiftLeft, BitVec.toInt_eq_toNat_bmod, Int.bmod_mul_bmod, Nat.shiftLeft_eq]
  congr 1

/-- A mask of the low bits is a remainder. -/
theorem toInt_mask {w k : ℕ} (x : BitVec (w + 1)) (hk : k < w) :
    (x &&& BitVec.ofNat (w + 1) (2 ^ k - 1)).toInt = x.toInt % 2 ^ k := by
  have hpow : 2 * 2 ^ k ≤ 2 ^ w := by
    rw [← pow_succ']
    exact Nat.pow_le_pow_right (by decide) hk
  have htop : 2 ^ (w + 1) = 2 * 2 ^ w := pow_succ' 2 w
  have hpos : 0 < 2 ^ k := Nat.two_pow_pos k
  have hlt := Nat.mod_lt x.toNat hpos
  have hnat : (x &&& BitVec.ofNat (w + 1) (2 ^ k - 1)).toNat = x.toNat % 2 ^ k := by
    rw [BitVec.toNat_and, BitVec.toNat_ofNat, Nat.mod_eq_of_lt (by omega),
      Nat.and_two_pow_sub_one_eq_mod]
  have hdvd : ((2 : ℤ) ^ k) ∣ ((2 ^ (w + 1) : ℕ) : ℤ) := by
    exact_mod_cast pow_dvd_pow 2 (by omega)
  have hsame : x.toInt % 2 ^ k = x.toNat % 2 ^ k := by
    have hword : x.toInt % ((2 ^ (w + 1) : ℕ) : ℤ) = x.toNat % ((2 ^ (w + 1) : ℕ) : ℤ) := by
      rw [BitVec.toInt_eq_toNat_bmod]
      exact Int.bmod_emod
    rw [← Int.emod_emod_of_dvd x.toInt hdvd, hword, Int.emod_emod_of_dvd _ hdvd]
  rw [hsame, BitVec.toInt_eq_toNat_of_lt (by omega), hnat]
  exact_mod_cast rfl

/-! ## Sixty-four bits -/

section Int64

variable {a b : Int64}

theorem int64_add (h : |a.toInt + b.toInt| < 2 ^ 63) : (a + b).toInt = a.toInt + b.toInt := by
  rw [Int64.toInt_add]
  exact bmod_of_abs_lt 63 h

theorem int64_sub (h : |a.toInt - b.toInt| < 2 ^ 63) : (a - b).toInt = a.toInt - b.toInt := by
  rw [Int64.toInt_sub]
  exact bmod_of_abs_lt 63 h

theorem int64_mul (h : |a.toInt * b.toInt| < 2 ^ 63) : (a * b).toInt = a.toInt * b.toInt := by
  rw [Int64.toInt_mul]
  exact bmod_of_abs_lt 63 h

theorem int64_ofInt {v : ℤ} (h : |v| < 2 ^ 63) : (Int64.ofInt v).toInt = v := by
  rw [Int64.toInt_ofInt]
  exact bmod_of_abs_lt 63 h

theorem shift64 : ∀ k < 64, ((Int64.ofNat k).toBitVec.smod 64).toNat = k := by
  decide

theorem int64_shl {k : ℕ} (hk : k < 64) (h : |a.toInt * 2 ^ k| < 2 ^ 63) :
    (a <<< Int64.ofNat k).toInt = a.toInt * 2 ^ k := by
  rw [← Int64.toInt_toBitVec, Int64.toBitVec_shiftLeft, BitVec.shiftLeft_eq', shift64 k hk,
    toInt_shl, Int64.toInt_toBitVec]
  exact bmod_of_abs_lt 63 h

theorem int64_sar (a : Int64) {k : ℕ} (hk : k < 64) :
    (a >>> Int64.ofNat k).toInt = a.toInt / 2 ^ k := by
  rw [← Int64.toInt_toBitVec, Int64.toBitVec_shiftRight, BitVec.sshiftRight_eq', shift64 k hk,
    BitVec.toInt_sshiftRight, Int.shiftRight_eq_div_pow, Int64.toInt_toBitVec]
  exact_mod_cast rfl

theorem int64_mask (a : Int64) {k : ℕ} (hk : k < 63) :
    (a &&& Int64.ofNat (2 ^ k - 1)).toInt = a.toInt % 2 ^ k := by
  rw [← Int64.toInt_toBitVec, Int64.toBitVec_and, Int64.toBitVec_ofNat', toInt_mask _ hk,
    Int64.toInt_toBitVec]

end Int64

/-! ## Thirty-two bits -/

section Int32

variable {a b : Int32}

theorem int32_add (h : |a.toInt + b.toInt| < 2 ^ 31) : (a + b).toInt = a.toInt + b.toInt := by
  rw [Int32.toInt_add]
  exact bmod_of_abs_lt 31 h

theorem int32_sub (h : |a.toInt - b.toInt| < 2 ^ 31) : (a - b).toInt = a.toInt - b.toInt := by
  rw [Int32.toInt_sub]
  exact bmod_of_abs_lt 31 h

theorem int32_mul (h : |a.toInt * b.toInt| < 2 ^ 31) : (a * b).toInt = a.toInt * b.toInt := by
  rw [Int32.toInt_mul]
  exact bmod_of_abs_lt 31 h

theorem int32_neg (h : |a.toInt| < 2 ^ 31) : (-a).toInt = -a.toInt := by
  rw [Int32.toInt_neg]
  exact bmod_of_abs_lt 31 (by rwa [abs_neg])

theorem shift32 : ∀ k < 32, ((Int32.ofNat k).toBitVec.smod 32).toNat = k := by
  decide

theorem toBitVec_shl32 (a : Int32) {k : ℕ} (hk : k < 32) :
    (a <<< Int32.ofNat k).toBitVec = a.toBitVec <<< k := by
  rw [Int32.toBitVec_shiftLeft, BitVec.shiftLeft_eq', shift32 k hk]

theorem int32_shl {k : ℕ} (hk : k < 32) (h : |a.toInt * 2 ^ k| < 2 ^ 31) :
    (a <<< Int32.ofNat k).toInt = a.toInt * 2 ^ k := by
  rw [← Int32.toInt_toBitVec, toBitVec_shl32 a hk, toInt_shl, Int32.toInt_toBitVec]
  exact bmod_of_abs_lt 31 h

theorem int32_sar (a : Int32) {k : ℕ} (hk : k < 32) :
    (a >>> Int32.ofNat k).toInt = a.toInt / 2 ^ k := by
  rw [← Int32.toInt_toBitVec, Int32.toBitVec_shiftRight, BitVec.sshiftRight_eq', shift32 k hk,
    BitVec.toInt_sshiftRight, Int.shiftRight_eq_div_pow, Int32.toInt_toBitVec]
  exact_mod_cast rfl

/-- The sign of a word, spread over all its bits. -/
theorem int32_sign (a : Int32) : a >>> 31 = if a.toInt < 0 then -1 else 0 := by
  have hlo := Int32.le_toInt a
  have hhi := Int32.toInt_lt a
  have hsar : (a >>> 31).toInt = a.toInt / 2 ^ 31 := int32_sar a (by decide)
  rw [← Int32.toInt_inj, hsar]
  split
  · show a.toInt / 2 ^ 31 = -1
    omega
  · show a.toInt / 2 ^ 31 = 0
    omega

theorem int32_mask (a : Int32) {k : ℕ} (hk : k < 31) :
    (a &&& Int32.ofNat (2 ^ k - 1)).toInt = a.toInt % 2 ^ k := by
  rw [← Int32.toInt_toBitVec, Int32.toBitVec_and, Int32.toBitVec_ofNat', toInt_mask _ hk,
    Int32.toInt_toBitVec]

end Int32

end GecRelay.Foundation
