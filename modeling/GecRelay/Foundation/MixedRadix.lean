import Mathlib.Algebra.BigOperators.Intervals
import Mathlib.Algebra.BigOperators.Ring.Finset
import Mathlib.Algebra.Order.BigOperators.Group.Finset
import Mathlib.Algebra.Order.Ring.Abs
import Mathlib.Tactic.Ring

/-!
# Numbers in mixed radix

Limbs `x i` at the bit positions `w i` stand for `∑ x i * 2 ^ w i`, in any
commutative ring. A carry from one limb to the next leaves the value
(`radixValue_carry`), and the coefficients of a product are a convolution in
which the factor `c i j` makes up for positions that do not add
(`radixValue_convolve`). The digits of a number at the positions `w` are its
limbs (`radixValue_digits`).
-/

namespace GecRelay.Foundation

open Finset

section Value

variable {R : Type*} [CommSemiring R]

def radixValue (w : ℕ → ℕ) (n : ℕ) (x : ℕ → R) : R := ∑ i ∈ range n, x i * 2 ^ w i

theorem radixValue_congr {w : ℕ → ℕ} {n : ℕ} {x y : ℕ → R} (h : ∀ i < n, x i = y i) :
    radixValue w n x = radixValue w n y :=
  sum_congr rfl fun i hi => by rw [h i (mem_range.mp hi)]

theorem radixValue_add (w : ℕ → ℕ) (n : ℕ) (x y : ℕ → R) :
    radixValue w n (fun i => x i + y i) = radixValue w n x + radixValue w n y := by
  unfold radixValue
  rw [← sum_add_distrib]
  exact sum_congr rfl fun i _ => add_mul _ _ _

theorem radixValue_smul (w : ℕ → ℕ) (n : ℕ) (c : R) (x : ℕ → R) :
    radixValue w n (fun i => c * x i) = c * radixValue w n x := by
  unfold radixValue
  rw [mul_sum]
  exact sum_congr rfl fun i _ => mul_assoc _ _ _

theorem radixValue_succ (w : ℕ → ℕ) (n : ℕ) (x : ℕ → R) :
    radixValue w (n + 1) x = radixValue w n x + x n * 2 ^ w n := sum_range_succ _ _

theorem radixValue_one {w : ℕ → ℕ} (hzero : w 0 = 0) (x : ℕ → R) : radixValue w 1 x = x 0 := by
  unfold radixValue
  rw [sum_range_one, hzero, pow_zero, mul_one]

/-- The lower and the upper limbs. -/
theorem radixValue_split {w u : ℕ → ℕ} {m n : ℕ} (x : ℕ → R)
    (hu : ∀ i < n, w (m + i) = w m + u i) :
    radixValue w (m + n) x = radixValue w m x + 2 ^ w m * radixValue u n fun i => x (m + i) := by
  unfold radixValue
  rw [sum_range_add, mul_sum]
  congr 1
  refine sum_congr rfl fun i hi => ?_
  rw [hu i (mem_range.mp hi), pow_add]
  ring

theorem natCast_radixValue (w : ℕ → ℕ) (n : ℕ) (x : ℕ → ℕ) :
    ((radixValue w n x : ℕ) : R) = radixValue w n fun i => (x i : R) := by
  unfold radixValue
  rw [Nat.cast_sum]
  refine sum_congr rfl fun i _ => ?_
  rw [Nat.cast_mul, Nat.cast_pow, Nat.cast_ofNat]

end Value

section Carry

variable {R : Type*} [CommRing R]

theorem radixValue_sub (w : ℕ → ℕ) (n : ℕ) (x y : ℕ → R) :
    radixValue w n (fun i => x i - y i) = radixValue w n x - radixValue w n y := by
  unfold radixValue
  rw [← sum_sub_distrib]
  exact sum_congr rfl fun i _ => sub_mul _ _ _

/-- One limb changed. -/
theorem radixValue_change {w : ℕ → ℕ} {n k : ℕ} {x y : ℕ → R} (hk : k < n)
    (h : ∀ i < n, i ≠ k → y i = x i) :
    radixValue w n y = radixValue w n x + (y k - x k) * 2 ^ w k := by
  have hsplit : ∀ z : ℕ → R, radixValue w n z =
      z k * 2 ^ w k + ∑ i ∈ (range n).erase k, z i * 2 ^ w i :=
    fun z => (add_sum_erase _ _ (mem_range.mpr hk)).symm
  have hrest : ∑ i ∈ (range n).erase k, y i * 2 ^ w i = ∑ i ∈ (range n).erase k, x i * 2 ^ w i := by
    refine sum_congr rfl fun i hi => ?_
    obtain ⟨hne, hi⟩ := mem_erase.mp hi
    rw [h i (mem_range.mp hi) hne]
  rw [hsplit y, hsplit x, hrest]
  ring

/-- **A carry leaves the value.** -/
theorem radixValue_carry {w : ℕ → ℕ} {n k d : ℕ} {x y : ℕ → R} {c : R} (hk : k + 1 < n)
    (hw : w (k + 1) = w k + d) (hlow : y k = x k - c * 2 ^ d) (hhigh : y (k + 1) = x (k + 1) + c)
    (h : ∀ i < n, i ≠ k → i ≠ k + 1 → y i = x i) : radixValue w n y = radixValue w n x := by
  let z : ℕ → R := fun i => if i = k then y k else x i
  have hzk : z k = y k := if_pos rfl
  have hzx : ∀ i, i ≠ k → z i = x i := fun i hi => if_neg hi
  have hfirst := radixValue_change (w := w) (x := x) (y := z) (Nat.lt_of_succ_lt hk)
    fun i _ hi => hzx i hi
  have hsecond := radixValue_change (w := w) (x := z) (y := y) hk fun i hi hne => by
    by_cases hik : i = k
    · rw [hik, hzk]
    · rw [hzx i hik, h i hi hik hne]
  rw [hsecond, hfirst, hzk, hzx (k + 1) (Nat.succ_ne_self k), hlow, hhigh, hw]
  ring

/-- **Limbs beyond the end, folded back**, when `2 ^ d` is `c` in the ring. -/
theorem radixValue_wrap {w : ℕ → ℕ} {m n d : ℕ} {c : R} {x y : ℕ → R} (hm : m ≤ n)
    (hw : ∀ i < m, w (n + i) = w i + d) (hd : (2 : R) ^ d = c)
    (hlow : ∀ i < m, y i = x i + c * x (n + i)) (hhigh : ∀ i < n, m ≤ i → y i = x i) :
    radixValue w n y = radixValue w (n + m) x := by
  have hfold : ∑ i ∈ range m, x (n + i) * 2 ^ w (n + i) =
      ∑ i ∈ range n, (if i < m then c * x (n + i) else 0) * 2 ^ w i := by
    rw [← sum_subset (range_subset_range.mpr hm)]
    · refine sum_congr rfl fun i hi => ?_
      have him := mem_range.mp hi
      rw [if_pos him, hw i him, pow_add, hd]
      ring
    · intro i _ hi
      rw [if_neg (fun him => hi (mem_range.mpr him)), zero_mul]
  unfold radixValue
  rw [sum_range_add, hfold, ← sum_add_distrib]
  refine sum_congr rfl fun i hi => ?_
  by_cases him : i < m
  · rw [if_pos him, hlow i him, add_mul]
  · rw [if_neg him, hhigh i (mem_range.mp hi) (Nat.not_lt.mp him), zero_mul, add_zero]

theorem cast_radixValue (w : ℕ → ℕ) (n : ℕ) (x : ℕ → ℤ) :
    ((radixValue w n x : ℤ) : R) = radixValue w n fun i => (x i : R) := by
  unfold radixValue
  rw [Int.cast_sum]
  refine sum_congr rfl fun i _ => ?_
  rw [Int.cast_mul, Int.cast_pow, Int.cast_ofNat]

end Carry

/-! ## Products -/

section Product

variable {R : Type*} [CommRing R]

/-- Coefficient `k` of a product, weighted by `c`. -/
def convolve (c : ℕ → ℕ → R) (m : ℕ) (x y : ℕ → R) (k : ℕ) : R :=
  ∑ i ∈ range m, if i ≤ k ∧ k - i < m then c i (k - i) * (x i * y (k - i)) else 0

theorem radixValue_convolve {w : ℕ → ℕ} {c : ℕ → ℕ → R} {m n : ℕ} (x y : ℕ → R)
    (hn : 2 * m ≤ n + 1) (hc : ∀ i j, c i j * 2 ^ w (i + j) = 2 ^ w i * 2 ^ w j) :
    radixValue w n (convolve c m x y) = radixValue w m x * radixValue w m y := by
  have hinner : ∀ i ∈ range m,
      (∑ k ∈ range n, (if i ≤ k ∧ k - i < m then c i (k - i) * (x i * y (k - i)) else 0) * 2 ^ w k) =
        x i * 2 ^ w i * radixValue w m y := by
    intro i hi
    have him := mem_range.mp hi
    unfold radixValue
    rw [mul_sum]
    symm
    refine sum_of_injOn (fun j => i + j) ?_ ?_ ?_ ?_
    · exact fun j _ j' _ heq => Nat.add_left_cancel heq
    · intro j hj
      have hjm : j < m := mem_range.mp hj
      have hlt : i + j < n := by omega
      exact mem_coe.mpr (mem_range.mpr hlt)
    · intro k _ hk
      rw [if_neg, zero_mul]
      rintro ⟨hle, hlt⟩
      exact hk ⟨k - i, mem_coe.mpr (mem_range.mpr hlt), Nat.add_sub_cancel' hle⟩
    · intro j hj
      have hjm := mem_range.mp hj
      rw [if_pos ⟨Nat.le_add_right i j, by rwa [Nat.add_sub_cancel_left]⟩, Nat.add_sub_cancel_left]
      calc x i * 2 ^ w i * (y j * 2 ^ w j) = 2 ^ w i * 2 ^ w j * (x i * y j) := by ring
        _ = c i j * (x i * y j) * 2 ^ w (i + j) := by rw [← hc i j]; ring
  calc radixValue w n (convolve c m x y)
      = ∑ k ∈ range n, ∑ i ∈ range m,
          (if i ≤ k ∧ k - i < m then c i (k - i) * (x i * y (k - i)) else 0) * 2 ^ w k :=
        sum_congr rfl fun k _ => sum_mul _ _ _
    _ = ∑ i ∈ range m, x i * 2 ^ w i * radixValue w m y := by
        rw [sum_comm]
        exact sum_congr rfl hinner
    _ = radixValue w m x * radixValue w m y := (sum_mul _ _ _).symm

end Product

/-- A coefficient is no larger than the weights allow. -/
theorem abs_convolve_le {c : ℕ → ℕ → ℤ} {m k : ℕ} {x y : ℕ → ℤ} {a b : ℤ}
    (hc : ∀ i j, 0 ≤ c i j) (hx : ∀ i < m, |x i| ≤ a) (hy : ∀ i < m, |y i| ≤ b) :
    |convolve c m x y k| ≤
      (∑ i ∈ range m, if i ≤ k ∧ k - i < m then c i (k - i) else 0) * (a * b) := by
  unfold convolve
  refine (abs_sum_le_sum_abs _ _).trans ?_
  rw [sum_mul]
  refine sum_le_sum fun i hi => ?_
  split
  · next hk =>
      have hxi := hx i (mem_range.mp hi)
      have hprod : |x i| * |y (k - i)| ≤ a * b :=
        mul_le_mul hxi (hy _ hk.2) (abs_nonneg _) ((abs_nonneg _).trans hxi)
      rw [abs_mul, abs_mul, abs_of_nonneg (hc _ _)]
      exact mul_le_mul_of_nonneg_left hprod (hc _ _)
  · rw [abs_zero, zero_mul]

/-! ## Digits -/

section Digits

variable {w : ℕ → ℕ} (hmono : ∀ i, w i ≤ w (i + 1))

include hmono

/-- The digits of a number are its limbs. -/
theorem radixValue_digits (hzero : w 0 = 0) (N n : ℕ) :
    radixValue w n (fun i => N / 2 ^ w i % 2 ^ (w (i + 1) - w i)) = N % 2 ^ w n := by
  induction n with
  | zero =>
      rw [hzero, pow_zero, Nat.mod_one]
      rfl
  | succ n ih =>
      have hsplit : 2 ^ w (n + 1) = 2 ^ w n * 2 ^ (w (n + 1) - w n) := by
        rw [← pow_add, Nat.add_sub_cancel' (hmono n)]
      rw [radixValue_succ, ih, hsplit, Nat.mod_mul, Nat.mul_comm]

theorem radixValue_lt {x : ℕ → ℕ} {n : ℕ} (hx : ∀ i < n, x i < 2 ^ (w (i + 1) - w i)) :
    radixValue w n x < 2 ^ w n := by
  induction n with
  | zero => exact Nat.two_pow_pos _
  | succ n ih =>
      have hlow := ih fun i hi => hx i (Nat.lt_succ_of_lt hi)
      have hsplit : 2 ^ w (n + 1) = 2 ^ w n * 2 ^ (w (n + 1) - w n) := by
        rw [← pow_add, Nat.add_sub_cancel' (hmono n)]
      have htop : (x n + 1) * 2 ^ w n ≤ 2 ^ (w (n + 1) - w n) * 2 ^ w n :=
        Nat.mul_le_mul_right _ (hx n (Nat.lt_succ_self n))
      calc radixValue w (n + 1) x = radixValue w n x + x n * 2 ^ w n := radixValue_succ w n x
        _ < 2 ^ w n + x n * 2 ^ w n := Nat.add_lt_add_right hlow _
        _ = (x n + 1) * 2 ^ w n := by ring
        _ ≤ 2 ^ w (n + 1) := by rw [hsplit, Nat.mul_comm (2 ^ w n)]; exact htop

end Digits

end GecRelay.Foundation
