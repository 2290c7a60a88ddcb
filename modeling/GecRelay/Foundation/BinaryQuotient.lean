import Mathlib.RingTheory.AdjoinRoot
import Mathlib.Algebra.Polynomial.BigOperators
import Mathlib.Algebra.Field.ZMod

/-!
# Binary polynomials modulo a polynomial

Strings of bits as elements of `(ZMod 2)[X]` modulo a polynomial `g`: the
element with the coefficients `c` below `n` is `bitSum g n c`. Exclusive or is
addition, and when `g` is monic of degree `n` the bits can be read back, so an
equation in the quotient ring is one of bit strings.
-/

namespace GecRelay.Foundation

open Polynomial Finset

/-- A bit as a coefficient. -/
def bitCoeff (b : Bool) : ZMod 2 := if b then 1 else 0

theorem bitCoeff_xor (a b : Bool) : bitCoeff (a ^^ b) = bitCoeff a + bitCoeff b := by
  cases a <;> cases b <;> decide

theorem bitCoeff_injective : Function.Injective bitCoeff := by
  intro a b h
  cases a <;> cases b <;> first | rfl | exact absurd h (by decide)

noncomputable def bitPoly (n : ℕ) (c : ℕ → Bool) : (ZMod 2)[X] :=
  ∑ i ∈ range n, C (bitCoeff (c i)) * X ^ i

theorem coeff_bitPoly (n : ℕ) (c : ℕ → Bool) (k : ℕ) :
    (bitPoly n c).coeff k = if k < n then bitCoeff (c k) else 0 := by
  unfold bitPoly
  rw [finsetSum_coeff]
  simp only [coeff_C_mul_X_pow]
  rw [Finset.sum_ite_eq]
  simp only [mem_range]

theorem degree_bitPoly_lt (n : ℕ) (c : ℕ → Bool) : (bitPoly n c).degree < n := by
  rw [degree_lt_iff_coeff_zero]
  intro k hk
  rw [coeff_bitPoly, if_neg (by omega)]

variable (g : (ZMod 2)[X])

noncomputable def bitSum (n : ℕ) (c : ℕ → Bool) : AdjoinRoot g :=
  AdjoinRoot.mk g (bitPoly n c)

variable {g}

theorem add_self_quotient (x : AdjoinRoot g) : x + x = 0 := by
  obtain ⟨p, rfl⟩ := AdjoinRoot.mk_surjective x
  rw [← map_add, CharTwo.add_self_eq_zero, map_zero]

theorem eq_of_add_eq_zero_quotient {x y : AdjoinRoot g} (h : x + y = 0) : x = y := by
  calc x = x + (y + y) := by rw [add_self_quotient, add_zero]
    _ = y := by rw [← add_assoc, h, zero_add]

theorem bitSum_eq_sum (n : ℕ) (c : ℕ → Bool) :
    bitSum g n c = ∑ i ∈ range n, if c i then AdjoinRoot.root g ^ i else 0 := by
  unfold bitSum bitPoly
  rw [map_sum]
  refine sum_congr rfl fun i _ => ?_
  cases hc : c i <;> simp [bitCoeff]

theorem bitSum_congr {n : ℕ} {c d : ℕ → Bool} (h : ∀ i < n, c i = d i) :
    bitSum g n c = bitSum g n d := by
  rw [bitSum_eq_sum, bitSum_eq_sum]
  refine sum_congr rfl fun i hi => ?_
  rw [h i (mem_range.mp hi)]

theorem bitSum_xor (n : ℕ) (c d : ℕ → Bool) :
    bitSum g n (fun i => c i ^^ d i) = bitSum g n c + bitSum g n d := by
  unfold bitSum
  rw [← map_add]
  congr 1
  ext k
  rw [coeff_add, coeff_bitPoly, coeff_bitPoly, coeff_bitPoly]
  by_cases hk : k < n
  · rw [if_pos hk, if_pos hk, if_pos hk, bitCoeff_xor]
  · rw [if_neg hk, if_neg hk, if_neg hk, add_zero]

theorem bitSum_false (n : ℕ) : bitSum g n (fun _ => false) = 0 := by
  rw [bitSum_eq_sum]
  simp

/-- The low `m` coefficients and the rest. -/
theorem bitSum_add (m n : ℕ) (c : ℕ → Bool) :
    bitSum g (m + n) c =
      bitSum g m c + AdjoinRoot.root g ^ m * bitSum g n (fun i => c (m + i)) := by
  rw [bitSum_eq_sum, bitSum_eq_sum, bitSum_eq_sum, sum_range_add, mul_sum]
  congr 1
  refine sum_congr rfl fun i _ => ?_
  cases hc : c (m + i) <;> simp [pow_add]

/-- The coefficients in groups of `w`. -/
theorem bitSum_groups (w k : ℕ) (c : ℕ → Bool) :
    bitSum g (w * k) c =
      ∑ i ∈ range k, AdjoinRoot.root g ^ (w * i) * bitSum g w (fun j => c (w * i + j)) := by
  induction k with
  | zero => simp [bitSum_eq_sum]
  | succ k ih => rw [Nat.mul_succ, bitSum_add, sum_range_succ, ih]

theorem bitSum_and (n : ℕ) (b : Bool) (c : ℕ → Bool) :
    bitSum g n (fun i => b && c i) = if b then bitSum g n c else 0 := by
  cases b with
  | false => simpa using bitSum_false n
  | true => simp

/-- Coefficients that end below `m`. -/
theorem bitSum_below {m n : ℕ} (hmn : m ≤ n) (c : ℕ → Bool) :
    bitSum g n (fun i => decide (i < m) && c i) = bitSum g m c := by
  obtain ⟨k, rfl⟩ := Nat.exists_eq_add_of_le hmn
  rw [bitSum_add]
  have hlow : bitSum g m (fun i => decide (i < m) && c i) = bitSum g m c :=
    bitSum_congr fun i hi => by simp [hi]
  have hhigh : bitSum g k (fun i => decide (m + i < m) && c (m + i)) = 0 := by
    simpa using bitSum_false k
  rw [hlow, hhigh, mul_zero, add_zero]

/-- **Multiplication by a power of the root**: the coefficients move up, and
the ones that leave come back as a multiple of the `n`-th power. -/
theorem root_pow_mul_bitSum {k n : ℕ} (hkn : k ≤ n) (c : ℕ → Bool) :
    AdjoinRoot.root g ^ k * bitSum g n c =
      bitSum g n (fun i => decide (k ≤ i) && c (i - k)) +
        AdjoinRoot.root g ^ n * bitSum g k (fun i => c (n - k + i)) := by
  have hup : bitSum g (k + n) (fun i => decide (k ≤ i) && c (i - k)) =
      AdjoinRoot.root g ^ k * bitSum g n c := by
    have hnone : bitSum g k (fun i => decide (k ≤ i) && c (i - k)) = 0 := by
      rw [bitSum_congr (d := fun _ => false) fun i hi => by simp [Nat.not_le.mpr hi]]
      exact bitSum_false k
    rw [bitSum_add, hnone, zero_add]
    simp
  rw [← hup, Nat.add_comm k n, bitSum_add]
  congr 2
  refine bitSum_congr fun i _ => ?_
  have hle : k ≤ n + i := by omega
  simp only [hle, decide_true, Bool.true_and]
  congr 1
  omega

/-- **The bits can be read back**: below the degree of a monic modulus, equal
elements have equal coefficients. -/
theorem bitSum_inj {n : ℕ} (hg : g.Monic) (hn : g.natDegree = n) {c d : ℕ → Bool}
    (h : bitSum g n c = bitSum g n d) : ∀ i < n, c i = d i := by
  have hdeg : (bitPoly n c - bitPoly n d).degree < g.degree := by
    rw [degree_eq_natDegree hg.ne_zero, hn]
    exact (degree_sub_le _ _).trans_lt (max_lt (degree_bitPoly_lt n c) (degree_bitPoly_lt n d))
  have hdvd : g ∣ bitPoly n c - bitPoly n d := AdjoinRoot.mk_eq_mk.mp h
  have hzero : bitPoly n c - bitPoly n d = 0 := by
    by_contra hne
    exact hg.not_dvd_of_degree_lt hne hdeg hdvd
  intro i hi
  have hcoeff := congrArg (fun p => Polynomial.coeff p i) (sub_eq_zero.mp hzero)
  simp only [coeff_bitPoly, if_pos hi] at hcoeff
  exact bitCoeff_injective hcoeff

end GecRelay.Foundation
