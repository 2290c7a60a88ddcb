import GecRelay.Foundation.BinaryQuotient
import Mathlib.FieldTheory.Finite.Extension
import Mathlib.Data.Nat.Bitwise

/-!
# Fields of binary polynomials

Whether `X ^ n + r` is irreducible over two elements is decided by squaring.
Numbers stand for polynomials by their bits, `mulMod` multiplies them modulo
`X ^ n + r`, and every irreducible factor has the full degree when the root is
fixed by `2 * m` squarings and moved by `m` of them, where `m` is a power of two
(`irreducible_of_frobenius`). The squarings are a computation on numbers.
-/

namespace GecRelay.Foundation

open Polynomial

/-! ## The criterion -/

theorem dvd_half_of_dvd {k d : ℕ} (hd : d ∣ 2 ^ (k + 1)) (hne : d ≠ 2 ^ (k + 1)) :
    d ∣ 2 ^ k := by
  obtain ⟨j, hj, rfl⟩ := (Nat.dvd_prime_pow Nat.prime_two).mp hd
  have hlt : j ≠ k + 1 := fun h => hne (by rw [h])
  exact pow_dvd_pow 2 (by omega)

/-- **A test of irreducibility.** -/
theorem irreducible_of_frobenius {f : (ZMod 2)[X]} {k : ℕ} (hdeg : f.natDegree = 2 ^ (k + 1))
    (hfix : AdjoinRoot.root f ^ 2 ^ 2 ^ (k + 1) = AdjoinRoot.root f)
    (hmove : IsUnit (AdjoinRoot.root f ^ 2 ^ 2 ^ k - AdjoinRoot.root f)) : Irreducible f := by
  have hcard : Nat.card (ZMod 2) = 2 := Nat.card_zmod 2
  have hpos : 0 < f.natDegree := by
    rw [hdeg]
    exact Nat.two_pow_pos _
  have hzero : f ≠ 0 := by
    rintro rfl
    simp at hpos
  have hunit : ¬ IsUnit f := fun h => hpos.ne' (natDegree_eq_zero_of_isUnit h)
  obtain ⟨g, hg, hgf⟩ := WfDvdMonoid.exists_irreducible_factor hunit hzero
  have hfixed : f ∣ X ^ 2 ^ 2 ^ (k + 1) - X := by
    rw [← AdjoinRoot.mk_eq_zero, map_sub, map_pow, AdjoinRoot.mk_X, hfix, sub_self]
  have hdvd : g.natDegree ∣ 2 ^ (k + 1) := by
    apply hg.natDegree_dvd_of_dvd_X_pow_card_pow_sub_X
    rw [hcard]
    exact hgf.trans hfixed
  have hfull : g.natDegree = 2 ^ (k + 1) := by
    by_contra hne
    -- a smaller factor would be fixed by half of the squarings
    have hhalf : g ∣ X ^ 2 ^ 2 ^ k - X := by
      have h := hg.natDegree_dvd_iff_dvd_X_pow_card_pow_sub_X.mp (dvd_half_of_dvd hdvd hne)
      rwa [hcard] at h
    obtain ⟨v, hv⟩ := hmove.exists_right_inv
    obtain ⟨p, rfl⟩ := AdjoinRoot.mk_surjective v
    have hone : f ∣ (X ^ 2 ^ 2 ^ k - X) * p - 1 := by
      rw [← AdjoinRoot.mk_eq_zero, map_sub, map_mul, map_sub, map_pow, AdjoinRoot.mk_X, map_one,
        hv, sub_self]
    have hdvd_one : g ∣ 1 := by
      have h := dvd_sub (hhalf.mul_right p) (hgf.trans hone)
      rwa [sub_sub_cancel] at h
    exact hg.not_isUnit (isUnit_of_dvd_one hdvd_one)
  obtain ⟨c, rfl⟩ := hgf
  have hc : c ≠ 0 := right_ne_zero_of_mul hzero
  rw [natDegree_mul hg.ne_zero hc, hfull] at hdeg
  have hunit_c : IsUnit c := by
    rw [isUnit_iff_degree_eq_zero, degree_eq_natDegree hc]
    have : c.natDegree = 0 := by omega
    rw [this]
    rfl
  exact (irreducible_mul_isUnit hunit_c).mpr hg

/-! ## Polynomials as numbers -/

section Numbers

variable (n r : ℕ)

noncomputable def binaryModulus : (ZMod 2)[X] := X ^ n + bitPoly n r.testBit

/-- The element whose coefficients are the bits of `a` below `n`. -/
noncomputable def numElem (a : ℕ) : AdjoinRoot (binaryModulus n r) :=
  bitSum (binaryModulus n r) n a.testBit

/-- Times the root. -/
def mulRoot (a : ℕ) : ℕ := (2 * a % 2 ^ n) ^^^ (if a.testBit (n - 1) then r else 0)

/-- The bits of `b` below `i`, from the top. -/
def mulModLoop (a b : ℕ) : ℕ → ℕ → ℕ
  | 0, acc => acc
  | i + 1, acc => mulModLoop a b i (mulRoot n r acc ^^^ (if b.testBit i then a else 0))

def mulMod (a b : ℕ) : ℕ := mulModLoop n r a b n 0

variable {n r}

theorem binaryModulus_natDegree : (binaryModulus n r).natDegree = n := by
  apply natDegree_eq_of_degree_eq_some
  unfold binaryModulus
  rw [degree_add_eq_left_of_degree_lt, degree_X_pow]
  rw [degree_X_pow]
  exact degree_bitPoly_lt n _

theorem root_pow_n : AdjoinRoot.root (binaryModulus n r) ^ n = numElem n r r := by
  apply eq_of_add_eq_zero_quotient
  have h : AdjoinRoot.mk (binaryModulus n r) (binaryModulus n r) = 0 := AdjoinRoot.mk_self
  conv_lhs at h =>
    arg 2
    rw [binaryModulus]
  rw [map_add, map_pow, AdjoinRoot.mk_X] at h
  exact h

theorem numElem_xor (a b : ℕ) : numElem n r (a ^^^ b) = numElem n r a + numElem n r b := by
  unfold numElem
  rw [← bitSum_xor]
  refine bitSum_congr fun i _ => ?_
  rw [Nat.testBit_xor]

theorem numElem_zero : numElem n r 0 = 0 := by
  unfold numElem
  rw [← bitSum_false n]
  refine bitSum_congr fun i _ => ?_
  rw [Nat.zero_testBit]

theorem testBit_double (a i : ℕ) : (2 * a).testBit i = (decide (1 ≤ i) && a.testBit (i - 1)) := by
  cases i with
  | zero => simp
  | succ i =>
      rw [Nat.testBit_succ, Nat.mul_div_cancel_left a (by decide)]
      simp

theorem numElem_mulRoot (hn : 1 ≤ n) (a : ℕ) :
    numElem n r (mulRoot n r a) = AdjoinRoot.root (binaryModulus n r) * numElem n r a := by
  have hshift : numElem n r (2 * a % 2 ^ n) =
      bitSum (binaryModulus n r) n (fun i => decide (1 ≤ i) && a.testBit (i - 1)) := by
    unfold numElem
    refine bitSum_congr fun i hi => ?_
    rw [Nat.testBit_mod_two_pow, decide_eq_true hi, Bool.true_and, testBit_double]
  have hpow := root_pow_mul_bitSum (g := binaryModulus n r) hn a.testBit
  have htop : bitSum (binaryModulus n r) 1 (fun i => a.testBit (n - 1 + i)) =
      if a.testBit (n - 1) then 1 else 0 := by
    rw [bitSum_eq_sum]
    simp
  unfold mulRoot
  rw [numElem_xor, hshift]
  rw [pow_one, htop, root_pow_n] at hpow
  refine Eq.trans ?_ hpow.symm
  cases a.testBit (n - 1)
  · simp [numElem_zero]
  · simp

theorem numElem_mulModLoop (hn : 1 ≤ n) (a b i acc : ℕ) :
    numElem n r (mulModLoop n r a b i acc) =
      AdjoinRoot.root (binaryModulus n r) ^ i * numElem n r acc +
        bitSum (binaryModulus n r) i b.testBit * numElem n r a := by
  induction i generalizing acc with
  | zero => simp [mulModLoop, bitSum_eq_sum]
  | succ i ih =>
      rw [mulModLoop, ih, numElem_xor, numElem_mulRoot hn, bitSum_eq_sum, bitSum_eq_sum,
        Finset.sum_range_succ]
      cases b.testBit i
      · simp [numElem_zero]
        ring
      · simp
        ring

theorem numElem_mulMod (hn : 1 ≤ n) (a b : ℕ) :
    numElem n r (mulMod n r a b) = numElem n r a * numElem n r b := by
  unfold mulMod
  rw [numElem_mulModLoop hn, numElem_zero, mul_zero, zero_add, mul_comm]
  rfl

theorem numElem_two_pow {i : ℕ} (hi : i < n) :
    numElem n r (2 ^ i) = AdjoinRoot.root (binaryModulus n r) ^ i := by
  unfold numElem
  rw [bitSum_eq_sum]
  simp only [Nat.testBit_two_pow, decide_eq_true_eq]
  rw [Finset.sum_ite_eq, if_pos (Finset.mem_range.mpr hi)]

/-- Squarings of the root, on numbers. -/
theorem numElem_squarings (hn : 2 ≤ n) (m : ℕ) :
    numElem n r ((fun a => mulMod n r a a)^[m] 2) =
      AdjoinRoot.root (binaryModulus n r) ^ 2 ^ m := by
  induction m with
  | zero =>
      have h := numElem_two_pow (r := r) (show 1 < n by omega)
      rw [pow_one, pow_one] at h
      rw [Function.iterate_zero_apply, h, pow_zero, pow_one]
  | succ m ih =>
      rw [Function.iterate_succ_apply', numElem_mulMod (by omega), ih, ← pow_two, ← pow_mul,
        ← pow_succ]

/-- **The test on numbers.** -/
theorem binaryModulus_irreducible {k v : ℕ} (hn : n = 2 ^ (k + 1))
    (hfix : (fun a => mulMod n r a a)^[2 ^ (k + 1)] 2 = 2)
    (hmove : mulMod n r ((fun a => mulMod n r a a)^[2 ^ k] 2 ^^^ 2) v = 1) :
    Irreducible (binaryModulus n r) := by
  have hle : 2 ≤ n := by
    rw [hn, pow_succ]
    have := Nat.two_pow_pos k
    omega
  have hroot : numElem n r 2 = AdjoinRoot.root (binaryModulus n r) := by
    have h := numElem_squarings (r := r) hle 0
    rwa [pow_zero, pow_one] at h
  have hone : numElem n r 1 = 1 := by
    have h := numElem_two_pow (r := r) (show 0 < n by omega)
    rwa [pow_zero, pow_zero] at h
  apply irreducible_of_frobenius (binaryModulus_natDegree.trans hn)
  · rw [← numElem_squarings hle, hfix, hroot]
  · -- addition is subtraction, and the inverse is given
    have hsub : AdjoinRoot.root (binaryModulus n r) ^ 2 ^ 2 ^ k - AdjoinRoot.root _ =
        numElem n r ((fun a => mulMod n r a a)^[2 ^ k] 2 ^^^ 2) := by
      rw [numElem_xor, numElem_squarings hle, hroot, sub_eq_iff_eq_add, add_assoc,
        add_self_quotient, add_zero]
    rw [hsub]
    apply IsUnit.of_mul_eq_one (numElem n r v)
    rw [← numElem_mulMod (by omega), hmove, hone]

end Numbers

end GecRelay.Foundation
