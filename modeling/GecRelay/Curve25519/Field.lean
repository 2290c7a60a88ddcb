import GecRelay.Foundation.MixedRadix
import GecRelay.Foundation.SignedWord
import Mathlib.Data.Vector.Basic
import Mathlib.Data.List.GetD
import Mathlib.Data.ZMod.Basic
import Mathlib.Tactic.IntervalCases

/-!
# The field arithmetic of curve25519-donna

A field element is an array of signed limbs of 64 bits at the bit positions 0,
26, 51, 77 and so on. `fproduct` and `fsquare_inner` give nineteen long limbs,
`freduce_degree` folds the upper nine back with a factor of 19, and
`freduce_coefficients` carries until every limb is below `2 ^ 26` again.

The limbs stay in the bounds that the comments of the source name, so no sum or
product overflows, and every operation is the one of `ZMod (2 ^ 255 - 19)`
(`fmul_spec`, `fsquare_spec`, `freduce_spec` and the lemmas before them).
-/

namespace GecRelay.Curve25519

open Foundation Finset

/-! ## Limbs -/

section Cells

variable {α : Type} [OfNat α 0] {n : ℕ}

def limb (x : List.Vector α n) (i : ℕ) : α := x.toList.getD i 0

def limbsOf (f : ℕ → α) : List.Vector α n := List.Vector.ofFn fun i => f i

def setLimb (x : List.Vector α n) (i : ℕ) (v : α) : List.Vector α n :=
  limbsOf fun j => if j = i then v else limb x j

theorem limb_limbsOf (f : ℕ → α) {i : ℕ} (hi : i < n) :
    limb (limbsOf f : List.Vector α n) i = f i := by
  unfold limb limbsOf
  rw [List.Vector.toList_ofFn, List.getD_eq_getElem _ _ (by rwa [List.length_ofFn]),
    List.getElem_ofFn]

theorem limb_of_le (x : List.Vector α n) {i : ℕ} (hi : n ≤ i) : limb x i = 0 := by
  unfold limb
  rw [List.getD_eq_default _ _ (by rwa [x.toList_length])]

theorem limb_setLimb (x : List.Vector α n) {i j : ℕ} (v : α) (hj : j < n) :
    limb (setLimb x i v) j = if j = i then v else limb x j := limb_limbsOf _ hj

end Cells

abbrev Limbs (n : ℕ) : Type := List.Vector Int64 n

/-! ## The operations -/

/-- `output += in`. -/
def fsum (output input : Limbs 10) : Limbs 10 := limbsOf fun i => limb output i + limb input i

/-- `output = in - output`. -/
def fdifference (output input : Limbs 10) : Limbs 10 :=
  limbsOf fun i => limb input i - limb output i

def fscalarProduct (input : Limbs 10) (scalar : Int64) : Limbs 10 :=
  limbsOf fun i => limb input i * scalar

/-- `(limb) ((s32) x)`. -/
def s32 (x : Int64) : Int64 := x.toInt32.toInt64

section Terms

variable {R : Type} [Add R] [Mul R] [OfNat R 2] [OfNat R 4]

/-- `output[k]` of `fproduct`. -/
def fproductTerm (in2 input : ℕ → R) : ℕ → R
  | 0 => in2 0 * input 0
  | 1 => in2 0 * input 1 + in2 1 * input 0
  | 2 => 2 * in2 1 * input 1 + in2 0 * input 2 + in2 2 * input 0
  | 3 => in2 1 * input 2 + in2 2 * input 1 + in2 0 * input 3 + in2 3 * input 0
  | 4 => in2 2 * input 2 + 2 * (in2 1 * input 3 + in2 3 * input 1) + in2 0 * input 4 +
      in2 4 * input 0
  | 5 => in2 2 * input 3 + in2 3 * input 2 + in2 1 * input 4 + in2 4 * input 1 +
      in2 0 * input 5 + in2 5 * input 0
  | 6 => 2 * (in2 3 * input 3 + in2 1 * input 5 + in2 5 * input 1) + in2 2 * input 4 +
      in2 4 * input 2 + in2 0 * input 6 + in2 6 * input 0
  | 7 => in2 3 * input 4 + in2 4 * input 3 + in2 2 * input 5 + in2 5 * input 2 +
      in2 1 * input 6 + in2 6 * input 1 + in2 0 * input 7 + in2 7 * input 0
  | 8 => in2 4 * input 4 + 2 * (in2 3 * input 5 + in2 5 * input 3 + in2 1 * input 7 +
      in2 7 * input 1) + in2 2 * input 6 + in2 6 * input 2 + in2 0 * input 8 + in2 8 * input 0
  | 9 => in2 4 * input 5 + in2 5 * input 4 + in2 3 * input 6 + in2 6 * input 3 +
      in2 2 * input 7 + in2 7 * input 2 + in2 1 * input 8 + in2 8 * input 1 + in2 0 * input 9 +
      in2 9 * input 0
  | 10 => 2 * (in2 5 * input 5 + in2 3 * input 7 + in2 7 * input 3 + in2 1 * input 9 +
      in2 9 * input 1) + in2 4 * input 6 + in2 6 * input 4 + in2 2 * input 8 + in2 8 * input 2
  | 11 => in2 5 * input 6 + in2 6 * input 5 + in2 4 * input 7 + in2 7 * input 4 +
      in2 3 * input 8 + in2 8 * input 3 + in2 2 * input 9 + in2 9 * input 2
  | 12 => in2 6 * input 6 + 2 * (in2 5 * input 7 + in2 7 * input 5 + in2 3 * input 9 +
      in2 9 * input 3) + in2 4 * input 8 + in2 8 * input 4
  | 13 => in2 6 * input 7 + in2 7 * input 6 + in2 5 * input 8 + in2 8 * input 5 +
      in2 4 * input 9 + in2 9 * input 4
  | 14 => 2 * (in2 7 * input 7 + in2 5 * input 9 + in2 9 * input 5) + in2 6 * input 8 +
      in2 8 * input 6
  | 15 => in2 7 * input 8 + in2 8 * input 7 + in2 6 * input 9 + in2 9 * input 6
  | 16 => in2 8 * input 8 + 2 * (in2 7 * input 9 + in2 9 * input 7)
  | 17 => in2 8 * input 9 + in2 9 * input 8
  | _ => 2 * in2 9 * input 9

/-- `output[k]` of `fsquare_inner`. -/
def fsquareTerm (input : ℕ → R) : ℕ → R
  | 0 => input 0 * input 0
  | 1 => 2 * input 0 * input 1
  | 2 => 2 * (input 1 * input 1 + input 0 * input 2)
  | 3 => 2 * (input 1 * input 2 + input 0 * input 3)
  | 4 => input 2 * input 2 + 4 * input 1 * input 3 + 2 * input 0 * input 4
  | 5 => 2 * (input 2 * input 3 + input 1 * input 4 + input 0 * input 5)
  | 6 => 2 * (input 3 * input 3 + input 2 * input 4 + input 0 * input 6 + 2 * input 1 * input 5)
  | 7 => 2 * (input 3 * input 4 + input 2 * input 5 + input 1 * input 6 + input 0 * input 7)
  | 8 => input 4 * input 4 + 2 * (input 2 * input 6 + input 0 * input 8 +
      2 * (input 1 * input 7 + input 3 * input 5))
  | 9 => 2 * (input 4 * input 5 + input 3 * input 6 + input 2 * input 7 + input 1 * input 8 +
      input 0 * input 9)
  | 10 => 2 * (input 5 * input 5 + input 4 * input 6 + input 2 * input 8 +
      2 * (input 3 * input 7 + input 1 * input 9))
  | 11 => 2 * (input 5 * input 6 + input 4 * input 7 + input 3 * input 8 + input 2 * input 9)
  | 12 => input 6 * input 6 + 2 * (input 4 * input 8 + 2 * (input 5 * input 7 + input 3 * input 9))
  | 13 => 2 * (input 6 * input 7 + input 5 * input 8 + input 4 * input 9)
  | 14 => 2 * (input 7 * input 7 + input 6 * input 8 + 2 * input 5 * input 9)
  | 15 => 2 * (input 7 * input 8 + input 6 * input 9)
  | 16 => input 8 * input 8 + 4 * input 7 * input 9
  | 17 => 2 * input 8 * input 9
  | _ => 2 * input 9 * input 9

end Terms

def fproduct (in2 input : Limbs 10) : Limbs 19 :=
  limbsOf (fproductTerm (fun i => s32 (limb in2 i)) fun i => s32 (limb input i))

def fsquareInner (input : Limbs 10) : Limbs 19 :=
  limbsOf (fsquareTerm fun i => s32 (limb input i))

/-- The upper nine limbs, nineteen times, onto the lower nine. -/
def freduceDegree (output : Limbs 19) : Limbs 19 :=
  limbsOf fun i =>
    if i < 9 then
      limb output i + (limb output (i + 10) <<< 4) + (limb output (i + 10) <<< 1) +
        limb output (i + 10)
    else limb output i

/-- `div_by_2_26`. -/
def divBy226 (v : Int64) : Int64 :=
  let highword : UInt32 := (v.toUInt64 >>> 32).toUInt32
  let sign : Int32 := highword.toInt32 >>> 31
  let roundoff : Int32 := (sign.toUInt32 >>> 6).toInt32
  (v + roundoff.toInt64) >>> 26

/-- `div_by_2_25`. -/
def divBy225 (v : Int64) : Int64 :=
  let highword : UInt32 := (v.toUInt64 >>> 32).toUInt32
  let sign : Int32 := highword.toInt32 >>> 31
  let roundoff : Int32 := (sign.toUInt32 >>> 7).toInt32
  (v + roundoff.toInt64) >>> 25

/-- A carry of 26 bits from limb `i`. -/
def carry26 (output : Limbs 19) (i : ℕ) : Limbs 19 :=
  let carry := divBy226 (limb output i)
  let output := setLimb output i (limb output i - carry <<< 26)
  setLimb output (i + 1) (limb output (i + 1) + carry)

/-- A carry of 25 bits from limb `i`. -/
def carry25 (output : Limbs 19) (i : ℕ) : Limbs 19 :=
  let carry := divBy225 (limb output i)
  let output := setLimb output i (limb output i - carry <<< 25)
  setLimb output (i + 1) (limb output (i + 1) + carry)

def freduceCoefficients (output : Limbs 19) : Limbs 10 :=
  let output := setLimb output 10 0
  let output := [0, 2, 4, 6, 8].foldl (fun x i => carry25 (carry26 x i) (i + 1)) output
  let output := setLimb output 0 (limb output 0 + (limb output 10 <<< 4) +
    (limb output 10 <<< 1) + limb output 10)
  let output := setLimb output 10 0
  let output := carry26 output 0
  limbsOf (limb output)

def fmul (input in2 : Limbs 10) : Limbs 10 :=
  freduceCoefficients (freduceDegree (fproduct input in2))

def fsquare (input : Limbs 10) : Limbs 10 :=
  freduceCoefficients (freduceDegree (fsquareInner input))

/-! ## Values -/

/-- The bit position of a limb. -/
def weight (i : ℕ) : ℕ := (51 * i + 1) / 2

def p25519 : ℕ := 2 ^ 255 - 19

abbrev Fp : Type := ZMod p25519

def val {n : ℕ} (x : Limbs n) (i : ℕ) : ℤ := (limb x i).toInt

/-- **The field element of ten limbs.** -/
def element (x : Limbs 10) : Fp := ((radixValue weight 10 (val x) : ℤ) : Fp)

def Bounded (b : ℕ) (x : Limbs 10) : Prop := ∀ i < 10, |val x i| < 2 ^ b

theorem two_pow_255 : (2 : Fp) ^ 255 = 19 := by
  have hp : (p25519 : Fp) = 0 := ZMod.natCast_self p25519
  have hsum : 2 ^ 255 = p25519 + 19 := by decide
  calc (2 : Fp) ^ 255 = ((2 : ℕ) : Fp) ^ 255 := by rw [Nat.cast_ofNat]
    _ = ((2 ^ 255 : ℕ) : Fp) := (Nat.cast_pow 2 255).symm
    _ = 19 := by rw [hsum, Nat.cast_add, hp, zero_add, Nat.cast_ofNat]

theorem weight_mono (i : ℕ) : weight i ≤ weight (i + 1) := by
  unfold weight
  omega

theorem width_le (i : ℕ) : weight (i + 1) - weight i ≤ 26 := by
  unfold weight
  omega

theorem weight_ten (i : ℕ) : weight (i + 10) = weight i + 255 := by
  unfold weight
  omega

theorem val_limbsOf {n : ℕ} (f : ℕ → Int64) {i : ℕ} (hi : i < n) :
    val (limbsOf f : Limbs n) i = (f i).toInt := congrArg Int64.toInt (limb_limbsOf f hi)

theorem val_setLimb {n : ℕ} (x : Limbs n) {i j : ℕ} (v : Int64) (hj : j < n) :
    val (setLimb x i v) j = if j = i then v.toInt else val x j := by
  unfold val
  rw [limb_setLimb x v hj]
  split <;> rfl

/-! ## Sums, differences and scalar products -/

theorem val_fsum {x y : Limbs 10} (hx : Bounded 26 x) (hy : Bounded 26 y) {i : ℕ} (hi : i < 10) :
    val (fsum x y) i = val x i + val y i := by
  have hlt : |val x i + val y i| < 2 ^ 63 :=
    (abs_add_le _ _).trans_lt ((add_lt_add (hx i hi) (hy i hi)).trans (by decide))
  unfold fsum
  rw [val_limbsOf _ hi]
  exact int64_add hlt

theorem fsum_spec {x y : Limbs 10} (hx : Bounded 26 x) (hy : Bounded 26 y) :
    Bounded 27 (fsum x y) ∧ element (fsum x y) = element x + element y := by
  refine ⟨fun i hi => ?_, ?_⟩
  · rw [val_fsum hx hy hi]
    exact (abs_add_le _ _).trans_lt ((add_lt_add (hx i hi) (hy i hi)).trans_le (by decide))
  · unfold element
    rw [radixValue_congr fun i hi => val_fsum hx hy hi, radixValue_add, Int.cast_add]

theorem val_fdifference {x y : Limbs 10} (hx : Bounded 26 x) (hy : Bounded 26 y) {i : ℕ}
    (hi : i < 10) : val (fdifference x y) i = val y i - val x i := by
  have hlt : |val y i - val x i| < 2 ^ 63 :=
    (abs_sub _ _).trans_lt ((add_lt_add (hy i hi) (hx i hi)).trans (by decide))
  unfold fdifference
  rw [val_limbsOf _ hi]
  exact int64_sub hlt

theorem fdifference_spec {x y : Limbs 10} (hx : Bounded 26 x) (hy : Bounded 26 y) :
    Bounded 27 (fdifference x y) ∧ element (fdifference x y) = element y - element x := by
  refine ⟨fun i hi => ?_, ?_⟩
  · rw [val_fdifference hx hy hi]
    exact (abs_sub _ _).trans_lt ((add_lt_add (hy i hi) (hx i hi)).trans_le (by decide))
  · unfold element
    rw [radixValue_congr fun i hi => val_fdifference hx hy hi, radixValue_sub, Int.cast_sub]

theorem val_fscalarProduct {x : Limbs 10} (hx : Bounded 27 x) {i : ℕ} (hi : i < 10) :
    val (fscalarProduct x 121665) i = 121665 * val x i := by
  have hscalar : (121665 : Int64).toInt = 121665 := rfl
  have hlt : |val x i * (121665 : Int64).toInt| < 2 ^ 63 := by
    have hxi := abs_lt.mp (hx i hi)
    rw [hscalar]
    exact abs_lt.mpr ⟨by omega, by omega⟩
  unfold fscalarProduct
  rw [val_limbsOf _ hi, mul_comm 121665, ← hscalar]
  exact int64_mul hlt

/-! ## Products -/

theorem s32_eq {x : Int64} (hx : |x.toInt| < 2 ^ 31) : s32 x = x := by
  unfold s32
  rw [← Int64.toInt_inj, Int32.toInt_toInt64, Int64.toInt_toInt32]
  exact bmod_of_abs_lt 31 hx

/-- Two odd positions add to one too many. -/
def pairFactor (i j : ℕ) : ℤ := if i % 2 = 1 ∧ j % 2 = 1 then 2 else 1

theorem pairFactor_weight (i j : ℕ) :
    pairFactor i j * 2 ^ weight (i + j) = 2 ^ weight i * 2 ^ weight j := by
  unfold pairFactor
  split
  · next hodd =>
      have hsum : weight i + weight j = weight (i + j) + 1 := by
        unfold weight
        omega
      rw [← pow_add, hsum, pow_succ, mul_comm]
  · next hodd =>
      have hsum : weight i + weight j = weight (i + j) := by
        unfold weight
        omega
      rw [← pow_add, hsum, one_mul]

theorem fproductTerm_eq (x y : ℕ → ℤ) {k : ℕ} (hk : k < 19) :
    fproductTerm x y k = convolve pairFactor 10 x y k := by
  interval_cases k <;> simp [fproductTerm, convolve, pairFactor, sum_range_succ] <;> ring

theorem fsquareTerm_eq (x : ℕ → ℤ) {k : ℕ} (hk : k < 19) :
    fsquareTerm x k = fproductTerm x x k := by
  interval_cases k <;> simp only [fproductTerm, fsquareTerm] <;> ring

theorem fproductTerm_ofInt (x y : ℕ → ℤ) {k : ℕ} (hk : k < 19) :
    fproductTerm (fun i => Int64.ofInt (x i)) (fun i => Int64.ofInt (y i)) k =
      Int64.ofInt (fproductTerm x y k) := by
  have htwo : Int64.ofInt 2 = 2 := rfl
  interval_cases k <;> simp only [fproductTerm, Int64.ofInt_add, Int64.ofInt_mul, htwo]

theorem fsquareTerm_ofInt (x : ℕ → ℤ) {k : ℕ} (hk : k < 19) :
    fsquareTerm (fun i => Int64.ofInt (x i)) k = Int64.ofInt (fsquareTerm x k) := by
  have htwo : Int64.ofInt 2 = 2 := rfl
  have hfour : Int64.ofInt 4 = 4 := rfl
  interval_cases k <;> simp only [fsquareTerm, Int64.ofInt_add, Int64.ofInt_mul, htwo, hfour]

theorem pairFactor_sum : ∀ k < 19,
    (∑ i ∈ range 10, if i ≤ k ∧ k - i < 10 then pairFactor i (k - i) else 0) ≤ 14 := by
  decide

theorem pairFactor_nonneg (i j : ℕ) : 0 ≤ pairFactor i j := by
  unfold pairFactor
  split <;> decide

/-- A limb of a product is at most fourteen times the largest product of limbs. -/
theorem abs_fproductTerm_le {x y : ℕ → ℤ} {a b : ℤ} (hx : ∀ i < 10, |x i| ≤ a)
    (hy : ∀ i < 10, |y i| ≤ b) (hab : 0 ≤ a * b) {k : ℕ} (hk : k < 19) :
    |fproductTerm x y k| ≤ 14 * (a * b) := by
  rw [fproductTerm_eq x y hk]
  exact (abs_convolve_le pairFactor_nonneg hx hy).trans
    (mul_le_mul_of_nonneg_right (pairFactor_sum k hk) hab)

theorem s32_limb {x : Limbs 10} (hx : Bounded 27 x) {i : ℕ} (hi : i < 10) :
    s32 (limb x i) = Int64.ofInt (val x i) := by
  have hlt : |(limb x i).toInt| < 2 ^ 31 := (hx i hi).trans (by decide)
  rw [s32_eq hlt]
  exact (Int64.ofInt_toInt _).symm

theorem fproductTerm_congr {x x' y y' : ℕ → Int64} (hx : ∀ i < 10, x i = x' i)
    (hy : ∀ i < 10, y i = y' i) {k : ℕ} (hk : k < 19) :
    fproductTerm x y k = fproductTerm x' y' k := by
  interval_cases k <;> simp (disch := decide) only [fproductTerm, hx, hy]

theorem fsquareTerm_congr {x x' : ℕ → Int64} (hx : ∀ i < 10, x i = x' i) {k : ℕ} (hk : k < 19) :
    fsquareTerm x k = fsquareTerm x' k := by
  interval_cases k <;> simp (disch := decide) only [fsquareTerm, hx]

/-- The nineteen limbs of a product, in the bounds of the source. -/
structure LongForm (t : Limbs 19) (v : ℤ) : Prop where
  bound : ∀ k < 19, |val t k| ≤ 14 * 2 ^ 54
  value : radixValue weight 19 (val t) = v

/-- Limbs that are the coefficients of a product. -/
theorem longForm_of_terms {t : Limbs 19} {x y : Limbs 10} (hx : Bounded 27 x) (hy : Bounded 27 y)
    (h : ∀ k < 19, limb t k = Int64.ofInt (fproductTerm (val x) (val y) k)) :
    LongForm t (radixValue weight 10 (val x) * radixValue weight 10 (val y)) := by
  have hbound : ∀ k < 19, |fproductTerm (val x) (val y) k| ≤ 14 * 2 ^ 54 := by
    intro k hk
    exact abs_fproductTerm_le (a := 2 ^ 27) (b := 2 ^ 27) (fun i hi => (hx i hi).le)
      (fun i hi => (hy i hi).le) (by decide) hk
  have hval : ∀ k < 19, val t k = fproductTerm (val x) (val y) k := by
    intro k hk
    unfold val
    rw [h k hk]
    exact int64_ofInt ((hbound k hk).trans_lt (by decide))
  refine ⟨fun k hk => ?_, ?_⟩
  · rw [hval k hk]
    exact hbound k hk
  · rw [radixValue_congr fun k hk => (hval k hk).trans (fproductTerm_eq _ _ hk)]
    exact radixValue_convolve _ _ (by decide) pairFactor_weight

theorem fproduct_spec {x y : Limbs 10} (hx : Bounded 27 x) (hy : Bounded 27 y) :
    LongForm (fproduct x y) (radixValue weight 10 (val x) * radixValue weight 10 (val y)) := by
  refine longForm_of_terms hx hy fun k hk => ?_
  unfold fproduct
  rw [limb_limbsOf _ hk, fproductTerm_congr (fun i hi => s32_limb hx hi)
    (fun i hi => s32_limb hy hi) hk]
  exact fproductTerm_ofInt _ _ hk

theorem fsquareInner_spec {x : Limbs 10} (hx : Bounded 27 x) :
    LongForm (fsquareInner x) (radixValue weight 10 (val x) * radixValue weight 10 (val x)) := by
  refine longForm_of_terms hx hx fun k hk => ?_
  unfold fsquareInner
  rw [limb_limbsOf _ hk, fsquareTerm_congr (fun i hi => s32_limb hx hi) hk,
    fsquareTerm_ofInt _ hk, fsquareTerm_eq _ hk]

/-! ## Reduction of the degree -/

/-- Limbs in short form, before the coefficients are reduced. -/
structure ShortForm (t : Limbs 19) (v : Fp) : Prop where
  bound : ∀ k < 10, |val t k| ≤ 280 * 2 ^ 54
  value : ((radixValue weight 10 (val t) : ℤ) : Fp) = v

/-- `x + 19 y` by shifts. -/
theorem nineteen_add {x y : Int64} (hx : |x.toInt| ≤ 14 * 2 ^ 54) (hy : |y.toInt| ≤ 14 * 2 ^ 54) :
    (x + (y <<< 4) + (y <<< 1) + y).toInt = x.toInt + 19 * y.toInt := by
  obtain ⟨hx₁, hx₂⟩ := abs_le.mp hx
  obtain ⟨hy₁, hy₂⟩ := abs_le.mp hy
  have h₁ : (y <<< 4).toInt = y.toInt * 2 ^ 4 :=
    int64_shl (k := 4) (by decide) (abs_lt.mpr ⟨by omega, by omega⟩)
  have h₂ : (y <<< 1).toInt = y.toInt * 2 ^ 1 :=
    int64_shl (k := 1) (by decide) (abs_lt.mpr ⟨by omega, by omega⟩)
  have h₃ : (x + (y <<< 4)).toInt = x.toInt + (y <<< 4).toInt :=
    int64_add (abs_lt.mpr ⟨by omega, by omega⟩)
  have h₄ : (x + (y <<< 4) + (y <<< 1)).toInt = (x + (y <<< 4)).toInt + (y <<< 1).toInt :=
    int64_add (abs_lt.mpr ⟨by omega, by omega⟩)
  have h₅ : (x + (y <<< 4) + (y <<< 1) + y).toInt =
      (x + (y <<< 4) + (y <<< 1)).toInt + y.toInt :=
    int64_add (abs_lt.mpr ⟨by omega, by omega⟩)
  omega

theorem freduceDegree_spec {t : Limbs 19} {v : ℤ} (h : LongForm t v) :
    ShortForm (freduceDegree t) (v : Fp) := by
  obtain ⟨hbound, hvalue⟩ := h
  have hlow : ∀ k < 9, val (freduceDegree t) k = val t k + 19 * val t (k + 10) := by
    intro k hk
    unfold freduceDegree
    rw [val_limbsOf _ (by omega), if_pos hk]
    exact nineteen_add (hbound k (by omega)) (hbound (k + 10) (by omega))
  have hnine : val (freduceDegree t) 9 = val t 9 := by
    unfold freduceDegree
    rw [val_limbsOf _ (by decide), if_neg (by decide)]
    rfl
  refine ⟨fun k hk => ?_, ?_⟩
  · by_cases hk9 : k < 9
    · obtain ⟨hl₁, hl₂⟩ := abs_le.mp (hbound k (by omega))
      obtain ⟨hh₁, hh₂⟩ := abs_le.mp (hbound (k + 10) (by omega))
      rw [hlow k hk9]
      exact abs_le.mpr ⟨by omega, by omega⟩
    · obtain rfl : k = 9 := by omega
      rw [hnine]
      exact (hbound 9 (by decide)).trans (by decide)
  · rw [← hvalue, cast_radixValue, cast_radixValue]
    refine radixValue_wrap (m := 9) (d := 255) (c := 19) (by decide) ?_ two_pow_255 ?_ ?_
    · intro i _
      rw [Nat.add_comm]
      exact weight_ten i
    · intro i hi
      rw [hlow i hi, Nat.add_comm 10 i]
      push_cast
      rfl
    · intro i hi hge
      obtain rfl : i = 9 := by omega
      rw [hnine]

/-! ## Reduction of the coefficients -/

/-- `sign`: the sign of the high word is that of the limb. -/
theorem sign_eq (v : Int64) :
    (v.toUInt64 >>> 32).toUInt32.toInt32 >>> 31 = if v.toInt < 0 then (-1 : Int32) else 0 := by
  have hnat : (v.toUInt64 >>> 32).toUInt32.toInt32.toBitVec.toNat = v.toBitVec.toNat / 2 ^ 32 := by
    show (v.toUInt64 >>> 32).toUInt32.toNat = _
    rw [UInt64.toNat_toUInt32, UInt64.toNat_shiftRight]
    show (v.toBitVec.toNat >>> 32) % 2 ^ 32 = _
    rw [Nat.shiftRight_eq_div_pow]
    have hlt := v.toBitVec.isLt
    omega
  have hiff : (v.toUInt64 >>> 32).toUInt32.toInt32.toInt < 0 ↔ v.toInt < 0 := by
    rw [← Int32.toInt_toBitVec, ← Int64.toInt_toBitVec, BitVec.toInt_eq_toNat_cond,
      BitVec.toInt_eq_toNat_cond, hnat]
    have hlt := v.toBitVec.isLt
    split <;> split <;> omega
  rw [int32_sign]
  exact if_congr hiff rfl rfl

/-- Rounded towards zero: `carry` times `2 ^ d` is at most `v`, and what is left is
below `2 ^ d`. -/
structure Quotient (d : ℕ) (v carry : ℤ) : Prop where
  rest : |v - carry * 2 ^ d| < 2 ^ d
  le : |carry * 2 ^ d| ≤ |v|

theorem quotient_of_roundoff {v : ℤ} {d : ℕ} :
    Quotient d v ((v + if v < 0 then 2 ^ d - 1 else 0) / 2 ^ d) := by
  have hpos : (0 : ℤ) < 2 ^ d := by positivity
  by_cases hneg : v < 0
  · rw [if_pos hneg]
    have hdiv := Int.ediv_mul_add_emod (v + (2 ^ d - 1)) (2 ^ d)
    have hnonneg := Int.emod_nonneg (v + (2 ^ d - 1)) hpos.ne'
    have hlt := Int.emod_lt_of_pos (v + (2 ^ d - 1)) hpos
    have hle : (v + (2 ^ d - 1)) / 2 ^ d * 2 ^ d ≤ 0 := by
      refine mul_nonpos_of_nonpos_of_nonneg (Int.lt_add_one_iff.mp ?_) hpos.le
      exact Int.ediv_lt_of_lt_mul hpos (by omega)
    refine ⟨abs_lt.mpr ⟨by omega, by omega⟩, ?_⟩
    rw [abs_of_nonpos hle, abs_of_neg hneg]
    omega
  · rw [if_neg hneg, add_zero]
    have hdiv := Int.ediv_mul_add_emod v (2 ^ d)
    have hnonneg := Int.emod_nonneg v hpos.ne'
    have hlt := Int.emod_lt_of_pos v hpos
    have hle : 0 ≤ v / 2 ^ d * 2 ^ d :=
      mul_nonneg (Int.ediv_nonneg (not_lt.mp hneg) hpos.le) hpos.le
    refine ⟨abs_lt.mpr ⟨by omega, by omega⟩, ?_⟩
    rw [abs_of_nonneg hle, abs_of_nonneg (not_lt.mp hneg)]
    omega

/-- The shift of the sum with a `roundoff` that is zero for a limb that is not
negative. -/
theorem quotient_of_shift {v round : Int64} {d : ℕ} (hzero : 0 < d) (hd : d < 63)
    (hround : round.toInt = if v.toInt < 0 then 2 ^ d - 1 else 0) :
    Quotient d v.toInt ((v + round) >>> Int64.ofNat d).toInt := by
  have hlo := Int64.le_toInt v
  have hhi := Int64.toInt_lt v
  have hpow : (2 : ℤ) ^ d ≤ 2 ^ 62 := pow_le_pow_right₀ (by decide) (by omega)
  have htwo : (2 : ℤ) ^ 1 ≤ 2 ^ d := pow_le_pow_right₀ (by decide) hzero
  have hsum : (v + round).toInt = v.toInt + round.toInt := by
    refine int64_add ?_
    rw [hround]
    split <;> exact abs_lt.mpr ⟨by omega, by omega⟩
  rw [int64_sar _ (by omega), hsum, hround]
  exact quotient_of_roundoff

theorem divBy226_spec (v : Int64) : Quotient 26 v.toInt (divBy226 v).toInt := by
  unfold divBy226
  dsimp only
  rw [sign_eq]
  refine quotient_of_shift (by decide) (by decide) ?_
  split <;> rfl

theorem divBy225_spec (v : Int64) : Quotient 25 v.toInt (divBy225 v).toInt := by
  unfold divBy225
  dsimp only
  rw [sign_eq]
  refine quotient_of_shift (by decide) (by decide) ?_
  split <;> rfl

theorem abs_over_le {d : ℕ} {v carry : ℤ} (hd : 25 ≤ d) (h : Quotient d v carry)
    (hv : |v| ≤ 281 * 2 ^ 54) : |carry| ≤ 281 * 2 ^ 29 := by
  have hpow : (2 : ℤ) ^ 25 ≤ 2 ^ d := pow_le_pow_right₀ (by decide) hd
  have hprod : |carry| * 2 ^ 25 ≤ 281 * 2 ^ 29 * 2 ^ 25 :=
    calc |carry| * 2 ^ 25 ≤ |carry| * 2 ^ d := mul_le_mul_of_nonneg_left hpow (abs_nonneg _)
      _ = |carry * 2 ^ d| := by rw [abs_mul, abs_of_nonneg (by positivity : (0 : ℤ) ≤ 2 ^ d)]
      _ ≤ 281 * 2 ^ 29 * 2 ^ 25 := (h.le.trans hv).trans (by decide)
  exact le_of_mul_le_mul_right hprod (by decide)

/-- A carry of `d` bits from limb `i` to the next. -/
structure Carries (d i : ℕ) (x y : Limbs 19) (carry : ℤ) : Prop where
  quotient : Quotient d (val x i) carry
  low : val y i = val x i - carry * 2 ^ d
  high : val y (i + 1) = val x (i + 1) + carry
  rest : ∀ k < 19, k ≠ i → k ≠ i + 1 → val y k = val x k

/-- No step of a carry overflows. -/
theorem carries_of_quotient {x : Limbs 19} {i d : ℕ} {carry : Int64} (hd : 25 ≤ d ∧ d ≤ 26)
    (hi : i + 1 < 19) (hover : Quotient d (val x i) carry.toInt) (hlow : |val x i| ≤ 281 * 2 ^ 54)
    (hhigh : |val x (i + 1)| ≤ 281 * 2 ^ 54) :
    Carries d i x
      (let y := setLimb x i (limb x i - carry <<< Int64.ofNat d)
       setLimb y (i + 1) (limb y (i + 1) + carry)) carry.toInt := by
  have hsmall := abs_over_le hd.1 hover hlow
  have hupper : (2 : ℤ) ^ d ≤ 2 ^ 26 := pow_le_pow_right₀ (by decide) hd.2
  have hshl : (carry <<< Int64.ofNat d).toInt = carry.toInt * 2 ^ d :=
    int64_shl (by omega) ((hover.le.trans hlow).trans_lt (by decide))
  have hsub : (limb x i - carry <<< Int64.ofNat d).toInt = val x i - carry.toInt * 2 ^ d := by
    rw [← hshl]
    refine int64_sub ?_
    rw [hshl]
    exact hover.rest.trans_le (hupper.trans (by decide))
  have hkeep : limb (setLimb x i (limb x i - carry <<< Int64.ofNat d)) (i + 1) = limb x (i + 1) := by
    rw [limb_setLimb _ _ hi, if_neg (Nat.succ_ne_self i)]
  have hadd : (limb x (i + 1) + carry).toInt = val x (i + 1) + carry.toInt :=
    int64_add ((abs_add_le _ _).trans_lt ((add_le_add hhigh hsmall).trans_lt (by decide)))
  refine ⟨hover, ?_, ?_, ?_⟩
  · dsimp only
    rw [val_setLimb _ _ (by omega), if_neg (Nat.succ_ne_self i).symm, val_setLimb _ _ (by omega),
      if_pos rfl, hsub]
  · dsimp only
    rw [val_setLimb _ _ hi, if_pos rfl, hkeep, hadd]
  · intro k hk hne hne'
    dsimp only
    rw [val_setLimb _ _ hk, if_neg hne', val_setLimb _ _ hk, if_neg hne]

theorem carry26_spec {x : Limbs 19} {i : ℕ} (hi : i + 1 < 19) (hlow : |val x i| ≤ 281 * 2 ^ 54)
    (hhigh : |val x (i + 1)| ≤ 281 * 2 ^ 54) : ∃ carry, Carries 26 i x (carry26 x i) carry :=
  ⟨_, carries_of_quotient (d := 26) (by decide) hi (divBy226_spec _) hlow hhigh⟩

theorem carry25_spec {x : Limbs 19} {i : ℕ} (hi : i + 1 < 19) (hlow : |val x i| ≤ 281 * 2 ^ 54)
    (hhigh : |val x (i + 1)| ≤ 281 * 2 ^ 54) : ∃ carry, Carries 25 i x (carry25 x i) carry :=
  ⟨_, carries_of_quotient (d := 25) (by decide) hi (divBy225_spec _) hlow hhigh⟩

/-- Limbs before `i` are carried out, and only limb `i` has the carry of the one before it. -/
structure CarriedTo (start : Limbs 19) (i : ℕ) (x : Limbs 19) : Prop where
  done : ∀ k < i, |val x k| < 2 ^ (weight (k + 1) - weight k)
  here : |val x i - val start i| ≤ 281 * 2 ^ 29
  todo : ∀ k < 19, i < k → val x k = val start k
  value : radixValue weight 11 (val x) = radixValue weight 11 (val start)

theorem CarriedTo.step {start x y : Limbs 19} {i : ℕ} {carry : ℤ} (h : CarriedTo start i x)
    (hi : i < 10) (hlow : |val x i| ≤ 281 * 2 ^ 54)
    (hc : Carries (weight (i + 1) - weight i) i x y carry) : CarriedTo start (i + 1) y := by
  have hwidth : 25 ≤ weight (i + 1) - weight i ∧ weight i ≤ weight (i + 1) := by
    unfold weight
    omega
  refine ⟨?_, ?_, ?_, ?_⟩
  · intro k hk
    by_cases hki : k = i
    · rw [hki, hc.low]
      exact hc.quotient.rest
    · rw [hc.rest k (by omega) hki (by omega)]
      exact h.done k (by omega)
  · rw [hc.high, h.todo (i + 1) (by omega) (Nat.lt_succ_self i), add_sub_cancel_left]
    exact abs_over_le hwidth.1 hc.quotient hlow
  · intro k hk hlt
    rw [hc.rest k hk (by omega) (by omega)]
    exact h.todo k hk (by omega)
  · rw [← h.value]
    exact radixValue_carry (by omega) (Nat.add_sub_cancel' hwidth.2).symm hc.low hc.high
      fun k hk hne hne' => hc.rest k (by omega) hne hne'

/-- The entry of `freduce_coefficients`, with `output[10]` cleared. -/
structure Entry (start : Limbs 19) : Prop where
  bound : ∀ k < 10, |val start k| ≤ 280 * 2 ^ 54
  last : val start 10 = 0

theorem Entry.limb_le {start : Limbs 19} (h : Entry start) {k : ℕ} (hk : k < 11) :
    |val start k| ≤ 280 * 2 ^ 54 := by
  by_cases hlast : k = 10
  · rw [hlast, h.last]
    decide
  · exact h.bound k (by omega)

theorem CarriedTo.here_le {start x : Limbs 19} {i : ℕ} (h : CarriedTo start i x)
    (hstart : Entry start) (hi : i < 11) : |val x i| ≤ 281 * 2 ^ 54 := by
  have hsum := (abs_add_le (val x i - val start i) (val start i)).trans
    (add_le_add h.here (hstart.limb_le hi))
  rw [sub_add_cancel] at hsum
  exact hsum.trans (by decide)

theorem CarriedTo.next_le {start x : Limbs 19} {i : ℕ} (h : CarriedTo start i x)
    (hstart : Entry start) (hi : i < 10) : |val x (i + 1)| ≤ 281 * 2 ^ 54 := by
  rw [h.todo (i + 1) (by omega) (Nat.lt_succ_self i)]
  exact (hstart.limb_le (by omega)).trans (by decide)

/-- One round of the loop. -/
theorem CarriedTo.round {start x : Limbs 19} {i : ℕ} (h : CarriedTo start i x)
    (hstart : Entry start) (hi : i < 9) (heven : i % 2 = 0) :
    CarriedTo start (i + 2) (carry25 (carry26 x i) (i + 1)) := by
  have hfirst : weight (i + 1) - weight i = 26 := by
    unfold weight
    omega
  have hsecond : weight (i + 1 + 1) - weight (i + 1) = 25 := by
    unfold weight
    omega
  have hmiddle : CarriedTo start (i + 1) (carry26 x i) := by
    have hlow := h.here_le hstart (by omega)
    obtain ⟨carry, hc⟩ := carry26_spec (by omega) hlow (h.next_le hstart (by omega))
    exact h.step (by omega) hlow (hfirst ▸ hc)
  have hlow := hmiddle.here_le hstart (by omega)
  obtain ⟨carry, hc⟩ := carry25_spec (by omega) hlow (hmiddle.next_le hstart (by omega))
  exact hmiddle.step (by omega) hlow (hsecond ▸ hc)

theorem entry_of_shortForm {t : Limbs 19} {v : Fp} (h : ShortForm t v) :
    Entry (setLimb t 10 0) := by
  refine ⟨fun k hk => ?_, ?_⟩
  · rw [val_setLimb _ _ (by omega), if_neg (by omega)]
    exact h.bound k hk
  · rw [val_setLimb _ _ (by decide), if_pos rfl]
    rfl

/-- The value of the limbs before the loop, with `output[10]` cleared. -/
theorem value_entry {t : Limbs 19} {v : Fp} (h : ShortForm t v) :
    ((radixValue weight 11 (val (setLimb t 10 0)) : ℤ) : Fp) = v := by
  have hsame : ∀ k < 10, val (setLimb t 10 0) k = val t k := by
    intro k hk
    rw [val_setLimb _ _ (by omega), if_neg (by omega)]
  rw [radixValue_succ, (entry_of_shortForm h).last, zero_mul, add_zero, radixValue_congr hsame]
  exact h.value

/-- **All ten carries.** -/
theorem carriedTo_loop {start : Limbs 19} (hstart : Entry start) :
    CarriedTo start 10
      ([0, 2, 4, 6, 8].foldl (fun x i => carry25 (carry26 x i) (i + 1)) start) := by
  have hzero : CarriedTo start 0 start := by
    refine ⟨fun k hk => absurd hk (Nat.not_lt_zero k), ?_, fun _ _ _ => rfl, rfl⟩
    rw [sub_self, abs_zero]
    decide
  have htwo := hzero.round hstart (by decide) rfl
  have hfour := htwo.round hstart (by decide) rfl
  have hsix := hfour.round hstart (by decide) rfl
  have height := hsix.round hstart (by decide) rfl
  exact height.round hstart (by decide) rfl

/-- `output[10]`, nineteen times, onto `output[0]`. -/
def foldLast (output : Limbs 19) : Limbs 19 :=
  setLimb (setLimb output 0 (limb output 0 + (limb output 10 <<< 4) + (limb output 10 <<< 1) +
    limb output 10)) 10 0

theorem val_foldLast {start x : Limbs 19} (hstart : Entry start) (h : CarriedTo start 10 x) :
    val (foldLast x) 0 = val x 0 + 19 * val x 10 ∧
      ∀ k < 10, k ≠ 0 → val (foldLast x) k = val x k := by
  have hlast : |val x 10| ≤ 281 * 2 ^ 29 := by
    have hhere := h.here
    rwa [hstart.last, sub_zero] at hhere
  unfold foldLast
  refine ⟨?_, fun k hk hne => ?_⟩
  · rw [val_setLimb _ _ (by decide), if_neg (by decide), val_setLimb _ _ (by decide), if_pos rfl]
    exact nineteen_add ((h.done 0 (by decide)).le.trans (by decide)) (hlast.trans (by decide))
  · rw [val_setLimb _ _ (by omega), if_neg (by omega), val_setLimb _ _ (by omega), if_neg hne]

theorem abs_foldLast_le {start x : Limbs 19} (hstart : Entry start) (h : CarriedTo start 10 x) :
    |val (foldLast x) 0| ≤ 2 ^ 26 + 19 * (281 * 2 ^ 29) := by
  have hlow := h.done 0 (by decide)
  have hhere := h.here
  rw [hstart.last, sub_zero] at hhere
  rw [(val_foldLast hstart h).1]
  refine (abs_add_le _ _).trans (add_le_add hlow.le ?_)
  rw [abs_mul]
  exact mul_le_mul_of_nonneg_left hhere (by decide)

/-- The last carry goes to a limb of 25 bits, which stays below `2 ^ 26`. -/
theorem carry26_foldLast {start x : Limbs 19} (hstart : Entry start) (h : CarriedTo start 10 x) :
    (∀ k < 10, |val (carry26 (foldLast x) 0) k| < 2 ^ 26) ∧
      radixValue weight 10 (val (carry26 (foldLast x) 0)) =
        radixValue weight 10 (val (foldLast x)) := by
  obtain ⟨hzero, hrest⟩ := val_foldLast hstart h
  have hfirst := abs_foldLast_le hstart h
  have hsecond : |val (foldLast x) 1| < 2 ^ 25 := by
    rw [hrest 1 (by decide) (by decide)]
    exact h.done 1 (by decide)
  obtain ⟨carry, hc⟩ := carry26_spec (x := foldLast x) (i := 0) (by decide)
    (hfirst.trans (by decide)) (hsecond.le.trans (by decide))
  have hover : |carry| ≤ 2 ^ 16 := by
    have hle := hc.quotient.le.trans hfirst
    rw [abs_mul, abs_of_nonneg (by decide : (0 : ℤ) ≤ 2 ^ 26)] at hle
    omega
  refine ⟨fun k hk => ?_, ?_⟩
  · by_cases hk0 : k = 0
    · rw [hk0, hc.low]
      exact hc.quotient.rest
    · by_cases hk1 : k = 1
      · rw [hk1, hc.high]
        exact (abs_add_le _ _).trans_lt ((add_lt_add_of_lt_of_le hsecond hover).trans (by decide))
      · rw [hc.rest k (by omega) hk0 hk1, hrest k hk hk0]
        exact (h.done k hk).trans_le (pow_le_pow_right₀ (by decide) (width_le k))
  · exact radixValue_carry (by decide) rfl hc.low hc.high
      fun k hk hne hne' => hc.rest k (by omega) hne hne'

theorem value_foldLast {start x : Limbs 19} (hstart : Entry start) (h : CarriedTo start 10 x) :
    ((radixValue weight 10 (val (foldLast x)) : ℤ) : Fp) =
      ((radixValue weight 11 (val start) : ℤ) : Fp) := by
  obtain ⟨hzero, hrest⟩ := val_foldLast hstart h
  rw [← h.value, cast_radixValue, cast_radixValue]
  refine radixValue_wrap (m := 1) (n := 10) (d := 255) (c := 19) (by decide) ?_ two_pow_255 ?_ ?_
  · intro i _
    rw [Nat.add_comm]
    exact weight_ten i
  · intro i hi
    obtain rfl : i = 0 := Nat.lt_one_iff.mp hi
    rw [hzero]
    push_cast
    rfl
  · intro i hi hge
    rw [hrest i hi (Nat.one_le_iff_ne_zero.mp hge)]

theorem freduceCoefficients_spec {t : Limbs 19} {v : Fp} (h : ShortForm t v) :
    Bounded 26 (freduceCoefficients t) ∧ element (freduceCoefficients t) = v := by
  have hstart := entry_of_shortForm h
  have hloop := carriedTo_loop hstart
  have hlimb : ∀ k < 10, val (freduceCoefficients t) k = val (carry26 (foldLast
      ([0, 2, 4, 6, 8].foldl (fun x i => carry25 (carry26 x i) (i + 1)) (setLimb t 10 0))) 0) k :=
    fun k hk => val_limbsOf _ hk
  obtain ⟨hbound, hvalue⟩ := carry26_foldLast hstart hloop
  refine ⟨fun k hk => ?_, ?_⟩
  · rw [hlimb k hk]
    exact hbound k hk
  · unfold element
    rw [radixValue_congr hlimb, hvalue, value_foldLast hstart hloop]
    exact value_entry h

/-- `freduce_degree`, then `freduce_coefficients`. -/
theorem freduce_spec {t : Limbs 19} {v : ℤ} (h : LongForm t v) :
    Bounded 26 (freduceCoefficients (freduceDegree t)) ∧
      element (freduceCoefficients (freduceDegree t)) = (v : Fp) :=
  freduceCoefficients_spec (freduceDegree_spec h)

/-- **`fmul` is the product of the field.** -/
theorem fmul_spec {x y : Limbs 10} (hx : Bounded 27 x) (hy : Bounded 27 y) :
    Bounded 26 (fmul x y) ∧ element (fmul x y) = element x * element y := by
  obtain ⟨hbound, hvalue⟩ := freduce_spec (fproduct_spec hx hy)
  refine ⟨hbound, hvalue.trans ?_⟩
  exact Int.cast_mul _ _

/-- **`fsquare` is the square of the field.** -/
theorem fsquare_spec {x : Limbs 10} (hx : Bounded 27 x) :
    Bounded 26 (fsquare x) ∧ element (fsquare x) = element x ^ 2 := by
  obtain ⟨hbound, hvalue⟩ := freduce_spec (fsquareInner_spec hx)
  refine ⟨hbound, hvalue.trans ?_⟩
  rw [Int.cast_mul, ← sq]
  rfl

end GecRelay.Curve25519
