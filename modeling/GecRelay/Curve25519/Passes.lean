import GecRelay.Curve25519.Expand
import GecRelay.Foundation.CarryChain

/-!
# The passes of `fcontract`

`fcontract` makes the limbs non-negative by borrowing, then carries until each
of them fits its width, in words of 32 bits.

Two passes of borrows and two of carries are enough (`borrowPasses_spec`,
`carryPasses_spec`): what a second pass carries out of the last limb comes all
the way from the first one, which then has room for it. No word overflows, and
the field element stays.
-/

namespace GecRelay.Curve25519

open Foundation Finset

/-! ## The operations -/

abbrev Words : Type := List.Vector Int32 10

/-- The width of limb `i`. -/
def width (i : ℕ) : Int32 := if i % 2 = 1 then 25 else 26

def widthMask (i : ℕ) : Int32 := if i % 2 = 1 then 0x1ffffff else 0x3ffffff

/-- A borrow of limb `i` from the next. -/
def borrow (input : Words) (i : ℕ) : Words :=
  let mask := limb input i >>> 31
  let carry := -((limb input i &&& mask) >>> width i)
  let input := setLimb input i (limb input i + (carry <<< width i))
  setLimb input (i + 1) (limb input (i + 1) - carry)

/-- The borrow of the last limb from the first. -/
def borrowLast (input : Words) : Words :=
  let mask := limb input 9 >>> 31
  let carry := -((limb input 9 &&& mask) >>> 25)
  let input := setLimb input 9 (limb input 9 + (carry <<< 25))
  setLimb input 0 (limb input 0 - carry * 19)

def borrowPass (input : Words) : Words := borrowLast ((List.range 9).foldl borrow input)

/-- A carry from limb `i` to the next. -/
def carryOut (input : Words) (i : ℕ) : Words :=
  let carry := limb input i >>> width i
  let input := setLimb input i (limb input i &&& widthMask i)
  setLimb input (i + 1) (limb input (i + 1) + carry)

/-- The carry from the last limb to the first. -/
def carryLast (input : Words) : Words :=
  let carry := limb input 9 >>> 25
  let input := setLimb input 9 (limb input 9 &&& 0x1ffffff)
  setLimb input 0 (limb input 0 + 19 * carry)

def carryPass (input : Words) : Words := carryLast ((List.range 9).foldl carryOut input)

/-! ## Single borrows and carries -/

def word (x : Words) (i : ℕ) : ℤ := (limb x i).toInt

/-- The width of limb `i`. -/
def bits (i : ℕ) : ℕ := weight (i + 1) - weight i

theorem bits_eq (i : ℕ) : bits i = if i % 2 = 1 then 25 else 26 := by
  unfold bits weight
  split <;> omega

theorem bits_cases (i : ℕ) : bits i = 25 ∨ bits i = 26 := by
  rw [bits_eq]
  split
  · exact Or.inl rfl
  · exact Or.inr rfl

theorem width_eq (i : ℕ) : width i = Int32.ofNat (bits i) := by
  unfold width
  rw [bits_eq]
  split <;> rfl

theorem widthMask_eq (i : ℕ) : widthMask i = Int32.ofNat (2 ^ bits i - 1) := by
  unfold widthMask
  rw [bits_eq]
  split <;> rfl

/-- What a borrow takes from the next limb, as a carry. -/
def borrowed (i : ℕ) (v : ℤ) : ℤ := min v 0 / 2 ^ bits i

/-- What a carry takes to the next limb. -/
def carriedOut (i : ℕ) (v : ℤ) : ℤ := v / 2 ^ bits i

theorem borrowed_le {i : ℕ} {v : ℤ} (hv : |v| ≤ 2 ^ 28) : |borrowed i v| ≤ 8 := by
  obtain ⟨hlo, hhi⟩ := abs_le.mp hv
  unfold borrowed
  rcases bits_cases i with hb | hb <;> rw [hb] <;> exact abs_le.mpr ⟨by omega, by omega⟩

theorem carriedOut_le {i : ℕ} {v : ℤ} (hv : |v| ≤ 2 ^ 28) : |carriedOut i v| ≤ 8 := by
  obtain ⟨hlo, hhi⟩ := abs_le.mp hv
  unfold carriedOut
  rcases bits_cases i with hb | hb <;> rw [hb] <;> exact abs_le.mpr ⟨by omega, by omega⟩

theorem word_setLimb (x : Words) {i j : ℕ} (v : Int32) (hi : i < 10) :
    word (setLimb x i v) j = if j = i then v.toInt else word x j := by
  unfold word
  by_cases hj : j < 10
  · rw [limb_setLimb x v hj]
    split <;> rfl
  · rw [limb_of_le _ (Nat.not_lt.mp hj), limb_of_le _ (Nat.not_lt.mp hj), if_neg (by omega)]

/-- The carry of a borrow, negated. -/
theorem toInt_borrow {v : Int32} {i : ℕ} (hv : |v.toInt| ≤ 2 ^ 28) :
    (-((v &&& (v >>> 31)) >>> Int32.ofNat (bits i))).toInt = -borrowed i v.toInt := by
  have hmask : (v &&& (v >>> 31)).toInt = min v.toInt 0 := by
    rw [int32_sign]
    split
    · next hneg => rw [min_eq_left hneg.le]; exact congrArg Int32.toInt (Int32.and_neg_one)
    · next hneg => rw [min_eq_right (not_lt.mp hneg), Int32.and_zero]; rfl
  have hsar : ((v &&& (v >>> 31)) >>> Int32.ofNat (bits i)).toInt = borrowed i v.toInt := by
    rw [int32_sar _ (by rcases bits_cases i with hb | hb <;> rw [hb] <;> decide), hmask]
    rfl
  rw [int32_neg, hsar]
  rw [hsar]
  exact (borrowed_le hv).trans_lt (by decide)

theorem borrow_low {v : Int32} {i : ℕ} (hv : |v.toInt| ≤ 2 ^ 28) :
    (v + ((-((v &&& (v >>> 31)) >>> Int32.ofNat (bits i))) <<< Int32.ofNat (bits i))).toInt =
      v.toInt - borrowed i v.toInt * 2 ^ bits i := by
  have hcarry := toInt_borrow (i := i) hv
  have hle : |-borrowed i v.toInt * 2 ^ bits i| ≤ 8 * 2 ^ 26 := by
    rw [abs_mul, abs_neg, abs_of_nonneg (by positivity : (0 : ℤ) ≤ 2 ^ bits i)]
    exact mul_le_mul (borrowed_le hv) (pow_le_pow_right₀ (by decide) (width_le i)) (by positivity)
      (by decide)
  have hshl : ((-((v &&& (v >>> 31)) >>> Int32.ofNat (bits i))) <<< Int32.ofNat (bits i)).toInt =
      -borrowed i v.toInt * 2 ^ bits i := by
    rw [int32_shl (by rcases bits_cases i with hb | hb <;> rw [hb] <;> decide), hcarry]
    rw [hcarry]
    exact hle.trans_lt (by decide)
  rw [int32_add, hshl]
  · ring
  · rw [hshl]
    exact (abs_add_le _ _).trans_lt ((add_le_add hv hle).trans_lt (by decide))

/-- The two limbs that a borrow or a carry writes. -/
theorem carryStep_of_limbs {q : ℕ → ℤ → ℤ} {x : Words} {i : ℕ} {u v : Int32} (hi : i < 9)
    (hlow : u.toInt = word x i - q i (word x i) * 2 ^ bits i)
    (hhigh : v.toInt = word x (i + 1) + q i (word x i)) :
    CarryStep q bits word i x (setLimb (setLimb x i u) (i + 1) v) := by
  refine ⟨?_, ?_, fun j hj hj' => ?_⟩
  · rw [word_setLimb _ _ (by omega), if_neg (Nat.succ_ne_self i).symm,
      word_setLimb _ _ (by omega), if_pos rfl, hlow]
  · rw [word_setLimb _ _ (by omega), if_pos rfl, hhigh]
  · rw [word_setLimb _ _ (by omega), if_neg hj', word_setLimb _ _ (by omega), if_neg hj]

theorem limb_setLimb_succ (x : Words) {i : ℕ} (u : Int32) (hi : i < 9) :
    limb (setLimb x i u) (i + 1) = limb x (i + 1) := by
  rw [limb_setLimb _ _ (by omega), if_neg (Nat.succ_ne_self i)]

theorem borrow_step {x : Words} {i : ℕ} (hi : i < 9) (hlow : |word x i| ≤ 2 ^ 28)
    (hhigh : |word x (i + 1)| ≤ 2 ^ 28) : CarryStep borrowed bits word i x (borrow x i) := by
  have hcarry := toInt_borrow (i := i) hlow
  unfold borrow
  dsimp only
  rw [width_eq, limb_setLimb_succ _ _ hi]
  refine carryStep_of_limbs hi (borrow_low hlow) ?_
  rw [int32_sub, ← word, hcarry, sub_neg_eq_add]
  · rfl
  · rw [hcarry, sub_neg_eq_add]
    exact (abs_add_le _ _).trans_lt ((add_le_add hhigh (borrowed_le hlow)).trans_lt (by decide))

/-- The limb and the quotient that a carry leaves. -/
theorem toInt_carry {v : Int32} {i : ℕ} :
    (v &&& Int32.ofNat (2 ^ bits i - 1)).toInt = v.toInt - carriedOut i v.toInt * 2 ^ bits i ∧
      (v >>> Int32.ofNat (bits i)).toInt = carriedOut i v.toInt := by
  have hlt : bits i < 31 := by
    have hle : bits i ≤ 26 := width_le i
    omega
  refine ⟨?_, int32_sar v (by omega)⟩
  rw [int32_mask v hlt, Int.emod_def, mul_comm]
  rfl

theorem carryOut_step {x : Words} {i : ℕ} (hi : i < 9) (hlow : |word x i| ≤ 2 ^ 28)
    (hhigh : |word x (i + 1)| ≤ 2 ^ 28) : CarryStep carriedOut bits word i x (carryOut x i) := by
  obtain ⟨hmask, hcarry⟩ := toInt_carry (v := limb x i) (i := i)
  unfold carryOut
  dsimp only
  rw [width_eq, widthMask_eq, limb_setLimb_succ _ _ hi]
  refine carryStep_of_limbs hi hmask ?_
  rw [int32_add, hcarry]
  · rfl
  · rw [hcarry]
    exact (abs_add_le _ _).trans_lt ((add_le_add hhigh (carriedOut_le hlow)).trans_lt (by decide))

/-! ## Passes -/

/-- The limbs after a pass, whose last carry comes back to the first limb 19-fold. -/
def pass (q : ℕ → ℤ → ℤ) (x : ℕ → ℤ) (i : ℕ) : ℤ :=
  carried q bits x i + if i = 0 then 19 * carryInto q x 10 else 0

theorem weight_succ (i : ℕ) : weight (i + 1) = weight i + bits i :=
  (Nat.add_sub_cancel' (weight_mono i)).symm

/-- **A pass leaves the field element.** -/
theorem value_pass (q : ℕ → ℤ → ℤ) (x : ℕ → ℤ) :
    ((radixValue weight 10 (pass q x) : ℤ) : Fp) = ((radixValue weight 10 x : ℤ) : Fp) := by
  have hchain := radixValue_carried q bits x weight_succ 10
  have hfirst : radixValue weight 10 (pass q x) =
      radixValue weight 10 (carried q bits x) + 19 * carryInto q x 10 := by
    rw [radixValue_change (x := carried q bits x) (k := 0) (by decide)]
    · unfold pass
      rw [if_pos rfl, add_sub_cancel_left]
      exact congrArg _ (mul_one _)
    · intro i _ hi
      unfold pass
      rw [if_neg hi, add_zero]
  have htop : (((2 : ℤ) ^ weight 10 : ℤ) : Fp) = 19 := (Int.cast_pow 2 255).trans two_pow_255
  rw [hfirst, ← hchain, Int.cast_add, Int.cast_add, Int.cast_mul, Int.cast_mul, htop, mul_comm]
  rfl

theorem carryInto_le {q : ℕ → ℤ → ℤ} (hq : ∀ i v, |v| ≤ 2 ^ 28 → |q i v| ≤ 8) {x : ℕ → ℤ}
    (hx : ∀ i < 10, |x i| ≤ 2 ^ 27) : ∀ i ≤ 10, |carryInto q x i| ≤ 8 := by
  intro i
  induction i with
  | zero =>
      unfold carryInto
      rw [abs_zero]
      exact fun _ => by decide
  | succ i ih =>
      intro hi
      refine hq i _ ((abs_add_le _ _).trans ?_)
      exact (add_le_add (hx i (by omega)) (ih (by omega))).trans (by decide)

/-- A loop of borrows or of carries, up to the last limb. -/
theorem loop_pass {q : ℕ → ℤ → ℤ} (next : Words → ℕ → Words) {x : Words}
    (hq : ∀ i v, |v| ≤ 2 ^ 28 → |q i v| ≤ 8) (hx : ∀ i < 10, |word x i| ≤ 2 ^ 27)
    (hnext : ∀ {t : Words} {i : ℕ}, i < 9 → |word t i| ≤ 2 ^ 28 → |word t (i + 1)| ≤ 2 ^ 28 →
      CarryStep q bits word i t (next t i)) :
    PassedTo q bits word (word x) 9 ((List.range 9).foldl next x) := by
  refine foldl_carry fun i hi t ht => hnext hi ?_ ?_
  · rw [ht.here]
    refine (abs_add_le _ _).trans ?_
    exact (add_le_add (hx i (by omega)) (carryInto_le hq hx i (by omega))).trans (by decide)
  · rw [ht.todo (i + 1) (Nat.lt_succ_self i)]
    exact (hx (i + 1) (by omega)).trans (by decide)

/-- The last carry of a pass, over the limbs that the loop leaves. -/
theorem word_last {q : ℕ → ℤ → ℤ} {x t : Words} {u v : Int32}
    (ht : PassedTo q bits word (word x) 9 t)
    (hlow : u.toInt = word t 9 - q 9 (word t 9) * 2 ^ bits 9)
    (hhigh : v.toInt = word t 0 + 19 * q 9 (word t 9)) {i : ℕ} (hi : i < 10) :
    word (setLimb (setLimb t 9 u) 0 v) i = pass q (word x) i := by
  have hlast : carryInto q (word x) 10 = q 9 (word t 9) := by
    rw [ht.here]
    rfl
  have hnine : word t 9 = word x 9 + carryInto q (word x) 9 := ht.here
  unfold pass
  rw [word_setLimb _ _ (by decide), word_setLimb _ _ (by decide)]
  by_cases hzero : i = 0
  · rw [if_pos hzero, if_pos hzero, hhigh, hzero, hlast, ht.done 0 (by decide)]
  · rw [if_neg hzero, if_neg hzero, add_zero]
    by_cases hi9 : i = 9
    · rw [if_pos hi9, hlow, hi9]
      unfold carried
      rw [hlast, hnine]
    · rw [if_neg hi9]
      exact ht.done i (by omega)

theorem here_le {q : ℕ → ℤ → ℤ} {x t : Words} (hq : ∀ i v, |v| ≤ 2 ^ 28 → |q i v| ≤ 8)
    (hx : ∀ i < 10, |word x i| ≤ 2 ^ 27) (ht : PassedTo q bits word (word x) 9 t) :
    |word t 9| ≤ 2 ^ 28 := by
  rw [ht.here]
  refine (abs_add_le _ _).trans ?_
  exact (add_le_add (hx 9 (by decide)) (carryInto_le hq hx 9 (by decide))).trans (by decide)

/-- The first limb after the loop. -/
theorem first_le {q : ℕ → ℤ → ℤ} {x t : Words} (hq : ∀ i v, |v| ≤ 2 ^ 28 → |q i v| ≤ 8)
    (hx : ∀ i < 10, |word x i| ≤ 2 ^ 27) (ht : PassedTo q bits word (word x) 9 t) :
    |word t 0| ≤ 2 ^ 30 := by
  have hone := carryInto_le hq hx 1 (by decide)
  have hprod : |carryInto q (word x) 1 * 2 ^ bits 0| ≤ 8 * 2 ^ 26 := by
    rw [abs_mul]
    exact mul_le_mul_of_nonneg_right hone (by decide)
  rw [ht.done 0 (by decide)]
  unfold carried
  rw [show carryInto q (word x) 0 = 0 from rfl, add_zero]
  exact (abs_sub _ _).trans ((add_le_add (hx 0 (by decide)) hprod).trans (by decide))

/-- A first limb that takes `19 c`. -/
theorem nineteen_le {a c : ℤ} (ha : |a| ≤ 2 ^ 30) (hc : |c| ≤ 8) :
    |c * 19| < 2 ^ 31 ∧ |a + c * 19| < 2 ^ 31 := by
  obtain ⟨hlo, hhi⟩ := abs_le.mp ha
  obtain ⟨hlo', hhi'⟩ := abs_le.mp hc
  exact ⟨abs_lt.mpr ⟨by omega, by omega⟩, abs_lt.mpr ⟨by omega, by omega⟩⟩

theorem word_borrowPass {x : Words} (hx : ∀ i < 10, |word x i| ≤ 2 ^ 27) {i : ℕ} (hi : i < 10) :
    word (borrowPass x) i = pass borrowed (word x) i := by
  have ht := loop_pass borrow (fun _ _ => borrowed_le) hx borrow_step
  have hnine := here_le (fun _ _ => borrowed_le) hx ht
  have hzero := first_le (fun _ _ => borrowed_le) hx ht
  unfold borrowPass
  generalize (List.range 9).foldl borrow x = t at ht hnine hzero
  have hcarry : (-((limb t 9 &&& (limb t 9 >>> 31)) >>> 25)).toInt = -borrowed 9 (word t 9) :=
    toInt_borrow (i := 9) hnine
  obtain ⟨hprod, hsum⟩ := nineteen_le hzero (borrowed_le (i := 9) hnine)
  have hmul : (-((limb t 9 &&& (limb t 9 >>> 31)) >>> 25) * 19).toInt =
      -borrowed 9 (word t 9) * 19 := by
    rw [int32_mul, hcarry]
    · rfl
    · rw [hcarry, neg_mul, abs_neg]
      exact hprod
  unfold borrowLast
  dsimp only
  rw [limb_setLimb _ _ (by decide), if_neg (by decide)]
  refine word_last ht (borrow_low (i := 9) hnine) ?_ hi
  have hsub : word t 0 - -borrowed 9 (word t 9) * 19 = word t 0 + borrowed 9 (word t 9) * 19 := by
    ring
  rw [int32_sub, hmul, mul_comm 19]
  · exact hsub
  · rw [hmul]
    exact (congrArg _ hsub).trans_lt hsum

theorem word_carryPass {x : Words} (hx : ∀ i < 10, |word x i| ≤ 2 ^ 27) {i : ℕ} (hi : i < 10) :
    word (carryPass x) i = pass carriedOut (word x) i := by
  have ht := loop_pass carryOut (fun _ _ => carriedOut_le) hx carryOut_step
  have hnine := here_le (fun _ _ => carriedOut_le) hx ht
  have hzero := first_le (fun _ _ => carriedOut_le) hx ht
  unfold carryPass
  generalize (List.range 9).foldl carryOut x = t at ht hnine hzero
  obtain ⟨hmask, hcarry⟩ := toInt_carry (v := limb t 9) (i := 9)
  obtain ⟨hprod, hsum⟩ := nineteen_le hzero (carriedOut_le (i := 9) hnine)
  have hquot : (limb t 9 >>> (25 : Int32)).toInt = carriedOut 9 (word t 9) := hcarry
  have hmul : (19 * (limb t 9 >>> (25 : Int32))).toInt = carriedOut 9 (word t 9) * 19 := by
    rw [int32_mul, hquot, mul_comm]
    · rfl
    · rw [hquot, mul_comm]
      exact hprod
  unfold carryLast
  dsimp only
  rw [limb_setLimb _ _ (by decide), if_neg (by decide)]
  refine word_last ht hmask ?_ hi
  rw [int32_add, hmul, mul_comm]
  · rfl
  · rw [hmul]
    exact hsum

/-! ## What two passes leave -/

/-- The limbs of `fcontract` after the borrows. -/
def NonNegative (x : ℕ → ℤ) : Prop := ∀ i < 10, 0 ≤ x i ∧ x i < 2 ^ 26

/-- The limbs of `fcontract` after the carries. -/
def Reduced (x : ℕ → ℤ) : Prop := ∀ i < 10, 0 ≤ x i ∧ x i < 2 ^ bits i

/-- A limb after a borrow. -/
theorem borrow_range {i : ℕ} {v : ℤ} (hv : v < 2 ^ 26) :
    0 ≤ v - borrowed i v * 2 ^ bits i ∧ v - borrowed i v * 2 ^ bits i < 2 ^ 26 := by
  unfold borrowed
  rcases bits_cases i with hb | hb <;> rw [hb] <;> exact ⟨by omega, by omega⟩

theorem first_borrows {x : ℕ → ℤ} (hx : ∀ i < 10, |x i| < 2 ^ 26) :
    ∀ i ≤ 10, -3 ≤ carryInto borrowed x i ∧ carryInto borrowed x i ≤ 0 := by
  intro i
  induction i with
  | zero => exact fun _ => ⟨Int.le.intro 3 rfl, le_rfl⟩
  | succ i ih =>
      intro hi
      obtain ⟨hlo, hhi⟩ := ih (by omega)
      obtain ⟨hlo', hhi'⟩ := abs_lt.mp (hx i (by omega))
      show -3 ≤ borrowed i (x i + carryInto borrowed x i) ∧
        borrowed i (x i + carryInto borrowed x i) ≤ 0
      generalize carryInto borrowed x i = c at hlo hhi
      unfold borrowed
      rcases bits_cases i with hb | hb <;> rw [hb] <;> exact ⟨by omega, by omega⟩

/-- After the first pass only the first limb may be negative. -/
theorem first_borrowPass {x : ℕ → ℤ} (hx : ∀ i < 10, |x i| < 2 ^ 26) :
    -57 ≤ pass borrowed x 0 ∧ ∀ i < 10, pass borrowed x i < 2 ^ 26 ∧
      (i ≠ 0 → 0 ≤ pass borrowed x i) := by
  have hrange : ∀ i < 10, 0 ≤ carried borrowed bits x i ∧ carried borrowed bits x i < 2 ^ 26 := by
    intro i hi
    have hhi := (first_borrows hx i hi.le).2
    have hlt := (abs_lt.mp (hx i hi)).2
    exact borrow_range (i := i) (by omega)
  obtain ⟨hlo, hhi⟩ := first_borrows hx 10 le_rfl
  unfold pass
  refine ⟨?_, fun i hi => ⟨?_, fun hne => ?_⟩⟩
  · rw [if_pos rfl]
    have hzero := (hrange 0 (by decide)).1
    omega
  · have hlt := (hrange i hi).2
    split <;> omega
  · rw [if_neg hne, add_zero]
    exact (hrange i hi).1

/-- A second pass borrows at most one from each limb, and only when it does from the
first one. -/
theorem second_borrows {x : ℕ → ℤ} (hzero : -57 ≤ x 0) (hx : ∀ i < 10, i ≠ 0 → 0 ≤ x i) :
    ∀ i < 10, (carryInto borrowed x (i + 1) = 0 ∨ carryInto borrowed x (i + 1) = -1 ∧ x 0 < 0) := by
  intro i
  induction i with
  | zero =>
      intro _
      show borrowed 0 (x 0 + 0) = 0 ∨ borrowed 0 (x 0 + 0) = -1 ∧ x 0 < 0
      unfold borrowed
      rw [bits_eq, if_neg (by decide)]
      omega
  | succ i ih =>
      intro hi
      have hnonneg := hx (i + 1) hi (Nat.succ_ne_zero i)
      have hprev := ih (by omega)
      show borrowed (i + 1) (x (i + 1) + carryInto borrowed x (i + 1)) = 0 ∨
        borrowed (i + 1) (x (i + 1) + carryInto borrowed x (i + 1)) = -1 ∧ x 0 < 0
      generalize carryInto borrowed x (i + 1) = c at hprev
      unfold borrowed
      rcases bits_cases (i + 1) with hb | hb <;> rw [hb] <;> omega

/-- **The second pass leaves no negative limb**: a borrow that comes out of the last
limb comes from the first, which has got `2 ^ 26`. -/
theorem second_borrowPass {x : ℕ → ℤ} (hzero : -57 ≤ x 0)
    (hx : ∀ i < 10, x i < 2 ^ 26 ∧ (i ≠ 0 → 0 ≤ x i)) : NonNegative (pass borrowed x) := by
  have hcarry := second_borrows hzero fun i hi => (hx i hi).2
  have hnonpos : ∀ i < 10, carryInto borrowed x i ≤ 0 := by
    intro i hi
    by_cases hi0 : i = 0
    · rw [hi0]
      exact le_rfl
    · have hprev := hcarry (i - 1) (by omega)
      rw [Nat.sub_add_cancel (Nat.one_le_iff_ne_zero.mpr hi0)] at hprev
      omega
  intro i hi
  have hrange := borrow_range (i := i) (v := x i + carryInto borrowed x i)
    (by have hlt := (hx i hi).1; have hle := hnonpos i hi; omega)
  unfold pass
  by_cases hi0 : i = 0
  · subst hi0
    rw [if_pos rfl]
    rcases hcarry 9 (by decide) with hlast | ⟨hlast, hneg⟩
    · rw [hlast, mul_zero, add_zero]
      exact hrange
    · rw [hlast]
      have hfirst : carryInto borrowed x 1 = -1 := by
        show borrowed 0 (x 0 + 0) = -1
        unfold borrowed
        rw [bits_eq, if_neg (by decide)]
        omega
      unfold carried
      rw [hfirst, show carryInto borrowed x 0 = 0 from rfl, bits_eq, if_neg (by decide)]
      omega
  · rw [if_neg hi0, add_zero]
    exact hrange

/-- A limb after a carry. -/
theorem carry_range (i : ℕ) (v : ℤ) :
    0 ≤ v - carriedOut i v * 2 ^ bits i ∧ v - carriedOut i v * 2 ^ bits i < 2 ^ bits i := by
  unfold carriedOut
  rcases bits_cases i with hb | hb <;> rw [hb] <;> exact ⟨by omega, by omega⟩

theorem first_carries {x : ℕ → ℤ} (hx : NonNegative x) :
    ∀ i ≤ 10, 0 ≤ carryInto carriedOut x i ∧ carryInto carriedOut x i ≤ 2 := by
  intro i
  induction i with
  | zero => exact fun _ => ⟨le_rfl, Int.le.intro 2 rfl⟩
  | succ i ih =>
      intro hi
      obtain ⟨hlo, hhi⟩ := ih (by omega)
      obtain ⟨hlo', hhi'⟩ := hx i (by omega)
      show 0 ≤ carriedOut i (x i + carryInto carriedOut x i) ∧
        carriedOut i (x i + carryInto carriedOut x i) ≤ 2
      generalize carryInto carriedOut x i = c at hlo hhi
      unfold carriedOut
      rcases bits_cases i with hb | hb <;> rw [hb] <;> exact ⟨by omega, by omega⟩

/-- After the first pass only the first limb may be too wide. -/
theorem first_carryPass {x : ℕ → ℤ} (hx : NonNegative x) :
    0 ≤ pass carriedOut x 0 ∧ pass carriedOut x 0 < 2 ^ 26 + 38 ∧
      ∀ i < 10, i ≠ 0 → 0 ≤ pass carriedOut x i ∧ pass carriedOut x i < 2 ^ bits i := by
  obtain ⟨hlo, hhi⟩ := first_carries hx 10 le_rfl
  obtain ⟨hzero, hlt⟩ := carry_range 0 (x 0 + carryInto carriedOut x 0)
  have hbits : (2 : ℤ) ^ bits 0 = 2 ^ 26 := rfl
  have hfirst : pass carriedOut x 0 = x 0 + carryInto carriedOut x 0 -
      carriedOut 0 (x 0 + carryInto carriedOut x 0) * 2 ^ bits 0 +
        19 * carryInto carriedOut x 10 := rfl
  refine ⟨by omega, by omega, fun i _ hne => ?_⟩
  unfold pass
  rw [if_neg hne, add_zero]
  exact carry_range i (x i + carryInto carriedOut x i)

/-- A second pass carries at most one from each limb, and only when it does from the
first one. -/
theorem second_carries {x : ℕ → ℤ} (hzero : 0 ≤ x 0 ∧ x 0 < 2 ^ 26 + 38)
    (hx : ∀ i < 10, i ≠ 0 → 0 ≤ x i ∧ x i < 2 ^ bits i) :
    ∀ i < 10, (carryInto carriedOut x (i + 1) = 0 ∨
      carryInto carriedOut x (i + 1) = 1 ∧ 2 ^ 26 ≤ x 0) := by
  intro i
  induction i with
  | zero =>
      intro _
      show carriedOut 0 (x 0 + 0) = 0 ∨ carriedOut 0 (x 0 + 0) = 1 ∧ 2 ^ 26 ≤ x 0
      unfold carriedOut
      rw [bits_eq, if_neg (by decide)]
      omega
  | succ i ih =>
      intro hi
      obtain ⟨hlo, hhi⟩ := hx (i + 1) hi (Nat.succ_ne_zero i)
      have hprev := ih (by omega)
      show carriedOut (i + 1) (x (i + 1) + carryInto carriedOut x (i + 1)) = 0 ∨
        carriedOut (i + 1) (x (i + 1) + carryInto carriedOut x (i + 1)) = 1 ∧ 2 ^ 26 ≤ x 0
      generalize carryInto carriedOut x (i + 1) = c at hprev
      unfold carriedOut
      rcases bits_cases (i + 1) with hb | hb <;> rw [hb] at hhi ⊢ <;> omega

/-- **The second pass leaves every limb in its width**: a carry that comes out of the
last limb comes from the first, which is small after it. -/
theorem second_carryPass {x : ℕ → ℤ} (hzero : 0 ≤ x 0 ∧ x 0 < 2 ^ 26 + 38)
    (hx : ∀ i < 10, i ≠ 0 → 0 ≤ x i ∧ x i < 2 ^ bits i) : Reduced (pass carriedOut x) := by
  intro i hi
  have hrange := carry_range i (x i + carryInto carriedOut x i)
  unfold pass
  by_cases hi0 : i = 0
  · subst hi0
    rw [if_pos rfl]
    rcases second_carries hzero hx 9 (by decide) with hlast | ⟨hlast, hwide⟩
    · rw [hlast, mul_zero, add_zero]
      exact hrange
    · have hfirst : carryInto carriedOut x 1 = 1 := by
        show carriedOut 0 (x 0 + 0) = 1
        unfold carriedOut
        rw [bits_eq, if_neg (by decide)]
        omega
      unfold carried
      rw [hlast, hfirst, show carryInto carriedOut x 0 = 0 from rfl, bits_eq, if_neg (by decide)]
      omega
  · rw [if_neg hi0, add_zero]
    exact hrange

/-- The words between two passes are small. -/
theorem abs_le_of_range {v a b : ℤ} (hlo : -a ≤ v) (hhi : v < b) (ha : a ≤ 2 ^ 27)
    (hb : b ≤ 2 ^ 27) : |v| ≤ 2 ^ 27 := abs_le.mpr ⟨by omega, by omega⟩

theorem borrowPasses_spec {x : Words} (hx : ∀ i < 10, |word x i| < 2 ^ 26) :
    NonNegative (word (borrowPass (borrowPass x))) ∧
      ((radixValue weight 10 (word (borrowPass (borrowPass x))) : ℤ) : Fp) =
        ((radixValue weight 10 (word x) : ℤ) : Fp) := by
  have hfirst : ∀ i < 10, word (borrowPass x) i = pass borrowed (word x) i :=
    fun i hi => word_borrowPass (fun i hi => (hx i hi).le.trans (by decide)) hi
  obtain ⟨hzero, hrest⟩ := first_borrowPass hx
  rw [← hfirst 0 (by decide)] at hzero
  have hrest' : ∀ i < 10, word (borrowPass x) i < 2 ^ 26 ∧ (i ≠ 0 → 0 ≤ word (borrowPass x) i) := by
    intro i hi
    rw [hfirst i hi]
    exact hrest i hi
  have hsmall : ∀ i < 10, |word (borrowPass x) i| ≤ 2 ^ 27 := by
    intro i hi
    obtain ⟨hlt, hnonneg⟩ := hrest' i hi
    by_cases hi0 : i = 0
    · rw [hi0] at hlt ⊢
      exact abs_le_of_range hzero hlt (by decide) (by decide)
    · exact abs_le_of_range (a := 0) (hnonneg hi0) hlt (by decide) (by decide)
  have hsecond : ∀ i < 10, word (borrowPass (borrowPass x)) i =
      pass borrowed (word (borrowPass x)) i := fun i hi => word_borrowPass hsmall hi
  refine ⟨fun i hi => ?_, ?_⟩
  · rw [hsecond i hi]
    exact second_borrowPass hzero hrest' i hi
  · rw [radixValue_congr hsecond, value_pass, radixValue_congr hfirst, value_pass]

/-- The third borrow from the first limb does nothing. -/
theorem word_borrow_zero {x : Words} (hx : NonNegative (word x)) {i : ℕ} :
    word (borrow x 0) i = word x i := by
  have habs : ∀ j < 10, |word x j| ≤ 2 ^ 28 := fun j hj =>
    abs_le.mpr ⟨by have h := (hx j hj).1; omega, by have h := (hx j hj).2; omega⟩
  have hstep := borrow_step (x := x) (i := 0) (by decide) (habs 0 (by decide)) (habs 1 (by decide))
  have hnone : borrowed 0 (word x 0) = 0 := by
    unfold borrowed
    rw [min_eq_right (hx 0 (by decide)).1, Int.zero_ediv]
  by_cases hzero : i = 0
  · rw [hzero, hstep.low, hnone, zero_mul, sub_zero]
  · by_cases hone : i = 1
    · rw [hone, hstep.high, hnone, add_zero]
    · exact hstep.rest i hzero hone

theorem carryPasses_spec {x : Words} (hx : NonNegative (word x)) :
    Reduced (word (carryPass (carryPass x))) ∧
      ((radixValue weight 10 (word (carryPass (carryPass x))) : ℤ) : Fp) =
        ((radixValue weight 10 (word x) : ℤ) : Fp) := by
  have hfirst : ∀ i < 10, word (carryPass x) i = pass carriedOut (word x) i := fun i hi =>
    word_carryPass (fun i hi => abs_le_of_range (a := 0) (hx i hi).1 (hx i hi).2 (by decide)
      (by decide)) hi
  obtain ⟨hzero, hzero', hrest⟩ := first_carryPass hx
  rw [← hfirst 0 (by decide)] at hzero hzero'
  have hrest' : ∀ i < 10, i ≠ 0 → 0 ≤ word (carryPass x) i ∧ word (carryPass x) i < 2 ^ bits i := by
    intro i hi
    rw [hfirst i hi]
    exact hrest i hi
  have hsmall : ∀ i < 10, |word (carryPass x) i| ≤ 2 ^ 27 := by
    intro i hi
    by_cases hi0 : i = 0
    · rw [hi0]
      exact abs_le_of_range (a := 0) hzero hzero' (by decide) (by decide)
    · obtain ⟨hlo, hhi⟩ := hrest' i hi hi0
      refine abs_le_of_range (a := 0) hlo hhi (by decide) ?_
      exact pow_le_pow_right₀ (by decide) ((width_le i).trans (by decide))
  have hsecond : ∀ i < 10, word (carryPass (carryPass x)) i =
      pass carriedOut (word (carryPass x)) i := fun i hi => word_carryPass hsmall hi
  refine ⟨fun i hi => ?_, ?_⟩
  · rw [hsecond i hi]
    exact second_carryPass ⟨hzero, hzero'⟩ hrest' i hi
  · rw [radixValue_congr hsecond, value_pass, radixValue_congr hfirst, value_pass]

end GecRelay.Curve25519
