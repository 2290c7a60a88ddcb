import GecRelay.Curve25519.Passes

/-!
# Contracting limbs into a byte string

`fcontract` runs the passes of borrows and carries, subtracts the prime when
what is left is not below it, and writes the bytes. The bytes are the least
number of the field element (`fcontract_spec`).
-/

namespace GecRelay.Curve25519

open Foundation Finset

/-! ## The operations -/

def s32Eq (a b : Int32) : Int32 :=
  let a := ~~~(a ^^^ b)
  let a := a &&& (a <<< 16)
  let a := a &&& (a <<< 8)
  let a := a &&& (a <<< 4)
  let a := a &&& (a <<< 2)
  let a := a &&& (a <<< 1)
  a >>> 31

def s32Gte (a b : Int32) : Int32 :=
  let a := a - b
  ~~~(a >>> 31)

/-- `mask`: all ones when the limbs are `2 ^ 255 - 19` or more. -/
def topMask (input : Words) : Int32 :=
  ((List.range 9).map (· + 1)).foldl (fun mask i => mask &&& s32Eq (limb input i) (widthMask i))
    (s32Gte (limb input 0) 0x3ffffed)

def subtractTop (input : Words) : Words :=
  let mask := topMask input
  limbsOf fun i => limb input i - (mask &&& if i = 0 then 0x3ffffed else widthMask i)

/-- `F(i, s)`. -/
def packLimb (output : Bytes 32) (s : ℕ) (v : Int32) : Bytes 32 :=
  let byte := fun k : Int32 => ((v >>> k) &&& 0xff).toUInt32.toUInt8
  let output := setLimb output s (limb output s ||| byte 0)
  let output := setLimb output (s + 1) (byte 8)
  let output := setLimb output (s + 2) (byte 16)
  setLimb output (s + 3) (byte 24)

/-- The shifts of the limbs and the bytes of `output`. -/
def packLimbs (output : Bytes 32) (input : Words) : Bytes 32 :=
  let output := setLimb (setLimb output 0 0) 16 0
  let output := packLimb output 0 (limb input 0)
  let output := packLimb output 3 (limb input 1 <<< 2)
  let output := packLimb output 6 (limb input 2 <<< 3)
  let output := packLimb output 9 (limb input 3 <<< 5)
  let output := packLimb output 12 (limb input 4 <<< 6)
  let output := packLimb output 16 (limb input 5)
  let output := packLimb output 19 (limb input 6 <<< 1)
  let output := packLimb output 22 (limb input 7 <<< 3)
  let output := packLimb output 25 (limb input 8 <<< 4)
  packLimb output 28 (limb input 9 <<< 6)

def fcontract (output : Bytes 32) (inputLimbs : Limbs 10) : Bytes 32 :=
  let input : Words := limbsOf fun i => (limb inputLimbs i).toInt32
  let input := borrowPass (borrowPass input)
  let input := borrow input 0
  let input := carryPass (carryPass input)
  let input := subtractTop input
  packLimbs output input

/-! ## Masks -/

section Masks

/-- The upper `n` bits are set. -/
def TopBits (n : ℕ) (x : BitVec 32) : Prop := ∀ j, 32 - n ≤ j → j < 32 → x.getLsbD j = true

/-- A shift by `n` that is and-ed on. -/
theorem topBits_and_shift {n : ℕ} (hn : 2 * n ≤ 32) (x : BitVec 32) :
    TopBits n (x &&& x <<< n) ↔ TopBits (2 * n) x := by
  unfold TopBits
  have hbit : ∀ j, j < 32 → n ≤ j →
      ((x &&& x <<< n).getLsbD j = true ↔ x.getLsbD j = true ∧ x.getLsbD (j - n) = true) := by
    intro j hj hnj
    rw [BitVec.getLsbD_and, BitVec.getLsbD_shiftLeft, Bool.and_eq_true, decide_eq_true hj,
      decide_eq_false (Nat.not_lt.mpr hnj), Bool.not_false, Bool.true_and, Bool.true_and]
  constructor
  · intro h j hlo hhi
    by_cases htop : 32 - n ≤ j
    · exact ((hbit j hhi (by omega)).mp (h j htop hhi)).1
    · have hshift := ((hbit (j + n) (by omega) (by omega)).mp (h (j + n) (by omega) (by omega))).2
      rwa [Nat.add_sub_cancel] at hshift
  · intro h j hlo hhi
    exact (hbit j hhi (by omega)).mpr ⟨h j (by omega) hhi, h (j - n) (by omega) (by omega)⟩

theorem topBits_one (a : Int32) : TopBits 1 a.toBitVec ↔ a.toInt < 0 := by
  have hmsb : a.toBitVec.getLsbD 31 = true ↔ a.toInt < 0 := by
    rw [← BitVec.msb_eq_getLsbD_last, BitVec.msb_eq_toInt, Int32.toInt_toBitVec,
      decide_eq_true_iff]
  rw [← hmsb]
  constructor
  · exact fun h => h 31 (by decide) (by decide)
  · intro h j hlo hhi
    obtain rfl : j = 31 := by omega
    exact h

theorem topBits_all (x : BitVec 32) : TopBits 32 x ↔ x = BitVec.allOnes 32 := by
  constructor
  · intro h
    refine BitVec.eq_of_getLsbD_eq fun j hj => ?_
    rw [h j (by omega) hj, BitVec.getLsbD_allOnes, decide_eq_true hj]
  · intro h j _ hhi
    rw [h, BitVec.getLsbD_allOnes, decide_eq_true hhi]

/-- One round of `s32_eq`. -/
theorem topBits_round {n : ℕ} (hn : 0 < n ∧ 2 * n ≤ 32) (a : Int32) :
    TopBits n (a &&& (a <<< Int32.ofNat n)).toBitVec ↔ TopBits (2 * n) a.toBitVec := by
  rw [Int32.toBitVec_and, toBitVec_shl32 a (by omega)]
  exact topBits_and_shift hn.2 _

/-- **`s32_eq` compares.** -/
theorem s32Eq_eq (a b : Int32) : s32Eq a b = if a = b then -1 else 0 := by
  have hiff : TopBits 32 (~~~(a ^^^ b)).toBitVec ↔ a = b := by
    rw [topBits_all, ← Int32.xor_eq_zero_iff, ← Int32.toBitVec_inj, Int32.toBitVec_not]
    constructor
    · intro h
      rw [← BitVec.not_not (b := (a ^^^ b).toBitVec), h, BitVec.not_allOnes]
      rfl
    · intro h
      rw [h]
      rfl
  unfold s32Eq
  dsimp only
  rw [int32_sign]
  refine if_congr (Iff.trans (topBits_one _).symm ?_) rfl rfl
  rw [← hiff]
  refine (topBits_round (n := 1) (by decide) _).trans ?_
  refine (topBits_round (n := 2) (by decide) _).trans ?_
  refine (topBits_round (n := 4) (by decide) _).trans ?_
  refine (topBits_round (n := 8) (by decide) _).trans ?_
  exact topBits_round (n := 16) (by decide) _

/-- **`s32_gte` compares** numbers that are not negative. -/
theorem s32Gte_eq {a b : Int32} (ha : 0 ≤ a.toInt) (hb : 0 ≤ b.toInt) :
    s32Gte a b = if b.toInt ≤ a.toInt then -1 else 0 := by
  have ha' := Int32.toInt_lt a
  have hb' := Int32.toInt_lt b
  have hsub : (a - b).toInt = a.toInt - b.toInt :=
    int32_sub (abs_lt.mpr ⟨by omega, by omega⟩)
  unfold s32Gte
  dsimp only
  rw [int32_sign, hsub]
  by_cases hle : b.toInt ≤ a.toInt
  · rw [if_pos hle, if_neg (by omega), Int32.not_zero]
  · rw [if_neg hle, if_pos (by omega), Int32.not_neg_one]

/-- A mask out of several comparisons. -/
theorem foldl_mask (P : ℕ → Prop) [DecidablePred P] (l : List ℕ) (Q : Prop) [Decidable Q] :
    l.foldl (fun (mask : Int32) i => mask &&& if P i then -1 else 0) (if Q then -1 else 0) =
      if Q ∧ ∀ i ∈ l, P i then -1 else 0 := by
  induction l generalizing Q with
  | nil => exact if_congr (by simp) rfl rfl
  | cons i l ih =>
      have hand : ((if Q then -1 else 0 : Int32) &&& if P i then -1 else 0) =
          if Q ∧ P i then -1 else 0 := by
        by_cases hQ : Q
        · by_cases hP : P i <;> simp [hQ, hP]
        · simp [hQ]
      rw [List.foldl_cons, hand, ih]
      refine if_congr ?_ rfl rfl
      rw [List.forall_mem_cons, and_assoc]

end Masks

/-! ## The subtraction of the prime -/

/-- The limbs of `2 ^ 255 - 19`. -/
def top (i : ℕ) : ℤ := if i = 0 then 2 ^ 26 - 19 else 2 ^ bits i - 1

theorem value_top : radixValue weight 10 top = p25519 := by
  decide

/-- The limbs are those of the prime, or the first one is more. -/
def AtTop (x : ℕ → ℤ) : Prop := top 0 ≤ x 0 ∧ ∀ i < 10, i ≠ 0 → x i = top i

instance decidableAtTop (x : ℕ → ℤ) : Decidable (AtTop x) :=
  inferInstanceAs (Decidable (top 0 ≤ x 0 ∧ ∀ i < 10, i ≠ 0 → x i = top i))

theorem topMask_eq {x : Words} (hx : Reduced (word x)) :
    topMask x = if AtTop (word x) then -1 else 0 := by
  have hgte : s32Gte (limb x 0) 0x3ffffed = if top 0 ≤ word x 0 then -1 else 0 :=
    s32Gte_eq (hx 0 (by decide)).1 (by decide)
  have heq : ∀ i, s32Eq (limb x i) (widthMask i) = if word x i = 2 ^ bits i - 1 then -1 else 0 := by
    intro i
    have hmask : (widthMask i).toInt = 2 ^ bits i - 1 := by
      rw [widthMask_eq]
      rcases bits_cases i with hb | hb <;> rw [hb] <;> rfl
    rw [s32Eq_eq, ← hmask]
    exact if_congr Int32.toInt_inj.symm rfl rfl
  unfold topMask
  simp only [hgte, heq]
  rw [foldl_mask]
  refine if_congr ?_ rfl rfl
  unfold AtTop
  refine and_congr_right fun _ => ?_
  constructor
  · intro h i hi hne
    rw [h i (by simp only [List.mem_map, List.mem_range]; exact ⟨i - 1, by omega, by omega⟩)]
    exact (if_neg hne).symm
  · intro h i hi
    obtain ⟨j, hj, rfl⟩ := List.mem_map.mp hi
    have hj := List.mem_range.mp hj
    rw [h (j + 1) (by omega) (Nat.succ_ne_zero j)]
    exact if_neg (Nat.succ_ne_zero j)

theorem word_subtractTop {x : Words} (hx : Reduced (word x)) {i : ℕ} (hi : i < 10) :
    word (subtractTop x) i = if AtTop (word x) then word x i - top i else word x i := by
  have hval : (if i = 0 then 0x3ffffed else widthMask i : Int32).toInt = top i := by
    unfold top
    by_cases hzero : i = 0
    · rw [if_pos hzero, if_pos hzero]
      rfl
    · rw [if_neg hzero, if_neg hzero, widthMask_eq]
      rcases bits_cases i with hb | hb <;> rw [hb] <;> rfl
  have hlimb : word (subtractTop x) i =
      (limb x i - (topMask x &&& if i = 0 then 0x3ffffed else widthMask i)).toInt :=
    congrArg Int32.toInt (limb_limbsOf _ hi)
  rw [hlimb, topMask_eq hx]
  by_cases htop : AtTop (word x)
  · have hsmall : |word x i - top i| < 2 ^ 31 := by
      obtain ⟨hlo, hhi⟩ := hx i hi
      unfold top
      rcases bits_cases i with hb | hb <;> rw [hb] at hhi ⊢ <;> split <;>
        exact abs_lt.mpr ⟨by omega, by omega⟩
    rw [if_pos htop, if_pos htop, Int32.neg_one_and, int32_sub, hval]
    · rfl
    · rw [hval]
      exact hsmall
  · rw [if_neg htop, if_neg htop, Int32.zero_and, Int32.sub_zero]
    rfl

/-- Limbs that reach the prime are those of the prime, or the first one is more. -/
theorem atTop_of_le {x : ℕ → ℤ} (hx : Reduced x) (h : (p25519 : ℤ) ≤ radixValue weight 10 x) :
    AtTop x := by
  have hterm : ∀ i < 10, 0 ≤ (2 ^ bits i - 1 - x i) * 2 ^ weight i := by
    intro i hi
    have hlt := (hx i hi).2
    exact mul_nonneg (by omega) (by positivity)
  have hsum : radixValue weight 10 (fun i => 2 ^ bits i - 1 - x i) ≤ 18 := by
    have hall : radixValue weight 10 (fun i => (2 : ℤ) ^ bits i - 1) = p25519 + 18 := by decide
    rw [radixValue_sub weight 10 (fun i => 2 ^ bits i - 1) x, hall]
    omega
  have hle : ∀ i < 10, (2 ^ bits i - 1 - x i) * 2 ^ weight i ≤ 18 := fun i hi =>
    (single_le_sum (fun j hj => hterm j (mem_range.mp hj)) (mem_range.mpr hi)).trans hsum
  refine ⟨?_, fun i hi hne => ?_⟩
  · have hzero := hle 0 (by decide)
    have hbits : (2 : ℤ) ^ bits 0 = 2 ^ 26 := rfl
    have htop : top 0 = 2 ^ 26 - 19 := rfl
    rw [show weight 0 = 0 from rfl, pow_zero, mul_one] at hzero
    omega
  · have hweight : 26 ≤ weight i := by
      unfold weight
      omega
    have hpow : (2 : ℤ) ^ 26 ≤ 2 ^ weight i := pow_le_pow_right₀ (by decide) hweight
    have hlt := (hx i hi).2
    have hzero : 2 ^ bits i - 1 - x i = 0 := by
      by_contra hpos
      have hone : 1 ≤ 2 ^ bits i - 1 - x i := by omega
      have hbig := mul_le_mul hone hpow (by decide) (by omega)
      have hsmall := hle i hi
      omega
    unfold top
    rw [if_neg hne]
    omega

/-- **The number below the prime.** -/
theorem subtractTop_spec {x : Words} (hx : Reduced (word x)) :
    Reduced (word (subtractTop x)) ∧
      radixValue weight 10 (word (subtractTop x)) < p25519 ∧
      ((radixValue weight 10 (word (subtractTop x)) : ℤ) : Fp) =
        ((radixValue weight 10 (word x) : ℤ) : Fp) := by
  by_cases htop : AtTop (word x)
  · have hword : ∀ i < 10, word (subtractTop x) i = word x i - top i := fun i hi =>
      (word_subtractTop hx hi).trans (if_pos htop)
    have hrest : ∀ i < 10, i ≠ 0 → word (subtractTop x) i = 0 := by
      intro i hi hne
      rw [hword i hi, htop.2 i hi hne, sub_self]
    have hzero := hword 0 (by decide)
    have hlo := htop.1
    have hhi := (hx 0 (by decide)).2
    have htop0 : top 0 = 2 ^ 26 - 19 := rfl
    have hbits : (2 : ℤ) ^ bits 0 = 2 ^ 26 := rfl
    have hvalue : radixValue weight 10 (word (subtractTop x)) = word (subtractTop x) 0 := by
      have hchange := radixValue_change (w := weight) (n := 10) (k := 0) (x := fun _ => (0 : ℤ))
        (y := word (subtractTop x)) (by decide) hrest
      have hnone : radixValue weight 10 (fun _ => (0 : ℤ)) = 0 := by decide
      rw [hchange, hnone, zero_add, sub_zero, show weight 0 = 0 from rfl, pow_zero, mul_one]
    refine ⟨fun i hi => ?_, ?_, ?_⟩
    · by_cases hi0 : i = 0
      · rw [hi0]
        omega
      · rw [hrest i hi hi0]
        exact ⟨le_rfl, by positivity⟩
    · rw [hvalue]
      have hp : (2 : ℤ) ^ 26 ≤ p25519 := by decide
      omega
    · rw [radixValue_congr hword, radixValue_sub, value_top, Int.cast_sub, Int.cast_natCast,
        ZMod.natCast_self, sub_zero]
  · have hword : ∀ i < 10, word (subtractTop x) i = word x i := fun i hi =>
      (word_subtractTop hx hi).trans (if_neg htop)
    refine ⟨fun i hi => ?_, ?_, ?_⟩
    · rw [hword i hi]
      exact hx i hi
    · rw [radixValue_congr hword]
      exact not_le.mp fun hle => htop (atTop_of_le hx hle)
    · rw [radixValue_congr hword]

/-! ## The bytes -/

/-- A byte of a word. -/
theorem toNat_byteOf (v : Int32) {k : ℕ} (hk : k ∈ [0, 8, 16, 24]) :
    ((v >>> Int32.ofNat k) &&& 0xff).toUInt32.toUInt8.toNat = v.toBitVec.toNat / 2 ^ k % 256 := by
  have hlt := v.toBitVec.isLt
  have hmask : ((v >>> Int32.ofNat k) &&& 0xff).toInt = v.toInt / 2 ^ k % 2 ^ 8 := by
    rw [← int32_sar v (by fin_cases hk <;> decide)]
    exact int32_mask (v >>> Int32.ofNat k) (k := 8) (by decide)
  have hword : v.toInt / 2 ^ k % 2 ^ 8 = ((v.toBitVec.toNat / 2 ^ k % 256 : ℕ) : ℤ) := by
    rw [← Int32.toInt_toBitVec, BitVec.toInt_eq_toNat_cond]
    fin_cases hk <;> split <;> omega
  generalize (v >>> Int32.ofNat k) &&& 0xff = b at hmask
  have hbyte : b.toBitVec.toNat = v.toBitVec.toNat / 2 ^ k % 256 := by
    rw [hword, ← Int32.toInt_toBitVec, BitVec.toInt_eq_toNat_cond] at hmask
    have hb := b.toBitVec.isLt
    split at hmask <;> omega
  show b.toUInt32.toUInt8.toNat = _
  rw [UInt32.toNat_toUInt8]
  show b.toBitVec.toNat % 2 ^ 8 = _
  rw [hbyte]
  exact Nat.mod_mod _ _

/-- The bits of a word. -/
def unsigned (v : Int32) : ℕ := v.toBitVec.toNat

theorem limb_packLimb_low (output : Bytes 32) {s j : ℕ} (v : Int32) (hj : j < s) (hs : s + 4 ≤ 32) :
    limb (packLimb output s v) j = limb output j := by
  unfold packLimb
  dsimp only
  rw [limb_setLimb _ _ (by omega), if_neg (by omega), limb_setLimb _ _ (by omega),
    if_neg (by omega), limb_setLimb _ _ (by omega), if_neg (by omega), limb_setLimb _ _ (by omega),
    if_neg (by omega)]

theorem limb_packLimb_high (output : Bytes 32) {s j : ℕ} (v : Int32) (hj : s + 4 ≤ j)
    (hj' : j < 32) : limb (packLimb output s v) j = limb output j := by
  unfold packLimb
  dsimp only
  rw [limb_setLimb _ _ hj', if_neg (by omega), limb_setLimb _ _ hj', if_neg (by omega),
    limb_setLimb _ _ hj', if_neg (by omega), limb_setLimb _ _ hj', if_neg (by omega)]

/-- The four bytes of `packLimb`. -/
theorem window_packLimb (output : Bytes 32) {s : ℕ} (v : Int32) (hs : s + 4 ≤ 32) :
    window (packLimb output s v) s =
      ((limb output s).toNat ||| unsigned v % 256) + unsigned v / 2 ^ 8 % 256 * 2 ^ 8 +
        unsigned v / 2 ^ 16 % 256 * 2 ^ 16 + unsigned v / 2 ^ 24 % 256 * 2 ^ 24 := by
  have hzero : limb (packLimb output s v) s =
      limb output s ||| ((v >>> 0) &&& 0xff).toUInt32.toUInt8 := by
    unfold packLimb
    dsimp only
    rw [limb_setLimb _ _ (by omega), if_neg (by omega), limb_setLimb _ _ (by omega),
      if_neg (by omega), limb_setLimb _ _ (by omega), if_neg (by omega),
      limb_setLimb _ _ (by omega), if_pos rfl]
  have hone : limb (packLimb output s v) (s + 1) = ((v >>> 8) &&& 0xff).toUInt32.toUInt8 := by
    unfold packLimb
    dsimp only
    rw [limb_setLimb _ _ (by omega), if_neg (by omega), limb_setLimb _ _ (by omega),
      if_neg (by omega), limb_setLimb _ _ (by omega), if_pos rfl]
  have htwo : limb (packLimb output s v) (s + 2) = ((v >>> 16) &&& 0xff).toUInt32.toUInt8 := by
    unfold packLimb
    dsimp only
    rw [limb_setLimb _ _ (by omega), if_neg (by omega), limb_setLimb _ _ (by omega), if_pos rfl]
  have hthree : limb (packLimb output s v) (s + 3) = ((v >>> 24) &&& 0xff).toUInt32.toUInt8 := by
    unfold packLimb
    dsimp only
    rw [limb_setLimb _ _ (by omega), if_pos rfl]
  have hbyte : ((v >>> 0) &&& 0xff).toUInt32.toUInt8.toNat = unsigned v % 256 :=
    (toNat_byteOf v (k := 0) (by decide)).trans (by rw [pow_zero, Nat.div_one]; rfl)
  have hbyte8 : ((v >>> 8) &&& 0xff).toUInt32.toUInt8.toNat = unsigned v / 2 ^ 8 % 256 :=
    toNat_byteOf v (k := 8) (by decide)
  have hbyte16 : ((v >>> 16) &&& 0xff).toUInt32.toUInt8.toNat = unsigned v / 2 ^ 16 % 256 :=
    toNat_byteOf v (k := 16) (by decide)
  have hbyte24 : ((v >>> 24) &&& 0xff).toUInt32.toUInt8.toNat = unsigned v / 2 ^ 24 % 256 :=
    toNat_byteOf v (k := 24) (by decide)
  rw [window_eq, hzero, hone, htwo, hthree, UInt8.toNat_or, hbyte, hbyte8, hbyte16, hbyte24]

/-- **A word goes on top of the bytes below it**, when its low bits are free where they
are not. -/
theorem prefixValue_packLimb {output : Bytes 32} {s t a : ℕ} {v : Int32} (hs : s + 4 ≤ 32)
    (ht : t ≤ 8) (hlow : prefixValue output (s + 1) < 2 ^ (8 * s + t))
    (hv : unsigned v = a * 2 ^ t) :
    prefixValue (packLimb output s v) (s + 4) =
      prefixValue output (s + 1) + unsigned v * 2 ^ (8 * s) := by
  have hbefore : prefixValue output (s + 1) =
      prefixValue output s + (limb output s).toNat * 2 ^ (8 * s) := radixValue_succ _ s _
  have hsplit : prefixValue (packLimb output s v) (s + 4) =
      prefixValue (packLimb output s v) s + 2 ^ (8 * s) * window (packLimb output s v) s :=
    radixValue_split _ fun i _ => Nat.mul_add 8 s i
  have hsame : prefixValue (packLimb output s v) s = prefixValue output s :=
    radixValue_congr fun j hj => congrArg UInt8.toNat (limb_packLimb_low output v hj hs)
  have hbits : (limb output s).toNat < 2 ^ t := by
    rw [hbefore, pow_add, Nat.mul_comm (2 ^ (8 * s))] at hlow
    exact lt_of_mul_lt_mul_right ((Nat.le_add_left _ _).trans_lt hlow) (Nat.zero_le _)
  have hor : ((limb output s).toNat ||| unsigned v % 256) =
      (limb output s).toNat + unsigned v % 256 := by
    have hpow : 2 ^ (8 - t) * 2 ^ t = 256 := by
      rw [← pow_add, Nat.sub_add_cancel ht]
      rfl
    have hmod : unsigned v % 256 = a % 2 ^ (8 - t) * 2 ^ t := by
      rw [hv, ← hpow, Nat.mul_mod_mul_right]
    rw [hmod, ← Nat.shiftLeft_eq, or_shift hbits, Nat.shiftLeft_eq]
  have hlt : unsigned v < 2 ^ 32 := v.toBitVec.isLt
  have hwindow : window (packLimb output s v) s = (limb output s).toNat + unsigned v := by
    rw [window_packLimb output v hs, hor]
    omega
  rw [hsplit, hsame, hwindow, hbefore]
  ring

/-- The number of the limbs below `i`. -/
def lowValue (x : Words) (i : ℕ) : ℕ := radixValue weight i fun j => (word x j).toNat

theorem toNat_word_lt {x : Words} (hx : Reduced (word x)) {i : ℕ} (hi : i < 10) :
    (word x i).toNat < 2 ^ bits i := by
  obtain ⟨hlo, hhi⟩ := hx i hi
  exact (Int.toNat_lt hlo).mpr (by exact_mod_cast hhi)

theorem unsigned_limb {x : Words} (hx : Reduced (word x)) {i : ℕ} (hi : i < 10) :
    unsigned (limb x i) = (word x i).toNat := by
  have hlo := (hx i hi).1
  have hlt := (limb x i).toBitVec.isLt
  have hword : word x i = unsigned (limb x i) := by
    unfold word at hlo ⊢
    unfold unsigned
    rw [← Int32.toInt_toBitVec, BitVec.toInt_eq_toNat_cond] at hlo ⊢
    split at hlo <;> omega
  rw [hword, Int.toNat_natCast]

theorem unsigned_shl {x : Words} (hx : Reduced (word x)) {i t : ℕ} (hi : i < 10) (ht : t ≤ 6) :
    unsigned (limb x i <<< Int32.ofNat t) = (word x i).toNat * 2 ^ t := by
  have hbits : (word x i).toNat * 2 ^ t < 2 ^ 32 :=
    calc (word x i).toNat * 2 ^ t < 2 ^ bits i * 2 ^ t :=
          Nat.mul_lt_mul_of_pos_right (toNat_word_lt hx hi) (Nat.two_pow_pos t)
      _ = 2 ^ (bits i + t) := (pow_add 2 _ _).symm
      _ ≤ 2 ^ 32 := Nat.pow_le_pow_right (by decide) (Nat.add_le_add (width_le i) ht)
  unfold unsigned
  rw [toBitVec_shl32 _ (by omega), BitVec.toNat_shiftLeft, Nat.shiftLeft_eq, ← unsigned,
    unsigned_limb hx hi, Nat.mod_eq_of_lt hbits]

/-- One `F(i, s)`: the bytes of the limbs below `i + 1` stand. -/
theorem packLimb_spec {output : Bytes 32} {x : Words} {i s t : ℕ} {v : Int32}
    (hx : Reduced (word x)) (hi : i < 10) (hs : s + 4 ≤ 32) (ht : t ≤ 8)
    (hweight : weight i = 8 * s + t) (hv : unsigned v = (word x i).toNat * 2 ^ t)
    (h : prefixValue output (s + 1) = lowValue x i) :
    prefixValue (packLimb output s v) (s + 4) = lowValue x (i + 1) := by
  have hlow : lowValue x i < 2 ^ weight i :=
    radixValue_lt weight_mono fun j hj => toNat_word_lt hx (by omega)
  have hsucc : lowValue x (i + 1) = lowValue x i + (word x i).toNat * 2 ^ weight i :=
    radixValue_succ weight i _
  rw [prefixValue_packLimb hs ht (by rw [h, ← hweight]; exact hlow) hv, h, hsucc, hv, hweight]
  ring

theorem littleEndian_packLimbs (output : Bytes 32) {x : Words} (hx : Reduced (word x)) :
    littleEndian (packLimbs output x) = lowValue x 10 := by
  unfold packLimbs
  dsimp only
  have hstart : prefixValue (setLimb (setLimb output 0 0) 16 0) 1 = lowValue x 0 := by
    unfold prefixValue
    rw [radixValue_succ, limb_setLimb _ _ (by decide), if_neg (by decide),
      limb_setLimb _ _ (by decide), if_pos rfl]
    rfl
  have hmid : limb (setLimb (setLimb output 0 0) 16 0) 16 = 0 := by
    rw [limb_setLimb _ _ (by decide), if_pos rfl]
  generalize setLimb (setLimb output 0 0) 16 0 = output at hstart hmid ⊢
  have h0 := packLimb_spec (s := 0) (t := 0) hx (by decide) (by decide) (by decide) rfl
    ((unsigned_limb hx (by decide)).trans (Nat.mul_one _).symm) hstart
  rw [← limb_packLimb_high output (limb x 0) (s := 0) (by decide) (by decide)] at hmid
  generalize packLimb output 0 (limb x 0) = output at h0 hmid ⊢
  have h1 := packLimb_spec (s := 3) (t := 2) hx (by decide) (by decide) (by decide) rfl
    (unsigned_shl hx (by decide) (by decide)) h0
  rw [← limb_packLimb_high output (limb x 1 <<< 2) (s := 3) (by decide) (by decide)] at hmid
  generalize packLimb output 3 (limb x 1 <<< 2) = output at h1 hmid ⊢
  have h2 := packLimb_spec (s := 6) (t := 3) hx (by decide) (by decide) (by decide) rfl
    (unsigned_shl hx (by decide) (by decide)) h1
  rw [← limb_packLimb_high output (limb x 2 <<< 3) (s := 6) (by decide) (by decide)] at hmid
  generalize packLimb output 6 (limb x 2 <<< 3) = output at h2 hmid ⊢
  have h3 := packLimb_spec (s := 9) (t := 5) hx (by decide) (by decide) (by decide) rfl
    (unsigned_shl hx (by decide) (by decide)) h2
  rw [← limb_packLimb_high output (limb x 3 <<< 5) (s := 9) (by decide) (by decide)] at hmid
  generalize packLimb output 9 (limb x 3 <<< 5) = output at h3 hmid ⊢
  have h4 := packLimb_spec (s := 12) (t := 6) hx (by decide) (by decide) (by decide) rfl
    (unsigned_shl hx (by decide) (by decide)) h3
  rw [← limb_packLimb_high output (limb x 4 <<< 6) (s := 12) (by decide) (by decide)] at hmid
  generalize packLimb output 12 (limb x 4 <<< 6) = output at h4 hmid ⊢
  -- Limb 5 starts a byte of its own, which was cleared.
  have hclear : prefixValue output 17 = lowValue x 5 := by
    unfold prefixValue at h4 ⊢
    rw [radixValue_succ, h4, hmid]
    exact Nat.add_eq_left.mpr (Nat.zero_mul _)
  have h5 := packLimb_spec (s := 16) (t := 0) hx (by decide) (by decide) (by decide) rfl
    ((unsigned_limb hx (by decide)).trans (Nat.mul_one _).symm) hclear
  have h6 := packLimb_spec (s := 19) (t := 1) hx (by decide) (by decide) (by decide) rfl
    (unsigned_shl hx (by decide) (by decide)) h5
  have h7 := packLimb_spec (s := 22) (t := 3) hx (by decide) (by decide) (by decide) rfl
    (unsigned_shl hx (by decide) (by decide)) h6
  have h8 := packLimb_spec (s := 25) (t := 4) hx (by decide) (by decide) (by decide) rfl
    (unsigned_shl hx (by decide) (by decide)) h7
  exact packLimb_spec (s := 28) (t := 6) hx (by decide) (by decide) (by decide) rfl
    (unsigned_shl hx (by decide) (by decide)) h8

theorem lowValue_eq {x : Words} (hx : Reduced (word x)) :
    (lowValue x 10 : ℤ) = radixValue weight 10 (word x) := by
  unfold lowValue
  rw [natCast_radixValue]
  exact radixValue_congr fun i hi => Int.toNat_of_nonneg (hx i hi).1

/-- **The bytes are the least number of the field element.** -/
theorem fcontract_spec (output : Bytes 32) {x : Limbs 10} (hx : Bounded 26 x) :
    littleEndian (fcontract output x) = (element x).val := by
  have hword : ∀ i < 10, word (limbsOf fun i => (limb x i).toInt32) i = val x i := by
    intro i hi
    unfold word
    rw [limb_limbsOf _ hi, Int64.toInt_toInt32]
    exact bmod_of_abs_lt 31 ((hx i hi).trans (by decide))
  obtain ⟨hnonneg, hborrow⟩ := borrowPasses_spec (x := limbsOf fun i => (limb x i).toInt32)
    fun i hi => by rw [hword i hi]; exact hx i hi
  rw [radixValue_congr hword] at hborrow
  unfold fcontract
  dsimp only
  generalize borrowPass (borrowPass (limbsOf fun i => (limb x i).toInt32)) = a at hnonneg hborrow ⊢
  have hthird : NonNegative (word (borrow a 0)) := by
    intro i hi
    rw [word_borrow_zero hnonneg]
    exact hnonneg i hi
  obtain ⟨hreduced, hcarry⟩ := carryPasses_spec hthird
  rw [radixValue_congr fun i _ => word_borrow_zero hnonneg, hborrow] at hcarry
  generalize carryPass (carryPass (borrow a 0)) = b at hreduced hcarry ⊢
  obtain ⟨htop, hlt, hvalue⟩ := subtractTop_spec hreduced
  have hlow := lowValue_eq htop
  have hcast : ((lowValue (subtractTop b) 10 : ℕ) : Fp) = element x := by
    rw [← Int.cast_natCast, hlow, hvalue, hcarry]
    rfl
  rw [← hlow] at hlt
  rw [littleEndian_packLimbs _ htop, ← hcast, ZMod.val_natCast_of_lt (by exact_mod_cast hlt)]

end GecRelay.Curve25519
