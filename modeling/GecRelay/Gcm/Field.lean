import GecRelay.Gec.Primitives
import GecRelay.Foundation.BinaryQuotient
import Mathlib.Data.List.GetD
import Mathlib.Tactic.ComputeDegree

/-!
# The field of GCM: the shifts of `gf_mul_lo.h`

A `gf_t` holds a binary polynomial modulo `x^128 + x^7 + x^2 + x + 1` in the
representation `GF_MODE_LB`: the coefficient of `x^p` is bit `7 - p % 8` of
byte `p / 8`. The shifts work on four 32-bit units of a little-endian machine,
the reduction comes from `gf_tab`. The element a buffer stands for is
`gfElem`, and `gf_mulx1` and `gf_mulx8` multiply it by powers of `x`
(`gfElem_gfMulx1Lb`, `gfElem_gfMulx8Lb`).
-/

namespace GecRelay

open Foundation Polynomial

abbrev GfT : Type := Bytes 16

/-- `UI8_PTR(x)[i]`. -/
def gfByte (x : GfT) (i : ℕ) : UInt8 := x.toList.getD i 0

def gfOf (f : ℕ → UInt8) : GfT := List.Vector.ofFn fun i => f i

theorem gfByte_eq_get (x : GfT) (i : Fin 16) : gfByte x i = x.get i := by
  unfold gfByte
  rw [List.Vector.get_eq_get_toList, List.getD_eq_getElem?_getD]
  simp

@[simp] theorem gfByte_gfOf (f : ℕ → UInt8) {i : ℕ} (hi : i < 16) : gfByte (gfOf f) i = f i := by
  have h := gfByte_eq_get (gfOf f) ⟨i, hi⟩
  rw [gfOf, List.Vector.get_ofFn] at h
  exact h

theorem gf_ext {x y : GfT} (h : ∀ i < 16, gfByte x i = gfByte y i) : x = y := by
  apply List.Vector.ext
  intro i
  rw [← gfByte_eq_get, ← gfByte_eq_get]
  exact h i i.isLt

@[simp] theorem gfByte_zeros (i : ℕ) : gfByte (zeros 16) i = 0 := by
  show (List.replicate 16 (0 : UInt8)).getD i 0 = 0
  by_cases hi : i < 16
  · rw [List.getD_replicate _ hi]
  · rw [List.getD_eq_default]
    simpa using hi

/-- `xor_block` and `xor_block_aligned`: the units of the second are the same
sixteen bytes. -/
def xorBlock (p q : GfT) : GfT := gfOf fun i => gfByte p i ^^^ gfByte q i

@[simp] theorem gfByte_xorBlock (p q : GfT) {i : ℕ} (hi : i < 16) :
    gfByte (xorBlock p q) i = gfByte p i ^^^ gfByte q i := gfByte_gfOf _ hi

/-! ## Units -/

/-- `UNIT_PTR(x)[n]`, four bytes in memory order from the low end. -/
def unitPtr (x : GfT) (n : ℕ) : BitVec 32 :=
  (gfByte x (4 * n + 3)).toBitVec ++ (gfByte x (4 * n + 2)).toBitVec ++
    (gfByte x (4 * n + 1)).toBitVec ++ (gfByte x (4 * n)).toBitVec

/-- The buffer whose units are given. -/
def ofUnits (u : ℕ → BitVec 32) : GfT :=
  gfOf fun i => UInt8.ofBitVec ((u (i / 4)).extractLsb' (8 * (i % 4)) 8)

/-- `MASK(b)`, the byte `b` in every byte of a unit. -/
def unitMask (b : BitVec 32) : BitVec 32 := b * (0xffffffff / 0xff)

/-- `f1_lb(n, r, x)`. -/
def f1Lb (x : ℕ → BitVec 32) (n : ℕ) : BitVec 32 :=
  (x n >>> 1) &&& ~~~unitMask 0x80 |||
    ((x n <<< 15) ||| (if n ≠ 0 then x (n - 1) >>> 17 else 0)) &&& unitMask 0x80

/-- `f8_lb(n, r, x)`. -/
def f8Lb (x : ℕ → BitVec 32) (n : ℕ) : BitVec 32 :=
  (x n <<< 8) ||| (if n ≠ 0 then x (n - 1) >>> 24 else 0)

/-- `gf_uint16_xor(i)` with `ord(hi, lo)` of a little-endian machine. -/
def gfUint16Xor (i : BitVec 32) : BitVec 16 :=
  (if i &&& 0x80 ≠ 0 then 0x00e1 else 0) ^^^ (if i &&& 0x40 ≠ 0 then 0x8070 else 0) ^^^
  (if i &&& 0x20 ≠ 0 then 0x4038 else 0) ^^^ (if i &&& 0x10 ≠ 0 then 0x201c else 0) ^^^
  (if i &&& 0x08 ≠ 0 then 0x100e else 0) ^^^ (if i &&& 0x04 ≠ 0 then 0x0807 else 0) ^^^
  (if i &&& 0x02 ≠ 0 then 0x8403 else 0) ^^^ (if i &&& 0x01 ≠ 0 then 0xc201 else 0)

/-- `gf_tab[i]`, `DATA_256(gf_uint16_xor)` widened to a unit. -/
def gfTab (i : BitVec 32) : BitVec 32 := (gfUint16Xor i).setWidth 32

/-- `gf_mulx1_lb(r, x)`. -/
def gfMulx1Lb (x : GfT) : GfT :=
  let tt := gfTab ((unitPtr x 3 >>> 17) &&& unitMask 0x80)
  ofUnits fun n => if n = 0 then f1Lb (unitPtr x) n ^^^ tt else f1Lb (unitPtr x) n

/-- `gf_mulx8_lb(x)`, in place from the top unit down. -/
def gfMulx8Lb (x : GfT) : GfT :=
  let tt := gfTab (unitPtr x 3 >>> 24)
  ofUnits fun n => if n = 0 then f8Lb (unitPtr x) n ^^^ tt else f8Lb (unitPtr x) n

theorem unitMask_bit : ∀ k < 32, (unitMask 0x80).getLsbD k = decide (k % 8 = 7) := by decide

/-- Both accesses to `gf_tab` are within its 256 entries. -/
theorem gfTab_index_lt (w : BitVec 32) :
    ((w >>> 17) &&& unitMask 0x80).toNat < 256 ∧ (w >>> 24).toNat < 256 := by
  constructor
  · have hlow : (w >>> 17) &&& unitMask 0x80 = (w >>> 17) &&& 0x80 := by
      apply BitVec.eq_of_getLsbD_eq
      intro k hk
      have hbit : ∀ k < 15, (0x80 : BitVec 32).getLsbD k = decide (k % 8 = 7) := by decide
      rw [BitVec.getLsbD_and, BitVec.getLsbD_and, BitVec.getLsbD_ushiftRight, unitMask_bit k hk]
      by_cases h15 : k < 15
      · rw [hbit k h15]
      · rw [BitVec.getLsbD_of_ge w _ (by omega)]
        simp
    rw [hlow, BitVec.toNat_and]
    exact Nat.and_le_right.trans_lt (by decide)
  · rw [BitVec.toNat_ushiftRight, Nat.shiftRight_eq_div_pow]
    have hw := w.isLt
    omega

/-! ## Bits -/

/-- The coefficient of `x^p`: bit for `x^n` ==> bit for `2^(7 - n % 8)` in
`byte[n / 8]`. -/
def gfBit (x : GfT) (p : ℕ) : Bool := (gfByte x (p / 8)).toBitVec.getLsbD (7 - p % 8)

theorem gfBit_ext {x y : GfT} (h : ∀ p < 128, gfBit x p = gfBit y p) : x = y := by
  apply gf_ext
  intro i hi
  apply UInt8.toBitVec_inj.mp
  apply BitVec.eq_of_getLsbD_eq
  intro j hj
  have hp := h (8 * i + (7 - j)) (by omega)
  unfold gfBit at hp
  have hdiv : (8 * i + (7 - j)) / 8 = i := by omega
  have hmod : 7 - (8 * i + (7 - j)) % 8 = j := by omega
  rwa [hdiv, hmod] at hp

theorem gfBit_xorBlock (x y : GfT) {p : ℕ} (hp : p < 128) :
    gfBit (xorBlock x y) p = (gfBit x p ^^ gfBit y p) := by
  unfold gfBit
  rw [gfByte_xorBlock _ _ (by omega), UInt8.toBitVec_xor, BitVec.getLsbD_xor]

theorem unitPtr_bit (x : GfT) (n : ℕ) {k : ℕ} (hk : k < 32) :
    (unitPtr x n).getLsbD k = (gfByte x (4 * n + k / 8)).toBitVec.getLsbD (k % 8) := by
  unfold unitPtr
  rw [BitVec.getLsbD_append, BitVec.getLsbD_append, BitVec.getLsbD_append]
  obtain h | h | h | h : k / 8 = 0 ∨ k / 8 = 1 ∨ k / 8 = 2 ∨ k / 8 = 3 := by omega
  · have h0 : k < 8 := by omega
    rw [if_pos h0, h, Nat.mod_eq_of_lt h0, Nat.add_zero]
  · have h0 : ¬ k < 8 := by omega
    have h1 : k - 8 < 8 := by omega
    have hm : k - 8 = k % 8 := by omega
    rw [if_neg h0, if_pos h1, h, hm]
  · have h0 : ¬ k < 8 := by omega
    have h1 : ¬ k - 8 < 8 := by omega
    have h2 : k - 8 - 8 < 8 := by omega
    have hm : k - 8 - 8 = k % 8 := by omega
    rw [if_neg h0, if_neg h1, if_pos h2, h, hm]
  · have h0 : ¬ k < 8 := by omega
    have h1 : ¬ k - 8 < 8 := by omega
    have h2 : ¬ k - 8 - 8 < 8 := by omega
    have hm : k - 8 - 8 - 8 = k % 8 := by omega
    rw [if_neg h0, if_neg h1, if_neg h2, h, hm]

theorem gfBit_ofUnits (u : ℕ → BitVec 32) {p : ℕ} (hp : p < 128) :
    gfBit (ofUnits u) p = (u (p / 32)).getLsbD (8 * (p / 8 % 4) + (7 - p % 8)) := by
  unfold gfBit ofUnits
  rw [gfByte_gfOf _ (by omega)]
  have hlow : 7 - p % 8 < 8 := by omega
  have hdiv : p / 8 / 4 = p / 32 := by omega
  rw [UInt8.toBitVec_ofBitVec, BitVec.getLsbD_extractLsb', hdiv]
  simp [hlow]

/-- Bit `p` where the units hold it. -/
theorem gfBit_eq_unitPtr (x : GfT) (p : ℕ) :
    gfBit x p = (unitPtr x (p / 32)).getLsbD (8 * (p / 8 % 4) + (7 - p % 8)) := by
  rw [unitPtr_bit x _ (by omega)]
  unfold gfBit
  have hbyte : 4 * (p / 32) + (8 * (p / 8 % 4) + (7 - p % 8)) / 8 = p / 8 := by omega
  have hbit : (8 * (p / 8 % 4) + (7 - p % 8)) % 8 = 7 - p % 8 := by omega
  rw [hbyte, hbit]

/-- Bit `p` of the shift by one, from the bit below it. -/
theorem f1Lb_bit (x : GfT) {p : ℕ} (hp : p < 128) :
    (f1Lb (unitPtr x) (p / 32)).getLsbD (8 * (p / 8 % 4) + (7 - p % 8)) =
      (decide (1 ≤ p) && gfBit x (p - 1)) := by
  have hk : 8 * (p / 8 % 4) + (7 - p % 8) < 32 := by omega
  unfold f1Lb
  simp only [BitVec.getLsbD_or, BitVec.getLsbD_and, BitVec.getLsbD_not, unitMask_bit _ hk, hk,
    BitVec.getLsbD_ushiftRight, BitVec.getLsbD_shiftLeft, decide_true, Bool.true_and]
  by_cases hedge : p % 8 = 0
  · -- the top bit of a byte comes from the byte before it
    have hseven : (8 * (p / 8 % 4) + (7 - p % 8)) % 8 = 7 := by omega
    simp only [hseven, decide_true, Bool.not_true, Bool.and_false, Bool.false_or, Bool.and_true]
    by_cases hunit : p % 32 = 0
    · -- and the lowest byte of a unit from the unit below
      have hseven' : 8 * (p / 8 % 4) + (7 - p % 8) = 7 := by omega
      rw [hseven']
      by_cases hzero : p = 0
      · subst hzero
        simp
      · have hn : p / 32 ≠ 0 := by omega
        have hle : 1 ≤ p := by omega
        simp only [hn, hle, ne_eq, not_false_eq_true, if_true, decide_true, Bool.true_and,
          BitVec.getLsbD_ushiftRight]
        rw [gfBit_eq_unitPtr]
        have hfrom : 8 * ((p - 1) / 8 % 4) + (7 - (p - 1) % 8) = 17 + 7 := by omega
        have hbelow : (p - 1) / 32 = p / 32 - 1 := by omega
        rw [hfrom, hbelow]
        simp
    · have hge : ¬ 8 * (p / 8 % 4) + (7 - p % 8) < 15 := by omega
      have hle : 1 ≤ p := by omega
      have hout : (if p / 32 ≠ 0 then unitPtr x (p / 32 - 1) >>> 17 else 0).getLsbD
          (8 * (p / 8 % 4) + (7 - p % 8)) = false := by
        split
        · rw [BitVec.getLsbD_ushiftRight, BitVec.getLsbD_of_ge _ _ (by omega)]
        · simp
      simp only [hout, hge, hle, decide_false, decide_true, Bool.not_false, Bool.true_and,
        Bool.or_false]
      rw [gfBit_eq_unitPtr]
      congr 1
      · congr 1; omega
      · omega
  · have hseven : ¬ (8 * (p / 8 % 4) + (7 - p % 8)) % 8 = 7 := by omega
    have hle : 1 ≤ p := by omega
    simp only [hseven, hle, decide_false, decide_true, Bool.not_false, Bool.and_true,
      Bool.and_false, Bool.or_false, Bool.true_and]
    rw [gfBit_eq_unitPtr]
    congr 1
    · congr 1; omega
    · omega

/-- Bit `p` of the shift by eight, from one byte below. -/
theorem f8Lb_bit (x : GfT) {p : ℕ} (hp : p < 128) :
    (f8Lb (unitPtr x) (p / 32)).getLsbD (8 * (p / 8 % 4) + (7 - p % 8)) =
      (decide (8 ≤ p) && gfBit x (p - 8)) := by
  have hk : 8 * (p / 8 % 4) + (7 - p % 8) < 32 := by omega
  unfold f8Lb
  simp only [BitVec.getLsbD_or, BitVec.getLsbD_shiftLeft, hk, decide_true, Bool.true_and]
  by_cases hunit : p / 8 % 4 = 0
  · have hlt : 8 * (p / 8 % 4) + (7 - p % 8) < 8 := by omega
    simp only [hlt, decide_true, Bool.not_true, Bool.false_and, Bool.false_or]
    by_cases hn : p / 32 = 0
    · have hle : ¬ 8 ≤ p := by omega
      simp [hn, hle]
    · have hle : 8 ≤ p := by omega
      simp only [hn, hle, ne_eq, not_false_eq_true, if_true, decide_true, Bool.true_and,
        BitVec.getLsbD_ushiftRight]
      rw [gfBit_eq_unitPtr]
      congr 1
      · congr 1; omega
      · omega
  · have hge : ¬ 8 * (p / 8 % 4) + (7 - p % 8) < 8 := by omega
    have hle : 8 ≤ p := by omega
    have hout : (if p / 32 ≠ 0 then unitPtr x (p / 32 - 1) >>> 24 else 0).getLsbD
        (8 * (p / 8 % 4) + (7 - p % 8)) = false := by
      split
      · rw [BitVec.getLsbD_ushiftRight, BitVec.getLsbD_of_ge _ _ (by omega)]
      · simp
    simp only [hout, hge, hle, decide_false, decide_true, Bool.not_false, Bool.true_and,
      Bool.or_false]
    rw [gfBit_eq_unitPtr]
    congr 1
    · congr 1; omega
    · omega

/-! ## The reduction table -/

/-- The entry of `gf_tab` for one bit of the overflow byte: four bits, in the
representation of the first two bytes of a buffer. -/
def tabBit (k p : ℕ) : Bool :=
  decide (p = k) ^^ decide (p = k + 1) ^^ decide (p = k + 2) ^^ decide (p = k + 7)

theorem tabEntry_bit (i : BitVec 32) (m : ℕ) (b : BitVec 32) (hb : b = BitVec.twoPow 32 m)
    (hne : b ≠ 0) (c : BitVec 16) (q : ℕ) :
    (if i &&& b ≠ 0 then c else 0).getLsbD q = (i.getLsbD m && c.getLsbD q) := by
  rw [hb, BitVec.and_twoPow]
  rw [hb] at hne
  cases i.getLsbD m with
  | false => simp
  | true =>
      rw [if_pos rfl, if_pos hne]
      simp

theorem gfUint16Xor_bit (i : BitVec 32) {p : ℕ} (hp : p < 16) :
    (gfUint16Xor i).getLsbD (8 * (p / 8) + (7 - p % 8)) =
      ((i.getLsbD 7 && tabBit 0 p) ^^ (i.getLsbD 6 && tabBit 1 p) ^^
        (i.getLsbD 5 && tabBit 2 p) ^^ (i.getLsbD 4 && tabBit 3 p) ^^
        (i.getLsbD 3 && tabBit 4 p) ^^ (i.getLsbD 2 && tabBit 5 p) ^^
        (i.getLsbD 1 && tabBit 6 p) ^^ (i.getLsbD 0 && tabBit 7 p)) := by
  have hentry : ∀ q < 16,
      (0x00e1 : BitVec 16).getLsbD (8 * (q / 8) + (7 - q % 8)) = tabBit 0 q ∧
      (0x8070 : BitVec 16).getLsbD (8 * (q / 8) + (7 - q % 8)) = tabBit 1 q ∧
      (0x4038 : BitVec 16).getLsbD (8 * (q / 8) + (7 - q % 8)) = tabBit 2 q ∧
      (0x201c : BitVec 16).getLsbD (8 * (q / 8) + (7 - q % 8)) = tabBit 3 q ∧
      (0x100e : BitVec 16).getLsbD (8 * (q / 8) + (7 - q % 8)) = tabBit 4 q ∧
      (0x0807 : BitVec 16).getLsbD (8 * (q / 8) + (7 - q % 8)) = tabBit 5 q ∧
      (0x8403 : BitVec 16).getLsbD (8 * (q / 8) + (7 - q % 8)) = tabBit 6 q ∧
      (0xc201 : BitVec 16).getLsbD (8 * (q / 8) + (7 - q % 8)) = tabBit 7 q := by decide
  obtain ⟨h0, h1, h2, h3, h4, h5, h6, h7⟩ := hentry p hp
  unfold gfUint16Xor
  simp only [BitVec.getLsbD_xor]
  rw [← h0, ← h1, ← h2, ← h3, ← h4, ← h5, ← h6, ← h7]
  rw [tabEntry_bit i 7 0x80 rfl (by decide), tabEntry_bit i 6 0x40 rfl (by decide),
    tabEntry_bit i 5 0x20 rfl (by decide), tabEntry_bit i 4 0x10 rfl (by decide),
    tabEntry_bit i 3 0x08 rfl (by decide), tabEntry_bit i 2 0x04 rfl (by decide),
    tabEntry_bit i 1 0x02 rfl (by decide), tabEntry_bit i 0 0x01 rfl (by decide)]

/-! ## The element of a buffer -/

noncomputable def gcmPoly : (ZMod 2)[X] := X ^ 128 + (X ^ 7 + X ^ 2 + X + 1)

theorem gcmPoly_eq : gcmPoly = X ^ 128 + (X ^ 7 + X ^ 2 + X + 1) := by
  unfold gcmPoly
  rfl

theorem gcmPoly_monic : gcmPoly.Monic := by
  unfold gcmPoly
  apply monic_X_pow_add
  compute_degree!

theorem gcmPoly_natDegree : gcmPoly.natDegree = 128 := by
  unfold gcmPoly
  compute_degree!

/-- Binary polynomials modulo `x^128 + x^7 + x^2 + x + 1`. -/
abbrev GfRing : Type := AdjoinRoot gcmPoly

/-- The field's `x`. -/
noncomputable def gfX : GfRing := AdjoinRoot.root gcmPoly

noncomputable def gfElem (x : GfT) : GfRing := bitSum gcmPoly 128 (gfBit x)

theorem gfElem_injective : Function.Injective gfElem := by
  intro x y h
  apply gfBit_ext
  exact bitSum_inj gcmPoly_monic gcmPoly_natDegree h

theorem gfElem_xorBlock (x y : GfT) : gfElem (xorBlock x y) = gfElem x + gfElem y := by
  unfold gfElem
  rw [← bitSum_xor]
  exact bitSum_congr fun p hp => gfBit_xorBlock x y hp

theorem gfElem_zeros : gfElem (zeros 16) = 0 := by
  unfold gfElem
  rw [← bitSum_false (g := gcmPoly) 128]
  refine bitSum_congr fun p _ => ?_
  unfold gfBit
  simp

theorem gfX_pow_128 : gfX ^ 128 = gfX ^ 7 + gfX ^ 2 + gfX + 1 := by
  have hsum : gfX ^ 128 + (gfX ^ 7 + gfX ^ 2 + gfX + 1) = 0 := by
    have hroot : AdjoinRoot.mk gcmPoly gcmPoly = 0 := AdjoinRoot.mk_self
    rw [← hroot]
    conv_rhs =>
      arg 2
      rw [gcmPoly_eq]
    rw [map_add, map_add, map_add, map_add, map_pow, map_pow, map_pow, map_one,
      AdjoinRoot.mk_X]
    rfl
  exact eq_of_add_eq_zero_quotient hsum

/-- The four bits of a table entry are `x^128` times a power of `x`. -/
theorem bitSum_tabBit {k : ℕ} (hk : k < 8) :
    bitSum gcmPoly 16 (tabBit k) = gfX ^ 128 * gfX ^ k := by
  have hone : ∀ j < 16, bitSum gcmPoly 16 (fun p => decide (p = j)) = gfX ^ j := by
    intro j hj
    rw [bitSum_eq_sum]
    simp only [decide_eq_true_eq]
    rw [Finset.sum_ite_eq', if_pos (Finset.mem_range.mpr hj)]
    rfl
  unfold tabBit
  rw [bitSum_xor, bitSum_xor, bitSum_xor, hone k (by omega), hone (k + 1) (by omega),
    hone (k + 2) (by omega), hone (k + 7) (by omega), gfX_pow_128]
  ring

/-- The element of one byte. -/
noncomputable def byteElem (b : UInt8) : GfRing :=
  bitSum gcmPoly 8 fun j => b.toBitVec.getLsbD (7 - j)

theorem bitSum_byte (x : GfT) (i : ℕ) :
    bitSum gcmPoly 8 (fun j => gfBit x (8 * i + j)) = byteElem (gfByte x i) := by
  unfold byteElem
  refine bitSum_congr fun j hj => ?_
  unfold gfBit
  have hdiv : (8 * i + j) / 8 = i := by omega
  have hmod : (8 * i + j) % 8 = j := by omega
  rw [hdiv, hmod]

theorem gfElem_eq_sum (x : GfT) :
    gfElem x = ∑ i ∈ Finset.range 16, gfX ^ (8 * i) * byteElem (gfByte x i) := by
  have hgroups : gfElem x = bitSum gcmPoly (8 * 16) (gfBit x) := by
    unfold gfElem
    rfl
  rw [hgroups, bitSum_groups]
  simp only [bitSum_byte]
  rfl

theorem byteElem_eq (b : UInt8) :
    byteElem b =
      (if b.toBitVec.getLsbD 7 then 1 else 0) + (if b.toBitVec.getLsbD 6 then gfX else 0) +
        (if b.toBitVec.getLsbD 5 then gfX ^ 2 else 0) +
        (if b.toBitVec.getLsbD 4 then gfX ^ 3 else 0) +
        (if b.toBitVec.getLsbD 3 then gfX ^ 4 else 0) +
        (if b.toBitVec.getLsbD 2 then gfX ^ 5 else 0) +
        (if b.toBitVec.getLsbD 1 then gfX ^ 6 else 0) +
        (if b.toBitVec.getLsbD 0 then gfX ^ 7 else 0) := by
  unfold byteElem gfX
  rw [bitSum_eq_sum]
  simp [Finset.sum_range_succ]

/-- What `gf_tab` gives for the overflow byte. -/
theorem bitSum_gfTab {i : BitVec 32} {b : UInt8}
    (hi : ∀ k < 8, i.getLsbD k = b.toBitVec.getLsbD k) :
    bitSum gcmPoly 16 (fun p => (gfUint16Xor i).getLsbD (8 * (p / 8) + (7 - p % 8))) =
      gfX ^ 128 * byteElem b := by
  rw [bitSum_congr fun p hp => gfUint16Xor_bit i hp]
  simp only [bitSum_xor, bitSum_and, hi _ (show 7 < 8 by decide), hi _ (show 6 < 8 by decide),
    hi _ (show 5 < 8 by decide), hi _ (show 4 < 8 by decide), hi _ (show 3 < 8 by decide),
    hi _ (show 2 < 8 by decide), hi _ (show 1 < 8 by decide), hi _ (show 0 < 8 by decide)]
  rw [bitSum_tabBit (by decide), bitSum_tabBit (by decide), bitSum_tabBit (by decide),
    bitSum_tabBit (by decide), bitSum_tabBit (by decide), bitSum_tabBit (by decide),
    bitSum_tabBit (by decide), bitSum_tabBit (by decide), byteElem_eq]
  simp only [mul_add, mul_ite, mul_zero, pow_zero, pow_one]

/-- The entry of `gf_tab` goes into the lowest unit. -/
theorem gfTab_bit (i : BitVec 32) {p : ℕ} (hp : p < 32) :
    (gfTab i).getLsbD (8 * (p / 8 % 4) + (7 - p % 8)) =
      (decide (p < 16) && (gfUint16Xor i).getLsbD (8 * (p / 8) + (7 - p % 8))) := by
  unfold gfTab
  have hpos : 8 * (p / 8 % 4) + (7 - p % 8) < 32 := by omega
  have hbyte : p / 8 % 4 = p / 8 := by omega
  rw [BitVec.getLsbD_setWidth, decide_eq_true hpos, Bool.true_and, hbyte]
  by_cases h16 : p < 16
  · simp [h16]
  · rw [BitVec.getLsbD_of_ge _ _ (by omega)]
    simp [h16]

/-- A shift by `k` with the table entry of what left at the top. -/
theorem gfElem_shift {x y : GfT} {i : BitVec 32} {b : UInt8} {k : ℕ} (hk : k ≤ 128)
    (hbits : ∀ p < 128, gfBit y p =
      ((decide (k ≤ p) && gfBit x (p - k)) ^^
        (decide (p < 16) && (gfUint16Xor i).getLsbD (8 * (p / 8) + (7 - p % 8)))))
    (hi : ∀ j < 8, i.getLsbD j = b.toBitVec.getLsbD j)
    (hb : byteElem b = bitSum gcmPoly k fun j => gfBit x (128 - k + j)) :
    gfElem y = gfX ^ k * gfElem x := by
  have hy : gfElem y = bitSum gcmPoly 128 (fun p => decide (k ≤ p) && gfBit x (p - k)) +
      gfX ^ 128 * byteElem b := by
    unfold gfElem
    rw [bitSum_congr hbits, bitSum_xor, bitSum_below (by decide), bitSum_gfTab hi]
  rw [hy, hb]
  exact (root_pow_mul_bitSum hk (gfBit x)).symm

/-- Bit `p` of a buffer whose units are shifted and carry the table entry in
the lowest one. -/
theorem gfBit_reduced {f : ℕ → BitVec 32} {x : GfT} {k : ℕ} (i : BitVec 32)
    (hf : ∀ p < 128, (f (p / 32)).getLsbD (8 * (p / 8 % 4) + (7 - p % 8)) =
      (decide (k ≤ p) && gfBit x (p - k))) :
    ∀ p < 128, gfBit (ofUnits fun n => if n = 0 then f n ^^^ gfTab i else f n) p =
      ((decide (k ≤ p) && gfBit x (p - k)) ^^
        (decide (p < 16) && (gfUint16Xor i).getLsbD (8 * (p / 8) + (7 - p % 8)))) := by
  intro p hp
  rw [gfBit_ofUnits _ hp]
  by_cases hunit : p / 32 = 0
  · rw [if_pos hunit, BitVec.getLsbD_xor, hf p hp, gfTab_bit i (by omega)]
  · have h16 : ¬ p < 16 := by omega
    rw [if_neg hunit, hf p hp]
    simp [h16]

/-- **`gf_mulx1` multiplies by `x`.** -/
theorem gfElem_gfMulx1Lb (x : GfT) : gfElem (gfMulx1Lb x) = gfX * gfElem x := by
  have htop : (unitPtr x 3).getLsbD 24 = gfBit x 127 := (gfBit_eq_unitPtr x 127).symm
  have hover : ∀ j < 8, ((unitPtr x 3 >>> 17) &&& unitMask 0x80).getLsbD j =
      (if gfBit x 127 then (0x80 : UInt8) else 0).toBitVec.getLsbD j := by
    intro j hj
    rw [BitVec.getLsbD_and, BitVec.getLsbD_ushiftRight, unitMask_bit j (by omega)]
    by_cases hseven : j = 7
    · subst hseven
      rw [htop]
      cases gfBit x 127 <;> decide
    · have hmod : ¬ j % 8 = 7 := by omega
      have hclear : ∀ j < 8, j ≠ 7 → (0x80 : UInt8).toBitVec.getLsbD j = false := by decide
      cases gfBit x 127
      · simp [hmod]
      · simpa [hmod] using (hclear j hj hseven).symm
  have hbyte : byteElem (if gfBit x 127 then (0x80 : UInt8) else 0) =
      bitSum gcmPoly 1 fun j => gfBit x (128 - 1 + j) := by
    rw [byteElem_eq, bitSum_eq_sum]
    cases hb : gfBit x 127
    · simp [hb]
    · simp [hb]
  have hshift := gfElem_shift (by decide) (gfBit_reduced _ fun p hp => f1Lb_bit x hp) hover hbyte
  rw [pow_one] at hshift
  exact hshift

/-- **`gf_mulx8` multiplies by `x^8`.** -/
theorem gfElem_gfMulx8Lb (x : GfT) : gfElem (gfMulx8Lb x) = gfX ^ 8 * gfElem x := by
  have hover : ∀ j < 8, (unitPtr x 3 >>> 24).getLsbD j = (gfByte x 15).toBitVec.getLsbD j := by
    intro j hj
    have hbyte : 4 * 3 + (24 + j) / 8 = 15 := by omega
    have hbit : (24 + j) % 8 = j := by omega
    rw [BitVec.getLsbD_ushiftRight, unitPtr_bit x 3 (by omega), hbyte, hbit]
  exact gfElem_shift (by decide) (gfBit_reduced _ fun p hp => f8Lb_bit x hp) hover
    (bitSum_byte x 15).symm

end GecRelay
