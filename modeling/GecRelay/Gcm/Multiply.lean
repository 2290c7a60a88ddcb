import GecRelay.Gcm.Field
import Mathlib.Logic.Function.Basic

/-!
# The multipliers of `gf128mul.c`

The slow multiplier `gf_mulTMD` and the one with a table of 256 entries,
`gf_mul_4k` after `init_4k_table`. Both run over the bytes of one factor from
the top, multiply the sum so far by `x^8` and add the byte times the other
factor. Read as elements of the quotient ring both are its product
(`gfElem_gfMulTMD`, `gfElem_gfMul4k`), whatever the memory of the table held.
-/

namespace GecRelay

open Foundation

/-- `p[0]` to `p[7]`, the multiples of `a` by powers of `x`. -/
def gfPowers (a : GfT) : ℕ → GfT
  | 0 => a
  | i + 1 => gfMulx1Lb (gfPowers a i)

/-- The enumeration `x_bit`: `X_0 = 0x80` to `X_7 = 0x01`. -/
def xBit (k : ℕ) : UInt8 := 0x80 >>> UInt8.ofNat k

/-- The tests of `ch` against `X_0` to `X_7`. -/
def addPowers (p : ℕ → GfT) (ch : UInt8) (a : GfT) : GfT :=
  (List.range 8).foldl (fun a k => if ch &&& xBit k ≠ 0 then xorBlock a (p k) else a) a

/-- The loop over the bytes of `q` from index `i` down. -/
def mulTMDLoop (p : ℕ → GfT) (q : GfT) : ℕ → GfT → GfT
  | 0, a => addPowers p (gfByte q 0) a
  | i + 1, a => mulTMDLoop p q i (gfMulx8Lb (addPowers p (gfByte q (i + 1)) a))

/-- `gf_mulTMD(a, b)`. When both arguments are one buffer, `q` points to the
copy in `p[0]`, so the bytes read are those of `b` before the call. -/
def gfMulTMD (a b : GfT) : GfT := mulTMDLoop (gfPowers a) b 15 (zeros 16)

/-! ## The table -/

/-- `for(j = 64; j >= 1; j >>= 1) gf_mulx1(t[j], t[j + j])`, with `j = 2 ^ m`. -/
def tableShifts : ℕ → (ℕ → GfT) → ℕ → GfT
  | 0, t => t
  | m + 1, t => tableShifts m (Function.update t (2 ^ m) (gfMulx1Lb (t (2 ^ m + 2 ^ m))))

/-- `t[j + k] = t[j] ^ t[k]` for `k` from one to `n`. -/
def sumRow (j : ℕ) : ℕ → (ℕ → GfT) → ℕ → GfT
  | 0, t => t
  | n + 1, t =>
      let t' := sumRow j n t
      Function.update t' (j + (n + 1)) (xorBlock (t' j) (t' (n + 1)))

/-- The rows `j = 2, 4, ..., 2 ^ m`. -/
def tableSums : ℕ → (ℕ → GfT) → ℕ → GfT
  | 0, t => t
  | m + 1, t => sumRow (2 ^ (m + 1)) (2 ^ (m + 1) - 1) (tableSums m t)

/-- `init_4k_table(g, t)` on a table that holds anything before. -/
def init4kTable (g : GfT) (t : ℕ → GfT) : ℕ → GfT :=
  tableSums 7 (tableShifts 7 (Function.update (Function.update t 0 (zeros 16)) 128 g))

/-- `xor_4k(i, ap, t, r)` for the bytes below `i`, from the top. -/
def mul4kLoop (t : ℕ → GfT) (a : GfT) : ℕ → GfT → GfT
  | 0, r => r
  | i + 1, r => mul4kLoop t a i (xorBlock (gfMulx8Lb r) (t (gfByte a i).toNat))

/-- `gf_mul_4k(a, t, r)`. -/
def gfMul4k (a : GfT) (t : ℕ → GfT) : GfT := mul4kLoop t a 16 (zeros 16)

/-! ## The slow multiplier -/

theorem gfElem_gfPowers (a : GfT) (k : ℕ) : gfElem (gfPowers a k) = gfX ^ k * gfElem a := by
  induction k with
  | zero => rw [gfPowers, pow_zero, one_mul]
  | succ k ih => rw [gfPowers, gfElem_gfMulx1Lb, ih, pow_succ', mul_assoc]

theorem and_xBit (ch : UInt8) {k : ℕ} (hk : k < 8) :
    ch &&& xBit k ≠ 0 ↔ ch.toBitVec.getLsbD (7 - k) = true := by
  have hmask : ∀ k < 8, (xBit k).toBitVec = BitVec.twoPow 8 (7 - k) ∧
      BitVec.twoPow 8 (7 - k) ≠ 0#8 := by decide
  obtain ⟨hbit, hne⟩ := hmask k hk
  rw [← UInt8.toBitVec_inj.ne, UInt8.toBitVec_and, hbit, BitVec.and_twoPow]
  cases ch.toBitVec.getLsbD (7 - k)
  · simp
  · simpa using hne

/-- One byte of the factor: the sum of the powers whose bits are set. -/
theorem gfElem_addPowers (a b : GfT) (ch : UInt8) :
    gfElem (addPowers (gfPowers a) ch b) = gfElem b + byteElem ch * gfElem a := by
  have hfold : ∀ n ≤ 8, gfElem ((List.range n).foldl
      (fun b k => if ch &&& xBit k ≠ 0 then xorBlock b (gfPowers a k) else b) b) =
      gfElem b + bitSum gcmPoly n (fun j => ch.toBitVec.getLsbD (7 - j)) * gfElem a := by
    intro n
    induction n with
    | zero =>
        intro _
        simp [bitSum_eq_sum]
    | succ n ih =>
        intro hn
        have ih' := ih (by omega)
        rw [List.range_succ, List.foldl_append, List.foldl_cons, List.foldl_nil]
        rw [bitSum_eq_sum] at ih' ⊢
        rw [Finset.sum_range_succ, add_mul, ← add_assoc, ← ih']
        by_cases hbit : ch.toBitVec.getLsbD (7 - n) = true
        · rw [if_pos ((and_xBit ch (by omega)).mpr hbit), if_pos hbit, gfElem_xorBlock,
            gfElem_gfPowers]
          rfl
        · rw [if_neg (fun h => hbit ((and_xBit ch (by omega)).mp h)), if_neg hbit, zero_mul,
            add_zero]
  exact hfold 8 le_rfl

theorem gfElem_mulTMDLoop (a q : GfT) (i : ℕ) (b : GfT) :
    gfElem (mulTMDLoop (gfPowers a) q i b) =
      gfX ^ (8 * i) * gfElem b +
        (∑ j ∈ Finset.range (i + 1), gfX ^ (8 * j) * byteElem (gfByte q j)) * gfElem a := by
  induction i generalizing b with
  | zero =>
      rw [mulTMDLoop, gfElem_addPowers]
      simp
  | succ i ih =>
      rw [mulTMDLoop, ih, gfElem_gfMulx8Lb, gfElem_addPowers, Finset.sum_range_succ _ (i + 1)]
      ring

/-- **The slow multiplier is the product of the ring.** -/
theorem gfElem_gfMulTMD (a b : GfT) : gfElem (gfMulTMD a b) = gfElem a * gfElem b := by
  unfold gfMulTMD
  rw [gfElem_mulTMDLoop, gfElem_zeros, mul_zero, zero_add, ← gfElem_eq_sum, mul_comm]

/-! ## The table-driven multiplier -/

/-- Entry `i` of the table is the byte `i` times `g`. -/
def RightEntry (g : GfT) (t : ℕ → GfT) (i : ℕ) : Prop :=
  gfElem (t i) = byteElem (UInt8.ofNat i) * gfElem g

theorem byteElem_xor (a b : UInt8) : byteElem (a ^^^ b) = byteElem a + byteElem b := by
  unfold byteElem
  rw [← bitSum_xor]
  refine bitSum_congr fun j _ => ?_
  rw [UInt8.toBitVec_xor, BitVec.getLsbD_xor]

theorem byteElem_zero : byteElem 0 = 0 := by
  have h := byteElem_xor 0 0
  rwa [add_self_quotient] at h

theorem byteElem_two_pow {e : ℕ} (he : e < 8) :
    byteElem (UInt8.ofNat (2 ^ e)) = gfX ^ (7 - e) := by
  have hbit : ∀ e < 8, ∀ j < 8,
      (UInt8.ofNat (2 ^ e)).toBitVec.getLsbD (7 - j) = decide (j = 7 - e) := by decide
  unfold byteElem
  rw [bitSum_congr (hbit e he), bitSum_eq_sum]
  simp only [decide_eq_true_eq]
  rw [Finset.sum_ite_eq', if_pos (Finset.mem_range.mpr (by omega))]
  rfl

/-- The loop of shifts fills the entries at powers of two, from the top. -/
theorem tableShifts_right {g : GfT} (m : ℕ) (hm : m ≤ 7) (t : ℕ → GfT)
    (hzero : RightEntry g t 0) (htop : ∀ e < 8, m ≤ e → RightEntry g t (2 ^ e)) :
    RightEntry g (tableShifts m t) 0 ∧ ∀ e < 8, RightEntry g (tableShifts m t) (2 ^ e) := by
  induction m generalizing t with
  | zero => exact ⟨hzero, fun e he => htop e he (Nat.zero_le e)⟩
  | succ m ih =>
      refine ih (by omega) _ ?_ ?_
      · have hne : (0 : ℕ) ≠ 2 ^ m := (Nat.two_pow_pos m).ne
        unfold RightEntry
        rw [Function.update_of_ne hne]
        exact hzero
      · intro e he hme
        unfold RightEntry
        by_cases heq : e = m
        · subst heq
          have hdouble : 2 ^ e + 2 ^ e = 2 ^ (e + 1) := by rw [pow_succ, Nat.mul_two]
          have hnext := htop (e + 1) (by omega) le_rfl
          unfold RightEntry at hnext
          have hexp : 7 - e = (7 - (e + 1)) + 1 := by omega
          rw [Function.update_self, gfElem_gfMulx1Lb, hdouble, hnext,
            byteElem_two_pow (by omega), byteElem_two_pow he, hexp, pow_succ']
          ring
        · have hne : (2 : ℕ) ^ e ≠ 2 ^ m := fun h => heq (Nat.pow_right_injective le_rfl h)
          rw [Function.update_of_ne hne]
          exact htop e he (by omega)

/-- A row writes the entries above `j` and reads those up to `j`. -/
theorem sumRow_apply (j n : ℕ) (hn : n < j) (t : ℕ → GfT) (i : ℕ) :
    sumRow j n t i = if j < i ∧ i ≤ j + n then xorBlock (t j) (t (i - j)) else t i := by
  induction n generalizing i with
  | zero =>
      rw [sumRow, if_neg (by omega)]
  | succ n ih =>
      have hlow : ∀ k ≤ j, sumRow j n t k = t k := by
        intro k hk
        rw [ih (by omega), if_neg (by omega)]
      rw [sumRow, hlow j le_rfl, hlow (n + 1) (by omega)]
      by_cases hi : i = j + (n + 1)
      · subst hi
        rw [Function.update_self, if_pos (by omega), Nat.add_sub_cancel_left]
      · rw [Function.update_of_ne hi, ih (by omega)]
        by_cases hin : j < i ∧ i ≤ j + n
        · rw [if_pos hin, if_pos (by omega)]
        · rw [if_neg hin, if_neg (by omega)]

theorem two_pow_add_xor {m k : ℕ} (hm : m < 8) (hk : k < 2 ^ m) :
    UInt8.ofNat (2 ^ m + k) = UInt8.ofNat (2 ^ m) ^^^ UInt8.ofNat k := by
  have hall : ∀ m < 8, ∀ k < 2 ^ m,
      UInt8.ofNat (2 ^ m + k) = UInt8.ofNat (2 ^ m) ^^^ UInt8.ofNat k := by decide
  exact hall m hm k hk

/-- Row by row the table is filled from below; the entries at powers of two
stay. -/
theorem tableSums_right {g : GfT} (m : ℕ) (hm : m ≤ 7) (t : ℕ → GfT)
    (hzero : RightEntry g t 0) (hpow : ∀ e < 8, RightEntry g t (2 ^ e)) :
    (∀ i < 2 ^ (m + 1), RightEntry g (tableSums m t) i) ∧
      ∀ e < 8, RightEntry g (tableSums m t) (2 ^ e) := by
  induction m with
  | zero =>
      refine ⟨fun i hi => ?_, hpow⟩
      obtain rfl | rfl : i = 0 ∨ i = 1 := by
        simp at hi
        omega
      · exact hzero
      · exact hpow 0 (by decide)
  | succ m ih =>
      obtain ⟨hbelow, hpows⟩ := ih (by omega)
      have hpos : 0 < 2 ^ (m + 1) := Nat.two_pow_pos (m + 1)
      have hrow := sumRow_apply (2 ^ (m + 1)) (2 ^ (m + 1) - 1) (by omega) (tableSums m t)
      refine ⟨fun i hi => ?_, fun e he => ?_⟩
      · unfold RightEntry
        rw [tableSums, hrow i]
        by_cases hin : 2 ^ (m + 1) < i ∧ i ≤ 2 ^ (m + 1) + (2 ^ (m + 1) - 1)
        · have hk : i - 2 ^ (m + 1) < 2 ^ (m + 1) := by omega
          have hsplit := two_pow_add_xor (by omega : m + 1 < 8) hk
          rw [Nat.add_sub_of_le (by omega : 2 ^ (m + 1) ≤ i)] at hsplit
          rw [if_pos hin, gfElem_xorBlock, hpows (m + 1) (by omega), hbelow _ hk, hsplit,
            byteElem_xor, add_mul]
        · rw [if_neg hin]
          by_cases heq : i = 2 ^ (m + 1)
          · rw [heq]
            exact hpows (m + 1) (by omega)
          · rw [pow_succ] at hi
            exact hbelow i (by omega)
      · unfold RightEntry
        have hout : ¬ (2 ^ (m + 1) < 2 ^ e ∧ 2 ^ e ≤ 2 ^ (m + 1) + (2 ^ (m + 1) - 1)) := by
          rintro ⟨hlo, hhi⟩
          have hlt : m + 1 < e := (Nat.pow_lt_pow_iff_right Nat.one_lt_two).mp hlo
          have hge : 2 ^ (m + 1 + 1) ≤ 2 ^ e := Nat.pow_le_pow_right (by decide) hlt
          rw [pow_succ] at hge
          omega
        rw [tableSums, hrow (2 ^ e), if_neg hout]
        exact hpows e he

theorem init4kTable_right (g : GfT) (t : ℕ → GfT) {i : ℕ} (hi : i < 256) :
    RightEntry g (init4kTable g t) i := by
  set t₀ := Function.update (Function.update t 0 (zeros 16)) 128 g with ht₀
  have hzero : RightEntry g t₀ 0 := by
    unfold RightEntry
    rw [ht₀, Function.update_of_ne (by decide), Function.update_self, gfElem_zeros,
      show UInt8.ofNat 0 = 0 from rfl, byteElem_zero, zero_mul]
  have htop : ∀ e < 8, 7 ≤ e → RightEntry g t₀ (2 ^ e) := by
    intro e he hle
    obtain rfl : e = 7 := by omega
    unfold RightEntry
    have h128 : t₀ (2 ^ 7) = g := by
      rw [ht₀, show 2 ^ 7 = 128 from rfl, Function.update_self]
    rw [byteElem_two_pow he, h128, Nat.sub_self, pow_zero, one_mul]
  obtain ⟨hzero', hpow⟩ := tableShifts_right 7 le_rfl t₀ hzero htop
  exact (tableSums_right 7 le_rfl _ hzero' hpow).1 i hi

theorem gfElem_mul4kLoop {g : GfT} {t : ℕ → GfT} (ht : ∀ i < 256, RightEntry g t i) (a : GfT)
    (i : ℕ) (r : GfT) :
    gfElem (mul4kLoop t a i r) =
      gfX ^ (8 * i) * gfElem r +
        (∑ j ∈ Finset.range i, gfX ^ (8 * j) * byteElem (gfByte a j)) * gfElem g := by
  induction i generalizing r with
  | zero => simp [mul4kLoop]
  | succ i ih =>
      have hentry := ht (gfByte a i).toNat (gfByte a i).toNat_lt
      unfold RightEntry at hentry
      rw [UInt8.ofNat_toNat] at hentry
      rw [mul4kLoop, ih, gfElem_xorBlock, gfElem_gfMulx8Lb, hentry, Finset.sum_range_succ]
      ring

/-- **The table-driven multiplier is the product of the ring**, whatever the
table's memory held before. -/
theorem gfElem_gfMul4k (a g : GfT) (t : ℕ → GfT) :
    gfElem (gfMul4k a (init4kTable g t)) = gfElem a * gfElem g := by
  unfold gfMul4k
  rw [gfElem_mul4kLoop (fun i hi => init4kTable_right g t hi), gfElem_zeros, mul_zero, zero_add,
    ← gfElem_eq_sum]

theorem gfMul4k_eq_gfMulTMD (a g : GfT) (t : ℕ → GfT) :
    gfMul4k a (init4kTable g t) = gfMulTMD a g := by
  apply gfElem_injective
  rw [gfElem_gfMul4k, gfElem_gfMulTMD]

/-- **Both multipliers, and nothing else**: a buffer stands for the product of
two field elements exactly when it is what `gf_mulTMD` leaves, and exactly when
it is what `gf_mul_4k` leaves over a table that `init_4k_table` filled. -/
theorem multipliers_exact (a g r : GfT) (t : ℕ → GfT) :
    (gfElem r = gfElem a * gfElem g ↔ r = gfMulTMD a g) ∧
      (gfElem r = gfElem a * gfElem g ↔ r = gfMul4k a (init4kTable g t)) := by
  rw [gfMul4k_eq_gfMulTMD, ← gfElem_gfMulTMD, gfElem_injective.eq_iff]
  exact ⟨Iff.rfl, Iff.rfl⟩

end GecRelay
