import GecRelay.Gcm.Driver

/-!
# The counter block

`inc_ctr` counts in the last four bytes, most significant first, and wraps
around without touching the first twelve. So the counter blocks of a message
that starts from one block are distinct for `2 ^ 32` increments
(`iterate_incCtr_injective`).
-/

namespace GecRelay

open Foundation

/-- The number in the first `n` bytes of the counter field. -/
def ctrValue : ℕ → GfT → ℕ
  | 0, _ => 0
  | n + 1, x => ctrValue n x * 256 + (gfByte x (12 + n)).toNat

theorem ctrValue_lt (n : ℕ) (x : GfT) : ctrValue n x < 256 ^ n := by
  induction n with
  | zero => exact Nat.one_pos
  | succ n ih =>
      have hbyte := (gfByte x (12 + n)).toNat_lt
      rw [ctrValue, pow_succ]
      omega

theorem ctrValue_congr {n : ℕ} {x y : GfT} (h : ∀ i < n, gfByte x (12 + i) = gfByte y (12 + i)) :
    ctrValue n x = ctrValue n y := by
  induction n with
  | zero => rfl
  | succ n ih =>
      rw [ctrValue, ctrValue, ih fun i hi => h i (Nat.lt_succ_of_lt hi), h n (Nat.lt_succ_self n)]

/-- The loop with its carry: a successor in the first `n` bytes of the field,
and nothing else changes. -/
theorem incCtrLoop_spec {n : ℕ} (hn : n ≤ 4) (x : GfT) :
    ctrValue n (incCtrLoop n x) = (ctrValue n x + 1) % 256 ^ n ∧
      ∀ i < 16, i < 12 ∨ 12 + n ≤ i → gfByte (incCtrLoop n x) i = gfByte x i := by
  induction n generalizing x with
  | zero => exact ⟨(Nat.mod_one _).symm, fun i _ _ => rfl⟩
  | succ n ih =>
      set b := gfByte x (12 + n) + 1 with hb
      set x' : GfT := gfOf fun i => if i = 12 + n then b else gfByte x i with hx'
      have hset : ∀ i < 16, gfByte x' i = if i = 12 + n then b else gfByte x i :=
        fun i hi => gfByte_gfOf _ hi
      have hat : gfByte x' (12 + n) = b := by rw [hset _ (by omega), if_pos rfl]
      have hfront : ctrValue n x' = ctrValue n x := by
        refine ctrValue_congr fun i hi => ?_
        rw [hset _ (by omega), if_neg (by omega)]
      have hlt := ctrValue_lt n x
      have hbyte := (gfByte x (12 + n)).toNat_lt
      have hbval : b.toNat = ((gfByte x (12 + n)).toNat + 1) % 256 := by
        rw [hb, UInt8.toNat_add]
        rfl
      rw [incCtrLoop, ← hb, ← hx']
      by_cases hzero : b = 0
      · -- the byte was 255: it is zero now and the carry goes on
        rw [if_pos hzero]
        obtain ⟨hval, hkeep⟩ := ih (by omega) x'
        have hb0 : b.toNat = 0 := by rw [hzero]; rfl
        have h255 : (gfByte x (12 + n)).toNat = 255 := by omega
        refine ⟨?_, fun i hi hout => ?_⟩
        · rw [ctrValue, hval, hfront, hkeep _ (by omega) (Or.inr le_rfl), hat, hb0, ctrValue, h255,
            pow_succ, Nat.add_zero, ← Nat.mul_mod_mul_right, Nat.add_mul, Nat.one_mul,
            Nat.add_assoc]
        · rw [hkeep i hi (by omega), hset i hi, if_neg (by omega)]
      · rw [if_neg hzero]
        have hne : b.toNat ≠ 0 := fun h => hzero (UInt8.toNat_inj.mp h)
        refine ⟨?_, fun i hi hout => ?_⟩
        · rw [ctrValue, hfront, hat, ctrValue, pow_succ, Nat.mod_eq_of_lt (by omega)]
          omega
        · rw [hset i hi, if_neg (by omega)]

theorem ctrValue_four_lt (x : GfT) : ctrValue 4 x < 2 ^ 32 :=
  (ctrValue_lt 4 x).trans_eq (by decide)

theorem ctrValue_incCtr (x : GfT) : ctrValue 4 (incCtr x) = (ctrValue 4 x + 1) % 2 ^ 32 :=
  (incCtrLoop_spec le_rfl x).1

theorem gfByte_incCtr (x : GfT) {i : ℕ} (hi : i < 12) : gfByte (incCtr x) i = gfByte x i :=
  (incCtrLoop_spec le_rfl x).2 i (by omega) (Or.inl hi)

theorem ctrValue_iterate (k : ℕ) (x : GfT) :
    ctrValue 4 (incCtr^[k] x) = (ctrValue 4 x + k) % 2 ^ 32 := by
  induction k with
  | zero =>
      rw [Function.iterate_zero_apply, Nat.add_zero, Nat.mod_eq_of_lt (ctrValue_four_lt x)]
  | succ k ih =>
      rw [Function.iterate_succ_apply', ctrValue_incCtr, ih, Nat.mod_add_mod, Nat.add_assoc]

theorem gfByte_iterate (k : ℕ) (x : GfT) {i : ℕ} (hi : i < 12) :
    gfByte (incCtr^[k] x) i = gfByte x i := by
  induction k with
  | zero => rfl
  | succ k ih => rw [Function.iterate_succ_apply', gfByte_incCtr _ hi, ih]

theorem iterate_incCtr_injective (x : GfT) {j k : ℕ} (hj : j < 2 ^ 32) (hk : k < 2 ^ 32)
    (h : incCtr^[j] x = incCtr^[k] x) : j = k := by
  have hval := congrArg (ctrValue 4) h
  have hx := ctrValue_four_lt x
  rw [ctrValue_iterate, ctrValue_iterate] at hval
  omega

/-! ## The initial counter block -/

/-- Writing the saved counter word back into a later counter block gives the
initial one. -/
theorem overwrite_iterate (k : ℕ) (c : GfT) :
    overwrite (incCtr^[k] c) 12 (slice c 12 4).toList = c := by
  have hword : (c.toList.drop 12).take 4 = c.toList.drop 12 :=
    List.take_of_length_le (by simp)
  have hfront : (incCtr^[k] c).toList.take 12 = c.toList.take 12 := by
    apply List.ext_getElem
    · simp
    · intro i h₁ h₂
      have hi : i < 12 := by
        simp at h₁
        omega
      have hbyte := gfByte_iterate k c hi
      unfold gfByte at hbyte
      simpa [List.getD_eq_getElem?_getD, show i < 16 by omega] using hbyte
  apply vec_ext
  have hall : (c.toList.drop 12).take (16 - 12) = c.toList.drop 12 :=
    List.take_of_length_le (by simp)
  have hend : (incCtr^[k] c).toList.drop (12 + (c.toList.drop 12).length) = [] :=
    List.drop_eq_nil_of_le (by simp)
  rw [toList_overwrite, toList_slice, hword, hfront, hall, hend, List.append_nil,
    List.take_append_drop]

end GecRelay
