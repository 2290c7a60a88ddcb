import GecRelay.Gcm.Streaming
import GecRelay.Foundation.BigEndian
import Mathlib.Tactic.IntervalCases

/-!
# The hash behind the tag

The hash of GCM runs over the blocks of the header, the blocks of the
ciphertext, both padded with zeros, and a block of the two lengths:
`y := (y + b) * h` for each block. The driver never does it in this order. It
hashes header and text apart, lazily, multiplies the header's hash by a power
of `h` that it takes by squaring, and adds the lengths from the end
(`tagHash_eq_ghash`).
-/

namespace GecRelay

open Foundation

/-! ## Blocks -/

/-- The blocks of a text, the last one padded with zeros. -/
def blocksOf (ds : List UInt8) : List GfT :=
  if ds = [] then [] else xorAt (zeros 16) 0 (ds.take 16) :: blocksOf (ds.drop 16)
termination_by ds.length
decreasing_by
  rw [List.length_drop]
  have := List.length_pos_iff.mpr ‹_›
  omega

theorem blocksOf_nil : blocksOf [] = [] := by
  rw [blocksOf, if_pos rfl]

theorem blocksOf_of_ne_nil {ds : List UInt8} (hne : ds ≠ []) :
    blocksOf ds = xorAt (zeros 16) 0 (ds.take 16) :: blocksOf (ds.drop 16) := by
  rw [blocksOf, if_neg hne]

theorem length_blocksOf (ds : List UInt8) : (blocksOf ds).length = (ds.length + 15) / 16 := by
  fun_induction blocksOf ds with
  | case1 => rfl
  | case2 ds hne ih =>
      have hpos := List.length_pos_iff.mpr hne
      rw [List.length_cons, ih, List.length_drop]
      omega

theorem xorAt_zero (g : GfT) (ds : List UInt8) :
    xorAt g 0 ds = xorBlock g (xorAt (zeros 16) 0 ds) := by
  apply gf_ext
  intro i hi
  rw [gfByte_xorAt _ _ _ hi, gfByte_xorBlock _ _ hi, gfByte_xorAt _ _ _ hi]
  simp

/-! ## The lazy hash -/

section Hash

variable {mul : GfT → GfT}

/-- `y := (y + b) * h` over blocks. -/
def hashBlocks (mul : GfT → GfT) (y : GfT) (bs : List GfT) : GfT :=
  bs.foldl (fun y b => mul (xorBlock y b)) y

theorem mul_authTail (g : GfT) {ds : List UInt8} (hne : ds ≠ []) :
    mul (authTail mul g 16 ds) = hashBlocks mul (mul g) (blocksOf ds) := by
  fun_induction blocksOf ds generalizing g with
  | case1 => exact absurd rfl hne
  | case2 ds _ ih =>
      have hsplit : authTail mul (mul g) 0 (ds.take 16 ++ ds.drop 16) =
          authTail mul (xorAt (mul g) 0 (ds.take 16)) (0 + (ds.take 16).length) (ds.drop 16) :=
        authTail_within (ds.take 16) (ds.drop 16) (by simp) (mul g)
      rw [List.take_append_drop] at hsplit
      rw [authTail_full hne, hsplit, xorAt_zero]
      show _ = hashBlocks mul (mul (xorBlock (mul g) _)) (blocksOf (ds.drop 16))
      by_cases hlast : ds.drop 16 = []
      · rw [hlast, blocksOf_nil, authTail]
        rfl
      · have hlong : 16 < ds.length := by
          by_contra hle
          exact hlast (List.drop_eq_nil_of_le (by omega))
        have hlen : 0 + (ds.take 16).length = 16 := by
          rw [List.length_take]
          omega
        rw [hlen, ih _ hlast]

/-- **The lazy hash, completed**, is the hash of the blocks. -/
theorem mul_lazyHash (hzero : mul (zeros 16) = zeros 16) (ds : List UInt8) :
    mul (lazyHash mul ds) = hashBlocks mul (zeros 16) (blocksOf ds) := by
  by_cases hne : ds = []
  · subst hne
    rw [blocksOf_nil]
    exact hzero
  · have h : mul (authTail mul (zeros 16) 16 ds) =
        hashBlocks mul (mul (zeros 16)) (blocksOf ds) := mul_authTail (zeros 16) hne
    rw [authTail_full hne, hzero] at h
    exact h

/-- In the ring the hash is a Horner evaluation. -/
theorem gfElem_hashBlocks {h : GfT} (hmul : ∀ a, gfElem (mul a) = gfElem a * gfElem h) (y : GfT)
    (bs : List GfT) : gfElem (hashBlocks mul y bs) = horner (gfElem h) (gfElem y) (bs.map gfElem) := by
  induction bs generalizing y with
  | nil => rfl
  | cons b bs ih =>
      rw [List.map_cons, horner_cons, ← gfElem_xorBlock, ← hmul]
      exact ih _

end Hash

/-! ## The lengths -/

/-- The bit lengths of header and text, 64 bits each, most significant byte
first. -/
def lengthBlock (hdrLen txtLen : ℕ) : GfT :=
  xorAt (zeros 16) 0 (bigEndian 8 (8 * hdrLen) ++ bigEndian 8 (8 * txtLen))

/-- `tm` when the loop is at index `i`. -/
def tmAt (hdrCnt : UInt32) : ℕ → UInt64 → ℕ → UInt64
  | 0, tm, _ => tm
  | n + 1, tm, i =>
      if i = n then tm
      else tmAt hdrCnt n (if n = 8 then hdrCnt.toUInt64 <<< 3 else tm >>> 8) i

theorem gfByte_lengthLoop (hdrCnt : UInt32) (txt : GfT) (n : ℕ) (hn : n ≤ 16) (tm : UInt64)
    (x : GfT) {i : ℕ} (hi : i < 16) :
    gfByte (lengthLoop hdrCnt txt n tm x) i =
      if i < n then gfByte x i ^^^ (gfByte txt i ^^^ (tmAt hdrCnt n tm i).toUInt8)
      else gfByte x i := by
  induction n generalizing tm x with
  | zero => rw [lengthLoop, if_neg (by omega)]
  | succ n ih =>
      have hbyte : ∀ d : UInt8, gfByte (xorAt x n [d]) i =
          if i = n then gfByte x i ^^^ d else gfByte x i := by
        intro d
        rw [gfByte_xorAt _ _ _ hi]
        by_cases heq : i = n
        · subst heq
          simp
        · rw [if_neg heq]
          split
          · rw [List.getD_eq_default _ _ (by rw [List.length_singleton]; omega), UInt8.xor_zero]
          · rfl
      rw [lengthLoop, ih (by omega), hbyte, tmAt]
      by_cases heq : i = n
      · subst heq
        rw [if_neg (Nat.lt_irrefl i), if_pos rfl, if_pos (Nat.lt_succ_self i), if_pos rfl]
      · rw [if_neg heq, if_neg heq]
        by_cases hlt : i < n
        · have hlt' : i < n + 1 := by omega
          rw [if_pos hlt, if_pos hlt']
        · have hge : ¬ i < n + 1 := by omega
          rw [if_neg hlt, if_neg hge]

theorem toNat_shl_three (c : UInt32) : (c.toUInt64 <<< 3).toNat = 8 * c.toNat := by
  have hc := c.toNat_lt
  simp [Nat.shiftLeft_eq]
  omega

theorem tmAt_eq (hdrCnt txtCnt : UInt32) {i : ℕ} (hi : i < 16) :
    (tmAt hdrCnt 16 (txtCnt.toUInt64 <<< 3) i).toUInt8 =
      (bigEndian 8 (8 * hdrCnt.toNat) ++ bigEndian 8 (8 * txtCnt.toNat)).getD i 0 := by
  have hbyte : ∀ w : UInt64, w.toUInt8 = UInt8.ofNat (w.toNat % 256) := by
    intro w
    apply UInt8.toNat_inj.mp
    simp
  have hshift : ∀ w : UInt64, (w >>> 8).toNat = w.toNat / 256 := by
    intro w
    simp [Nat.shiftRight_eq_div_pow]
  rw [hbyte]
  interval_cases i <;>
    simp only [tmAt, bigEndian, hshift, toNat_shl_three, List.nil_append, List.cons_append,
      List.getD_cons_zero, List.getD_cons_succ, reduceIte, Nat.reduceEqDiff]

theorem lengthLoop_eq (hdrCnt txtCnt : UInt32) (txt x : GfT) :
    lengthLoop hdrCnt txt 16 (txtCnt.toUInt64 <<< 3) x =
      xorBlock x (xorBlock txt (lengthBlock hdrCnt.toNat txtCnt.toNat)) := by
  apply gf_ext
  intro i hi
  rw [gfByte_lengthLoop _ _ 16 le_rfl _ _ hi, if_pos hi, gfByte_xorBlock _ _ hi,
    gfByte_xorBlock _ _ hi, tmAt_eq _ _ hi, lengthBlock, gfByte_xorAt _ _ _ hi]
  simp

/-! ## The hash of a message -/

/-- The hash of GCM over header and ciphertext. -/
def ghash (h : GfT) (hdr txt : List UInt8) : GfT :=
  hashBlocks (fun a => gfMulTMD a h) (zeros 16)
    (blocksOf hdr ++ blocksOf txt ++ [lengthBlock hdr.length txt.length])

/-- The table in the context is the one of its `ghash_h`. -/
def GcmCtx.Tabled (ctx : GcmCtx) : Prop := ∀ i < 256, RightEntry ctx.ghashH ctx.gfT4k i

theorem gcmInitAndKey_tabled (P : Primitives) (key : Bytes 16) (ctx : GcmCtx) :
    (gcmInitAndKey P key ctx).Tabled := by
  intro i hi
  exact init4kTable_right _ _ hi

theorem GcmCtx.Tabled.gfElem_gfMulHh {ctx : GcmCtx} (h : ctx.Tabled) (a : GfT) :
    gfElem (gfMulHh ctx a) = gfElem a * gfElem ctx.ghashH := by
  unfold gfMulHh gfMul4k
  rw [gfElem_mul4kLoop h, gfElem_zeros, mul_zero, zero_add, ← gfElem_eq_sum]

theorem GcmCtx.Tabled.gfMulHh_eq {ctx : GcmCtx} (h : ctx.Tabled) :
    gfMulHh ctx = fun a => gfMulTMD a ctx.ghashH := by
  funext a
  apply gfElem_injective
  rw [h.gfElem_gfMulHh, gfElem_gfMulTMD]

theorem gfMulTMD_zeros (h : GfT) : gfMulTMD (zeros 16) h = zeros 16 := by
  apply gfElem_injective
  rw [gfElem_gfMulTMD, gfElem_zeros, zero_mul]

/-- The number of text blocks, as `gcm_compute_tag` counts them. -/
theorem ln_toNat {cnt : UInt32} (hcnt : cnt.toNat + 15 < 2 ^ 32) :
    ((cnt + 16 - 1) / 16).toNat = (cnt.toNat + 15) / 16 := by
  have h15 : cnt + 16 - 1 = cnt + 15 := by
    rw [UInt32.sub_eq_add_neg, UInt32.add_assoc]
    rfl
  rw [h15, UInt32.toNat_div, UInt32.toNat_add]
  have hmod : (cnt.toNat + UInt32.toNat 15) % 2 ^ 32 = cnt.toNat + 15 := Nat.mod_eq_of_lt hcnt
  rw [hmod]
  rfl

/-- **The driver's hash is the hash of GCM**: header and text apart, the
header's power by squaring, the lengths last. -/
theorem tagHash_eq_ghash {ctx : GcmCtx} (htab : ctx.Tabled) {hdr txt : List UInt8}
    (hhdr : ctx.hdrCnt.toNat = hdr.length) (htxt : ctx.txtAcnt.toNat = txt.length)
    (hlen : txt.length + 15 < 2 ^ 32) :
    tagHash ctx (gfMulHh ctx (lazyHash (gfMulHh ctx) hdr))
      (gfMulHh ctx (lazyHash (gfMulHh ctx) txt)) = ghash ctx.ghashH hdr txt := by
  have hzero : gfMulHh ctx (zeros 16) = zeros 16 := by
    rw [htab.gfMulHh_eq]
    exact gfMulTMD_zeros _
  have hln : ((ctx.txtAcnt + 16 - 1) / 16).toNat = (blocksOf txt).length := by
    rw [ln_toNat (by rw [htxt]; exact hlen), htxt, length_blocksOf]
  have hmul : ∀ a, gfElem (gfMulTMD a ctx.ghashH) = gfElem a * gfElem ctx.ghashH :=
    fun a => gfElem_gfMulTMD a _
  set A := hashBlocks (gfMulHh ctx) (zeros 16) (blocksOf hdr) with hA
  set B := hashBlocks (gfMulHh ctx) (zeros 16) (blocksOf txt) with hB
  -- the header's hash, moved up over the blocks of the text
  have hpow : gfElem (if ctx.hdrCnt ≠ 0 ∧ (ctx.txtAcnt + 16 - 1) / 16 ≠ 0
      then squareMultiply gfMulTMD ((ctx.txtAcnt + 16 - 1) / 16).toNat A ctx.ghashH else A) =
      gfElem A * gfElem ctx.ghashH ^ (blocksOf txt).length := by
    by_cases hcase : ctx.hdrCnt ≠ 0 ∧ (ctx.txtAcnt + 16 - 1) / 16 ≠ 0
    · rw [if_pos hcase, squareMultiply_pow gfElem_gfMulTMD, hln]
    · rw [if_neg hcase]
      rcases not_and_or.mp hcase with hnone | hshort
      · have hnil : hdr = [] := by
          have hcnt : ctx.hdrCnt = 0 := not_not.mp hnone
          rw [hcnt] at hhdr
          exact List.length_eq_zero_iff.mp hhdr.symm
        have hA0 : gfElem A = 0 := by
          rw [hA, hnil, blocksOf_nil]
          exact gfElem_zeros
        rw [hA0, zero_mul]
      · have hzeroln : (ctx.txtAcnt + 16 - 1) / 16 = 0 := not_not.mp hshort
        rw [hzeroln] at hln
        have hnone : (blocksOf txt).length = 0 := hln.symm
        rw [hnone, pow_zero, mul_one]
  have hA' : gfElem A = horner (gfElem ctx.ghashH) 0 ((blocksOf hdr).map gfElem) := by
    rw [hA, htab.gfMulHh_eq, gfElem_hashBlocks hmul, gfElem_zeros]
  have hB' : gfElem B = horner (gfElem ctx.ghashH) 0 ((blocksOf txt).map gfElem) := by
    rw [hB, htab.gfMulHh_eq, gfElem_hashBlocks hmul, gfElem_zeros]
  apply gfElem_injective
  have hleft : gfElem (tagHash ctx A B) = (gfElem A * gfElem ctx.ghashH ^ (blocksOf txt).length +
      (gfElem B + gfElem (lengthBlock hdr.length txt.length))) * gfElem ctx.ghashH := by
    unfold tagHash
    rw [htab.gfElem_gfMulHh, lengthLoop_eq, gfElem_xorBlock, gfElem_xorBlock, hpow, hhdr, htxt]
  have hright : gfElem (ghash ctx.ghashH hdr txt) =
      (horner (gfElem ctx.ghashH) (gfElem A) ((blocksOf txt).map gfElem) +
        gfElem (lengthBlock hdr.length txt.length)) * gfElem ctx.ghashH := by
    unfold ghash
    rw [gfElem_hashBlocks hmul, gfElem_zeros, List.map_append, List.map_append, horner_append,
      horner_append, ← hA']
    rfl
  rw [mul_lazyHash hzero, mul_lazyHash hzero, ← hA, ← hB, hleft, hright, horner_state,
    List.length_map, ← hB', add_assoc]

end GecRelay
