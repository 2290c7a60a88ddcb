import GecRelay.Curve25519.Contract
import GecRelay.Curve25519.Ladder

/-!
# curve25519-donna

`curve25519_donna` clamps the secret, runs the ladder on it from the x-coordinate
in the base point, divides with the help of `crecip`, which raises to the power
`2 ^ 255 - 21`, and writes the bytes of the quotient.

Whatever the 96 bytes it is given, what it writes is the least number of
`x / z` for the ladder over the field (`donna_exact`).
-/

namespace GecRelay.Curve25519

open Foundation Finset

/-! ## The operations -/

/-- `k` squarings, which the source does to and fro between `t0` and `t1`. -/
def squares (k : ℕ) (x : Limbs 10) : Limbs 10 := (List.range k).foldl (fun x _ => fsquare x) x

def crecip (z : Limbs 10) : Limbs 10 :=
  let z2 := fsquare z
  let t1 := fsquare z2
  let t0 := fsquare t1
  let z9 := fmul t0 z
  let z11 := fmul z9 z2
  let t0 := fsquare z11
  let z250 := fmul t0 z9
  let t0 := squares 5 z250
  let z2100 := fmul t0 z250
  let t1 := squares 10 z2100
  let z2200 := fmul t1 z2100
  let t1 := squares 20 z2200
  let t0 := fmul t1 z2200
  let t0 := squares 10 t0
  let z2500 := fmul t0 z2100
  let t1 := squares 50 z2500
  let z21000 := fmul t1 z2500
  let t0 := squares 100 z21000
  let t1 := fmul t0 z21000
  let t1 := squares 50 t1
  let t0 := fmul t1 z2500
  let t1 := squares 5 t0
  fmul t1 z11

/-- The first and the last byte of the scalar. -/
def clampBytes (secret : Bytes 32) : Bytes 32 :=
  let e := secret
  let e := setLimb e 0 (limb e 0 &&& 248)
  let e := setLimb e 31 (limb e 31 &&& 127)
  setLimb e 31 (limb e 31 ||| 64)

def curve25519Donna (mypublic secret basepoint : Bytes 32) : Bytes 32 :=
  let e := clampBytes secret
  let bp := fexpand basepoint
  let r := cmult e bp
  let zmone := crecip r.2
  let z := fmul r.1 zmone
  fcontract mypublic z

/-! ## The inverse -/

/-- Limbs that stand for a power. -/
structure Power (v : Fp) (e : ℕ) (x : Limbs 10) : Prop where
  bound : Bounded 26 x
  value : element x = v ^ e

theorem Power.fsquare {v : Fp} {e : ℕ} {x : Limbs 10} (h : Power v e x) :
    Power v (e * 2) (fsquare x) := by
  obtain ⟨hbound, hvalue⟩ := fsquare_spec (h.bound.mono (by decide))
  refine ⟨hbound, ?_⟩
  rw [hvalue, h.value, ← pow_mul]

theorem Power.fmul {v : Fp} {d e : ℕ} {x y : Limbs 10} (hx : Power v d x) (hy : Power v e y) :
    Power v (d + e) (fmul x y) := by
  obtain ⟨hbound, hvalue⟩ := fmul_spec (hx.bound.mono (by decide)) (hy.bound.mono (by decide))
  refine ⟨hbound, ?_⟩
  rw [hvalue, hx.value, hy.value, ← pow_add]

theorem Power.squares {v : Fp} {e : ℕ} {x : Limbs 10} (h : Power v e x) (k : ℕ) :
    Power v (e * 2 ^ k) (squares k x) := by
  induction k with
  | zero => rwa [pow_zero, Nat.mul_one]
  | succ k ih =>
      unfold Curve25519.squares
      rw [List.range_succ, List.foldl_append, pow_succ, ← Nat.mul_assoc]
      exact ih.fsquare

/-- **`crecip` raises to the power `p - 2`.** -/
theorem crecip_spec {z : Limbs 10} (hz : Bounded 26 z) :
    Power (element z) (p25519 - 2) (crecip z) := by
  have h1 : Power (element z) 1 z := ⟨hz, (pow_one _).symm⟩
  have h2 := h1.fsquare
  have h9 := h2.fsquare.fsquare.fmul h1
  have h11 := h9.fmul h2
  have h5 := h11.fsquare.fmul h9
  have h10 := (h5.squares 5).fmul h5
  have h20 := (h10.squares 10).fmul h10
  have h40 := (h20.squares 20).fmul h20
  have h50 := (h40.squares 10).fmul h10
  have h100 := (h50.squares 50).fmul h50
  have h200 := (h100.squares 100).fmul h100
  have h250 := (h200.squares 50).fmul h50
  have hlast := (h250.squares 5).fmul h11
  refine ⟨hlast.bound, hlast.value.trans (congrArg (fun e => element z ^ e) ?_)⟩
  decide

/-! ## The scalar -/

/-- The scalar that the ladder runs on: a multiple of eight with bit 254 set. -/
def clamp (k : ℕ) : ℕ := 2 ^ 254 + k % 2 ^ 254 / 8 * 8

theorem and_248 : ∀ b < 256, b &&& 248 = b / 8 * 8 := by
  decide +kernel

theorem and_or_last : ∀ b < 256, b &&& 127 ||| 64 = 64 + b % 64 := by
  decide +kernel

/-- The first byte, the thirty between and the last. -/
theorem littleEndian_ends (b : Bytes 32) :
    littleEndian b = (limb b 0).toNat + 2 ^ 8 *
      ((radixValue (8 * ·) 30 fun i => (limb b (1 + i)).toNat) + (limb b 31).toNat * 2 ^ 240) := by
  have hsplit : prefixValue b (1 + 31) = (radixValue (8 * ·) 1 fun i => (limb b i).toNat) +
      2 ^ 8 * radixValue (8 * ·) 31 fun i => (limb b (1 + i)).toNat :=
    radixValue_split (w := (8 * ·)) (u := (8 * ·)) _ fun i _ => Nat.mul_add 8 1 i
  have hfirst : (radixValue (8 * ·) 1 fun i => (limb b i).toNat) = (limb b 0).toNat :=
    radixValue_one rfl _
  rw [littleEndian, hsplit, hfirst, radixValue_succ]

theorem littleEndian_clampBytes (secret : Bytes 32) :
    littleEndian (clampBytes secret) = clamp (littleEndian secret) := by
  have hfirst : (limb (clampBytes secret) 0).toNat = (limb secret 0).toNat / 8 * 8 := by
    unfold clampBytes
    dsimp only
    rw [limb_setLimb _ _ (by decide), if_neg (by decide), limb_setLimb _ _ (by decide),
      if_neg (by decide), limb_setLimb _ _ (by decide), if_pos rfl, UInt8.toNat_and]
    exact and_248 _ (limb secret 0).toNat_lt
  have hlast : (limb (clampBytes secret) 31).toNat = 64 + (limb secret 31).toNat % 64 := by
    unfold clampBytes
    dsimp only
    rw [limb_setLimb _ _ (by decide), if_pos rfl, limb_setLimb _ _ (by decide), if_pos rfl,
      limb_setLimb _ _ (by decide), if_neg (by decide), UInt8.toNat_or, UInt8.toNat_and]
    exact and_or_last _ (limb secret 31).toNat_lt
  have hmiddle : (radixValue (8 * ·) 30 fun i => (limb (clampBytes secret) (1 + i)).toNat) =
      radixValue (8 * ·) 30 fun i => (limb secret (1 + i)).toNat := by
    refine radixValue_congr fun i hi => ?_
    unfold clampBytes
    dsimp only
    rw [limb_setLimb _ _ (by omega), if_neg (by omega), limb_setLimb _ _ (by omega),
      if_neg (by omega), limb_setLimb _ _ (by omega), if_neg (by omega)]
  have hlt : (radixValue (8 * ·) 30 fun i => (limb secret (1 + i)).toNat) < 2 ^ 240 :=
    radixValue_lt eight_mono fun i _ => byte_lt _ i
  have h0 := (limb secret 0).toNat_lt
  have h31 := (limb secret 31).toNat_lt
  unfold clamp
  rw [littleEndian_ends, littleEndian_ends, hfirst, hlast, hmiddle]
  generalize (radixValue (8 * ·) 30 fun i => (limb secret (1 + i)).toNat) = m at hlt ⊢
  omega

/-! ## The function -/

/-- `x / z`, where the inverse of zero is zero. -/
def quotient (s : Rung Fp) : Fp := s.x2 * s.z2 ^ (p25519 - 2)

theorem donna_exact (mypublic secret basepoint : Bytes 32) :
    littleEndian (curve25519Donna mypublic secret basepoint) =
      (quotient (ladder 121665 ((littleEndian basepoint % 2 ^ 255 : ℕ) : Fp) 256
        (clamp (littleEndian secret)))).val := by
  obtain ⟨hbp, hu⟩ := fexpand_spec basepoint
  obtain ⟨hx, hz, hxv, hzv⟩ := cmult_spec (clampBytes secret) hbp
  have hinv := crecip_spec hz
  obtain ⟨hout, hvalue⟩ := fmul_spec (hx.mono (by decide)) (hinv.bound.mono (by decide))
  unfold curve25519Donna
  dsimp only
  rw [fcontract_spec mypublic hout, hvalue, hinv.value, hxv, hzv, hu, littleEndian_clampBytes]
  rfl

end GecRelay.Curve25519
