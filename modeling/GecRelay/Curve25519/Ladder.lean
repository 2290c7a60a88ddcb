import GecRelay.Curve25519.Expand
import GecRelay.Foundation.Ladder

/-!
# The ladder of curve25519-donna

`fmonty` doubles one point and adds two, in limbs that stay below `2 ^ 26`;
`swap_conditional` exchanges limbs by a mask; `cmult` runs over the bits of a
scalar of 32 bytes, from the top bit of the last byte. Together they are the
ladder of the field (`cmult_spec`).
-/

namespace GecRelay.Curve25519

open Foundation Finset

/-! ## The operations -/

/-- `freduce_degree`, then `freduce_coefficients`. -/
def reduce (t : Limbs 19) : Limbs 10 := freduceCoefficients (freduceDegree t)

/-- Ten limbs with the upper nine cleared. -/
def clearUpper (x : Limbs 10) : Limbs 19 := limbsOf fun i => if i < 10 then limb x i else 0

/-- `Q` as `x2 / z2` and `Q'` as `x3 / z3`. -/
structure Points where
  x2 : Limbs 10
  z2 : Limbs 10
  x3 : Limbs 10
  z3 : Limbs 10

def fmonty (x z xprime zprime qmqp : Limbs 10) : Points :=
  let origx := x
  let x := fsum x z
  let z := fdifference z origx
  let origxprime := xprime
  let xprime := fsum xprime zprime
  let zprime := fdifference zprime origxprime
  let xxprime := reduce (fproduct xprime z)
  let zzprime := reduce (fproduct x zprime)
  let origxprime := xxprime
  let xxprime := fsum xxprime zzprime
  let zzprime := fdifference zzprime origxprime
  let xxxprime := fsquare xxprime
  let zzzprime := fsquare zzprime
  let zzprime := reduce (fproduct zzzprime qmqp)
  let x3 := xxxprime
  let z3 := zzprime
  let xx := fsquare x
  let zz := fsquare z
  let x2 := reduce (fproduct xx zz)
  let zz := fdifference zz xx
  let zzz := freduceCoefficients (clearUpper (fscalarProduct zz 121665))
  let zzz := fsum zzz xx
  let z2 := reduce (fproduct zz zzz)
  ⟨x2, z2, x3, z3⟩

def swapConditional (a b : Limbs 10) (iswap : Int64) : Limbs 10 × Limbs 10 :=
  let swap : Int32 := (-iswap).toInt32
  let x := fun i => swap &&& ((limb a i).toInt32 ^^^ (limb b i).toInt32)
  (limbsOf fun i => ((limb a i).toInt32 ^^^ x i).toInt64,
    limbsOf fun i => ((limb b i).toInt32 ^^^ x i).toInt64)

def swapPoints (s : Points) (bit : Int64) : Points :=
  let x := swapConditional s.x2 s.x3 bit
  let z := swapConditional s.z2 s.z3 bit
  ⟨x.1, z.1, x.2, z.2⟩

/-- One bit of `cmult`. -/
def cmultBit (q : Limbs 10) (s : Points) (bit : Int64) : Points :=
  let s := swapPoints s bit
  let s := fmonty s.x2 s.z2 s.x3 s.z3 q
  swapPoints s bit

/-- One byte of `cmult`. -/
def cmultByte (q : Limbs 10) (s : Points) (byte : UInt8) : Points :=
  ((List.range 8).foldl (fun (s, byte) _ =>
    (cmultBit q s (byte >>> 7).toUInt64.toInt64, byte <<< 1)) (s, byte)).1

def cmult (n : Bytes 32) (q : Limbs 10) : Limbs 10 × Limbs 10 :=
  let one : Limbs 10 := limbsOf fun i => if i = 0 then 1 else 0
  let zero : Limbs 10 := limbsOf fun _ => 0
  let s := (List.range 32).foldl (fun s i => cmultByte q s (limb n (31 - i))) ⟨one, zero, q, one⟩
  (s.x2, s.z2)

/-! ## One step -/

theorem Bounded.mono {b c : ℕ} {x : Limbs 10} (h : Bounded b x) (hbc : b ≤ c) : Bounded c x :=
  fun i hi => (h i hi).trans_le (pow_le_pow_right₀ (by decide) hbc)

theorem reduce_fproduct {x y : Limbs 10} (hx : Bounded 27 x) (hy : Bounded 27 y) :
    Bounded 26 (reduce (fproduct x y)) ∧
      element (reduce (fproduct x y)) = element x * element y := fmul_spec hx hy

theorem scalar_spec {x : Limbs 10} (hx : Bounded 27 x) :
    Bounded 26 (freduceCoefficients (clearUpper (fscalarProduct x 121665))) ∧
      element (freduceCoefficients (clearUpper (fscalarProduct x 121665))) =
        121665 * element x := by
  have hval : ∀ i < 10, val (clearUpper (fscalarProduct x 121665)) i = 121665 * val x i := by
    intro i hi
    unfold clearUpper
    rw [val_limbsOf _ (by omega), if_pos hi]
    exact val_fscalarProduct hx hi
  refine freduceCoefficients_spec ⟨fun i hi => ?_, ?_⟩
  · obtain ⟨hlo, hhi⟩ := abs_lt.mp (hx i hi)
    rw [hval i hi]
    exact abs_le.mpr ⟨by omega, by omega⟩
  · rw [radixValue_congr hval, radixValue_smul, Int.cast_mul]
    rfl

def Points.Bounded (s : Points) : Prop :=
  Curve25519.Bounded 26 s.x2 ∧ Curve25519.Bounded 26 s.z2 ∧ Curve25519.Bounded 26 s.x3 ∧
    Curve25519.Bounded 26 s.z3

/-- The field elements of the points. -/
def Points.rung (s : Points) : Rung Fp := ⟨element s.x2, element s.z2, element s.x3, element s.z3⟩

/-- The order in which `fmonty` adds and multiplies. -/
theorem ladderStep_fmonty {F : Type} [CommRing F] (a24 u x z x' z' : F) :
    (⟨(x + z) ^ 2 * (x - z) ^ 2,
      ((x + z) ^ 2 - (x - z) ^ 2) * (a24 * ((x + z) ^ 2 - (x - z) ^ 2) + (x + z) ^ 2),
      ((x' + z') * (x - z) + (x + z) * (x' - z')) ^ 2,
      ((x' + z') * (x - z) - (x + z) * (x' - z')) ^ 2 * u⟩ : Rung F) =
        ladderStep a24 u ⟨x, z, x', z'⟩ := by
  unfold ladderStep
  congr 1 <;> ring

/-- **`fmonty` is a step of the ladder.** -/
theorem fmonty_spec {s : Points} {q : Limbs 10} (hs : s.Bounded) (hq : Bounded 26 q) :
    (fmonty s.x2 s.z2 s.x3 s.z3 q).Bounded ∧
      (fmonty s.x2 s.z2 s.x3 s.z3 q).rung = ladderStep 121665 (element q) s.rung := by
  obtain ⟨hx2, hz2, hx3, hz3⟩ := hs
  obtain ⟨hx, ex⟩ := fsum_spec hx2 hz2
  obtain ⟨hz, ez⟩ := fdifference_spec hz2 hx2
  obtain ⟨hx', ex'⟩ := fsum_spec hx3 hz3
  obtain ⟨hz', ez'⟩ := fdifference_spec hz3 hx3
  obtain ⟨hcb, ecb⟩ := reduce_fproduct hx' hz
  obtain ⟨hda, eda⟩ := reduce_fproduct hx hz'
  obtain ⟨hsum, esum⟩ := fsum_spec hcb hda
  obtain ⟨hdiff, ediff⟩ := fdifference_spec hda hcb
  obtain ⟨hx3', ex3'⟩ := fsquare_spec hsum
  obtain ⟨hsq, esq⟩ := fsquare_spec hdiff
  obtain ⟨hz3', ez3'⟩ := reduce_fproduct (hsq.mono (by decide)) (hq.mono (by decide))
  obtain ⟨haa, eaa⟩ := fsquare_spec hx
  obtain ⟨hbb, ebb⟩ := fsquare_spec hz
  obtain ⟨hx2', ex2'⟩ := reduce_fproduct (haa.mono (by decide)) (hbb.mono (by decide))
  obtain ⟨he, ee⟩ := fdifference_spec hbb haa
  obtain ⟨hscalar, escalar⟩ := scalar_spec he
  obtain ⟨hlast, elast⟩ := fsum_spec hscalar haa
  obtain ⟨hz2', ez2'⟩ := reduce_fproduct he hlast
  refine ⟨⟨hx2', hz2', hx3', hz3'⟩, ?_⟩
  unfold Points.rung fmonty
  dsimp only
  rw [ex2', ez2', ex3', ez3', esq, ediff, esum, ecb, eda, elast, escalar, ee, eaa, ebb, ex, ez,
    ex', ez']
  exact ladderStep_fmonty _ _ _ _ _ _

/-! ## The conditional exchange -/

theorem ext_limb {α : Type} [OfNat α 0] {n : ℕ} {x y : List.Vector α n}
    (h : ∀ i < n, limb x i = limb y i) : x = y := by
  refine List.Vector.ext fun m => ?_
  have hm := h m m.isLt
  unfold limb at hm
  rwa [List.getD_eq_getElem _ _ (by rw [x.toList_length]; exact m.isLt),
    List.getD_eq_getElem _ _ (by rw [y.toList_length]; exact m.isLt)] at hm

/-- A limb that fits survives the cast to a word. -/
theorem toInt64_limb {x : Limbs 10} (hx : Bounded 31 x) {i : ℕ} (hi : i < 10) :
    (limb x i).toInt32.toInt64 = limb x i := s32_eq (hx i hi)

/-- **`swap_conditional` exchanges for 1 and leaves for 0.** -/
theorem swapConditional_eq {a b : Limbs 10} (ha : Bounded 31 a) (hb : Bounded 31 b) (c : Bool) :
    swapConditional a b (if c then 1 else 0) = if c then (b, a) else (a, b) := by
  cases c with
  | false =>
      have hmask : (-(0 : Int64)).toInt32 = 0 := rfl
      unfold swapConditional
      dsimp only
      rw [if_neg Bool.false_ne_true, if_neg Bool.false_ne_true, hmask]
      refine Prod.ext (ext_limb fun i hi => ?_) (ext_limb fun i hi => ?_)
      · dsimp only
        rw [limb_limbsOf _ hi, Int32.zero_and, Int32.xor_zero, toInt64_limb ha hi]
      · dsimp only
        rw [limb_limbsOf _ hi, Int32.zero_and, Int32.xor_zero, toInt64_limb hb hi]
  | true =>
      have hmask : (-(1 : Int64)).toInt32 = -1 := rfl
      unfold swapConditional
      dsimp only
      rw [if_pos rfl, if_pos rfl, hmask]
      refine Prod.ext (ext_limb fun i hi => ?_) (ext_limb fun i hi => ?_)
      · dsimp only
        rw [limb_limbsOf _ hi, Int32.neg_one_and, ← Int32.xor_assoc, Int32.xor_self, Int32.zero_xor,
          toInt64_limb hb hi]
      · dsimp only
        rw [limb_limbsOf _ hi, Int32.neg_one_and, Int32.xor_comm (limb a i).toInt32,
          ← Int32.xor_assoc, Int32.xor_self, Int32.zero_xor, toInt64_limb ha hi]

/-- The points the other way round. -/
def Points.swapIf (c : Bool) (s : Points) : Points := if c then ⟨s.x3, s.z3, s.x2, s.z2⟩ else s

theorem swapPoints_eq {s : Points} (hs : s.Bounded) (c : Bool) :
    swapPoints s (if c then 1 else 0) = s.swapIf c := by
  obtain ⟨hx2, hz2, hx3, hz3⟩ := hs
  unfold swapPoints Points.swapIf
  rw [swapConditional_eq (hx2.mono (by decide)) (hx3.mono (by decide)) c,
    swapConditional_eq (hz2.mono (by decide)) (hz3.mono (by decide)) c]
  cases c <;> rfl

theorem swapIf_bounded {s : Points} (hs : s.Bounded) (c : Bool) : (s.swapIf c).Bounded := by
  obtain ⟨hx2, hz2, hx3, hz3⟩ := hs
  cases c with
  | false => exact ⟨hx2, hz2, hx3, hz3⟩
  | true => exact ⟨hx3, hz3, hx2, hz2⟩

theorem rung_swapIf (s : Points) (c : Bool) : (s.swapIf c).rung = s.rung.swapIf c := by
  cases c <;> rfl

theorem cmultBit_spec {s : Points} {q : Limbs 10} (hs : s.Bounded) (hq : Bounded 26 q) (c : Bool) :
    (cmultBit q s (if c then 1 else 0)).Bounded ∧
      (cmultBit q s (if c then 1 else 0)).rung = ladderBit 121665 (element q) c s.rung := by
  have hin := swapIf_bounded hs c
  obtain ⟨hout, hstep⟩ := fmonty_spec hin hq
  unfold cmultBit
  dsimp only
  rw [swapPoints_eq hs c, swapPoints_eq hout c]
  refine ⟨swapIf_bounded hout c, ?_⟩
  rw [rung_swapIf, hstep, rung_swapIf]
  rfl

/-! ## The bits of the scalar -/

/-- The byte after one more shift. -/
theorem shifted_byte (byte : UInt8) (j : ℕ) :
    UInt8.ofNat (byte.toNat * 2 ^ j) <<< 1 = UInt8.ofNat (byte.toNat * 2 ^ (j + 1)) := by
  rw [← UInt8.toNat_inj, UInt8.toNat_shiftLeft, UInt8.toNat_ofNat', UInt8.toNat_ofNat']
  show (byte.toNat * 2 ^ j % 256) <<< 1 % 256 = byte.toNat * 2 ^ (j + 1) % 256
  rw [Nat.shiftLeft_eq, pow_one, pow_succ, ← Nat.mul_assoc]
  generalize byte.toNat * 2 ^ j = v
  omega

theorem top_bit (byte : UInt8) {j : ℕ} (hj : j < 8) :
    (UInt8.ofNat (byte.toNat * 2 ^ j) >>> 7).toUInt64.toInt64 =
      if byte.toNat.testBit (7 - j) then 1 else 0 := by
  have hbit : (UInt8.ofNat (byte.toNat * 2 ^ j) >>> 7).toNat = byte.toNat / 2 ^ (7 - j) % 2 := by
    rw [UInt8.toNat_shiftRight, UInt8.toNat_ofNat']
    show (byte.toNat * 2 ^ j % 2 ^ 8) >>> 7 = _
    rw [Nat.shiftRight_eq_div_pow]
    interval_cases j <;> omega
  have htest : byte.toNat.testBit (7 - j) = decide (byte.toNat / 2 ^ (7 - j) % 2 = 1) :=
    Nat.testBit_eq_decide_div_mod_eq
  rw [htest, ← hbit]
  rcases (by omega : (UInt8.ofNat (byte.toNat * 2 ^ j) >>> 7).toNat = 0 ∨
      (UInt8.ofNat (byte.toNat * 2 ^ j) >>> 7).toNat = 1) with h | h
  · have hzero : UInt8.ofNat (byte.toNat * 2 ^ j) >>> 7 = 0 := UInt8.toNat_inj.mp h
    rw [hzero]
    rfl
  · have hone : UInt8.ofNat (byte.toNat * 2 ^ j) >>> 7 = 1 := UInt8.toNat_inj.mp h
    rw [hone]
    rfl

/-- `cmult` in the middle of a byte. -/
theorem cmultByte_run {s : Points} {q : Limbs 10} (hs : s.Bounded) (hq : Bounded 26 q)
    (byte : UInt8) {k m : ℕ} (hk : ∀ j < 8, k.testBit (m + j) = byte.toNat.testBit j) (j : ℕ)
    (hj : j ≤ 8) : ∃ t : Points, (List.range j).foldl (fun (s, byte) _ =>
        (cmultBit q s (byte >>> 7).toUInt64.toInt64, byte <<< 1)) (s, byte) =
          (t, UInt8.ofNat (byte.toNat * 2 ^ j)) ∧
      t.Bounded ∧ ladderFrom 121665 (element q) k (m + (8 - j)) t.rung =
        ladderFrom 121665 (element q) k (m + 8) s.rung := by
  induction j with
  | zero =>
      refine ⟨s, Prod.ext rfl ?_, hs, rfl⟩
      rw [pow_zero, Nat.mul_one, UInt8.ofNat_toNat]
      rfl
  | succ j ih =>
      obtain ⟨t, hfold, ht, hladder⟩ := ih (by omega)
      obtain ⟨hbounded, hrung⟩ := cmultBit_spec ht hq (byte.toNat.testBit (7 - j))
      have hnext : m + (8 - j) = m + (8 - (j + 1)) + 1 := by omega
      have hindex : m + (8 - (j + 1)) = m + (7 - j) := by omega
      refine ⟨_, ?_, hbounded, ?_⟩
      · rw [List.range_succ, List.foldl_append, hfold]
        show (cmultBit q t (UInt8.ofNat (byte.toNat * 2 ^ j) >>> 7).toUInt64.toInt64,
          UInt8.ofNat (byte.toNat * 2 ^ j) <<< 1) = _
        rw [top_bit byte (by omega), shifted_byte]
      · rw [hrung, ← hladder, hnext, ladderFrom, hindex, hk _ (by omega)]

/-- **One byte of `cmult` is eight bits of the ladder.** -/
theorem cmultByte_spec {s : Points} {q : Limbs 10} (hs : s.Bounded) (hq : Bounded 26 q)
    (byte : UInt8) {k m : ℕ} (hk : ∀ j < 8, k.testBit (m + j) = byte.toNat.testBit j) :
    (cmultByte q s byte).Bounded ∧
      ladderFrom 121665 (element q) k m (cmultByte q s byte).rung =
        ladderFrom 121665 (element q) k (m + 8) s.rung := by
  obtain ⟨t, hfold, ht, hladder⟩ := cmultByte_run hs hq byte hk 8 le_rfl
  unfold cmultByte
  rw [hfold]
  exact ⟨ht, hladder⟩

/-- A bit of the number is a bit of its byte. -/
theorem testBit_littleEndian (b : Bytes 32) {i j : ℕ} (hi : i < 32) (hj : j < 8) :
    (littleEndian b).testBit (8 * i + j) = (limb b i).toNat.testBit j := by
  have hlow : littleEndian b / 2 ^ (8 * i) % 2 ^ 8 = (limb b i).toNat := by
    obtain ⟨r, hr⟩ := Nat.exists_eq_add_of_lt hi
    have hlen : littleEndian b = prefixValue b (i + (1 + r)) := congrArg (prefixValue b) (by omega)
    have houter : prefixValue b (i + (1 + r)) = prefixValue b i + 2 ^ (8 * i) *
        radixValue (8 * ·) (1 + r) fun j => (limb b (i + j)).toNat :=
      radixValue_split _ fun j _ => Nat.mul_add 8 i j
    have hfirst : (radixValue (8 * ·) 1 fun j => (limb b (i + j)).toNat) = (limb b i).toNat :=
      radixValue_one rfl _
    have hinner : (radixValue (8 * ·) (1 + r) fun j => (limb b (i + j)).toNat) =
        (radixValue (8 * ·) 1 fun j => (limb b (i + j)).toNat) + 2 ^ 8 *
          radixValue (8 * ·) r fun j => (limb b (i + (1 + j))).toNat :=
      radixValue_split _ fun j _ => Nat.mul_add 8 1 j
    rw [hlen, houter, hinner, hfirst, Nat.add_mul_div_left _ _ (Nat.two_pow_pos _),
      Nat.div_eq_of_lt (prefixValue_lt b i), Nat.zero_add, Nat.add_mul_mod_self_left,
      Nat.mod_eq_of_lt (limb b i).toNat_lt]
  rw [← hlow, Nat.testBit_mod_two_pow, decide_eq_true hj, Bool.true_and, Nat.testBit_div_two_pow]
  congr 1
  omega

theorem cmult_run {n : Bytes 32} {q : Limbs 10} {s : Points} (hs : s.Bounded) (hq : Bounded 26 q)
    (i : ℕ) (hi : i ≤ 32) :
    ((List.range i).foldl (fun s i => cmultByte q s (limb n (31 - i))) s).Bounded ∧
      ladderFrom 121665 (element q) (littleEndian n) (8 * (32 - i))
        ((List.range i).foldl (fun s i => cmultByte q s (limb n (31 - i))) s).rung =
          ladderFrom 121665 (element q) (littleEndian n) 256 s.rung := by
  induction i with
  | zero => exact ⟨hs, rfl⟩
  | succ i ih =>
      obtain ⟨hbounded, hladder⟩ := ih (by omega)
      have hbyte : 8 * (32 - i) = 8 * (32 - (i + 1)) + 8 := by omega
      have hindex : 31 - i = 32 - (i + 1) := by omega
      obtain ⟨hbounded', hladder'⟩ := cmultByte_spec (k := littleEndian n) (m := 8 * (32 - (i + 1)))
        hbounded hq (limb n (31 - i)) fun j hj => by
          rw [hindex]
          exact testBit_littleEndian n (by omega) hj
      rw [List.range_succ, List.foldl_append]
      refine ⟨hbounded', ?_⟩
      rw [← hladder, hbyte]
      exact hladder'

/-- **`cmult` is the ladder** over all 256 bits. -/
theorem cmult_spec (n : Bytes 32) {q : Limbs 10} (hq : Bounded 26 q) :
    let s := ladder 121665 (element q) 256 (littleEndian n)
    Bounded 26 (cmult n q).1 ∧ Bounded 26 (cmult n q).2 ∧ element (cmult n q).1 = s.x2 ∧
      element (cmult n q).2 = s.z2 := by
  have hone : ∀ i < 10, val (limbsOf (fun i => if i = 0 then 1 else 0) : Limbs 10) i =
      if i = 0 then 1 else 0 := by
    intro i hi
    rw [val_limbsOf _ hi]
    split <;> rfl
  have hzero : ∀ i < 10, val (limbsOf (fun _ => 0) : Limbs 10) i = 0 := fun i hi => val_limbsOf _ hi
  have hstart : (⟨limbsOf fun i => if i = 0 then 1 else 0, limbsOf fun _ => 0, q,
      limbsOf fun i => if i = 0 then 1 else 0⟩ : Points).Bounded := by
    have hbone : Bounded 26 (limbsOf fun i => if i = 0 then 1 else 0) := by
      intro i hi
      rw [hone i hi]
      split <;> decide
    refine ⟨hbone, fun i hi => ?_, hq, hbone⟩
    rw [hzero i hi]
    decide
  have hrung : (⟨limbsOf fun i => if i = 0 then 1 else 0, limbsOf fun _ => 0, q,
      limbsOf fun i => if i = 0 then 1 else 0⟩ : Points).rung = ⟨1, 0, element q, 1⟩ := by
    have heone : element (limbsOf fun i => if i = 0 then 1 else 0) = 1 := by
      unfold element
      rw [radixValue_congr hone, show radixValue weight 10 (fun i => if i = 0 then (1 : ℤ) else 0) = 1
        by decide, Int.cast_one]
    have hezero : element (limbsOf fun _ => 0) = 0 := by
      unfold element
      rw [radixValue_congr hzero, show radixValue weight 10 (fun _ => (0 : ℤ)) = 0 by decide,
        Int.cast_zero]
    unfold Points.rung
    rw [heone, hezero]
  obtain ⟨⟨hx, hz, -, -⟩, hladder⟩ := cmult_run (n := n) hstart hq 32 le_rfl
  rw [hrung] at hladder
  exact ⟨hx, hz, congrArg Rung.x2 hladder, congrArg Rung.z2 hladder⟩

end GecRelay.Curve25519
