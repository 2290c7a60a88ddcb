import GecRelay.Curve25519.Field
import GecRelay.Gec.Primitives

/-!
# Expanding a byte string into limbs

`fexpand` reads the ten limbs out of 32 little-endian bytes, each from a window
of four bytes. A limb is the digit of the number at its bit position, and the
top bit of the last byte is dropped (`fexpand_spec`).
-/

namespace GecRelay.Curve25519

open Foundation Finset

/-- `F(n, start, shift, mask)`. -/
def expandLimb (input : Bytes 32) (start : ℕ) (shift mask : Int64) : Int64 :=
  let byte := fun k => (limb input (start + k)).toUInt64.toInt64
  ((byte 0 ||| (byte 1 <<< 8) ||| (byte 2 <<< 16) ||| (byte 3 <<< 24)) >>> shift) &&& mask

def fexpand (input : Bytes 32) : Limbs 10 :=
  limbsOf fun
    | 0 => expandLimb input 0 0 0x3ffffff
    | 1 => expandLimb input 3 2 0x1ffffff
    | 2 => expandLimb input 6 3 0x3ffffff
    | 3 => expandLimb input 9 5 0x1ffffff
    | 4 => expandLimb input 12 6 0x3ffffff
    | 5 => expandLimb input 16 0 0x1ffffff
    | 6 => expandLimb input 19 1 0x3ffffff
    | 7 => expandLimb input 22 3 0x1ffffff
    | 8 => expandLimb input 25 4 0x3ffffff
    | _ => expandLimb input 28 6 0x1ffffff

/-! ## Little-endian numbers -/

/-- The number in the first `m` bytes. -/
def prefixValue (b : Bytes 32) (m : ℕ) : ℕ := radixValue (8 * ·) m fun i => (limb b i).toNat

def littleEndian (b : Bytes 32) : ℕ := prefixValue b 32

theorem eight_mono (i : ℕ) : 8 * i ≤ 8 * (i + 1) := Nat.mul_le_mul_left 8 (Nat.le_succ i)

theorem byte_lt (b : UInt8) (i : ℕ) : b.toNat < 2 ^ (8 * (i + 1) - 8 * i) := by
  have hwidth : 8 * (i + 1) - 8 * i = 8 := by omega
  rw [hwidth]
  exact b.toNat_lt

theorem prefixValue_lt (b : Bytes 32) (m : ℕ) : prefixValue b m < 2 ^ (8 * m) :=
  radixValue_lt eight_mono fun i _ => byte_lt _ i

/-- Four bytes as one number. -/
def window (b : Bytes 32) (start : ℕ) : ℕ :=
  radixValue (8 * ·) 4 fun i => (limb b (start + i)).toNat

theorem window_lt (b : Bytes 32) (start : ℕ) : window b start < 2 ^ 32 :=
  radixValue_lt eight_mono fun i _ => byte_lt _ i

theorem window_eq (b : Bytes 32) (start : ℕ) :
    window b start = (limb b start).toNat + (limb b (start + 1)).toNat * 2 ^ 8 +
      (limb b (start + 2)).toNat * 2 ^ 16 + (limb b (start + 3)).toNat * 2 ^ 24 := by
  simp [window, radixValue, sum_range_succ]

/-- **A window of the number.** -/
theorem littleEndian_window (b : Bytes 32) {start : ℕ} (h : start + 4 ≤ 32) :
    littleEndian b / 2 ^ (8 * start) % 2 ^ 32 = window b start := by
  obtain ⟨r, hr⟩ := Nat.exists_eq_add_of_le h
  have houter := radixValue_split (w := (8 * ·)) (u := (8 * ·)) (m := start) (n := 4 + r)
    (fun i => (limb b i).toNat) fun i _ => Nat.mul_add 8 start i
  have hinner := radixValue_split (w := (8 * ·)) (u := (8 * ·)) (m := 4) (n := r)
    (fun i => (limb b (start + i)).toNat) fun i _ => Nat.mul_add 8 4 i
  have hall : littleEndian b = prefixValue b start + 2 ^ (8 * start) *
      (window b start + 2 ^ 32 * radixValue (8 * ·) r fun i => (limb b (start + (4 + i))).toNat) := by
    have hlen : littleEndian b = prefixValue b (start + (4 + r)) :=
      congrArg (prefixValue b) (by omega)
    rw [hlen]
    exact houter.trans (congrArg (fun v => prefixValue b start + 2 ^ (8 * start) * v) hinner)
  rw [hall, Nat.add_mul_div_left _ _ (Nat.two_pow_pos _),
    Nat.div_eq_of_lt (prefixValue_lt b start), Nat.zero_add, Nat.add_mul_mod_self_left,
    Nat.mod_eq_of_lt (window_lt b start)]

/-! ## Limbs out of a window -/

theorem or_shift {a b k : ℕ} (h : a < 2 ^ k) : a ||| b <<< k = a + b * 2 ^ k := by
  rw [Nat.or_comm, ← Nat.shiftLeft_add_eq_or_of_lt h, Nat.shiftLeft_eq, Nat.add_comm]

theorem or_bytes {a b c d : ℕ} (ha : a < 2 ^ 8) (hb : b < 2 ^ 8) (hc : c < 2 ^ 8) :
    a ||| b <<< 8 ||| c <<< 16 ||| d <<< 24 = a + b * 2 ^ 8 + c * 2 ^ 16 + d * 2 ^ 24 := by
  have hab : a + b * 2 ^ 8 < 2 ^ 16 := by omega
  have habc : a + b * 2 ^ 8 + c * 2 ^ 16 < 2 ^ 24 := by omega
  rw [or_shift ha, or_shift hab, or_shift habc]

theorem toNat_byte (b : UInt8) : b.toUInt64.toInt64.toBitVec.toNat = b.toNat :=
  UInt8.toNat_toUInt64 b

theorem toNat_shl_byte (b : UInt8) {k : ℕ} (hk : k ≤ 24) :
    (b.toUInt64.toInt64 <<< Int64.ofNat k).toBitVec.toNat = b.toNat <<< k := by
  have hlt := b.toNat_lt
  have hpow : b.toNat * 2 ^ k < 2 ^ 64 :=
    calc b.toNat * 2 ^ k ≤ b.toNat * 2 ^ 24 :=
          Nat.mul_le_mul_left _ (Nat.pow_le_pow_right (by decide) hk)
      _ < 2 ^ 64 := by omega
  rw [Int64.toBitVec_shiftLeft, BitVec.shiftLeft_eq', shift64 k (by omega), BitVec.toNat_shiftLeft,
    toNat_byte, Nat.shiftLeft_eq, Nat.mod_eq_of_lt hpow]

theorem toInt_window (a b c d : UInt8) :
    (a.toUInt64.toInt64 ||| (b.toUInt64.toInt64 <<< 8) ||| (c.toUInt64.toInt64 <<< 16) |||
      (d.toUInt64.toInt64 <<< 24)).toInt =
        ((a.toNat + b.toNat * 2 ^ 8 + c.toNat * 2 ^ 16 + d.toNat * 2 ^ 24 : ℕ) : ℤ) := by
  have hd := d.toNat_lt
  have hor : (a.toUInt64.toInt64 ||| (b.toUInt64.toInt64 <<< 8) ||| (c.toUInt64.toInt64 <<< 16) |||
      (d.toUInt64.toInt64 <<< 24)).toBitVec.toNat =
        a.toNat + b.toNat * 2 ^ 8 + c.toNat * 2 ^ 16 + d.toNat * 2 ^ 24 := by
    rw [← or_bytes a.toNat_lt b.toNat_lt c.toNat_lt, ← toNat_byte a,
      ← toNat_shl_byte b (k := 8) (by decide), ← toNat_shl_byte c (k := 16) (by decide),
      ← toNat_shl_byte d (k := 24) (by decide)]
    rfl
  have ha := a.toNat_lt
  have hb := b.toNat_lt
  have hc := c.toNat_lt
  rw [← Int64.toInt_toBitVec, BitVec.toInt_eq_toNat_of_lt (by omega), hor]

theorem expandLimb_eq (input : Bytes 32) (start shift bits : ℕ) (hstart : start + 4 ≤ 32)
    (hbits : shift + bits ≤ 32) :
    (expandLimb input start (Int64.ofNat shift) (Int64.ofNat (2 ^ bits - 1))).toInt =
      ((littleEndian input / 2 ^ (8 * start + shift) % 2 ^ bits : ℕ) : ℤ) := by
  have hdvd : 2 ^ (shift + bits) ∣ 2 ^ 32 := pow_dvd_pow 2 hbits
  have hdigit : window input start / 2 ^ shift % 2 ^ bits =
      littleEndian input / 2 ^ (8 * start + shift) % 2 ^ bits := by
    rw [← littleEndian_window input hstart, pow_add, ← Nat.div_div_eq_div_mul,
      ← Nat.mod_mul_right_div_self, ← pow_add, Nat.mod_mod_of_dvd _ hdvd, pow_add,
      Nat.mod_mul_right_div_self]
  unfold expandLimb
  dsimp only
  rw [int64_mask _ (by omega), int64_sar _ (by omega), toInt_window, Nat.add_zero,
    ← window_eq, ← hdigit]
  exact_mod_cast rfl

/-- A limb is a digit of the number. -/
theorem val_fexpand (input : Bytes 32) {i : ℕ} (hi : i < 10) :
    val (fexpand input) i =
      ((littleEndian input / 2 ^ weight i % 2 ^ (weight (i + 1) - weight i) : ℕ) : ℤ) := by
  unfold fexpand
  rw [val_limbsOf _ hi]
  interval_cases i
  · exact expandLimb_eq input 0 0 26 (by decide) (by decide)
  · exact expandLimb_eq input 3 2 25 (by decide) (by decide)
  · exact expandLimb_eq input 6 3 26 (by decide) (by decide)
  · exact expandLimb_eq input 9 5 25 (by decide) (by decide)
  · exact expandLimb_eq input 12 6 26 (by decide) (by decide)
  · exact expandLimb_eq input 16 0 25 (by decide) (by decide)
  · exact expandLimb_eq input 19 1 26 (by decide) (by decide)
  · exact expandLimb_eq input 22 3 25 (by decide) (by decide)
  · exact expandLimb_eq input 25 4 26 (by decide) (by decide)
  · exact expandLimb_eq input 28 6 25 (by decide) (by decide)

/-- **`fexpand` reads the number, less its top bit.** -/
theorem fexpand_spec (input : Bytes 32) :
    Bounded 26 (fexpand input) ∧
      element (fexpand input) = ((littleEndian input % 2 ^ 255 : ℕ) : Fp) := by
  refine ⟨fun i hi => ?_, ?_⟩
  · rw [val_fexpand input hi, Nat.abs_cast]
    have hlt := Nat.mod_lt (littleEndian input / 2 ^ weight i)
      (Nat.two_pow_pos (weight (i + 1) - weight i))
    have hle := Nat.pow_le_pow_right (by decide : 0 < 2) (width_le i)
    exact_mod_cast hlt.trans_le hle
  · have hdigits := radixValue_digits weight_mono rfl (littleEndian input) 10
    unfold element
    rw [radixValue_congr fun i hi => val_fexpand input hi, ← natCast_radixValue, hdigits]
    exact Int.cast_natCast _

end GecRelay.Curve25519
