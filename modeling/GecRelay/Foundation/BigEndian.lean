import Mathlib.Data.List.Basic
import Mathlib.Data.List.GetD
import Mathlib.Data.List.Induction
import Mathlib.Data.Nat.ModEq
import Mathlib.Data.Nat.Bitwise
import Mathlib.Algebra.Order.Ring.Nat
import Mathlib.Tactic.Ring

/-!
# Big-endian numerals

The `w` bytes of a number, most significant first, and the number a byte
string stands for. The two are inverse to each other on numbers of `w` bytes.
Words are written and read byte by byte: a loop that takes the low byte off and
shifts writes the numeral (`loop_eq_bigEndian`), and one that ors a byte in and
shifts, after the last byte too, reads it one byte too high (`foldl_orShift`).
-/

namespace GecRelay.Foundation

/-- The last `w` base-256 digits of `k`, most significant first. -/
def bigEndian : ℕ → ℕ → List UInt8
  | 0, _ => []
  | w + 1, k => bigEndian w (k / 256) ++ [UInt8.ofNat (k % 256)]

/-- The number whose base-256 digits, most significant first, are `l`. -/
def ofBigEndian (l : List UInt8) : ℕ :=
  l.foldl (fun acc b => acc * 256 + b.toNat) 0

@[simp] theorem length_bigEndian (w k : ℕ) : (bigEndian w k).length = w := by
  induction w generalizing k with
  | zero => rfl
  | succ w ih => simp [bigEndian, ih]

/-- Digit by digit. -/
theorem getD_bigEndian (w k : ℕ) {j : ℕ} (hj : j < w) :
    (bigEndian w k).getD j 0 = UInt8.ofNat (k / 256 ^ (w - 1 - j)) := by
  induction w generalizing k with
  | zero => omega
  | succ w ih =>
      rw [bigEndian]
      by_cases heq : j = w
      · subst heq
        have hexp : j + 1 - 1 - j = 0 := by omega
        rw [List.getD_append_right _ _ _ _ (by rw [length_bigEndian]), length_bigEndian, hexp,
          pow_zero, Nat.div_one, Nat.sub_self]
        apply UInt8.toNat_inj.mp
        simp
      · have hlt : j < w := by omega
        have hexp : w + 1 - 1 - j = w - 1 - j + 1 := by omega
        rw [List.getD_append _ _ _ _ (by rw [length_bigEndian]; exact hlt), ih _ hlt,
          Nat.div_div_eq_div_mul, hexp, pow_succ']

theorem ofBigEndian_append_singleton (l : List UInt8) (b : UInt8) :
    ofBigEndian (l ++ [b]) = ofBigEndian l * 256 + b.toNat := by
  simp [ofBigEndian]

theorem ofBigEndian_bigEndian {w k : ℕ} (h : k < 256 ^ w) :
    ofBigEndian (bigEndian w k) = k := by
  induction w generalizing k with
  | zero => simp [bigEndian, ofBigEndian] at h ⊢; omega
  | succ w ih =>
      have hdiv : k / 256 < 256 ^ w := by
        rw [Nat.div_lt_iff_lt_mul (by decide)]
        simpa [pow_succ] using h
      rw [bigEndian, ofBigEndian_append_singleton, ih hdiv]
      simp only [UInt8.toNat_ofNat']
      omega

theorem bigEndian_injective {w j k : ℕ} (hj : j < 256 ^ w) (hk : k < 256 ^ w)
    (h : bigEndian w j = bigEndian w k) : j = k := by
  rw [← ofBigEndian_bigEndian hj, h, ofBigEndian_bigEndian hk]

theorem ofBigEndian_lt (l : List UInt8) : ofBigEndian l < 256 ^ l.length := by
  induction l using List.reverseRecOn with
  | nil => exact Nat.one_pos
  | append_singleton l b ih =>
      have hb := b.toNat_lt
      rw [ofBigEndian_append_singleton, List.length_append, List.length_singleton, pow_succ]
      omega

theorem bigEndian_ofBigEndian (l : List UInt8) : bigEndian l.length (ofBigEndian l) = l := by
  induction l using List.reverseRecOn with
  | nil => rfl
  | append_singleton l b ih =>
      have hb : b.toNat < 256 := b.toNat_lt
      have hdiv : (ofBigEndian l * 256 + b.toNat) / 256 = ofBigEndian l := by omega
      have hmod : (ofBigEndian l * 256 + b.toNat) % 256 = b.toNat := by omega
      rw [ofBigEndian_append_singleton, List.length_append, List.length_singleton, bigEndian,
        hdiv, hmod, ih, UInt8.ofNat_toNat]

theorem ofBigEndian_injective {l l' : List UInt8} (hlen : l.length = l'.length)
    (h : ofBigEndian l = ofBigEndian l') : l = l' := by
  rw [← bigEndian_ofBigEndian l, hlen, h, bigEndian_ofBigEndian]

@[simp] theorem ofBigEndian_replicate_zero (w : ℕ) : ofBigEndian (List.replicate w 0) = 0 := by
  induction w with
  | zero => rfl
  | succ w ih =>
      rw [List.replicate_succ', ofBigEndian_append_singleton, ih]
      rfl

/-! ## Words -/

section Words

variable {τ : Type*} (val : τ → ℕ)

/-- A loop that writes the low byte and shifts, from the last byte up. -/
theorem loop_eq_bigEndian {loop : ℕ → τ → List UInt8 → List UInt8} {low : τ → UInt8}
    {shift : τ → τ} (hzero : ∀ c buf, loop 0 c buf = buf)
    (hsucc : ∀ i c buf, loop (i + 1) c buf = loop i (shift c) (low c :: buf))
    (hlow : ∀ c, (low c).toNat = val c % 256) (hshift : ∀ c, val (shift c) = val c / 256)
    (i : ℕ) (c : τ) (buf : List UInt8) : loop i c buf = bigEndian i (val c) ++ buf := by
  induction i generalizing c buf with
  | zero => exact hzero c buf
  | succ i ih =>
      have hbyte : low c = UInt8.ofNat (val c % 256) := by
        rw [← hlow, UInt8.ofNat_toNat]
      rw [hsucc, ih, hshift, hbyte, bigEndian, List.append_assoc, List.singleton_append]

/-- A loop that ors a byte in and shifts, on words of `w` bits: the shift after
the last byte makes it answer `256` times the number. -/
theorem foldl_orShift {w : ℕ} {next : τ → UInt8 → τ} {c₀ : τ} (hw : 8 ≤ w) (hinit : val c₀ = 0)
    (hnext : ∀ c b, val (next c b) = (val c ||| b.toNat) * 256 % 2 ^ w) (l : List UInt8) :
    val (l.foldl next c₀) = ofBigEndian l * 256 % 2 ^ w := by
  induction l using List.reverseRecOn with
  | nil => rw [List.foldl_nil, hinit]; rfl
  | append_singleton l b ih =>
      have hb : b.toNat < 2 ^ 8 := b.toNat_lt
      obtain ⟨v, rfl⟩ := Nat.exists_eq_add_of_le hw
      -- the word so far is a multiple of 256, so the byte falls into zero bits
      have hword : ofBigEndian l * 256 % 2 ^ (8 + v) = 2 ^ 8 * (ofBigEndian l % 2 ^ v) := by
        rw [Nat.mul_comm, pow_add, show 256 = 2 ^ 8 from rfl, Nat.mul_mod_mul_left]
      rw [List.foldl_append, List.foldl_cons, List.foldl_nil, hnext, ih, hword,
        ← Nat.two_pow_add_eq_or_of_lt hb, ← hword, ofBigEndian_append_singleton]
      exact (((Nat.mod_modEq _ _).add_right _).mul_right _)

end Words

/-- A number that is its own shift by a byte is zero: `255` is a unit. -/
theorem mul_256_mod_eq_iff {w k : ℕ} (hk : k < 2 ^ w) : k * 256 % 2 ^ w = k ↔ k = 0 := by
  constructor
  · intro h
    have hmod : k + k * 255 ≡ k + 0 [MOD 2 ^ w] := by
      rw [Nat.ModEq, show k + k * 255 = k * 256 by ring, h, Nat.add_zero, Nat.mod_eq_of_lt hk]
    have hdvd : 2 ^ w ∣ k * 255 := (Nat.modEq_zero_iff_dvd).mp hmod.add_left_cancel'
    have hcoprime : Nat.Coprime (2 ^ w) 255 := Nat.Coprime.pow_left w (by decide)
    exact Nat.eq_zero_of_dvd_of_lt (hcoprime.dvd_of_dvd_mul_right hdvd) hk
  · rintro rfl
    rw [Nat.zero_mul, Nat.zero_mod]

/-- Bytes that are their own shift by a byte are zeros. -/
theorem bigEndian_shifted_eq_iff (l : List UInt8) :
    bigEndian l.length (ofBigEndian l * 256 % 2 ^ (8 * l.length)) = l ↔
      l = List.replicate l.length 0 := by
  have hpow : 2 ^ (8 * l.length) = 256 ^ l.length := pow_mul 2 8 l.length
  have hlt := ofBigEndian_lt l
  constructor
  · intro h
    have hfix : ofBigEndian l * 256 % 2 ^ (8 * l.length) = ofBigEndian l := by
      apply bigEndian_injective (hpow ▸ Nat.mod_lt _ (Nat.two_pow_pos _)) hlt
      rw [h, bigEndian_ofBigEndian]
    have hzero := (mul_256_mod_eq_iff (hpow ▸ hlt)).mp hfix
    apply ofBigEndian_injective (by rw [List.length_replicate])
    rw [hzero, ofBigEndian_replicate_zero]
  · intro h
    have hzero : ofBigEndian l = 0 := by rw [h, ofBigEndian_replicate_zero]
    conv_rhs => rw [← bigEndian_ofBigEndian l]
    rw [hzero, Nat.zero_mul, Nat.zero_mod]

end GecRelay.Foundation
