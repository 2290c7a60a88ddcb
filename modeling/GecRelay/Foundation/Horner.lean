import Mathlib.Tactic.Ring

/-!
# Polynomial evaluation of a list

A polynomial hash adds a block to its state and multiplies by the key. From a
state `a` the result is `a` times a power of the key plus the hash of the
blocks (`horner_state`), so hashes of the parts of a list combine once the
power is known. The power is taken by squaring: `squareMultiply` is the loop
that multiplies the state in where a bit of the exponent is set.
-/

namespace GecRelay.Foundation

section Hash

variable {R : Type*} [CommSemiring R]

def horner (h : R) (a : R) (bs : List R) : R := bs.foldl (fun y b => (y + b) * h) a

@[simp] theorem horner_nil (h a : R) : horner h a [] = a := rfl

@[simp] theorem horner_cons (h a b : R) (bs : List R) :
    horner h a (b :: bs) = horner h ((a + b) * h) bs := rfl

theorem horner_append (h a : R) (bs cs : List R) :
    horner h a (bs ++ cs) = horner h (horner h a bs) cs := List.foldl_append

theorem horner_state (h a : R) (bs : List R) :
    horner h a bs = a * h ^ bs.length + horner h 0 bs := by
  induction bs generalizing a with
  | nil => simp
  | cons b bs ih =>
      rw [horner_cons, horner_cons, ih, ih ((0 + b) * h), List.length_cons, pow_succ]
      ring

end Hash

section Power

variable {α : Type*} (mul : α → α → α)

/-- `for(;;) { if(n & 1) a *= t; if(!(n >>= 1)) break; t *= t; }`. -/
def squareMultiply (n : ℕ) (a t : α) : α :=
  let a' := if n % 2 = 1 then mul a t else a
  if n / 2 = 0 then a' else squareMultiply (n / 2) a' (mul t t)
termination_by n
decreasing_by omega

variable {mul} {M : Type*} [CommMonoid M] {φ : α → M}

/-- **The loop multiplies by a power**, through any map that turns the
operation into the product of a commutative monoid. -/
theorem squareMultiply_pow (hφ : ∀ a b, φ (mul a b) = φ a * φ b) (n : ℕ) (a t : α) :
    φ (squareMultiply mul n a t) = φ a * φ t ^ n := by
  fun_induction squareMultiply mul n a t with
  | case1 n a t a' hlast =>
      obtain rfl | rfl : n = 0 ∨ n = 1 := by omega
      · simp [a']
      · simp [a', hφ]
  | case2 n a t a' hmore ih =>
      have hn := Nat.div_add_mod n 2
      rw [ih, hφ, ← pow_two, ← pow_mul]
      by_cases hodd : n % 2 = 1
      · rw [hodd] at hn
        conv_rhs => rw [← hn, pow_succ]
        have ha : a' = mul a t := by simp [a', hodd]
        rw [ha, hφ, mul_assoc, mul_comm (φ t)]
      · have heven : n % 2 = 0 := by omega
        rw [heven, Nat.add_zero] at hn
        have ha : a' = a := by simp [a', hodd]
        rw [ha, hn]

end Power

end GecRelay.Foundation
