import GecRelay.Foundation.MixedRadix

/-!
# Carry chains

A pass over the limbs `x 0`, `x 1`, ... takes from each limb a multiple of
`2 ^ b i`, the quotient `q i` of what is there when the pass arrives, and adds
the quotient to the next limb. What the pass carries into limb `i` is defined by
recursion on `i`, so the limbs after the pass and their value are closed
expressions (`radixValue_carried`). A loop of single carries over the cells of a
state gives these limbs (`foldl_carry`).
-/

namespace GecRelay.Foundation

section Chain

variable (q : ℕ → ℤ → ℤ) (b : ℕ → ℕ) (x : ℕ → ℤ)

def carryInto : ℕ → ℤ
  | 0 => 0
  | i + 1 => q i (x i + carryInto i)

/-- Limb `i` after the pass. -/
def carried (i : ℕ) : ℤ := x i + carryInto q x i - carryInto q x (i + 1) * 2 ^ b i

/-- **A pass leaves the value**, with what it carries out of the last limb. -/
theorem radixValue_carried {w : ℕ → ℕ} (hw : ∀ i, w (i + 1) = w i + b i) (n : ℕ) :
    radixValue w n (carried q b x) + carryInto q x n * 2 ^ w n = radixValue w n x := by
  induction n with
  | zero =>
      unfold radixValue carryInto
      rw [zero_mul, add_zero]
      rfl
  | succ n ih =>
      rw [radixValue_succ, radixValue_succ, ← ih, hw, pow_add]
      unfold carried
      ring

end Chain

variable {S : Type*} {q : ℕ → ℤ → ℤ} {b : ℕ → ℕ} {read : S → ℕ → ℤ}

/-- One carry from cell `i` of a state to the next. -/
structure CarryStep (q : ℕ → ℤ → ℤ) (b : ℕ → ℕ) (read : S → ℕ → ℤ) (i : ℕ) (s t : S) : Prop where
  low : read t i = read s i - q i (read s i) * 2 ^ b i
  high : read t (i + 1) = read s (i + 1) + q i (read s i)
  rest : ∀ j, j ≠ i → j ≠ i + 1 → read t j = read s j

/-- The cells of a state when the pass has arrived at cell `i`. -/
structure PassedTo (q : ℕ → ℤ → ℤ) (b : ℕ → ℕ) (read : S → ℕ → ℤ) (x : ℕ → ℤ) (i : ℕ) (s : S) :
    Prop where
  done : ∀ j < i, read s j = carried q b x j
  here : read s i = x i + carryInto q x i
  todo : ∀ j, i < j → read s j = x j

theorem PassedTo.step {x : ℕ → ℤ} {i : ℕ} {s t : S} (h : PassedTo q b read x i s)
    (hstep : CarryStep q b read i s t) : PassedTo q b read x (i + 1) t := by
  refine ⟨fun j hj => ?_, ?_, fun j hj => ?_⟩
  · by_cases hji : j = i
    · rw [hji, hstep.low, h.here]
      rfl
    · rw [hstep.rest j hji (by omega)]
      exact h.done j (by omega)
  · rw [hstep.high, h.todo (i + 1) (Nat.lt_succ_self i), h.here]
    rfl
  · rw [hstep.rest j (by omega) (by omega)]
    exact h.todo j (by omega)

/-- **A loop of single carries is a pass**, as long as each of them is one on the
limbs that the pass meets. -/
theorem foldl_carry {next : S → ℕ → S} {n : ℕ} {s : S}
    (hstep : ∀ i < n, ∀ t : S, PassedTo q b read (read s) i t →
      CarryStep q b read i t (next t i)) :
    PassedTo q b read (read s) n ((List.range n).foldl next s) := by
  induction n with
  | zero =>
      refine ⟨fun j hj => absurd hj (Nat.not_lt_zero j), ?_, fun _ _ => rfl⟩
      unfold carryInto
      rw [add_zero]
      rfl
  | succ n ih =>
      have hprev := ih fun i hi => hstep i (Nat.lt_succ_of_lt hi)
      rw [List.range_succ, List.foldl_append]
      exact hprev.step (hstep n (Nat.lt_succ_self n) _ hprev)

end GecRelay.Foundation
