import GecRelay.Foundation.Machine

/-!
# Machines under an infinite schedule

A schedule gives the machine an input at every time. A machine whose steps
either change nothing or bring a measure down reaches a goal on every schedule
that, as long as it is not reached, sooner or later has an input that changes
the state (`trace_reaches`).
-/

namespace GecRelay.Foundation.Machine

universe u

variable {σ ω : Type u} {ι : Type u} (M : Machine σ ι ω)

/-- The states of the run. -/
def trace (s : σ) (sched : ℕ → ι) : ℕ → σ
  | 0 => s
  | n + 1 => (M.step (trace s sched n) (sched n)).2

variable {M} {s : σ} {sched : ℕ → ι}

theorem trace_inv {I : σ → Prop} (hstep : ∀ s i, I s → I (M.step s i).2) (hs : I s) (n : ℕ) :
    I (M.trace s sched n) := by
  induction n with
  | zero => exact hs
  | succ n ih => exact hstep _ _ ih

section Measure

variable {μ : σ → ℕ} (hstep : ∀ s i, (M.step s i).2 = s ∨ μ (M.step s i).2 < μ s)
include hstep

/-- An input that changes the state brings the measure down, unless one before
it has. -/
theorem trace_moves (n d : ℕ)
    (h : (M.step (M.trace s sched n) (sched (n + d))).2 ≠ M.trace s sched n) :
    ∃ k, μ (M.trace s sched k) < μ (M.trace s sched n) := by
  induction d generalizing n with
  | zero => exact ⟨n + 1, (hstep _ _).resolve_left h⟩
  | succ d ih =>
      rcases hstep (M.trace s sched n) (sched n) with hsame | hless
      · have hnext : M.trace s sched (n + 1) = M.trace s sched n := hsame
        have harg : n + 1 + d = n + (d + 1) := by omega
        rw [← hnext]
        apply ih
        rw [hnext, harg]
        exact h
      · exact ⟨n + 1, hless⟩

/-- **The progress rule.** -/
theorem trace_reaches (goal : σ → Prop)
    (hfair : ∀ n, ¬goal (M.trace s sched n) →
      ∃ m, n ≤ m ∧ (M.step (M.trace s sched n) (sched m)).2 ≠ M.trace s sched n) :
    ∃ n, goal (M.trace s sched n) := by
  suffices h : ∀ k n, μ (M.trace s sched n) = k → ∃ n, goal (M.trace s sched n) from
    h _ 0 rfl
  intro k
  induction k using Nat.strongRecOn with
  | _ k ih =>
      intro n hn
      by_cases hgoal : goal (M.trace s sched n)
      · exact ⟨n, hgoal⟩
      · obtain ⟨m, hm, hmoves⟩ := hfair n hgoal
        obtain ⟨d, rfl⟩ := Nat.exists_eq_add_of_le hm
        obtain ⟨k', hless⟩ := trace_moves hstep n d hmoves
        exact ih _ (hn ▸ hless) k' rfl

end Measure

end GecRelay.Foundation.Machine
