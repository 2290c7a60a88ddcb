import Mathlib.Data.List.Basic

/-!
# Shift registers

A register of `w` places that takes one operation after the other, each
pushing the oldest out: its content is the last `w` operations. Two registers
that end with runs of the same operation agree exactly when the runs are
equally long and what fits in front of them agrees.
-/

namespace GecRelay.Foundation

variable {α : Type*}

/-- The content of a register of `w` places after some operations, the latest
first, when it was full of `z`. -/
def register (z : α) (w : ℕ) (ops : List α) : List α := (ops ++ List.replicate w z).take w

@[simp] theorem length_register (z : α) (w : ℕ) (ops : List α) : (register z w ops).length = w := by
  simp [register]

theorem register_take (z : α) {v w : ℕ} (h : v ≤ w) (ops : List α) :
    (register z w ops).take v = register z v ops := by
  obtain ⟨u, rfl⟩ := Nat.exists_eq_add_of_le h
  rw [register, List.take_take, Nat.min_eq_left h, List.replicate_add, ← List.append_assoc,
    List.take_append_of_le_length (by simp), register]

theorem register_append (z : α) (w : ℕ) (xs ops : List α) :
    register z w (xs ++ ops) = xs.take w ++ register z (w - xs.length) ops := by
  rw [← register_take z (Nat.sub_le w xs.length) ops, register, register, List.append_assoc,
    List.take_append, List.take_take, Nat.min_eq_left (Nat.sub_le w xs.length)]

theorem register_cons (z a : α) (w : ℕ) (ops : List α) :
    register z (w + 1) (a :: ops) = a :: register z w ops := by
  have h := register_append z (w + 1) [a] ops
  simpa using h

theorem head?_register (z : α) {w : ℕ} (hw : 0 < w) (ops : List α) :
    (register z w ops).head? = some (ops.head?.getD z) := by
  obtain ⟨v, rfl⟩ := Nat.exists_eq_add_of_lt hw
  cases ops <;> simp [register, List.replicate_succ]

section Runs

variable {z a : α} {ops ops' : List α}

theorem register_full {w j : ℕ} (h : w ≤ j) (ops : List α) :
    register z w (List.replicate j a ++ ops) = List.replicate w a := by
  rw [register_append, List.length_replicate, Nat.sub_eq_zero_of_le h, List.take_replicate,
    Nat.min_eq_left h]
  simp [register]

theorem register_run {w j : ℕ} (h : j ≤ w) (ops : List α) :
    register z w (List.replicate j a ++ ops) = List.replicate j a ++ register z (w - j) ops := by
  rw [register_append, List.length_replicate, List.take_replicate, Nat.min_eq_right h]

theorem le_of_register_run (haz : a ≠ z) (hops : ops.head? ≠ some a) {w j j' : ℕ} (hj' : j' ≤ w)
    (h : register z w (List.replicate j a ++ ops) = register z w (List.replicate j' a ++ ops')) :
    j' ≤ j := by
  by_contra hnot
  have hlt : j < j' := Nat.lt_of_not_le hnot
  rw [register_run (Nat.le_trans (Nat.le_of_lt hlt) hj'), register_run hj'] at h
  obtain ⟨d, rfl⟩ := Nat.exists_eq_add_of_lt hlt
  rw [Nat.add_assoc, List.replicate_add, List.append_assoc, List.append_cancel_left_eq] at h
  have hhead := congrArg List.head? h
  rw [head?_register z (by omega), List.replicate_succ] at hhead
  cases hop : ops.head? with
  | none =>
      rw [hop] at hhead
      exact haz (Option.some.inj hhead).symm
  | some b =>
      rw [hop] at hhead hops
      exact hops (congrArg some (Option.some.inj hhead))

/-- **Registers that end with runs.** -/
theorem register_run_eq_iff (haz : a ≠ z) (hops : ops.head? ≠ some a)
    (hops' : ops'.head? ≠ some a) {w j j' : ℕ} (hj : j ≤ w) (hj' : j' ≤ w) :
    register z w (List.replicate j a ++ ops) = register z w (List.replicate j' a ++ ops') ↔
      j = j' ∧ register z (w - j) ops = register z (w - j) ops' := by
  constructor
  · intro h
    obtain rfl : j = j' :=
      Nat.le_antisymm (le_of_register_run haz hops' hj h.symm) (le_of_register_run haz hops hj' h)
    rw [register_run hj, register_run hj, List.append_cancel_left_eq] at h
    exact ⟨rfl, h⟩
  · rintro ⟨rfl, h⟩
    rw [register_run hj, register_run hj, h]

end Runs

end GecRelay.Foundation
