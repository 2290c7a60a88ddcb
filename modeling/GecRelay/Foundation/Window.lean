import Mathlib.Data.Vector.Basic
import Mathlib.Tactic.Ring

/-!
# Windows of a circular buffer

The `len` cells of a circular buffer from index `head` on, read with
wrap-around. A queue, a deque and a shared ring all present their content as
such a window; the lemmas say how it moves when a cell is written behind it
and when either end advances.
-/

namespace GecRelay.Foundation

variable {α : Type*} {n : ℕ} [NeZero n]

/-- The cell `i` places after `head`, wrapping at the capacity. -/
def cellIndex (n : ℕ) [NeZero n] (i : ℕ) : Fin n := Fin.ofNat n i

def window (v : List.Vector α n) (head len : ℕ) : List α :=
  (List.range len).map fun i => v.get (cellIndex n (head + i))

@[simp] theorem length_window (v : List.Vector α n) (head len : ℕ) :
    (window v head len).length = len := by
  simp [window]

@[simp] theorem window_zero (v : List.Vector α n) (head : ℕ) : window v head 0 = [] := rfl

theorem window_succ_last (v : List.Vector α n) (head len : ℕ) :
    window v head (len + 1) = window v head len ++ [v.get (cellIndex n (head + len))] := by
  simp [window, List.range_succ]

theorem window_succ_head (v : List.Vector α n) (head len : ℕ) :
    window v head (len + 1) = v.get (cellIndex n head) :: window v (head + 1) len := by
  simp only [window, List.range_succ_eq_map, List.map_cons, List.map_map, Nat.add_zero,
    List.cons.injEq, true_and]
  apply List.map_congr_left
  intro i _
  rw [Function.comp_apply, Nat.add_right_comm, Nat.add_assoc]

theorem window_add (v : List.Vector α n) (head j k : ℕ) :
    window v head (j + k) = window v head j ++ window v (head + j) k := by
  induction j generalizing head with
  | zero => simp
  | succ j ih =>
      rw [show j + 1 + k = (j + k) + 1 by ring, window_succ_head, window_succ_head, ih,
        List.cons_append, Nat.add_right_comm, Nat.add_assoc head j 1]

theorem cellIndex_mod (i k : ℕ) : cellIndex n (i % n + k) = cellIndex n (i + k) := by
  apply Fin.ext
  simp [cellIndex, Nat.add_mod]

theorem cellIndex_mod_self (i : ℕ) : cellIndex n (i % n) = cellIndex n i := cellIndex_mod i 0

@[simp] theorem window_mod (v : List.Vector α n) (head len : ℕ) :
    window v (head % n) len = window v head len := by
  simp only [window, cellIndex_mod]

theorem cellIndex_ne {head i j : ℕ} (hij : i < j) (hj : j < n) :
    cellIndex n (head + i) ≠ cellIndex n (head + j) := by
  intro h
  have hmod : (head + i) % n = (head + j) % n := congrArg Fin.val h
  have hgap : (j - i) % n = 0 := by
    have := Nat.sub_mod_eq_zero_of_mod_eq hmod.symm
    rwa [Nat.add_sub_add_left] at this
  rw [Nat.mod_eq_of_lt (by omega)] at hgap
  omega

/-- Writing the cell behind a window that is not full appends to it. -/
theorem window_push (v : List.Vector α n) (head : ℕ) {len : ℕ} (h : len < n) (x : α) :
    window (v.set (cellIndex n (head + len)) x) head (len + 1) = window v head len ++ [x] := by
  rw [window_succ_last, List.Vector.get_set_same]
  congr 1
  apply List.map_congr_left
  intro i hi
  exact List.Vector.get_set_of_ne (cellIndex_ne (List.mem_range.mp hi) h).symm x

theorem cellIndex_add_self (i : ℕ) : cellIndex n (i + n) = cellIndex n i := by
  apply Fin.ext
  simp [cellIndex]

/-- Writing the cell before a window that is not full prepends to it. -/
theorem window_unshift (v : List.Vector α n) (head : ℕ) {len : ℕ} (h : len < n) (x : α) :
    window (v.set (cellIndex n (head + (n - 1))) x) (head + (n - 1)) (len + 1) =
      x :: window v head len := by
  have hn : n - 1 + 1 = n := Nat.sub_add_cancel NeZero.one_le
  rw [window_succ_head, List.Vector.get_set_same]
  congr 1
  apply List.map_congr_left
  intro i hi
  have hcell : cellIndex n (head + (n - 1) + 1 + i) = cellIndex n (head + i) := by
    rw [Nat.add_assoc head, hn, Nat.add_right_comm]
    exact cellIndex_add_self (head + i)
  have hlt : i < n - 1 := Nat.lt_of_lt_of_le (List.mem_range.mp hi) (Nat.le_pred_of_lt h)
  rw [hcell]
  exact List.Vector.get_set_of_ne (cellIndex_ne hlt (Nat.pred_lt (NeZero.ne n))).symm x

end GecRelay.Foundation
