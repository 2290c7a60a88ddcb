import Mathlib.Data.Vector.Basic
import Mathlib.Data.Vector.Zip

/-!
# Slices of fixed-length vectors

`memcpy` between parts of C arrays reads a slice of a fixed-length vector and
overwrites another one. Both keep the length in the type, so a caller never
re-proves it. Everything is stated through `toList`, where the list library
does the work.
-/

namespace GecRelay.Foundation

variable {α : Type*} {m n : ℕ}

theorem vec_ext {v w : List.Vector α n} (h : v.toList = w.toList) : v = w :=
  List.Vector.toList_injective h

/-- The `len` entries from offset `off` on. The bound is a Boolean test, so at
literal offsets its proof is the reflexivity of `true`. -/
def slice (v : List.Vector α n) (off len : ℕ)
    (h : (off + len).ble n = true := by exact Eq.refl true) : List.Vector α len :=
  ⟨(v.toList.drop off).take len, by
    have hle := Nat.le_of_ble_eq_true h
    simp
    omega⟩

@[simp] theorem toList_slice (v : List.Vector α n) (off len : ℕ)
    (h : (off + len).ble n = true) :
    (slice v off len h).toList = (v.toList.drop off).take len := rfl

@[simp] theorem slice_append_left (v : List.Vector α m) (w : List.Vector α n)
    (h : (0 + m).ble (m + n) = true) : slice (v ++ w) 0 m h = v := by
  apply vec_ext
  simp

@[simp] theorem slice_append_right (v : List.Vector α m) (w : List.Vector α n)
    (h : (m + n).ble (m + n) = true) : slice (v ++ w) m n h = w := by
  apply vec_ext
  simp

/-- `v` with the entries from offset `off` on replaced by `src`, as far as
`v` reaches. -/
def overwrite (v : List.Vector α n) (off : ℕ) (src : List α) : List.Vector α n :=
  ⟨v.toList.take off ++ src.take (n - off) ++ v.toList.drop (off + src.length), by
    simp; omega⟩

@[simp] theorem toList_overwrite (v : List.Vector α n) (off : ℕ) (src : List α) :
    (overwrite v off src).toList =
      v.toList.take off ++ src.take (n - off) ++ v.toList.drop (off + src.length) := rfl

theorem overwrite_all (v : List.Vector α n) {src : List α} (h : src.length = n) :
    (overwrite v 0 src).toList = src := by
  have hold : v.toList.drop (0 + src.length) = [] := List.drop_eq_nil_of_le (by simp [h])
  rw [toList_overwrite, hold, List.take_zero, List.take_of_length_le (by omega)]
  simp

end GecRelay.Foundation
