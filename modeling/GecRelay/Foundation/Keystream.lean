import GecRelay.Foundation.Slice
import Mathlib.Logic.Function.Iterate

/-!
# Keystreams

A counter-mode keystream is the output of a block function on the iterates of
a counter; encryption adds it bytewise. Adding the same keystream twice is the
identity, whatever the block function and the counter step are.
-/

namespace GecRelay.Foundation

universe u v

variable {β : Type u} {γ : Type v}

def keystream (block : β → List γ) (next : β → β) : ℕ → β → List γ
  | 0, _ => []
  | k + 1, c => block c ++ keystream block next k (next c)

theorem length_keystream {block : β → List γ} {next : β → β} {b : ℕ}
    (hb : ∀ c, (block c).length = b) (k : ℕ) (c : β) :
    (keystream block next k c).length = b * k := by
  induction k generalizing c with
  | zero => rfl
  | succ k ih => simp [keystream, hb, ih, Nat.mul_succ, Nat.add_comm]

theorem keystream_add (block : β → List γ) (next : β → β) (j k : ℕ) (c : β) :
    keystream block next (j + k) c =
      keystream block next j c ++ keystream block next k (next^[j] c) := by
  induction j generalizing c with
  | zero => simp [keystream]
  | succ j ih =>
      rw [Nat.add_right_comm, keystream, ih, keystream, List.append_assoc]
      rfl

/-- The keystream entry by entry: entry `p` is entry `p % b` of block `p / b`. -/
theorem keystream_eq_map {block : β → List γ} {next : β → β} {b : ℕ} (hpos : 0 < b)
    (hb : ∀ c, (block c).length = b) (z : γ) (k : ℕ) (c : β) :
    keystream block next k c =
      (List.range (b * k)).map fun p => (block (next^[p / b] c)).getD (p % b) z := by
  induction k generalizing c with
  | zero => rfl
  | succ k ih =>
      have hfirst : block c =
          (List.range b).map fun p => (block (next^[p / b] c)).getD (p % b) z := by
        apply List.ext_getElem
        · simp [hb]
        · intro p h _
          rw [hb] at h
          simp [Nat.div_eq_of_lt h, Nat.mod_eq_of_lt h, hb, h]
      rw [keystream, ih, Nat.mul_succ, Nat.add_comm, List.range_add, List.map_append, ← hfirst,
        List.map_map]
      congr 1
      refine List.map_congr_left fun p _ => ?_
      rw [Function.comp_apply, Nat.add_mod_left, Nat.add_div_left p hpos]
      rfl

/-- Bytewise exclusive or, as far as both strings reach. -/
def xorBytes (x y : List UInt8) : List UInt8 := List.zipWith (· ^^^ ·) x y

@[simp] theorem length_xorBytes (x y : List UInt8) :
    (xorBytes x y).length = min x.length y.length := by
  simp [xorBytes]

@[simp] theorem xorBytes_nil (y : List UInt8) : xorBytes [] y = [] := rfl

/-- What lies beyond the first string does not matter. -/
theorem xorBytes_append_right {x y : List UInt8} (h : x.length ≤ y.length) (z : List UInt8) :
    xorBytes x (y ++ z) = xorBytes x y := by
  induction x generalizing y with
  | nil => rfl
  | cons a x ih =>
      cases y with
      | nil => simp at h
      | cons b y => exact congrArg ((a ^^^ b) :: ·) (ih (Nat.le_of_succ_le_succ h))

theorem xorBytes_take_drop (n : ℕ) (x y : List UInt8) :
    xorBytes (x.take n) y ++ xorBytes (x.drop n) (y.drop n) = xorBytes x y := by
  induction n generalizing x y with
  | zero => rfl
  | succ n ih =>
      cases x with
      | nil => rfl
      | cons a x =>
          cases y with
          | nil => simp [xorBytes]
          | cons b y => exact congrArg ((a ^^^ b) :: ·) (ih x y)

theorem xorBytes_append_pad (x y z : List UInt8) :
    xorBytes x (y ++ z) = xorBytes (x.take y.length) y ++ xorBytes (x.drop y.length) z := by
  rw [← xorBytes_take_drop y.length x, List.drop_left,
    xorBytes_append_right (List.length_take_le y.length x)]

theorem xorBytes_take_left (x y : List UInt8) : xorBytes (x.take y.length) y = xorBytes x y := by
  have h := xorBytes_append_pad x y []
  simpa [xorBytes] using h.symm

theorem xorBytes_cancel {x y : List UInt8} (h : x.length = y.length) :
    xorBytes (xorBytes x y) y = x := by
  induction x generalizing y with
  | nil => rfl
  | cons a x ih =>
      cases y with
      | nil => simp at h
      | cons b y =>
          have htail : xorBytes (xorBytes x y) y = x := ih (by simpa using h)
          simp only [xorBytes, List.zipWith_cons_cons, List.cons.injEq] at htail ⊢
          refine ⟨?_, htail⟩
          rw [UInt8.xor_assoc, UInt8.xor_self, UInt8.xor_zero]

theorem xorBytes_right_comm (x y z : List UInt8) :
    xorBytes (xorBytes x y) z = xorBytes (xorBytes x z) y := by
  induction x generalizing y z with
  | nil => rfl
  | cons a x ih =>
      cases y with
      | nil => simp [xorBytes]
      | cons b y =>
          cases z with
          | nil => simp [xorBytes]
          | cons c z =>
              simp only [xorBytes, List.zipWith_cons_cons, List.cons.injEq]
              refine ⟨?_, ih y z⟩
              rw [UInt8.xor_assoc, UInt8.xor_comm b c, ← UInt8.xor_assoc]

def mask {n : ℕ} (x : List.Vector UInt8 n) (pad : List UInt8) : List.Vector UInt8 n :=
  overwrite x 0 (xorBytes x.toList pad)

theorem toList_mask {n : ℕ} (x : List.Vector UInt8 n) {pad : List UInt8} (h : pad.length = n) :
    (mask x pad).toList = xorBytes x.toList pad :=
  overwrite_all x (by simp [h])

theorem mask_mask {n : ℕ} (x : List.Vector UInt8 n) {pad : List UInt8} (h : pad.length = n) :
    mask (mask x pad) pad = x := by
  apply vec_ext
  rw [toList_mask _ h, toList_mask _ h, xorBytes_cancel (by simp [h])]

theorem mask_right_comm {n : ℕ} (x : List.Vector UInt8 n) {p q : List UInt8} (hp : p.length = n)
    (hq : q.length = n) : mask (mask x p) q = mask (mask x q) p := by
  apply vec_ext
  rw [toList_mask _ hq, toList_mask _ hp, toList_mask _ hp, toList_mask _ hq, xorBytes_right_comm]

end GecRelay.Foundation
