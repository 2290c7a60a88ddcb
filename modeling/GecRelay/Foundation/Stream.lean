import GecRelay.Foundation.Keystream

/-!
# Adding a stream of bytes

A stream cipher adds byte `p` of its stream to byte `p` of the text. A text may
come in pieces, so the position of the first byte is an argument. Adding twice
gives the text back (`addStream_addStream`), and only the bytes of the stream at
the positions of the text matter (`addStream_congr`).
-/

namespace GecRelay.Foundation

def addStream (s : ℕ → UInt8) : ℕ → List UInt8 → List UInt8
  | _, [] => []
  | n, d :: ds => (d ^^^ s n) :: addStream s (n + 1) ds

@[simp] theorem length_addStream (s : ℕ → UInt8) (n : ℕ) (ds : List UInt8) :
    (addStream s n ds).length = ds.length := by
  induction ds generalizing n with
  | nil => rfl
  | cons d ds ih => simp [addStream, ih]

theorem addStream_congr {s s' : ℕ → UInt8} {n : ℕ} {ds : List UInt8}
    (h : ∀ i < ds.length, s (n + i) = s' (n + i)) : addStream s n ds = addStream s' n ds := by
  induction ds generalizing n with
  | nil => rfl
  | cons d ds ih =>
      have hfirst : s n = s' n := h 0 (by simp)
      have hrest : addStream s (n + 1) ds = addStream s' (n + 1) ds := by
        refine ih fun i hi => ?_
        have hi' := h (i + 1) (by simpa using hi)
        rwa [← Nat.add_assoc, Nat.add_right_comm] at hi'
      rw [addStream, addStream, hfirst, hrest]

theorem addStream_addStream (s : ℕ → UInt8) (n : ℕ) (ds : List UInt8) :
    addStream s n (addStream s n ds) = ds := by
  induction ds generalizing n with
  | nil => rfl
  | cons d ds ih =>
      simp only [addStream, ih]
      rw [UInt8.xor_assoc, UInt8.xor_self, UInt8.xor_zero]

/-- A piece covered by known bytes of the stream. -/
theorem addStream_eq_xorBytes {s : ℕ → UInt8} {n : ℕ} {ds pad : List UInt8}
    (hlen : ds.length ≤ pad.length) (hpad : ∀ i < ds.length, pad.getD i 0 = s (n + i)) :
    addStream s n ds = xorBytes ds pad := by
  induction ds generalizing n pad with
  | nil => rfl
  | cons d ds ih =>
      cases pad with
      | nil => simp at hlen
      | cons b pad =>
          have hfirst : b = s n := hpad 0 (by simp)
          have hrest : addStream s (n + 1) ds = xorBytes ds pad := by
            refine ih (by simpa using hlen) fun i hi => ?_
            have h := hpad (i + 1) (by simpa using hi)
            rw [List.getD_cons_succ] at h
            rw [h, Nat.add_assoc, Nat.add_comm 1]
          rw [addStream, hrest, hfirst]
          rfl

end GecRelay.Foundation
