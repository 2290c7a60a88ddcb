import GecRelay.Gec.Primitives
import GecRelay.Foundation.BigEndian

/-!
# Counter words

The byte-order helpers of `gec.c` and the counter increment built on them.
The writer is the big-endian encoding (`writeWord32Be_toList`). The reader
shifts once more after the last byte, so the most significant byte falls off
the top: on the bytes of `w` it answers `256 * w` modulo `2 ^ 32`.
-/

namespace GecRelay

open Foundation

/-- The loop of `_write_word32_be`, `buf[i] = ctr & 0xFF` from the last index
down. -/
def writeWordLoop : ℕ → UInt32 → List UInt8 → List UInt8
  | 0, _, buf => buf
  | i + 1, ctr, buf => writeWordLoop i (ctr >>> 8) ((ctr &&& 0xFF).toUInt8 :: buf)

theorem writeWordLoop_eq (i : ℕ) (ctr : UInt32) (buf : List UInt8) :
    writeWordLoop i ctr buf = bigEndian i ctr.toNat ++ buf := by
  refine loop_eq_bigEndian UInt32.toNat (fun _ _ => rfl) (fun _ _ _ => rfl) ?_ ?_ i ctr buf
  · intro c
    simp only [UInt32.toNat_toUInt8, UInt32.toNat_and]
    rw [show (0xFF : UInt32).toNat = 2 ^ 8 - 1 from rfl, Nat.and_two_pow_sub_one_eq_mod]
    exact Nat.mod_mod _ _
  · intro c
    simp [Nat.shiftRight_eq_div_pow]

def writeWord32Be (ctr : UInt32) : Bytes 4 :=
  ⟨writeWordLoop 4 ctr [], by simp [writeWordLoop_eq]⟩

/-- `_read_word32_be`: or in a byte, then shift, four times. -/
def readWord32Be (buf : Bytes 4) : UInt32 :=
  buf.toList.foldl (fun ctr b => (ctr ||| b.toUInt32) <<< 8) 0

theorem writeWord32Be_toList (ctr : UInt32) :
    (writeWord32Be ctr).toList = bigEndian 4 ctr.toNat := by
  show writeWordLoop 4 ctr [] = _
  rw [writeWordLoop_eq, List.append_nil]

theorem readWord32Be_toNat (buf : Bytes 4) :
    (readWord32Be buf).toNat = ofBigEndian buf.toList * 256 % 2 ^ 32 := by
  refine foldl_orShift UInt32.toNat (by decide) rfl (fun c b => ?_) buf.toList
  simp [Nat.shiftLeft_eq]

/-- `_gec_ctr_inc_func`: increment the counter word at the front of the
counter block. -/
def gecCtrIncFunc (ctrBuf : Bytes 16) : Bytes 16 :=
  overwrite ctrBuf 0 (writeWord32Be (readWord32Be (slice ctrBuf 0 4) + 1)).toList

/-! ## The 64-bit pair -/

/-- The loop of `_write_word64_be`. -/
def writeWord64Loop : ℕ → UInt64 → List UInt8 → List UInt8
  | 0, _, buf => buf
  | i + 1, ctr, buf => writeWord64Loop i (ctr >>> 8) ((ctr &&& 0xFF).toUInt8 :: buf)

theorem writeWord64Loop_eq (i : ℕ) (ctr : UInt64) (buf : List UInt8) :
    writeWord64Loop i ctr buf = bigEndian i ctr.toNat ++ buf := by
  refine loop_eq_bigEndian UInt64.toNat (fun _ _ => rfl) (fun _ _ _ => rfl) ?_ ?_ i ctr buf
  · intro c
    simp only [UInt64.toNat_toUInt8, UInt64.toNat_and]
    rw [show (0xFF : UInt64).toNat = 2 ^ 8 - 1 from rfl, Nat.and_two_pow_sub_one_eq_mod]
    exact Nat.mod_mod _ _
  · intro c
    simp [Nat.shiftRight_eq_div_pow]

def writeWord64Be (ctr : UInt64) : Bytes 8 :=
  ⟨writeWord64Loop 8 ctr [], by simp [writeWord64Loop_eq]⟩

/-- `_read_word64_be`, the same loop over eight bytes. -/
def readWord64Be (buf : Bytes 8) : UInt64 :=
  buf.toList.foldl (fun ctr b => (ctr ||| b.toUInt64) <<< 8) 0

theorem writeWord64Be_toList (ctr : UInt64) :
    (writeWord64Be ctr).toList = bigEndian 8 ctr.toNat := by
  show writeWord64Loop 8 ctr [] = _
  rw [writeWord64Loop_eq, List.append_nil]

theorem readWord64Be_toNat (buf : Bytes 8) :
    (readWord64Be buf).toNat = ofBigEndian buf.toList * 256 % 2 ^ 64 := by
  refine foldl_orShift UInt64.toNat (by decide) rfl (fun c b => ?_) buf.toList
  simp [Nat.shiftLeft_eq]

end GecRelay
