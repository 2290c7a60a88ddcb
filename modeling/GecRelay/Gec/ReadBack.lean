import GecRelay.Gec.ChannelRuns

/-!
# What the readers read back

`_read_word32_be` and `_read_word64_be` shift once more after the last byte.
A word that was written is read back 256 times too large, what fits of it, and
255 is a unit modulo a power of two: the helpers undo each other at zero and
nowhere else. With them `_gec_ctr_inc_func` adds one to the counter zero only,
and no frame leaves the sender's counter in the receiver's key.
-/

namespace GecRelay

open Foundation

/-! ## 32 bits -/

theorem read_written32 (w : UInt32) :
    (readWord32Be (writeWord32Be w)).toNat = w.toNat * 256 % 2 ^ 32 := by
  rw [readWord32Be_toNat, writeWord32Be_toList, ofBigEndian_bigEndian w.toNat_lt]

theorem read_written32_iff (w : UInt32) : readWord32Be (writeWord32Be w) = w ↔ w = 0 := by
  rw [← UInt32.toNat_inj, read_written32, ← UInt32.toNat_inj]
  exact mul_256_mod_eq_iff w.toNat_lt

theorem written_read32_iff (buf : Bytes 4) :
    writeWord32Be (readWord32Be buf) = buf ↔ buf = zeros 4 := by
  have hfix := bigEndian_shifted_eq_iff buf.toList
  rw [buf.toList_length] at hfix
  rw [← List.Vector.toList_injective.eq_iff, writeWord32Be_toList, readWord32Be_toNat,
    ← List.Vector.toList_injective.eq_iff]
  exact hfix

/-! ## 64 bits -/

theorem read_written64 (w : UInt64) :
    (readWord64Be (writeWord64Be w)).toNat = w.toNat * 256 % 2 ^ 64 := by
  rw [readWord64Be_toNat, writeWord64Be_toList, ofBigEndian_bigEndian w.toNat_lt]

theorem read_written64_iff (w : UInt64) : readWord64Be (writeWord64Be w) = w ↔ w = 0 := by
  rw [← UInt64.toNat_inj, read_written64, ← UInt64.toNat_inj]
  exact mul_256_mod_eq_iff w.toNat_lt

theorem written_read64_iff (buf : Bytes 8) :
    writeWord64Be (readWord64Be buf) = buf ↔ buf = zeros 8 := by
  have hfix := bigEndian_shifted_eq_iff buf.toList
  rw [buf.toList_length] at hfix
  rw [← List.Vector.toList_injective.eq_iff, writeWord64Be_toList, readWord64Be_toNat,
    ← List.Vector.toList_injective.eq_iff]
  exact hfix

/-! ## The counters -/

/-- The number in the first four bytes of a counter block. -/
def counterOf (ctrBuf : Bytes 16) : ℕ := ofBigEndian (slice ctrBuf 0 4).toList

/-- `_gec_ctr_inc_func` adds one modulo `2 ^ 32` and leaves the other bytes. -/
def AddsOne (ctrBuf : Bytes 16) : Prop :=
  gecCtrIncFunc ctrBuf = overwrite ctrBuf 0 (bigEndian 4 ((counterOf ctrBuf + 1) % 2 ^ 32))

theorem overwrite_counter_injective {ctrBuf : Bytes 16} {src src' : List UInt8}
    (hsrc : src.length = 4) (hsrc' : src'.length = 4)
    (h : overwrite ctrBuf 0 src = overwrite ctrBuf 0 src') : src = src' := by
  have hlist := congrArg (List.take 4 ∘ List.Vector.toList) h
  simpa [hsrc, hsrc', List.take_append_of_le_length, List.take_of_length_le] using hlist

theorem counterOf_eq_zero_iff (ctrBuf : Bytes 16) :
    counterOf ctrBuf = 0 ↔ slice ctrBuf 0 4 = zeros 4 := by
  rw [← List.Vector.toList_injective.eq_iff]
  constructor
  · intro h
    apply ofBigEndian_injective (by simp)
    rw [show (zeros 4).toList = List.replicate 4 0 from rfl, ofBigEndian_replicate_zero]
    exact h
  · intro h
    rw [counterOf, h]
    rfl

theorem addsOne_iff (ctrBuf : Bytes 16) : AddsOne ctrBuf ↔ slice ctrBuf 0 4 = zeros 4 := by
  have hlt : counterOf ctrBuf < 2 ^ 32 := by
    have hbound := ofBigEndian_lt (slice ctrBuf 0 4).toList
    rwa [List.Vector.toList_length] at hbound
  have hread : (readWord32Be (slice ctrBuf 0 4) + 1).toNat =
      (counterOf ctrBuf * 256 % 2 ^ 32 + 1) % 2 ^ 32 := by
    rw [UInt32.toNat_add, readWord32Be_toNat]
    rfl
  rw [← counterOf_eq_zero_iff, ← mul_256_mod_eq_iff hlt, AddsOne, gecCtrIncFunc,
    writeWord32Be_toList, hread]
  constructor
  · intro h
    have hbytes := overwrite_counter_injective (by simp) (by simp) h
    have hmod : counterOf ctrBuf * 256 % 2 ^ 32 + 1 ≡ counterOf ctrBuf + 1 [MOD 2 ^ 32] :=
      bigEndian_injective (Nat.mod_lt _ (by decide)) (Nat.mod_lt _ (by decide)) hbytes
    have hshift := hmod.add_right_cancel'
    rwa [Nat.ModEq, Nat.mod_mod, Nat.mod_eq_of_lt hlt] at hshift
  · intro h
    rw [h]

variable {κ : Type}

/-- A frame carries the sender's counter, which is not zero, and the receiver
adopts another. -/
theorem adopted_counter_ne {G : Gcm κ} {k r : GecSymKey κ} {pt : Bytes 64} {ct : Bytes 80}
    (hsent : (gecEncrypt G k pt ct).ret = .success)
    (hread : (gecDecrypt G r (gecEncrypt G k pt ct).ct).ret = .success) :
    ofBigEndian (slice (gecEncrypt G k pt ct).ct 0 4).toList =
      (gecEncrypt G k pt ct).key.ctr.toNat ∧
    (gecDecrypt G r (gecEncrypt G k pt ct).ct).key.ctr ≠ (gecEncrypt G k pt ct).key.ctr := by
  rcases gecEncrypt_cases G k pt ct with ⟨_, he⟩ |
    ⟨hlimit, k', iv, gcmRet, body, tag, hk', hctr, rfl, hg, ⟨_, he⟩ | ⟨_, he⟩⟩
  · rw [he] at hsent
    cases hsent
  · have hlt : k'.ctr.toNat < 2 ^ 32 := by
      rw [rolloverLimit] at hlimit
      omega
    have hword : k'.ctr.toUInt32.toNat = k'.ctr.toNat := by
      rw [UInt64.toNat_toUInt32, Nat.mod_eq_of_lt hlt]
    rw [he] at hread ⊢
    rcases gecDecrypt_cases G r (frameOf (writeWord32Be k'.ctr.toUInt32) body tag) with
      ⟨_, hd⟩ | ⟨_, hd⟩
    · rw [hd, slice_frameOf_counter]
      constructor
      · rw [writeWord32Be_toList, hword, ofBigEndian_bigEndian hlt]
      · intro heq
        have hnat := congrArg UInt64.toNat heq
        rw [UInt32.toNat_toUInt64, read_written32, hword, mul_256_mod_eq_iff hlt] at hnat
        omega
    · rw [hd] at hread
      cases hread
  · rw [he] at hsent
    cases hsent

/-- **What the byte-order helpers undo**: zero, in either width and either
order. So the increment is right at the counter zero only, and a receiver never
holds the counter of the frame it has accepted. -/
theorem words_read_back_exactly (w : UInt32) (buf : Bytes 4) (w64 : UInt64) (buf64 : Bytes 8)
    (ctrBuf : Bytes 16) (G : Gcm κ) (k r : GecSymKey κ) (pt : Bytes 64) (ct : Bytes 80) :
    (readWord32Be (writeWord32Be w) = w ↔ w = 0) ∧
    (writeWord32Be (readWord32Be buf) = buf ↔ buf = zeros 4) ∧
    (readWord64Be (writeWord64Be w64) = w64 ↔ w64 = 0) ∧
    (writeWord64Be (readWord64Be buf64) = buf64 ↔ buf64 = zeros 8) ∧
    (AddsOne ctrBuf ↔ slice ctrBuf 0 4 = zeros 4) ∧
    ((gecEncrypt G k pt ct).ret = .success →
      (gecDecrypt G r (gecEncrypt G k pt ct).ct).ret = .success →
      ofBigEndian (slice (gecEncrypt G k pt ct).ct 0 4).toList =
        (gecEncrypt G k pt ct).key.ctr.toNat ∧
      (gecDecrypt G r (gecEncrypt G k pt ct).ct).key.ctr ≠ (gecEncrypt G k pt ct).key.ctr) := by
  refine ⟨read_written32_iff w, written_read32_iff buf, read_written64_iff w64,
    written_read64_iff buf64, addsOne_iff ctrBuf, ?_⟩
  intro hsent hread
  exact adopted_counter_ne hsent hread

def zeroKey : GecSymKey Unit := gecInitSymKeyConfAuth plainGcm (zeros 24)

theorem words_read_back_exactly_firstFrame :
    (gecEncrypt plainGcm zeroKey (zeros 64) (zeros 80)).ret = .success ∧
    (gecDecrypt plainGcm zeroKey (gecEncrypt plainGcm zeroKey (zeros 64) (zeros 80)).ct).ret =
      .success ∧
    (gecDecrypt plainGcm zeroKey (gecEncrypt plainGcm zeroKey (zeros 64) (zeros 80)).ct).key.ctr ≠
      (gecEncrypt plainGcm zeroKey (zeros 64) (zeros 80)).key.ctr := by
  have hsent : (gecEncrypt plainGcm zeroKey (zeros 64) (zeros 80)).ret = .success := by decide
  have hread : (gecDecrypt plainGcm zeroKey
      (gecEncrypt plainGcm zeroKey (zeros 64) (zeros 80)).ct).ret = .success := by
    decide
  obtain ⟨-, -, -, -, -, hcounter⟩ := words_read_back_exactly 1 (zeros 4) 1 (zeros 8) (zeros 16)
    plainGcm zeroKey zeroKey (zeros 64) (zeros 80)
  exact ⟨hsent, hread, (hcounter hsent hread).2⟩

/-- The word 1 is read back as 256, in either width; the counter after 1 is
0x101; and the first frame, whose counter is 1, leaves 256 in the receiver. -/
theorem one_read_back_shifted :
    readWord32Be (writeWord32Be 1) = 256 ∧
    writeWord32Be (readWord32Be (writeWord32Be 1)) ≠ writeWord32Be 1 ∧
    readWord64Be (writeWord64Be 1) = 256 ∧
    writeWord64Be (readWord64Be (writeWord64Be 1)) ≠ writeWord64Be 1 ∧
    (gecCtrIncFunc (overwrite (zeros 16) 0 [0, 0, 0, 1]) =
        overwrite (zeros 16) 0 [0, 0, 1, 1] ∧
      ¬AddsOne (overwrite (zeros 16) 0 [0, 0, 0, 1])) ∧
    ((gecEncrypt plainGcm zeroKey (zeros 64) (zeros 80)).key.ctr = 1 ∧
      (gecDecrypt plainGcm zeroKey
        (gecEncrypt plainGcm zeroKey (zeros 64) (zeros 80)).ct).key.ctr = 256) := by
  refine ⟨by decide, by decide, by decide, by decide, ⟨by decide, ?_⟩, by decide, by decide⟩
  unfold AddsOne
  decide

end GecRelay
