import GecRelay.Gec.Word

/-!
# Channel keys: `gec_encrypt` and `gec_decrypt`

Authenticated encryption of 64-byte blocks under a `gec_sym_key`. A frame is

    counter (4 bytes) | body (64 bytes) | tag (12 bytes)

and its IV is the counter followed by the salt of the key. `gec_decrypt` is
embedded as it stands: the comparison of the frame's counter with `k->ctr` is
commented out in the source, so no path answers `duplicateCounter`.
-/

namespace GecRelay

open Foundation

/-- The return codes of `gec.h`; `success` is zero. -/
inductive GecStatus
  | success
  | invalid
  | duplicateCounter
  | decryptAuthFailed
  | counterRollover
  | encryptAuthFailed
deriving DecidableEq

structure GecSymKey (κ : Type) where
  gctx : κ
  salt : Bytes 8
  ctr : UInt64
deriving DecidableEq

variable {κ : Type}

/-- `gec_init_sym_key_conf_auth`: sixteen bytes of cipher key, eight of salt. -/
def gecInitSymKeyConfAuth (G : Gcm κ) (rawkey : Bytes 24) : GecSymKey κ where
  gctx := G.gcmInitAndKey (slice rawkey 0 16)
  salt := slice rawkey 16 8
  ctr := 0

def gecKeyMaterialTo2Channels (G : Gcm κ) (keyMaterial : Bytes 48) :
    GecSymKey κ × GecSymKey κ :=
  (gecInitSymKeyConfAuth G (slice keyMaterial 0 24),
    gecInitSymKeyConfAuth G (slice keyMaterial 24 24))

def uint32Max : UInt64 := 0xFFFFFFFF

/-- `nrBlks` of `gec_encrypt`: `(GEC_PT_LEN + AES_BLOCK_SIZE - 1) % AES_BLOCK_SIZE`. -/
def nrBlks : UInt64 := (64 + 16 - 1) % 16

def frameIv (counter : Bytes 4) (salt : Bytes 8) : Bytes 12 := counter ++ salt

def frameOf (counter : Bytes 4) (body : Bytes 64) (tag : Bytes 12) : Bytes 80 :=
  counter ++ body ++ tag

/-- What a call of `gec_encrypt` leaves behind. `iv` is the IV it handed to
`gcm_encrypt_message`, if it came that far. -/
structure EncryptResult (κ : Type) where
  ret : GecStatus
  key : GecSymKey κ
  ct : Bytes 80
  iv : Option (Bytes 12)

/-- `gec_encrypt`. The counter moves before GCM is called, and stays moved
when GCM fails. -/
def gecEncrypt (G : Gcm κ) (k : GecSymKey κ) (pt : Bytes 64) (ct : Bytes 80) :
    EncryptResult κ :=
  if uint32Max - nrBlks ≤ k.ctr then
    { ret := .counterRollover, key := k, ct := ct, iv := none }
  else
    let k' := { k with ctr := k.ctr + 1 }
    let counter := writeWord32Be k'.ctr.toUInt32
    let iv := frameIv counter k'.salt
    let (gcmRet, body, tag) := G.gcmEncryptMessage k'.gctx iv pt
    if gcmRet = returnGood then
      { ret := .success, key := k', ct := frameOf counter body tag, iv := some iv }
    else
      { ret := .encryptAuthFailed, key := k', ct := zeros 80, iv := some iv }

structure DecryptResult (κ : Type) where
  ret : GecStatus
  key : GecSymKey κ
  pt : Bytes 64

/-- The IV `gec_decrypt` rebuilds: the counter on the wire, the local salt. -/
def wireIv (k : GecSymKey κ) (ct : Bytes 80) : Bytes 12 := frameIv (slice ct 0 4) k.salt

def gcmOpen (G : Gcm κ) (k : GecSymKey κ) (ct : Bytes 80) : Int × Bytes 64 :=
  G.gcmDecryptMessage k.gctx (wireIv k ct) (slice ct 4 64) (slice ct 68 12)

/-- `gec_decrypt`. `pt` is overwritten on every path, first with the body and
then with the plaintext or with zeros. -/
def gecDecrypt (G : Gcm κ) (k : GecSymKey κ) (ct : Bytes 80) : DecryptResult κ :=
  let theirCounter := (readWord32Be (slice ct 0 4)).toUInt64
  let (gcmRet, pt) := gcmOpen G k ct
  if gcmRet = returnGood then
    { ret := .success, key := { k with ctr := theirCounter }, pt := pt }
  else
    { ret := .decryptAuthFailed, key := k, pt := zeros 64 }

/-! ## One call -/

def rolloverLimit : ℕ := 2 ^ 32 - 16

theorem rollover_iff (c : UInt64) : uint32Max - nrBlks ≤ c ↔ rolloverLimit ≤ c.toNat := by
  rw [UInt64.le_iff_toNat_le]
  rfl

/-- **What `gec_encrypt` can do**: refuse at the limit and change nothing, or
move the counter by one and hand GCM the IV of the new counter, with success
or failure as GCM says. -/
theorem gecEncrypt_cases (G : Gcm κ) (k : GecSymKey κ) (pt : Bytes 64) (ct : Bytes 80) :
    (rolloverLimit ≤ k.ctr.toNat ∧
      gecEncrypt G k pt ct = { ret := .counterRollover, key := k, ct := ct, iv := none }) ∨
    (k.ctr.toNat < rolloverLimit ∧ ∃ k' iv gcmRet body tag,
      k' = { k with ctr := k.ctr + 1 } ∧ k'.ctr.toNat = k.ctr.toNat + 1 ∧
      iv = frameIv (writeWord32Be k'.ctr.toUInt32) k.salt ∧
      G.gcmEncryptMessage k.gctx iv pt = (gcmRet, body, tag) ∧
      ((gcmRet = returnGood ∧ gecEncrypt G k pt ct =
          { ret := .success, key := k',
            ct := frameOf (writeWord32Be k'.ctr.toUInt32) body tag, iv := some iv }) ∨
        (gcmRet ≠ returnGood ∧ gecEncrypt G k pt ct =
          { ret := .encryptAuthFailed, key := k', ct := zeros 80, iv := some iv }))) := by
  by_cases h : rolloverLimit ≤ k.ctr.toNat
  · exact Or.inl ⟨h, by rw [gecEncrypt, if_pos ((rollover_iff _).mpr h)]⟩
  · refine Or.inr ⟨by omega, { k with ctr := k.ctr + 1 }, _, _, _, _, rfl, ?_, rfl, rfl, ?_⟩
    · rw [rolloverLimit] at h
      rw [UInt64.toNat_add]
      exact Nat.mod_eq_of_lt (by simp; omega)
    · rw [gecEncrypt, if_neg (fun hle => h ((rollover_iff _).mp hle))]
      by_cases hg : (G.gcmEncryptMessage k.gctx
          (frameIv (writeWord32Be (k.ctr + 1).toUInt32) k.salt) pt).1 = returnGood
      · exact Or.inl ⟨hg, if_pos hg⟩
      · exact Or.inr ⟨hg, if_neg hg⟩

theorem gecEncrypt_success {G : Gcm κ} {k : GecSymKey κ} {pt : Bytes 64} {ct : Bytes 80}
    (h : (gecEncrypt G k pt ct).ret = .success) :
    ∃ counter body tag,
      counter = writeWord32Be (gecEncrypt G k pt ct).key.ctr.toUInt32 ∧
      (gecEncrypt G k pt ct).iv = some (frameIv counter k.salt) ∧
      (gecEncrypt G k pt ct).ct = frameOf counter body tag ∧
      G.gcmEncryptMessage k.gctx (frameIv counter k.salt) pt = (returnGood, body, tag) := by
  rcases gecEncrypt_cases G k pt ct with ⟨_, he⟩ |
    ⟨_, k', iv, gcmRet, body, tag, hk', _, rfl, hg, ⟨hret, he⟩ | ⟨_, he⟩⟩
  · rw [he] at h
    cases h
  · rw [he]
    exact ⟨_, body, tag, rfl, rfl, rfl, hret ▸ hg⟩
  · rw [he] at h
    cases h

/-- **What `gec_decrypt` can do**: accept what GCM accepts and adopt the
counter it read, or reject and leave the key alone. -/
theorem gecDecrypt_cases (G : Gcm κ) (k : GecSymKey κ) (ct : Bytes 80) :
    ((gcmOpen G k ct).1 = returnGood ∧ gecDecrypt G k ct =
      { ret := .success,
        key := { k with ctr := (readWord32Be (slice ct 0 4)).toUInt64 },
        pt := (gcmOpen G k ct).2 }) ∨
    ((gcmOpen G k ct).1 ≠ returnGood ∧ gecDecrypt G k ct =
      { ret := .decryptAuthFailed, key := k, pt := zeros 64 }) := by
  by_cases h : (gcmOpen G k ct).1 = returnGood
  · exact Or.inl ⟨h, if_pos h⟩
  · exact Or.inr ⟨h, if_neg h⟩

theorem toList_frameOf (c : Bytes 4) (b : Bytes 64) (t : Bytes 12) :
    (frameOf c b t).toList = c.toList ++ b.toList ++ t.toList := rfl

@[simp] theorem slice_frameOf_counter (c : Bytes 4) (b : Bytes 64) (t : Bytes 12) :
    slice (frameOf c b t) 0 4 = c := by
  apply vec_ext
  simp [toList_frameOf]

@[simp] theorem slice_frameOf_body (c : Bytes 4) (b : Bytes 64) (t : Bytes 12) :
    slice (frameOf c b t) 4 64 = b := by
  apply vec_ext
  simp [toList_frameOf]

@[simp] theorem slice_frameOf_tag (c : Bytes 4) (b : Bytes 64) (t : Bytes 12) :
    slice (frameOf c b t) 68 12 = t := by
  apply vec_ext
  rw [toList_slice, toList_frameOf, List.drop_left' (by simp), List.take_of_length_le (by simp)]

theorem frameOf_slices (ct : Bytes 80) :
    frameOf (slice ct 0 4) (slice ct 4 64) (slice ct 68 12) = ct := by
  apply vec_ext
  have htag : (ct.toList.drop 68).take 12 = ct.toList.drop 68 :=
    List.take_of_length_le (by simp)
  have hbody : (ct.toList.drop 4).take 64 ++ ct.toList.drop 68 = ct.toList.drop 4 := by
    conv_rhs => rw [← List.take_append_drop 64 (ct.toList.drop 4), List.drop_drop]
  rw [toList_frameOf, toList_slice, toList_slice, toList_slice, htag, List.drop_zero,
    List.append_assoc, hbody, List.take_append_drop]

end GecRelay
