import GecRelay.Sts.Agreement

/-!
# The key-exchange component

`KeyExchange.run` is the responder of one STS handshake over the telemetry
line. It ends by handing the two channel keys to Decrypt and Encrypt, which
wait for them. The return codes of `respond_sts` and `finish_sts` are looked
at only to log: the keys are derived from the static buffer `key_material`
whether `finish_sts` wrote it or not, and go out on every path.
-/

namespace GecRelay

open Foundation

variable {κ : Type}

/-- What Decrypt and Encrypt keep of a key; there is none before the first
`key_send`. -/
structure KeyHolder (κ : Type) where
  symkey : Option (GecSymKey κ)
  keyReady : UInt8

def KeyHolder.waiting : KeyHolder κ := { symkey := none, keyReady := 0 }

/-- `key_send`, the same in both components. -/
def keySend (_ : KeyHolder κ) (symkey : GecSymKey κ) : KeyHolder κ :=
  { symkey := some symkey, keyReady := 1 }

/-- What `run` takes from outside: the seeds of the long-term keys, the bytes
it reads from telemetry and those of `rand`. -/
structure KeyExchangeInput where
  ourKeypairSeed : Bytes 32
  theirKeypairSeed : Bytes 32
  msg1 : Bytes 32
  randomData : Bytes 32
  msg3 : Bytes 64

structure KeyExchangeResult (κ : Type) where
  respondRet : Int
  finishRet : Int
  waiting : GecStsCtx
  serial : List UInt8
  keyMaterial : Bytes 48
  decrypt : KeyHolder κ
  encrypt : KeyHolder κ
  switchPixhawk : Bool
  switchTelemetry : Bool

/-- `run`, from the key pairs on. `ctx`, `msg2` and `key_material` are static. -/
def keyExchangeRun (P : Primitives) (G : Gcm κ) (i : KeyExchangeInput) : KeyExchangeResult κ :=
  let (ourPrivkey, ourPubkey) := generate P ⟨zeros 32, zeros 32⟩ i.ourKeypairSeed
  let (_, theirPubkey) := generate P ⟨zeros 32, zeros 32⟩ i.theirKeypairSeed
  let ctx := initContext zeroCtx ourPubkey ourPrivkey theirPubkey
  let respond := respondSts P i.msg1 (zeros 96) ctx i.randomData
  -- `if (respond_sts(..)) LOG_ERROR(..)`, and on
  let finish := finishSts P i.msg3 respond.ctx (zeros 48)
  -- `if (finish_sts(..)) LOG_ERROR(..)`, and on
  let (symkeyChan1, symkeyChan2) := gecKeyMaterialTo2Channels G finish.keyMaterial
  { respondRet := respond.ret
    finishRet := finish.ret
    waiting := respond.ctx
    serial := respond.msg.toList
    keyMaterial := finish.keyMaterial
    decrypt := keySend .waiting symkeyChan1
    encrypt := keySend .waiting symkeyChan2
    switchPixhawk := true
    switchTelemetry := true }

/-- A key is released only after an authenticated handshake: both steps
returned zero, and the keys are those of the key material `finish_sts` wrote. -/
def KeyReleaseAuthenticated (P : Primitives) (G : Gcm κ) (i : KeyExchangeInput) : Prop :=
  let r := keyExchangeRun P G i
  r.decrypt.keyReady = 1 ∨ r.encrypt.keyReady = 1 →
    r.respondRet = 0 ∧ r.finishRet = 0 ∧
    ∃ km, (∀ buf, (finishSts P i.msg3 r.waiting buf).keyMaterial = km) ∧
      r.decrypt.symkey = some (gecKeyMaterialTo2Channels G km).1 ∧
      r.encrypt.symkey = some (gecKeyMaterialTo2Channels G km).2

/-- msg3, unmasked under the key-confirmation key that msg1 and our randomness
give for the initiator, is the peer's signature over the two ephemeral keys. -/
def Msg3Authentic (P : Primitives) (i : KeyExchangeInput) : Prop :=
  let z := gecEcdh P i.msg1 i.randomData
  P.ed25519SignOpen (i.msg1.toList ++ (gecGenerateEphemeralKeypair P i.randomData).toList)
    (P.ed25519Publickey i.theirKeypairSeed)
    (unmaskSig P (sessionKck P z .initiator) i.msg3) = 0

def keyExchangeWaiting (P : Primitives) (i : KeyExchangeInput) : GecStsCtx :=
  responded P (initContext zeroCtx (generate P ⟨zeros 32, zeros 32⟩ i.ourKeypairSeed).2
    (generate P ⟨zeros 32, zeros 32⟩ i.ourKeypairSeed).1
    (generate P ⟨zeros 32, zeros 32⟩ i.theirKeypairSeed).2) i.msg1 i.randomData

theorem keyExchangeRun_waiting (P : Primitives) (G : Gcm κ) (i : KeyExchangeInput) :
    (keyExchangeRun P G i).respondRet = 0 ∧
    (keyExchangeRun P G i).waiting = keyExchangeWaiting P i := by
  exact ⟨congrArg StsSend.ret (respondSts_ready rfl i.msg1 (zeros 96) i.randomData),
    congrArg StsSend.ctx (respondSts_ready rfl i.msg1 (zeros 96) i.randomData)⟩

theorem finishAccepts_iff_msg3Authentic (P : Primitives) (i : KeyExchangeInput) :
    FinishAccepts P (keyExchangeWaiting P i) i.msg3 ↔ Msg3Authentic P i := by
  show (if P.ed25519SignOpen _ _ _ ≠ 0 then GecStatus.invalid else .success) = .success ↔ _
  rw [ite_eq_right_iff]
  constructor
  · intro h
    by_contra hne
    cases h hne
  · intro h hne
    exact absurd h hne

theorem keyExchangeRun_keys (P : Primitives) (G : Gcm κ) (i : KeyExchangeInput) :
    (keyExchangeRun P G i).decrypt =
      ⟨some (gecKeyMaterialTo2Channels G (keyExchangeRun P G i).keyMaterial).1, 1⟩ ∧
    (keyExchangeRun P G i).encrypt =
      ⟨some (gecKeyMaterialTo2Channels G (keyExchangeRun P G i).keyMaterial).2, 1⟩ := by
  simp only [keyExchangeRun, keySend, and_self]

theorem keyExchangeRun_ret (P : Primitives) (G : Gcm κ) (i : KeyExchangeInput) :
    (keyExchangeRun P G i).finishRet =
      (finishSts P i.msg3 (keyExchangeRun P G i).waiting (zeros 48)).ret ∧
    (keyExchangeRun P G i).keyMaterial =
      (finishSts P i.msg3 (keyExchangeRun P G i).waiting (zeros 48)).keyMaterial := by
  simp only [keyExchangeRun, and_self]

theorem keyExchangeRun_finish (P : Primitives) (G : Gcm κ) (i : KeyExchangeInput)
    (buf : Bytes 48) :
    (Msg3Authentic P i →
      (finishSts P i.msg3 (keyExchangeRun P G i).waiting buf).ret = 0 ∧
      (finishSts P i.msg3 (keyExchangeRun P G i).waiting buf).keyMaterial =
        sessionKey P (gecEcdh P i.msg1 i.randomData)) ∧
    (¬ Msg3Authentic P i →
      (finishSts P i.msg3 (keyExchangeRun P G i).waiting buf).ret = -1 ∧
      (finishSts P i.msg3 (keyExchangeRun P G i).waiting buf).keyMaterial = buf) := by
  have hfinish := @finishSts_message2Done P (keyExchangeWaiting P i) rfl (sessionKck_live P _ _)
    i.msg3 buf
  rw [(keyExchangeRun_waiting P G i).2, ← finishAccepts_iff_msg3Authentic, hfinish]
  constructor
  · intro hok
    rw [if_pos hok]
    exact ⟨rfl, rfl⟩
  · intro hbad
    rw [if_neg hbad]
    exact ⟨rfl, rfl⟩

/-- After a forged msg3 the keys that go out are those of the untouched
buffer. -/
theorem keyExchangeRun_forged {P : Primitives} {i : KeyExchangeInput} (G : Gcm κ)
    (hforged : ¬ Msg3Authentic P i) :
    (keyExchangeRun P G i).finishRet = -1 ∧
    (keyExchangeRun P G i).decrypt = ⟨some (gecKeyMaterialTo2Channels G (zeros 48)).1, 1⟩ ∧
    (keyExchangeRun P G i).encrypt = ⟨some (gecKeyMaterialTo2Channels G (zeros 48)).2, 1⟩ := by
  obtain ⟨hret, hkey⟩ := (keyExchangeRun_finish P G i (zeros 48)).2 hforged
  obtain ⟨hret', hkey'⟩ := keyExchangeRun_ret P G i
  have hkeys := keyExchangeRun_keys P G i
  rw [hkey', hkey] at hkeys
  exact ⟨hret'.trans hret, hkeys⟩

/-- **When the released keys are authenticated**: exactly when msg3 is. -/
theorem keyReleaseAuthenticated_iff (P : Primitives) (G : Gcm κ) (i : KeyExchangeInput) :
    KeyReleaseAuthenticated P G i ↔ Msg3Authentic P i := by
  obtain ⟨hret, hkey⟩ := keyExchangeRun_ret P G i
  constructor
  -- the keys always go out, so the return code of `finish_sts` decides
  · intro h
    obtain ⟨-, hzero, -⟩ := h (Or.inl rfl)
    by_contra hbad
    rw [(keyExchangeRun_forged G hbad).1] at hzero
    exact absurd hzero (by decide)
  · intro hok _
    have hfinish := fun buf => (keyExchangeRun_finish P G i buf).1 hok
    rw [(hfinish (zeros 48)).2] at hkey
    refine ⟨(keyExchangeRun_waiting P G i).1, hret.trans (hfinish (zeros 48)).1,
      sessionKey P (gecEcdh P i.msg1 i.randomData), fun buf => (hfinish buf).2, ?_, ?_⟩
    · rw [(keyExchangeRun_keys P G i).1, hkey]
    · rw [(keyExchangeRun_keys P G i).2, hkey]

def rawGcm : Gcm (Bytes 16) where
  gcmInitAndKey key := key
  gcmEncryptMessage _ iv pt := (0, pt, iv)
  gcmDecryptMessage _ iv ct tag := if tag = iv then (0, ct) else (1, ct)

/-- The seeds of the source, and an attacker who sends zeros. -/
def zeroMsgs : KeyExchangeInput where
  ourKeypairSeed := ⟨(List.range 32).map fun i => UInt8.ofNat (i + 1), rfl⟩
  theirKeypairSeed := ⟨(List.range 32).map fun i => UInt8.ofNat (32 - i), rfl⟩
  msg1 := zeros 32
  randomData := zeros 32
  msg3 := zeros 64

/-- `finish_sts` rejects msg3 and the relay runs on the keys of all-zero key
material. -/
theorem zero_key_released :
    ¬ KeyReleaseAuthenticated xorPrimitives rawGcm zeroMsgs ∧
    (keyExchangeRun xorPrimitives rawGcm zeroMsgs).finishRet = -1 ∧
    (keyExchangeRun xorPrimitives rawGcm zeroMsgs).decrypt =
      ⟨some (gecKeyMaterialTo2Channels rawGcm (zeros 48)).1, 1⟩ ∧
    (keyExchangeRun xorPrimitives rawGcm zeroMsgs).encrypt =
      ⟨some (gecKeyMaterialTo2Channels rawGcm (zeros 48)).2, 1⟩ := by
  have hforged : ¬ Msg3Authentic xorPrimitives zeroMsgs := by
    unfold Msg3Authentic
    decide +kernel
  have hrun := keyExchangeRun_forged rawGcm hforged
  refine ⟨?_, hrun⟩
  intro h
  obtain ⟨-, hzero, -⟩ := h (Or.inl (by rw [hrun.2.1]))
  rw [hrun.1] at hzero
  exact absurd hzero (by decide)

end GecRelay
