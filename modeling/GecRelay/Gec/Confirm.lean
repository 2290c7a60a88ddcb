import GecRelay.Gec.Channel
import GecRelay.Gec.AesCtr

/-!
# Key confirmation: CTR mode, signatures, key agreement

The confidentiality-only mode of `gec.c` and its thin wrappers around Ed25519,
X25519 and SHA-512. A key-confirmation key is fresh when a signature passes
through it for the first time; `_gec_ctr_inc_func` and the read-back of the
counter then leave `0x01010100` in it, and every further signature leaves the
same (`confNext_kckCtr`). So a signature is masked with one of two
keystreams, depending on whether it is the first.
-/

namespace GecRelay

open Foundation

structure GecSymKeyConf where
  cctx : AesEncryptCtx
  salt : Bytes 8
  ctr : UInt64
deriving DecidableEq

def gecInitSymKeyConf (P : Primitives) (rawkey : Bytes 24) : GecSymKeyConf where
  cctx := aesEncryptKey128 P (slice rawkey 0 16)
  salt := slice rawkey 16 8
  ctr := 0

/-- `ctr_buf` at the start of a call: the counter word, then zeros. -/
def ctrBuf (ctr : UInt64) : Bytes 16 :=
  overwrite (zeros 16) 0 (writeWord32Be ctr.toUInt32).toList

/-- `gec_encrypt_conf`; `ct` is the output buffer as the caller left it. -/
def gecEncryptConf {n : ℕ} (P : Primitives) (k : GecSymKeyConf) (pt ct : Bytes n) :
    GecStatus × Bytes n × GecSymKeyConf :=
  let nrBlks := UInt64.ofNat ((n + 16 - 1) % 16)
  if uint32Max - nrBlks ≤ k.ctr then (.counterRollover, ct, k)
  else
    let (obuf, buf, cctx) := aesCtrCrypt P pt.toList (ctrBuf k.ctr) gecCtrIncFunc k.cctx
    (.success, overwrite ct 0 obuf,
      { k with cctx := cctx, ctr := (readWord32Be (slice buf 0 4)).toUInt64 })

def gecDecryptConf {n : ℕ} (P : Primitives) (k : GecSymKeyConf) (ct pt : Bytes n) :
    GecStatus × Bytes n × GecSymKeyConf :=
  gecEncryptConf P k ct pt

structure GecPrivkey where
  priv : Bytes 32
  pub : Bytes 32
deriving DecidableEq

structure GecPubkey where
  pub : Bytes 32
deriving DecidableEq

/-- `gec_generate_sign_keypair`: the public key, also kept in the private one. -/
def gecGenerateSignKeypair (P : Primitives) (q : GecPrivkey) : GecPrivkey × GecPubkey :=
  ({ q with pub := P.ed25519Publickey q.priv }, { pub := P.ed25519Publickey q.priv })

def gecSign (P : Primitives) (k : GecPrivkey) (msg : List UInt8) : Bytes 64 :=
  P.ed25519Sign msg k.priv k.pub

def gecVerify (P : Primitives) (k : GecPubkey) (msg : List UInt8) (sig : Bytes 64) : GecStatus :=
  if P.ed25519SignOpen msg k.pub sig ≠ 0 then .invalid else .success

/-- `gec_generate_ephemeral_keypair`: the public half of a private key. -/
def gecGenerateEphemeralKeypair (P : Primitives) (priv : Bytes 32) : Bytes 32 :=
  P.curve25519Donna priv basepoint

def gecEcdh (P : Primitives) (pub priv : Bytes 32) : Bytes 32 :=
  P.curve25519Donna priv pub

/-- Primitives with the laws of key agreement and signatures and nothing else:
X25519 is an exclusive or, a signature is the public key and the front of the
text, and the block cipher is the identity. -/
def xorPrimitives : Primitives where
  aesKeySchedule _ := List.Vector.replicate 44 0
  aesRounds _ _ block := block
  curve25519Donna secret point := mask point secret.toList
  ed25519Publickey sk := sk
  ed25519Sign m _ pk := overwrite (zeros 64) 0 (pk.toList ++ m)
  ed25519SignOpen m pk sig := if sig = overwrite (zeros 64) 0 (pk.toList ++ m) then 0 else -1
  ed25519Hash m := overwrite (zeros 64) 0 m

/-! ## Signatures through a key-confirmation key -/

/-- The keystream that masks a signature when the key holds counter `ctr`. -/
def sigPad (P : Primitives) (cctx : AesEncryptCtx) (ctr : UInt64) : List UInt8 :=
  ctrPad P cctx gecCtrIncFunc 4 (ctrBuf ctr)

@[simp] theorem length_sigPad (P : Primitives) (cctx : AesEncryptCtx) (ctr : UInt64) :
    (sigPad P cctx ctr).length = 64 := by
  simp [sigPad]

def confNext (ctr : UInt64) : UInt64 :=
  (readWord32Be (slice (gecCtrIncFunc^[4] (ctrBuf ctr)) 0 4)).toUInt64

def usedCtr : UInt64 := 0x01010100

def KckCtr (ctr : UInt64) : Prop := ctr = 0 ∨ ctr = usedCtr

theorem confNext_kckCtr {ctr : UInt64} (h : KckCtr ctr) : confNext ctr = usedCtr := by
  rcases h with rfl | rfl <;> decide

/-- A context as `aes_encrypt_key128` leaves it, at a block boundary. -/
def Keyed (cctx : AesEncryptCtx) : Prop := cctx.inf = keyedInf

/-- **A signature through a key-confirmation key**: masked with the keystream of
the key's counter, which then moves to `confNext`. -/
theorem gecEncryptConf_sig (P : Primitives) {k : GecSymKeyConf} (hk : Keyed k.cctx)
    (hctr : KckCtr k.ctr) (sig buf : Bytes 64) :
    gecEncryptConf P k sig buf =
      (.success, mask sig (sigPad P k.cctx k.ctr), { k with ctr := usedCtr }) := by
  have hguard : ¬ uint32Max - UInt64.ofNat ((64 + 16 - 1) % 16) ≤ k.ctr := by
    rcases hctr with h | h <;> rw [h] <;> decide
  have hkeyed : aesKeyed k.cctx := by
    rw [aesKeyed, hk]
    decide
  have hpos : k.cctx.inf.get 2 = 0 := by
    rw [hk]
    decide
  have hwhole := aesCtrCrypt_whole P hkeyed hpos gecCtrIncFunc (show 16 * 4 < 2 ^ 31 by decide)
    (ctrBuf k.ctr) (show sig.toList.length = 16 * 4 by simp)
  rw [gecEncryptConf, if_neg hguard]
  simp only [hwhole]
  refine Prod.ext rfl (Prod.ext ?_ ?_)
  · apply vec_ext
    rw [toList_mask sig (length_sigPad P k.cctx k.ctr), overwrite_all buf (by simp)]
    rfl
  · show { k with ctr := confNext k.ctr } = { k with ctr := usedCtr }
    rw [confNext_kckCtr hctr]

end GecRelay
