import GecRelay.Gec.Confirm
import GecRelay.Sts.Kdf

/-!
# STS contexts: key derivation and verification

The state of one party of the station-to-station handshake of `gec-ke.c`, and
the helpers its four message steps share. A shared secret gives three keys,
told apart by a party byte: one key-confirmation key for each direction and
the client key material.
-/

namespace GecRelay

open Foundation

inductive Stage
  | invalid
  | ready
  | message1Done
  | message2Done
deriving DecidableEq

inductive Party
  | initiator
  | responder
  | client
  | invalidParty
deriving DecidableEq

/-- The value of the enumerator, as `kdf` takes it. -/
def Party.byte : Party → UInt8
  | .initiator => 0
  | .responder => 1
  | .client => 2
  | .invalidParty => 3

structure GecStsCtx where
  myPublicKey : GecPubkey
  myPrivateKey : GecPrivkey
  theirPublicKey : GecPubkey
  myPublicKeyEphemeral : Bytes 32
  myPrivateKeyEphemeral : Bytes 32
  theirPublicKeyEphemeral : Bytes 32
  myKCK : GecSymKeyConf
  theirKCK : GecSymKeyConf
  clientKeyMaterial : Bytes 48
  protocolStage : Stage
  party : Party
deriving DecidableEq

def zeroCtx : GecStsCtx where
  myPublicKey := ⟨zeros 32⟩
  myPrivateKey := ⟨zeros 32, zeros 32⟩
  theirPublicKey := ⟨zeros 32⟩
  myPublicKeyEphemeral := zeros 32
  myPrivateKeyEphemeral := zeros 32
  theirPublicKeyEphemeral := zeros 32
  myKCK := ⟨⟨List.Vector.replicate 44 0, zeros 4⟩, zeros 8, 0⟩
  theirKCK := ⟨⟨List.Vector.replicate 44 0, zeros 4⟩, zeros 8, 0⟩
  clientKeyMaterial := zeros 48
  protocolStage := .invalid
  party := .initiator

/-- `memset(&kck, 0, GEC_RAW_KEY_LEN)`: 24 bytes, the first six words of the
key schedule. -/
def zeroKck (k : GecSymKeyConf) : GecSymKeyConf :=
  { k with cctx := { k.cctx with ks := overwrite k.cctx.ks 0 (List.replicate 6 0) } }

def resetCtx (ctx : GecStsCtx) : GecStsCtx :=
  { ctx with
    theirKCK := zeroKck ctx.theirKCK
    myKCK := zeroKck ctx.myKCK
    clientKeyMaterial := zeros 48
    myPrivateKeyEphemeral := zeros 32
    myPublicKeyEphemeral := zeros 32
    theirPublicKeyEphemeral := zeros 32
    protocolStage := .ready
    party := .invalidParty }

def resetPartner (ctx : GecStsCtx) (theirPublicKey : GecPubkey) : GecStsCtx :=
  resetCtx { ctx with theirPublicKey := theirPublicKey }

/-- `generate`: the key pair of `random_data`; `sk` is overwritten. -/
def generate (P : Primitives) (sk : GecPrivkey) (randomData : Bytes 32) :
    GecPrivkey × GecPubkey :=
  gecGenerateSignKeypair P { sk with priv := randomData }

/-- `init_context`; `ctx` is the memory it finds, of which it sets five
fields. -/
def initContext (ctx : GecStsCtx) (myPublicKey : GecPubkey) (myPrivateKey : GecPrivkey)
    (theirPublicKey : GecPubkey) : GecStsCtx :=
  { ctx with
    protocolStage := .ready
    party := .invalidParty
    myPublicKey := myPublicKey
    myPrivateKey := myPrivateKey
    theirPublicKey := theirPublicKey }

/-! ## `derive_key_materials` -/

def theirParty (ctx : GecStsCtx) : Party :=
  if ctx.party = .initiator then .responder else .initiator

def kdfRawKey (P : Primitives) (tmp : Bytes 24) (secret : Bytes 32) (party : Party) : Bytes 24 :=
  (kdf P tmp secret party.byte).get (kdf_isSome P (by decide) (by decide) _ _ _)

/-- `derive_key_materials`. `tmp` is uninitialised at the first call of `kdf`
and cleared before the second; `kdf` overwrites all of it. -/
def deriveKeyMaterials (P : Primitives) (ctx : GecStsCtx) (secret : Bytes 32) : GecStsCtx :=
  let ctx := { ctx with
    myKCK := gecInitSymKeyConf P (kdfRawKey P (zeros 24) secret ctx.party) }
  let ctx := { ctx with
    theirKCK := gecInitSymKeyConf P (kdfRawKey P (zeros 24) secret (theirParty ctx)) }
  { ctx with
    clientKeyMaterial := (kdf P ctx.clientKeyMaterial secret Party.client.byte).get
      (kdf_isSome P (by decide) (by decide) _ _ _) }

def sessionKck (P : Primitives) (secret : Bytes 32) (party : Party) : GecSymKeyConf :=
  gecInitSymKeyConf P (slice (P.ed25519Hash (kdfInput 0 secret party.byte)) 0 24)

def sessionKey (P : Primitives) (secret : Bytes 32) : Bytes 48 :=
  slice (P.ed25519Hash (kdfInput 0 secret Party.client.byte)) 0 48

theorem kdf_client (P : Primitives) (result : Bytes 48) (secret : Bytes 32) :
    kdf P result secret Party.client.byte = some (sessionKey P secret) :=
  kdf_block P (by decide) (by decide) result secret Party.client.byte

theorem kdf_kck (P : Primitives) (result : Bytes 24) (secret : Bytes 32) (party : Party) :
    (kdf P result secret party.byte).map (gecInitSymKeyConf P) =
      some (sessionKck P secret party) := by
  rw [kdf_block P (by decide) (by decide)]
  rfl

theorem deriveKeyMaterials_eq (P : Primitives) (ctx : GecStsCtx) (secret : Bytes 32) :
    deriveKeyMaterials P ctx secret = { ctx with
      myKCK := sessionKck P secret ctx.party
      theirKCK := sessionKck P secret (theirParty ctx)
      clientKeyMaterial := sessionKey P secret } := by
  simp only [deriveKeyMaterials, kdfRawKey, kdf_block P (show 0 < 24 by decide) (by decide),
    kdf_client, Option.get_some]
  rfl

/-! ## `verify` -/

/-- `signed_contents`: the peer's ephemeral key, then ours. -/
def signedContents (ctx : GecStsCtx) : List UInt8 :=
  ctx.theirPublicKeyEphemeral.toList ++ ctx.myPublicKeyEphemeral.toList

/-- `verify`. The return code of `gec_decrypt_conf` is dropped. -/
def verify (P : Primitives) (ctx : GecStsCtx) (msg : Bytes 64) : GecStatus × GecStsCtx :=
  let (_, sig, theirKCK) := gecDecryptConf P ctx.theirKCK msg (zeros 64)
  (gecVerify P ctx.theirPublicKey (signedContents ctx) sig, { ctx with theirKCK := theirKCK })

/-- The signature `verify` finds in `msg` when the peer's key holds `kck`. -/
def unmaskSig (P : Primitives) (kck : GecSymKeyConf) (msg : Bytes 64) : Bytes 64 :=
  mask msg (sigPad P kck.cctx kck.ctr)

/-- A key-confirmation key that `gec_init_sym_key_conf` and signatures have
been through. -/
def LiveKck (k : GecSymKeyConf) : Prop := Keyed k.cctx ∧ KckCtr k.ctr

@[simp] theorem sessionKck_live (P : Primitives) (secret : Bytes 32) (party : Party) :
    LiveKck (sessionKck P secret party) := ⟨rfl, Or.inl rfl⟩

def usedKck (k : GecSymKeyConf) : GecSymKeyConf := { k with ctr := usedCtr }

@[simp] theorem usedKck_usedKck (k : GecSymKeyConf) : usedKck (usedKck k) = usedKck k := rfl

theorem LiveKck.used {k : GecSymKeyConf} (h : LiveKck k) : LiveKck (usedKck k) :=
  ⟨h.1, Or.inr rfl⟩

theorem gecEncryptConf_live (P : Primitives) {k : GecSymKeyConf} (h : LiveKck k)
    (sig buf : Bytes 64) :
    gecEncryptConf P k sig buf = (.success, unmaskSig P k sig, usedKck k) :=
  gecEncryptConf_sig P h.1 h.2 sig buf

@[simp] theorem unmaskSig_unmaskSig (P : Primitives) (k : GecSymKeyConf) (sig : Bytes 64) :
    unmaskSig P k (unmaskSig P k sig) = sig :=
  mask_mask sig (length_sigPad P k.cctx k.ctr)

theorem verify_eq (P : Primitives) {ctx : GecStsCtx} (h : LiveKck ctx.theirKCK) (msg : Bytes 64) :
    verify P ctx msg =
      (gecVerify P ctx.theirPublicKey (signedContents ctx) (unmaskSig P ctx.theirKCK msg),
        { ctx with theirKCK := usedKck ctx.theirKCK }) := by
  rw [verify, gecDecryptConf, gecEncryptConf_live P h]

end GecRelay
