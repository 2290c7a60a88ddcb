import GecRelay.Foundation.Slice

/-!
# The third-party primitives of GEC

Byte strings, and the cryptographic functions the GEC library calls but does
not define: the AES key expansion and rounds, X25519, Ed25519 and SHA-512.
They are arbitrary functions throughout; a result that needs more of them says
so as a hypothesis on the structure.

The GCM driver is a second structure over an arbitrary type `κ` of keyed
contexts. A `gcm_ctx` also holds the working fields of one message (`ctr_val`,
`enc_ctr`, `hdr_ghv`, `txt_ghv` and the counts), which `gcm_init_message` sets
before anything reads them; what `gcm_init_and_key` writes and the message
calls only read (`ghash_h`, its tables, `aes`) is the `κ` here.
-/

namespace GecRelay

open Foundation

abbrev Bytes (n : ℕ) : Type := List.Vector UInt8 n

def zeros (n : ℕ) : Bytes n := List.Vector.replicate n 0

structure Primitives where
  /-- The round keys `aes_encrypt_key128` writes to `ks`. -/
  aesKeySchedule : Bytes 16 → List.Vector UInt32 44
  /-- The rounds of `aes_encrypt`: schedule, `inf.b[0]` and input block. -/
  aesRounds : List.Vector UInt32 44 → UInt8 → Bytes 16 → Bytes 16
  curve25519Donna : Bytes 32 → Bytes 32 → Bytes 32
  ed25519Publickey : Bytes 32 → Bytes 32
  ed25519Sign : List UInt8 → Bytes 32 → Bytes 32 → Bytes 64
  /-- `ed25519_sign_open(m, mlen, pk, RS)`, zero when the signature is valid. -/
  ed25519SignOpen : List UInt8 → Bytes 32 → Bytes 64 → Int
  ed25519Hash : List UInt8 → Bytes 64

def basepoint : Bytes 32 := overwrite (zeros 32) 0 [9]

def returnGood : Int := 0

structure Gcm (κ : Type) where
  gcmInitAndKey : Bytes 16 → κ
  /-- Context, IV and message to return code, ciphertext and tag. -/
  gcmEncryptMessage : κ → Bytes 12 → Bytes 64 → Int × Bytes 64 × Bytes 12
  /-- Context, IV, ciphertext and tag to return code and message buffer. -/
  gcmDecryptMessage : κ → Bytes 12 → Bytes 64 → Bytes 12 → Int × Bytes 64

end GecRelay
