import GecRelay.Gcm.Multiply
import GecRelay.Gec.AesCtr
import GecRelay.Foundation.Horner

/-!
# The GCM driver `gcm.c`

A message goes through `gcm_init_message`, any number of `gcm_auth_header` and
`gcm_encrypt` or `gcm_decrypt` calls, and `gcm_compute_tag`. The hash of the
last block is completed lazily: a call that begins at a block boundary first
multiplies what the previous one left. The loops take bytes up to a unit
boundary, units of four bytes, whole blocks and a rest; which of the two loop
nests runs depends on the address of the buffer, so every call has the outcome
of that test as a parameter `aligned`.

The text left to a loop is the rest of the buffer, `cnt` how much of it is
gone. Every call but `gcm_compute_tag` returns `RETURN_GOOD`.
-/

namespace GecRelay

open Foundation

def returnError : Int := -1

def returnWarn : Int := 1

structure GcmCtx where
  gfT4k : ℕ → GfT
  ctrVal : GfT
  encCtr : GfT
  hdrGhv : GfT
  txtGhv : GfT
  ghashH : GfT
  aes : AesEncryptCtx
  /-- `y0_val`, the four bytes of the initial counter as they lie in memory. -/
  y0Val : Bytes 4
  hdrCnt : UInt32
  txtCcnt : UInt32
  txtAcnt : UInt32

/-- Bytes added into a buffer from an offset on, as far as it reaches. -/
def xorAt (x : GfT) (pos : ℕ) (ds : List UInt8) : GfT :=
  gfOf fun i => if pos ≤ i then gfByte x i ^^^ ds.getD (i - pos) 0 else gfByte x i

/-- `while(i-- > CTR_POS && !++(UI8_PTR(x)[i]))`, with `i = CTR_POS + n`. -/
def incCtrLoop : ℕ → GfT → GfT
  | 0, x => x
  | n + 1, x =>
      let b := gfByte x (12 + n) + 1
      let x' := gfOf fun i => if i = 12 + n then b else gfByte x i
      if b = 0 then incCtrLoop n x' else x'

def incCtr (x : GfT) : GfT := incCtrLoop 4 x

/-- `gcm_init_and_key` on a context that holds anything. -/
def gcmInitAndKey (P : Primitives) (key : Bytes 16) (ctx : GcmCtx) : GcmCtx :=
  let aes := aesEncryptKey128 P key
  let h := aesEncrypt P aes (zeros 16)
  { ctx with aes := aes, ghashH := h, gfT4k := init4kTable h ctx.gfT4k }

def gfMulHh (ctx : GcmCtx) (a : GfT) : GfT := gfMul4k a ctx.gfT4k

/-! ## Starting a message -/

/-- The IV in blocks: `while(n_pos >= BLOCK_SIZE)` and the rest. -/
def ivBlocks (mul : GfT → GfT) (x : GfT) (iv : List UInt8) : GfT :=
  if 16 ≤ iv.length then ivBlocks mul (mul (xorAt x 0 (iv.take 16))) (iv.drop 16)
  else if iv = [] then x
  else mul (xorAt x 0 iv)
termination_by iv.length
decreasing_by
  rw [List.length_drop]
  omega

/-- `for(i = BLOCK_SIZE - 1; n_pos; --i, n_pos >>= 8)` from index `i - 1`. -/
def ivLength : ℕ → ℕ → GfT → GfT
  | 0, _, x => x
  | i + 1, n, x => if n = 0 then x else ivLength i (n / 256) (xorAt x i [UInt8.ofNat n])

/-- The counter block `gcm_init_message` starts with. The length of the IV is
held in 32 bits, and so is the number of its bits. -/
def ivCounter (mul : GfT → GfT) (iv : List UInt8) : GfT :=
  if iv.length = 12 then overwrite (overwrite (zeros 16) 0 iv) 15 [1]
  else
    let x := ivBlocks mul (zeros 16) (iv.take (iv.length % 2 ^ 32))
    mul (ivLength 16 (8 * iv.length % 2 ^ 32) x)

def gcmInitMessage (iv : List UInt8) (ctx : GcmCtx) : GcmCtx :=
  let ctr := ivCounter (gfMulHh ctx) iv
  { ctx with
    ctrVal := ctr
    y0Val := slice ctr 12 4
    hdrGhv := zeros 16
    txtGhv := zeros 16
    hdrCnt := 0
    txtCcnt := 0
    txtAcnt := 0 }

/-! ## Authentication -/

/-- `while(cnt < len && c(b_pos)) ghv[b_pos++] ^= data[cnt++]`. -/
def authBytes (c : ℕ → Bool) : GfT → ℕ → List UInt8 → GfT × ℕ × List UInt8
  | g, b, [] => (g, b, [])
  | g, b, d :: ds => if c b then authBytes c (xorAt g b [d]) (b + 1) ds else (g, b, d :: ds)

/-- `while(cnt + BUF_INC <= len && b_pos <= BLOCK_SIZE - BUF_INC)`. -/
def authUnits : GfT → ℕ → List UInt8 → GfT × ℕ × List UInt8
  | g, b, d₀ :: d₁ :: d₂ :: d₃ :: ds =>
      if b ≤ 12 then authUnits (xorAt g b [d₀, d₁, d₂, d₃]) (b + 4) ds
      else (g, b, d₀ :: d₁ :: d₂ :: d₃ :: ds)
  | g, b, ds => (g, b, ds)

/-- `while(cnt + BLOCK_SIZE <= len)`, whose sum wraps only for a piece of
`2 ^ 32 - 16` bytes or more. -/
def authBlocks (mul : GfT → GfT) (g : GfT) (ds : List UInt8) : GfT × List UInt8 :=
  if 16 ≤ ds.length then authBlocks mul (xorAt (mul g) 0 (ds.take 16)) (ds.drop 16) else (g, ds)
termination_by ds.length
decreasing_by
  rw [List.length_drop]
  omega

/-- The last loop, byte by byte. -/
def authTail (mul : GfT → GfT) : GfT → ℕ → List UInt8 → GfT
  | g, _, [] => g
  | g, b, d :: ds =>
      if b = 16 then authTail mul (xorAt (mul g) 0 [d]) 1 ds
      else authTail mul (xorAt g b [d]) (b + 1) ds

/-- The two loop nests and the last loop, from position `bPos`. -/
def authLoops (mul : GfT → GfT) (aligned : Bool) (ghv : GfT) (bPos : ℕ) (data : List UInt8) :
    GfT :=
  let (ghv, bPos, rest) :=
    if aligned then
      let (ghv, bPos, rest) := authBytes (fun b => b % 4 ≠ 0) ghv bPos data
      authUnits ghv bPos rest
    else authBytes (fun b => b < 16) ghv bPos data
  let (ghv, rest) := authBlocks mul ghv rest
  authTail mul ghv bPos rest

/-- The body of `gcm_auth_header` and `gcm_auth_data`: the hash buffer after
`data`, when `cnt` bytes went before. -/
def authBuffer (mul : GfT → GfT) (aligned : Bool) (ghv : GfT) (cnt : UInt32)
    (data : List UInt8) : GfT :=
  if data = [] then ghv
  else
    let bPos := cnt.toNat % 16
    authLoops mul aligned (if cnt ≠ 0 ∧ bPos = 0 then mul ghv else ghv) bPos data

def gcmAuthHeader (aligned : Bool) (hdr : List UInt8) (ctx : GcmCtx) : GcmCtx :=
  { ctx with
    hdrGhv := authBuffer (gfMulHh ctx) aligned ctx.hdrGhv ctx.hdrCnt hdr
    hdrCnt := ctx.hdrCnt + UInt32.ofNat hdr.length }

def gcmAuthData (aligned : Bool) (data : List UInt8) (ctx : GcmCtx) : GcmCtx :=
  { ctx with
    txtGhv := authBuffer (gfMulHh ctx) aligned ctx.txtGhv ctx.txtAcnt data
    txtAcnt := ctx.txtAcnt + UInt32.ofNat data.length }

/-! ## Encryption -/

/-- The counter, the enciphered counter and the position in it. -/
structure Pad where
  ctr : GfT
  enc : GfT
  pos : ℕ

/-- `inc_ctr` and `aes_encrypt`. -/
def Pad.next (E : GfT → GfT) (s : Pad) : Pad where
  ctr := incCtr s.ctr
  enc := E (incCtr s.ctr)
  pos := s.pos

/-- `data[cnt++] ^= UI8_PTR(ctx->enc_ctr)[b_pos++]` while `c(b_pos)`: the
bytes written, the pad and what is left. -/
def cryptBytes (c : ℕ → Bool) : Pad → List UInt8 → List UInt8 × Pad × List UInt8
  | s, [] => ([], s, [])
  | s, d :: ds =>
      if c s.pos then
        let (out, s', rest) := cryptBytes c { s with pos := s.pos + 1 } ds
        ((d ^^^ gfByte s.enc s.pos) :: out, s', rest)
      else ([], s, d :: ds)

def cryptUnits : Pad → List UInt8 → List UInt8 × Pad × List UInt8
  | s, d₀ :: d₁ :: d₂ :: d₃ :: ds =>
      if s.pos ≤ 12 then
        let (out, s', rest) := cryptUnits { s with pos := s.pos + 4 } ds
        ((d₀ ^^^ gfByte s.enc s.pos) :: (d₁ ^^^ gfByte s.enc (s.pos + 1)) ::
          (d₂ ^^^ gfByte s.enc (s.pos + 2)) :: (d₃ ^^^ gfByte s.enc (s.pos + 3)) :: out, s', rest)
      else ([], s, d₀ :: d₁ :: d₂ :: d₃ :: ds)
  | s, ds => ([], s, ds)

def cryptBlocks (E : GfT → GfT) (s : Pad) (ds : List UInt8) : List UInt8 × Pad × List UInt8 :=
  if 16 ≤ ds.length then
    let s := s.next E
    let (out, s', rest) := cryptBlocks E s (ds.drop 16)
    (xorBytes (ds.take 16) s.enc.toList ++ out, s', rest)
  else ([], s, ds)
termination_by ds.length
decreasing_by
  rw [List.length_drop]
  omega

def cryptTail (E : GfT → GfT) : Pad → List UInt8 → List UInt8 × Pad
  | s, [] => ([], s)
  | s, d :: ds =>
      let s := if s.pos = 16 ∨ s.pos = 0 then { s.next E with pos := 0 } else s
      let (out, s') := cryptTail E { s with pos := s.pos + 1 } ds
      ((d ^^^ gfByte s.enc s.pos) :: out, s')

/-- The body of `gcm_crypt_data`. The aligned nest and the other one test
`b_pos` before they take what a previous call left of the pad. -/
def cryptBuffer (E : GfT → GfT) (aligned : Bool) (s : Pad) (data : List UInt8) :
    List UInt8 × Pad :=
  let (out₀, s, rest) :=
    if s.pos = 0 then ([], s, data)
    else if aligned then
      let (out, s, rest) := cryptBytes (fun b => b % 4 ≠ 0) s data
      let (out', s, rest) := cryptUnits s rest
      (out ++ out', s, rest)
    else cryptBytes (fun b => b < 16) s data
  let (out₁, s, rest) := cryptBlocks E s rest
  let (out₂, s) := cryptTail E s rest
  (out₀ ++ out₁ ++ out₂, s)

def gcmCryptData (P : Primitives) (aligned : Bool) (data : List UInt8) (ctx : GcmCtx) :
    List UInt8 × GcmCtx :=
  let (out, s) := cryptBuffer (aesEncrypt P ctx.aes) aligned
    ⟨ctx.ctrVal, ctx.encCtr, ctx.txtCcnt.toNat % 16⟩ data
  (out, { ctx with
    ctrVal := s.ctr
    encCtr := s.enc
    txtCcnt := ctx.txtCcnt + UInt32.ofNat data.length })

/-! ## The tag -/

/-- The loop `while(i-- > 0)` that adds the text hash and the two bit counts:
`tm` starts with the text's and is reloaded with the header's after index
eight. -/
def lengthLoop (hdrCnt : UInt32) (txtGhv : GfT) : ℕ → UInt64 → GfT → GfT
  | 0, _, x => x
  | i + 1, tm, x =>
      lengthLoop hdrCnt txtGhv i (if i = 8 then hdrCnt.toUInt64 <<< 3 else tm >>> 8)
        (xorAt x i [gfByte txtGhv i ^^^ tm.toUInt8])

/-- The hash that `gcm_compute_tag` leaves in `hdr_ghv`, from the two hashes
after their last multiplication. -/
def tagHash (ctx : GcmCtx) (hdrGhv txtGhv : GfT) : GfT :=
  let ln := (ctx.txtAcnt + 16 - 1) / 16
  let hdrGhv :=
    if ctx.hdrCnt ≠ 0 ∧ ln ≠ 0 then squareMultiply gfMulTMD ln.toNat hdrGhv ctx.ghashH
    else hdrGhv
  gfMulHh ctx (lengthLoop ctx.hdrCnt txtGhv 16 (ctx.txtAcnt.toUInt64 <<< 3) hdrGhv)

/-- `gcm_compute_tag`: the return code, the bytes written to `tag` and the
context. On an error nothing is written. -/
def gcmComputeTag (P : Primitives) (tagLen : ℕ) (ctx : GcmCtx) : Int × List UInt8 × GcmCtx :=
  if ctx.txtAcnt ≠ ctx.txtCcnt ∧ 0 < ctx.txtCcnt then (returnError, [], ctx)
  else
    let txtGhv := gfMulHh ctx ctx.txtGhv
    let hdrGhv := tagHash ctx (gfMulHh ctx ctx.hdrGhv) txtGhv
    let enc := aesEncrypt P ctx.aes (overwrite ctx.ctrVal 12 ctx.y0Val.toList)
    (if ctx.txtCcnt = ctx.txtAcnt then returnGood else returnWarn,
      xorBytes (hdrGhv.toList.take tagLen) enc.toList,
      { ctx with hdrGhv := hdrGhv, txtGhv := txtGhv, encCtr := enc })

/-! ## Whole messages -/

/-- The outcomes of the address tests in one message. -/
structure Aligned where
  hdr : Bool
  crypt : Bool
  auth : Bool

def gcmEncrypt (P : Primitives) (al : Aligned) (data : List UInt8) (ctx : GcmCtx) :
    List UInt8 × GcmCtx :=
  let (out, ctx) := gcmCryptData P al.crypt data ctx
  (out, gcmAuthData al.auth out ctx)

def gcmDecrypt (P : Primitives) (al : Aligned) (data : List UInt8) (ctx : GcmCtx) :
    List UInt8 × GcmCtx :=
  gcmCryptData P al.crypt data (gcmAuthData al.auth data ctx)

/-- `gcm_encrypt_message`: the return code, the ciphertext in the message
buffer, the tag and the context. -/
def gcmEncryptMessage (P : Primitives) (al : Aligned) (iv hdr msg : List UInt8) (tagLen : ℕ)
    (ctx : GcmCtx) : Int × List UInt8 × List UInt8 × GcmCtx :=
  let ctx := gcmAuthHeader al.hdr hdr (gcmInitMessage iv ctx)
  let (out, ctx) := gcmEncrypt P al msg ctx
  let (rr, tag, ctx) := gcmComputeTag P tagLen ctx
  (if rr ≠ 0 then returnError else returnGood, out, tag, ctx)

/-- `gcm_decrypt_message`: the return code, the message buffer, which holds
the decrypted text on an error too, and the context. -/
def gcmDecryptMessage (P : Primitives) (al : Aligned) (iv hdr msg tag : List UInt8)
    (ctx : GcmCtx) : Int × List UInt8 × GcmCtx :=
  let ctx := gcmAuthHeader al.hdr hdr (gcmInitMessage iv ctx)
  let (out, ctx) := gcmDecrypt P al msg ctx
  let (rr, localTag, ctx) := gcmComputeTag P tag.length ctx
  (if rr ≠ returnGood ∨ tag ≠ localTag then returnError else returnGood, out, ctx)

end GecRelay
