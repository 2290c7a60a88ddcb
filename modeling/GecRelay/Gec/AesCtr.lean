import GecRelay.Gec.Primitives
import GecRelay.Foundation.Keystream

/-!
# The CTR driver of `aes_modes.c`

`aes_ctr_crypt` with its three parts: the rest of the block a previous call
left (`inf.b[2]` is the position in it), batches of up to `BFR_BLOCKS` blocks,
and the bytes of a last block that is not whole. Its return code is left out;
`gec_encrypt_conf` does not look at it. On whole blocks from a block boundary
the driver adds the keystream of successive counter blocks
(`aesCtrCrypt_whole`).
-/

namespace GecRelay

open Foundation

/-- `aes_encrypt_ctx`: the key schedule and the four bytes of `inf`. -/
structure AesEncryptCtx where
  ks : List.Vector UInt32 44
  inf : Bytes 4
deriving DecidableEq

/-- `inf.l = 0; inf.b[0] = 10 * 16`. -/
def keyedInf : Bytes 4 := overwrite (zeros 4) 0 [160]

def aesEncryptKey128 (P : Primitives) (key : Bytes 16) : AesEncryptCtx where
  ks := P.aesKeySchedule key
  inf := keyedInf

/-- The test at the head of `aes_encrypt`: the context at least appears to
have been initialised. -/
def aesKeyed (ctx : AesEncryptCtx) : Prop :=
  ctx.inf.get 0 = 160 ∨ ctx.inf.get 0 = 192 ∨ ctx.inf.get 0 = 224

instance (ctx : AesEncryptCtx) : Decidable (aesKeyed ctx) := by
  unfold aesKeyed; infer_instance

def aesEncrypt (P : Primitives) (ctx : AesEncryptCtx) (block : Bytes 16) : Bytes 16 :=
  P.aesRounds ctx.ks (ctx.inf.get 0) block

def bfrLength : ℕ := 8 * 16

def ctrBlocks (ctrInc : Bytes 16 → Bytes 16) : ℕ → Bytes 16 → List (Bytes 16) × Bytes 16
  | 0, cbuf => ([], cbuf)
  | k + 1, cbuf =>
      let (blocks, cbuf') := ctrBlocks ctrInc k (ctrInc cbuf)
      (cbuf :: blocks, cbuf')

/-- The counter blocks of one batch of `blen` bytes; a block that is not whole
is copied without an increment. -/
def ctrBatch (ctrInc : Bytes 16 → Bytes 16) (blen : ℕ) (cbuf : Bytes 16) :
    List (Bytes 16) × Bytes 16 :=
  let (blocks, cbuf') := ctrBlocks ctrInc (blen / 16) cbuf
  if blen % 16 = 0 then (blocks, cbuf') else (blocks ++ [cbuf'], cbuf')

/-- The loop `while(len)` over batches, with the text, the counter block and
the position in the last block. A batch takes at least one byte, so the length
of the text bounds the rounds. -/
def ctrLoop (P : Primitives) (ctx : AesEncryptCtx) (ctrInc : Bytes 16 → Bytes 16) :
    ℕ → List UInt8 → Bytes 16 → ℕ → List UInt8 × Bytes 16 × ℕ
  | 0, _, cbuf, bPos => ([], cbuf, bPos)
  | fuel + 1, ibuf, cbuf, bPos =>
      if ibuf = [] then ([], cbuf, bPos)
      else
        let blen := min ibuf.length bfrLength
        let (blocks, cbuf') := ctrBatch ctrInc blen cbuf
        let buf := blocks.flatMap fun b => (aesEncrypt P ctx b).toList
        let whole := 16 * (blen / 16)
        let obuf := xorBytes (ibuf.take whole) buf ++
          xorBytes ((ibuf.take blen).drop whole) (buf.drop (whole + bPos))
        let (rest, cbuf'', bPos') :=
          ctrLoop P ctx ctrInc fuel (ibuf.drop blen) cbuf' (bPos + blen % 16)
        (obuf ++ rest, cbuf'', bPos')

/-- `ctx->inf.b[2]`, the position in the block that the last call ended in. -/
def AesEncryptCtx.bPos (ctx : AesEncryptCtx) : ℕ := (ctx.inf.get 2).toNat

/-- `aes_ctr_crypt`: the bytes written, the counter block and the context. The
parameter `len` is an `int`, so it holds the length of the text modulo
`2 ^ 32`, and what is left of it after the first block is negative from
`2 ^ 31` on: the batch loop then takes one round that does nothing. A context
that was never keyed makes the first `aes_ecb_encrypt` fail: nothing is
written, and the counter block has moved only if the batch loop was reached. -/
def aesCtrCrypt (P : Primitives) (ibuf : List UInt8) (cbuf : Bytes 16)
    (ctrInc : Bytes 16 → Bytes 16) (ctx : AesEncryptCtx) :
    List UInt8 × Bytes 16 × AesEncryptCtx :=
  let bPos := ctx.bPos
  let len := ibuf.length % 2 ^ 32
  let n := if bPos = 0 then 0 else min (16 - bPos) len
  let rest := if len - n < 2 ^ 31 then (ibuf.drop n).take (len - n) else []
  if aesKeyed ctx then
    let head := xorBytes (ibuf.take n) ((aesEncrypt P ctx cbuf).toList.drop bPos)
    let (cbuf', bPos') := if bPos ≠ 0 ∧ len ≠ n then (ctrInc cbuf, 0) else (cbuf, bPos + n)
    let (tail, cbuf'', bPos'') := ctrLoop P ctx ctrInc rest.length rest cbuf' bPos'
    (head ++ tail, cbuf'', { ctx with inf := ctx.inf.set 2 (UInt8.ofNat bPos'') })
  else
    ([], if bPos = 0 then (ctrBatch ctrInc (min rest.length bfrLength) cbuf).2 else cbuf, ctx)

/-! ## Whole blocks -/

def ctrPad (P : Primitives) (ctx : AesEncryptCtx) (ctrInc : Bytes 16 → Bytes 16) (k : ℕ)
    (cbuf : Bytes 16) : List UInt8 :=
  keystream (fun b => (aesEncrypt P ctx b).toList) ctrInc k cbuf

@[simp] theorem length_ctrPad (P : Primitives) (ctx : AesEncryptCtx)
    (ctrInc : Bytes 16 → Bytes 16) (k : ℕ) (cbuf : Bytes 16) :
    (ctrPad P ctx ctrInc k cbuf).length = 16 * k :=
  length_keystream (fun _ => List.Vector.toList_length _) k cbuf

theorem ctrBlocks_snd (ctrInc : Bytes 16 → Bytes 16) (k : ℕ) (cbuf : Bytes 16) :
    (ctrBlocks ctrInc k cbuf).2 = ctrInc^[k] cbuf := by
  induction k generalizing cbuf with
  | zero => rfl
  | succ k ih => simp [ctrBlocks, ih]

theorem ctrBlocks_pad (P : Primitives) (ctx : AesEncryptCtx) (ctrInc : Bytes 16 → Bytes 16)
    (k : ℕ) (cbuf : Bytes 16) :
    (ctrBlocks ctrInc k cbuf).1.flatMap (fun b => (aesEncrypt P ctx b).toList) =
      ctrPad P ctx ctrInc k cbuf := by
  induction k generalizing cbuf with
  | zero => rfl
  | succ k ih =>
      simp only [ctrBlocks, List.flatMap_cons, ih]
      rfl

/-- The keystream of a batch, with the block that is not whole. -/
theorem ctrBatch_pad (P : Primitives) (ctx : AesEncryptCtx) (ctrInc : Bytes 16 → Bytes 16)
    {ibuf : List UInt8} {blen : ℕ} (hlen : ibuf.length = blen) (cbuf : Bytes 16) :
    let buf := (ctrBatch ctrInc blen cbuf).1.flatMap fun b => (aesEncrypt P ctx b).toList
    xorBytes ibuf buf = xorBytes ibuf (ctrPad P ctx ctrInc (blen / 16 + 1) cbuf) := by
  intro buf
  have hnext : ctrPad P ctx ctrInc (blen / 16 + 1) cbuf = ctrPad P ctx ctrInc (blen / 16) cbuf ++
      (aesEncrypt P ctx (ctrInc^[blen / 16] cbuf)).toList := by
    rw [ctrPad, keystream_add]
    simp [ctrPad, keystream]
  by_cases hwhole : blen % 16 = 0
  · have hbuf : buf = ctrPad P ctx ctrInc (blen / 16) cbuf := by
      simp only [buf, ctrBatch, if_pos hwhole, ctrBlocks_pad]
    rw [hbuf, hnext, xorBytes_append_right (by rw [length_ctrPad]; omega)]
  · have hbuf : buf = ctrPad P ctx ctrInc (blen / 16) cbuf ++
        (aesEncrypt P ctx (ctrInc^[blen / 16] cbuf)).toList := by
      simp only [buf, ctrBatch, if_neg hwhole, List.flatMap_append, ctrBlocks_pad, ctrBlocks_snd,
        List.flatMap_singleton]
    rw [hbuf, hnext]

theorem ctrBatch_snd (ctrInc : Bytes 16 → Bytes 16) (blen : ℕ) (cbuf : Bytes 16) :
    (ctrBatch ctrInc blen cbuf).2 = ctrInc^[blen / 16] cbuf := by
  rw [← ctrBlocks_snd, ctrBatch]
  by_cases hwhole : blen % 16 = 0
  · simp only [if_pos hwhole]
  · simp only [if_neg hwhole]

/-- **The batch loop from a block boundary**: counter mode, and the position
after the last byte. -/
theorem ctrLoop_pad (P : Primitives) (ctx : AesEncryptCtx) (ctrInc : Bytes 16 → Bytes 16)
    (fuel : ℕ) {ibuf : List UInt8} (cbuf : Bytes 16) (hfuel : ibuf.length ≤ fuel) :
    ctrLoop P ctx ctrInc fuel ibuf cbuf 0 =
      (xorBytes ibuf (ctrPad P ctx ctrInc (ibuf.length / 16 + 1) cbuf),
        ctrInc^[ibuf.length / 16] cbuf, ibuf.length % 16) := by
  induction fuel generalizing ibuf cbuf with
  | zero =>
      obtain rfl : ibuf = [] := List.eq_nil_of_length_eq_zero (by omega)
      rfl
  | succ fuel ih =>
      by_cases hnil : ibuf = []
      · subst hnil
        rfl
      have hpos : 0 < ibuf.length := List.length_pos_iff.mpr hnil
      set blen := min ibuf.length bfrLength with hblen
      have htake : (ibuf.take blen).length = blen := by simp [hblen]
      have hfirst := ctrBatch_pad P ctx ctrInc htake cbuf
      have hwhole : (ibuf.take blen).take (16 * (blen / 16)) = ibuf.take (16 * (blen / 16)) := by
        rw [List.take_take]
        congr 1
        omega
      simp only [ctrLoop, if_neg hnil, ← hblen, ctrBatch_snd, Nat.zero_add, Nat.add_zero]
      rw [← hwhole, xorBytes_take_drop, hfirst]
      by_cases hlast : ibuf.length ≤ bfrLength
      · -- the last batch
        have hall : blen = ibuf.length := by omega
        rw [hall, List.drop_length, List.take_length]
        cases fuel <;> simp [ctrLoop]
      · -- a full batch, so the position stays at the block boundary
        have hfull : blen = 128 := by rw [hblen, bfrLength] at *; omega
        rw [bfrLength] at hlast
        have hrest : (ibuf.drop 128).length = ibuf.length - 128 := by simp
        have hj : ibuf.length / 16 = (ibuf.length - 128) / 16 + 8 := by omega
        have hk : ibuf.length / 16 + 1 = 8 + ((ibuf.length - 128) / 16 + 1) := by omega
        rw [hfull, ih (ctrInc^[128 / 16] cbuf) (by rw [hrest]; omega), hrest]
        refine Prod.ext ?_ (Prod.ext ?_ ?_)
        · have hpad : (ctrPad P ctx ctrInc 8 cbuf).length = 128 := length_ctrPad P ctx ctrInc 8 cbuf
          have hshort : (ibuf.take 128).length ≤ (ctrPad P ctx ctrInc 8 cbuf).length := by
            rw [hpad]
            exact List.length_take_le 128 ibuf
          have hsplit : ∀ k, ctrPad P ctx ctrInc (8 + k) cbuf =
              ctrPad P ctx ctrInc 8 cbuf ++ ctrPad P ctx ctrInc k (ctrInc^[8] cbuf) :=
            fun k => keystream_add _ ctrInc 8 k cbuf
          have hdrop : ∀ k, (ctrPad P ctx ctrInc (8 + k) cbuf).drop 128 =
              ctrPad P ctx ctrInc k (ctrInc^[8] cbuf) := by
            intro k
            rw [hsplit, ← hpad, List.drop_left]
          show xorBytes _ (ctrPad P ctx ctrInc (8 + 1) cbuf) ++ xorBytes _ _ = xorBytes ibuf _
          rw [hk, ← xorBytes_take_drop 128 ibuf (ctrPad P ctx ctrInc (8 + _) cbuf), hdrop, hsplit,
            hsplit, xorBytes_append_right hshort, xorBytes_append_right hshort]
        · show ctrInc^[(ibuf.length - 128) / 16] (ctrInc^[8] cbuf) = _
          rw [hj, Function.iterate_add_apply]
        · show (ibuf.length - 128) % 16 = ibuf.length % 16
          omega

/-! ## Any text -/

/-- The bytes masked with the rest of the block a previous call left. -/
def ctrHead (bPos len : ℕ) : ℕ := if bPos = 0 then 0 else min (16 - bPos) (len % 2 ^ 32)

/-- The bytes masked in the batch loop. -/
def ctrRest (bPos len : ℕ) : ℕ :=
  if len % 2 ^ 32 - ctrHead bPos len < 2 ^ 31 then len % 2 ^ 32 - ctrHead bPos len else 0

/-- The call goes on after the rest of the block. -/
def ctrCrosses (bPos len : ℕ) : Prop := bPos ≠ 0 ∧ len % 2 ^ 32 ≠ ctrHead bPos len

instance (bPos len : ℕ) : Decidable (ctrCrosses bPos len) := by
  unfold ctrCrosses; infer_instance

def maskedLen (bPos len : ℕ) : ℕ := ctrHead bPos len + ctrRest bPos len

/-- The increments of the counter block in a call. -/
def ctrIncs (bPos len : ℕ) : ℕ := (if ctrCrosses bPos len then 1 else 0) + ctrRest bPos len / 16

/-- `b_pos` after a call. -/
def ctrPos (bPos len : ℕ) : ℕ :=
  (if ctrCrosses bPos len then 0 else bPos + ctrHead bPos len) + ctrRest bPos len % 16

/-- The counter blocks and offsets of `n` bytes from position `bPos` of the
block `cbuf` on. -/
def ctrPairs (ctrInc : Bytes 16 → Bytes 16) (bPos : ℕ) (cbuf : Bytes 16) (n : ℕ) :
    List (Bytes 16 × ℕ) :=
  (List.range n).map fun q => (ctrInc^[(bPos + q) / 16] cbuf, (bPos + q) % 16)

/-- The keystream byte of a counter block and an offset. -/
def padByte (P : Primitives) (ctx : AesEncryptCtx) (p : Bytes 16 × ℕ) : UInt8 :=
  (aesEncrypt P ctx p.1).toList.getD p.2 0

theorem ctrPad_eq_pairs (P : Primitives) (ctx : AesEncryptCtx) (ctrInc : Bytes 16 → Bytes 16)
    (k : ℕ) (cbuf : Bytes 16) :
    ctrPad P ctx ctrInc k cbuf = (ctrPairs ctrInc 0 cbuf (16 * k)).map (padByte P ctx) := by
  rw [ctrPad, keystream_eq_map (by decide) (fun _ => List.Vector.toList_length _) 0, ctrPairs,
    List.map_map]
  simp only [Nat.zero_add]
  rfl

theorem ctrPairs_add (ctrInc : Bytes 16 → Bytes 16) (bPos : ℕ) (cbuf : Bytes 16) (m n : ℕ) :
    ctrPairs ctrInc bPos cbuf (m + n) =
      ctrPairs ctrInc bPos cbuf m ++ ctrPairs ctrInc (bPos + m) cbuf n := by
  rw [ctrPairs, List.range_add, List.map_append, List.map_map]
  simp only [ctrPairs, Function.comp_def, Nat.add_assoc]

@[simp] theorem length_ctrPairs (ctrInc : Bytes 16 → Bytes 16) (bPos : ℕ) (cbuf : Bytes 16)
    (n : ℕ) : (ctrPairs ctrInc bPos cbuf n).length = n := by
  simp [ctrPairs]

theorem ctrPairs_next (ctrInc : Bytes 16 → Bytes 16) (cbuf : Bytes 16) (n : ℕ) :
    ctrPairs ctrInc 16 cbuf n = ctrPairs ctrInc 0 (ctrInc cbuf) n := by
  refine List.map_congr_left fun q _ => ?_
  rw [Nat.add_mod_left, Nat.add_div_left q (by decide), Nat.zero_add]
  rfl

theorem xorBytes_ctrPad (P : Primitives) (ctx : AesEncryptCtx) (ctrInc : Bytes 16 → Bytes 16)
    (ibuf : List UInt8) (cbuf : Bytes 16) :
    xorBytes ibuf (ctrPad P ctx ctrInc (ibuf.length / 16 + 1) cbuf) =
      xorBytes ibuf ((ctrPairs ctrInc 0 cbuf ibuf.length).map (padByte P ctx)) := by
  obtain ⟨m, hm⟩ : ∃ m, 16 * (ibuf.length / 16 + 1) = ibuf.length + m :=
    ⟨16 * (ibuf.length / 16 + 1) - ibuf.length, by omega⟩
  rw [ctrPad_eq_pairs, hm, ctrPairs_add, List.map_append, xorBytes_append_right (by simp)]

/-- The rest of a block. -/
theorem xorBytes_head (P : Primitives) (ctx : AesEncryptCtx) (ctrInc : Bytes 16 → Bytes 16)
    {ibuf : List UInt8} (cbuf : Bytes 16) {bPos : ℕ} (h : bPos + ibuf.length ≤ 16) :
    xorBytes ibuf ((aesEncrypt P ctx cbuf).toList.drop bPos) =
      xorBytes ibuf ((ctrPairs ctrInc bPos cbuf ibuf.length).map (padByte P ctx)) := by
  apply List.ext_getElem
  · simp [xorBytes]
    omega
  · intro q hq _
    have hlt : q < ibuf.length := by
      simp only [xorBytes, List.length_zipWith] at hq
      omega
    have hin : bPos + q < 16 := by omega
    simp [xorBytes, ctrPairs, padByte, Nat.div_eq_of_lt hin, Nat.mod_eq_of_lt hin, hin]

/-- The rest of a block, then the blocks from `c` on. -/
theorem xorBytes_head_rest (P : Primitives) (ctx : AesEncryptCtx) (ctrInc : Bytes 16 → Bytes 16)
    {ibuf rest : List UInt8} (cbuf c : Bytes 16) {bPos n : ℕ} (hn : n ≤ ibuf.length)
    (hfits : bPos + n ≤ 16) (hrest : rest <+: ibuf.drop n) :
    xorBytes (ibuf.take n) ((aesEncrypt P ctx cbuf).toList.drop bPos) ++
        xorBytes rest (ctrPad P ctx ctrInc (rest.length / 16 + 1) c) =
      xorBytes ibuf ((ctrPairs ctrInc bPos cbuf n ++ ctrPairs ctrInc 0 c rest.length).map
        (padByte P ctx)) := by
  have htaken : (ibuf.take n).length = n := List.length_take_of_le hn
  have hpad : ((ctrPairs ctrInc 0 c rest.length).map (padByte P ctx)).length = rest.length := by
    simp
  obtain ⟨more, hmore⟩ := hrest
  rw [xorBytes_head P ctx ctrInc cbuf (by rw [htaken]; exact hfits), xorBytes_ctrPad, htaken,
    List.map_append, xorBytes_append_pad, List.length_map, length_ctrPairs, ← hmore,
    ← xorBytes_take_left (rest ++ more), hpad, List.take_left]

/-- **The driver on any text.** It masks the first bytes of the text with the
keystream bytes of successive counter blocks and offsets, from the block and
position it starts at. -/
theorem aesCtrCrypt_masks (P : Primitives) {ctx : AesEncryptCtx} (hkey : aesKeyed ctx) {bPos : ℕ}
    (hpos : ctx.bPos = bPos) (hle : bPos ≤ 16) (ctrInc : Bytes 16 → Bytes 16)
    (ibuf : List UInt8) (cbuf : Bytes 16) :
    aesCtrCrypt P ibuf cbuf ctrInc ctx =
      (xorBytes ibuf ((ctrPairs ctrInc bPos cbuf (maskedLen bPos ibuf.length)).map
          (padByte P ctx)),
        ctrInc^[ctrIncs bPos ibuf.length] cbuf,
        { ctx with inf := ctx.inf.set 2 (UInt8.ofNat (ctrPos bPos ibuf.length)) }) := by
  set len := ibuf.length % 2 ^ 32 with hlen
  have hcut : len ≤ ibuf.length := Nat.mod_le _ _
  set n := ctrHead bPos ibuf.length with hn
  set rest := if len - n < 2 ^ 31 then (ibuf.drop n).take (len - n) else [] with hrest
  have hdef : aesCtrCrypt P ibuf cbuf ctrInc ctx =
      let c := if ctrCrosses bPos ibuf.length then (ctrInc cbuf, 0) else (cbuf, bPos + n)
      let r := ctrLoop P ctx ctrInc rest.length rest c.1 c.2
      (xorBytes (ibuf.take n) ((aesEncrypt P ctx cbuf).toList.drop bPos) ++ r.1, r.2.1,
        { ctx with inf := ctx.inf.set 2 (UInt8.ofNat r.2.2) }) := by
    simp only [aesCtrCrypt, if_pos hkey, hpos]
    rfl
  have hnlen : n ≤ len ∧ bPos + n ≤ 16 := by
    rw [hn, ctrHead]
    split <;> omega
  have hlenrest : rest.length = ctrRest bPos ibuf.length := by
    rw [hrest, ctrRest, ← hlen, ← hn]
    split
    · simp
      omega
    · rfl
  have hprefix : rest <+: ibuf.drop n := by
    rw [hrest]
    split
    · exact List.take_prefix _ _
    · exact List.nil_prefix
  have hmask := fun c => xorBytes_head_rest P ctx ctrInc cbuf c (hnlen.1.trans hcut) hnlen.2 hprefix
  have hpad := fun c => ctrLoop_pad P ctx ctrInc rest.length c (Nat.le_refl _)
  rw [hdef, maskedLen, ctrPairs_add, ctrIncs, ctrPos, ← hn, ← hlenrest]
  by_cases hcross : ctrCrosses bPos ibuf.length
  · have hn16 : bPos + n = 16 := by
      obtain ⟨hne, hmore⟩ := hcross
      rw [← hlen, ← hn] at hmore
      rw [hn, ctrHead, if_neg hne] at *
      omega
    simp only [if_pos hcross, hpad, hmask, hn16, ctrPairs_next, Nat.zero_add,
      Nat.add_comm 1, Function.iterate_succ_apply]
  · simp only [if_neg hcross]
    by_cases hzero : bPos = 0
    · have hn0 : n = 0 := by rw [hn, ctrHead, if_pos hzero]
      have hstart := hmask cbuf
      rw [hn0, hzero] at hstart ⊢
      simp only [Nat.zero_add, hpad, hstart]
    · -- the text ends in the first block, and the batch loop has nothing to do
      have hend : len = n := by
        by_contra hne
        exact hcross ⟨hzero, hne⟩
      have hnil : rest = [] := by rw [hrest, hend, Nat.sub_self, List.take_zero, ite_self]
      have hstart := hmask cbuf
      rw [hnil] at hstart ⊢
      simpa [ctrLoop, ctrPairs] using hstart

theorem set_get_self {n : ℕ} (v : Bytes n) (i : Fin n) : v.set i (v.get i) = v := by
  apply List.Vector.ext
  intro j
  rw [List.Vector.get_set_eq_if]
  split
  · next h => rw [h]
  · rfl

/-- **The driver on whole blocks from a block boundary**: counter mode. -/
theorem aesCtrCrypt_whole (P : Primitives) {ctx : AesEncryptCtx} (hkey : aesKeyed ctx)
    (hpos : ctx.inf.get 2 = 0) (ctrInc : Bytes 16 → Bytes 16) {k : ℕ} (hk : 16 * k < 2 ^ 31)
    {ibuf : List UInt8} (cbuf : Bytes 16) (hlen : ibuf.length = 16 * k) :
    aesCtrCrypt P ibuf cbuf ctrInc ctx =
      (xorBytes ibuf (ctrPad P ctx ctrInc k cbuf), ctrInc^[k] cbuf, ctx) := by
  have hrest : ctrRest 0 (16 * k) = 16 * k := by
    rw [ctrRest, ctrHead, if_pos rfl, Nat.mod_eq_of_lt (by omega), Nat.sub_zero, if_pos hk]
  have hset : ctx.inf.set 2 0 = ctx.inf := by
    have h := set_get_self ctx.inf 2
    rwa [hpos] at h
  rw [aesCtrCrypt_masks P hkey (by rw [AesEncryptCtx.bPos, hpos]; rfl) (Nat.zero_le 16), hlen,
    maskedLen, ctrIncs, ctrPos, hrest, ctrPad_eq_pairs]
  simp [ctrHead, ctrCrosses, hset]

end GecRelay
