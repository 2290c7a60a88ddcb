import GecRelay.Gcm.Tag
import GecRelay.Gcm.Counter
import GecRelay.Gec.Confirm
import GecRelay.Foundation.Machine

/-!
# A message in any sequence of calls

Between `gcm_init_message` and `gcm_compute_tag` a program calls
`gcm_auth_header`, `gcm_encrypt` and `gcm_decrypt` in any order, with pieces of
any length at any addresses. The abstract state of a message is the header and
the ciphertext so far (`GcmText`): a header piece is appended to the one, a text
piece, with the pad added where it is not the ciphertext yet, to the other. The
driver's context holds that state (`Holds`), every call keeps the relation
(`holds_step`), and the tag is the one of GCM for it (`gcmComputeTag_holds`).
-/

namespace GecRelay

open Foundation

inductive GcmCall where
  | header (aligned : Bool) (hdr : List UInt8)
  | encrypt (al : Aligned) (data : List UInt8)
  | decrypt (al : Aligned) (data : List UInt8)

/-- The calls on a context, each with the bytes it leaves in the buffer. -/
def gcmMachine (P : Primitives) : Machine GcmCtx GcmCall (List UInt8) where
  step ctx
    | .header aligned hdr => ([], gcmAuthHeader aligned hdr ctx)
    | .encrypt al data => gcmEncrypt P al data ctx
    | .decrypt al data => gcmDecrypt P al data ctx

/-! ## The abstract message -/

/-- The header and the ciphertext so far. -/
structure GcmText where
  hdr : List UInt8
  txt : List UInt8

def GcmText.empty : GcmText := ⟨[], []⟩

def textMachine (pad : ℕ → UInt8) : Machine GcmText GcmCall (List UInt8) where
  step t
    | .header _ hdr => ([], { t with hdr := t.hdr ++ hdr })
    | .encrypt _ data =>
        (addStream pad t.txt.length data,
          { t with txt := t.txt ++ addStream pad t.txt.length data })
    | .decrypt _ data => (addStream pad t.txt.length data, { t with txt := t.txt ++ data })

/-- The counts stay below `2 ^ 32 - 16`: the loops compare `cnt + BLOCK_SIZE`
with the length in 32 bits, and `gcm_compute_tag` rounds the text's count up. -/
def GcmText.Fits (t : GcmText) : GcmCall → Prop
  | .header _ hdr => t.hdr.length + hdr.length + 16 < 2 ^ 32
  | .encrypt _ data => t.txt.length + data.length + 16 < 2 ^ 32
  | .decrypt _ data => t.txt.length + data.length + 16 < 2 ^ 32

/-- AES under a key. -/
def cipher (P : Primitives) (key : Bytes 16) : GfT → GfT := aesEncrypt P (aesEncryptKey128 P key)

/-- The tag of GCM: the hash of header and ciphertext under `E(0)`, with the
enciphered initial counter block added. -/
def gcmTag (E : GfT → GfT) (c : GfT) (t : GcmText) (tagLen : ℕ) : List UInt8 :=
  xorBytes ((ghash (E (zeros 16)) t.hdr t.txt).toList.take tagLen) (E c).toList

theorem length_gcmTag (E : GfT → GfT) (c : GfT) (t : GcmText) {n : ℕ} (hn : n ≤ 16) :
    (gcmTag E c t n).length = n := by
  unfold gcmTag
  rw [length_xorBytes, List.length_take, List.Vector.toList_length, List.Vector.toList_length]
  omega

/-! ## The relation -/

/-- What `gcm_init_and_key` leaves and no later call changes. -/
structure GcmCtx.Keyed (P : Primitives) (key : Bytes 16) (ctx : GcmCtx) : Prop where
  aes : ctx.aes = aesEncryptKey128 P key
  ghashH : ctx.ghashH = cipher P key (zeros 16)
  tabled : ctx.Tabled

theorem gcmInitAndKey_keyed (P : Primitives) (key : Bytes 16) (ctx : GcmCtx) :
    (gcmInitAndKey P key ctx).Keyed P key :=
  ⟨rfl, rfl, gcmInitAndKey_tabled P key ctx⟩

/-- **The context holds the message**: the hashes of its two parts, the pad
after its text, the saved counter word and the counts. -/
structure Holds (P : Primitives) (key : Bytes 16) (c : GfT) (ctx : GcmCtx) (t : GcmText) :
    Prop where
  keyed : ctx.Keyed P key
  pad : PadAt (cipher P key) c t.txt.length ⟨ctx.ctrVal, ctx.encCtr, t.txt.length % 16⟩
  y0Val : ctx.y0Val = slice c 12 4
  hdrGhv : ctx.hdrGhv = lazyHash (gfMulHh ctx) t.hdr
  txtGhv : ctx.txtGhv = lazyHash (gfMulHh ctx) t.txt
  hdrCnt : ctx.hdrCnt.toNat = t.hdr.length
  txtCcnt : ctx.txtCcnt.toNat = t.txt.length
  txtAcnt : ctx.txtAcnt.toNat = t.txt.length
  room : t.txt.length + 15 < 2 ^ 32

theorem gcmInitMessage_holds {P : Primitives} {key : Bytes 16} {ctx : GcmCtx}
    (h : ctx.Keyed P key) (iv : List UInt8) :
    Holds P key (ivCounter (fun a => gfMulTMD a (cipher P key (zeros 16))) iv)
      (gcmInitMessage iv ctx) GcmText.empty := by
  have hmul : gfMulHh ctx = fun a => gfMulTMD a (cipher P key (zeros 16)) := by
    rw [h.tabled.gfMulHh_eq, h.ghashH]
  refine ⟨⟨h.aes, h.ghashH, h.tabled⟩, ⟨?_, ?_, rfl, Nat.zero_le 16⟩, ?_, rfl, rfl, rfl, rfl, rfl,
    by decide⟩
  · show ivCounter (gfMulHh ctx) iv = _
    rw [hmul]
    rfl
  · intro hne
    exact absurd rfl hne
  · show slice (ivCounter (gfMulHh ctx) iv) 12 4 = _
    rw [hmul]

theorem toNat_add_length {cnt : UInt32} {ds es : List UInt8} (hcnt : cnt.toNat = ds.length)
    (hlen : ds.length + es.length < 2 ^ 32) :
    (cnt + UInt32.ofNat es.length).toNat = (ds ++ es).length := by
  rw [UInt32.toNat_add, UInt32.toNat_ofNat', hcnt, List.length_append]
  omega

/-- A piece appended to the header or to the text in the hash. -/
theorem authBuffer_lazyHash (mul : GfT → GfT) (aligned : Bool) {cnt : UInt32} {ds : List UInt8}
    (hcnt : cnt.toNat = ds.length) (es : List UInt8) :
    authBuffer mul aligned (lazyHash mul ds) cnt es = lazyHash mul (ds ++ es) := by
  rw [authBuffer_eq_authTail, hcnt, lazyHash_append]

theorem gcmAuthHeader_holds {P : Primitives} {key : Bytes 16} {c : GfT} {ctx : GcmCtx}
    {t : GcmText} (h : Holds P key c ctx t) (aligned : Bool) (hdr : List UInt8)
    (hlen : t.hdr.length + hdr.length + 16 < 2 ^ 32) :
    Holds P key c (gcmAuthHeader aligned hdr ctx) { t with hdr := t.hdr ++ hdr } := by
  have hghv : (gcmAuthHeader aligned hdr ctx).hdrGhv = lazyHash (gfMulHh ctx) (t.hdr ++ hdr) := by
    rw [gcmAuthHeader, h.hdrGhv]
    exact authBuffer_lazyHash _ _ h.hdrCnt hdr
  exact
    { keyed := ⟨h.keyed.aes, h.keyed.ghashH, h.keyed.tabled⟩
      pad := h.pad
      y0Val := h.y0Val
      hdrGhv := hghv
      txtGhv := h.txtGhv
      hdrCnt := toNat_add_length h.hdrCnt (by omega)
      txtCcnt := h.txtCcnt
      txtAcnt := h.txtAcnt
      room := h.room }

/-- `gcm_crypt_data`, with the text hash still to come: the bytes written, and
the fields it leaves alone. -/
theorem gcmCryptData_spec {P : Primitives} {key : Bytes 16} {c : GfT} (ctx : GcmCtx) {n : ℕ}
    (haes : ctx.aes = aesEncryptKey128 P key)
    (hpad : PadAt (cipher P key) c n ⟨ctx.ctrVal, ctx.encCtr, n % 16⟩)
    (hcnt : ctx.txtCcnt.toNat = n) (aligned : Bool) (data : List UInt8) :
    ∃ ctr enc, gcmCryptData P aligned data ctx =
        (addStream (gctrByte (cipher P key) c) n data,
          { ctx with ctrVal := ctr, encCtr := enc,
                     txtCcnt := ctx.txtCcnt + UInt32.ofNat data.length }) ∧
      PadAt (cipher P key) c (n + data.length) ⟨ctr, enc, (n + data.length) % 16⟩ := by
  obtain ⟨hout, hnext⟩ := crypt_addStream hpad data
  have hle : n % 16 ≤ 16 := (Nat.mod_lt n (by decide)).le
  have hbuf := cryptBuffer_eq_crypt (E := cipher P key) aligned ⟨ctx.ctrVal, ctx.encCtr, n % 16⟩
    hle data
  refine ⟨_, _, ?_, hnext⟩
  rw [← hout, ← hbuf, gcmCryptData, haes, hcnt]
  rfl

theorem gcmEncrypt_holds {P : Primitives} {key : Bytes 16} {c : GfT} {ctx : GcmCtx} {t : GcmText}
    (h : Holds P key c ctx t) (al : Aligned) (data : List UInt8)
    (hlen : t.txt.length + data.length + 16 < 2 ^ 32) :
    let out := addStream (gctrByte (cipher P key) c) t.txt.length data
    (gcmEncrypt P al data ctx).1 = out ∧
      Holds P key c (gcmEncrypt P al data ctx).2 { t with txt := t.txt ++ out } := by
  intro out
  obtain ⟨ctr, enc, hcrypt, hpad⟩ :=
    gcmCryptData_spec ctx h.keyed.aes h.pad h.txtCcnt al.crypt data
  have hout : out.length = data.length := length_addStream _ _ _
  have hroom : t.txt.length + out.length < 2 ^ 32 := by omega
  have hghv : authBuffer (gfMulHh ctx) al.auth ctx.txtGhv ctx.txtAcnt out =
      lazyHash (gfMulHh ctx) (t.txt ++ out) := by
    rw [h.txtGhv]
    exact authBuffer_lazyHash _ _ h.txtAcnt out
  rw [gcmEncrypt, hcrypt]
  refine ⟨rfl, ⟨⟨h.keyed.aes, h.keyed.ghashH, h.keyed.tabled⟩, ?_, h.y0Val, h.hdrGhv, hghv,
    h.hdrCnt, ?_, toNat_add_length h.txtAcnt hroom, ?_⟩⟩
  · show PadAt _ c (t.txt ++ out).length ⟨ctr, enc, (t.txt ++ out).length % 16⟩
    rw [List.length_append, hout]
    exact hpad
  · have hcnt := toNat_add_length h.txtCcnt hroom
    rw [hout] at hcnt
    exact hcnt
  · rw [List.length_append]
    omega

theorem gcmDecrypt_holds {P : Primitives} {key : Bytes 16} {c : GfT} {ctx : GcmCtx} {t : GcmText}
    (h : Holds P key c ctx t) (al : Aligned) (data : List UInt8)
    (hlen : t.txt.length + data.length + 16 < 2 ^ 32) :
    (gcmDecrypt P al data ctx).1 = addStream (gctrByte (cipher P key) c) t.txt.length data ∧
      Holds P key c (gcmDecrypt P al data ctx).2 { t with txt := t.txt ++ data } := by
  have hroom : t.txt.length + data.length < 2 ^ 32 := by omega
  have hghv : authBuffer (gfMulHh ctx) al.auth ctx.txtGhv ctx.txtAcnt data =
      lazyHash (gfMulHh ctx) (t.txt ++ data) := by
    rw [h.txtGhv]
    exact authBuffer_lazyHash _ _ h.txtAcnt data
  obtain ⟨ctr, enc, hcrypt, hpad⟩ :=
    gcmCryptData_spec (gcmAuthData al.auth data ctx) h.keyed.aes h.pad h.txtCcnt al.crypt data
  rw [gcmDecrypt, hcrypt]
  refine ⟨rfl, ⟨⟨h.keyed.aes, h.keyed.ghashH, h.keyed.tabled⟩, ?_, h.y0Val, h.hdrGhv, hghv,
    h.hdrCnt, toNat_add_length h.txtCcnt hroom, toNat_add_length h.txtAcnt hroom, ?_⟩⟩
  · show PadAt _ c (t.txt ++ data).length ⟨ctr, enc, (t.txt ++ data).length % 16⟩
    rw [List.length_append]
    exact hpad
  · rw [List.length_append]
    omega

/-- The step: every call is the abstract one. -/
theorem holds_step {P : Primitives} {key : Bytes 16} {c : GfT} (ctx : GcmCtx) (t : GcmText)
    (call : GcmCall) (h : Holds P key c ctx t) (hfits : t.Fits call) :
    ((gcmMachine P).step ctx call).1 =
        ((textMachine (gctrByte (cipher P key) c)).step t call).1 ∧
      Holds P key c ((gcmMachine P).step ctx call).2
        ((textMachine (gctrByte (cipher P key) c)).step t call).2 := by
  cases call with
  | header aligned hdr => exact ⟨rfl, gcmAuthHeader_holds h aligned hdr hfits⟩
  | encrypt al data => exact gcmEncrypt_holds h al data hfits
  | decrypt al data => exact gcmDecrypt_holds h al data hfits

/-- **The tag of a held message**, with the return code and what the context
keeps. -/
theorem gcmComputeTag_holds {P : Primitives} {key : Bytes 16} {c : GfT} {ctx : GcmCtx}
    {t : GcmText} (h : Holds P key c ctx t) (tagLen : ℕ) :
    (gcmComputeTag P tagLen ctx).1 = returnGood ∧
      (gcmComputeTag P tagLen ctx).2.1 = gcmTag (cipher P key) c t tagLen ∧
      (gcmComputeTag P tagLen ctx).2.2.Keyed P key := by
  have hcnt : ctx.txtAcnt = ctx.txtCcnt := by
    apply UInt32.toNat_inj.mp
    rw [h.txtAcnt, h.txtCcnt]
  have hgood : ¬ (ctx.txtAcnt ≠ ctx.txtCcnt ∧ 0 < ctx.txtCcnt) := fun hbad => hbad.1 hcnt
  have hhash : tagHash ctx (gfMulHh ctx ctx.hdrGhv) (gfMulHh ctx ctx.txtGhv) =
      ghash (cipher P key (zeros 16)) t.hdr t.txt := by
    rw [h.hdrGhv, h.txtGhv, tagHash_eq_ghash h.keyed.tabled h.hdrCnt h.txtAcnt h.room,
      h.keyed.ghashH]
  have hy0 : overwrite ctx.ctrVal 12 ctx.y0Val.toList = c := by
    have hctr : ctx.ctrVal = incCtr^[(t.txt.length + 15) / 16] c := h.pad.ctr
    rw [hctr, h.y0Val]
    exact overwrite_iterate _ c
  have htag : aesEncrypt P ctx.aes (overwrite ctx.ctrVal 12 ctx.y0Val.toList) =
      cipher P key c := by
    rw [hy0, h.keyed.aes]
    rfl
  rw [gcmComputeTag, if_neg hgood]
  refine ⟨if_pos hcnt.symm, ?_, h.keyed.aes, h.keyed.ghashH, h.keyed.tabled⟩
  show xorBytes (List.take tagLen (tagHash ctx (gfMulHh ctx ctx.hdrGhv)
    (gfMulHh ctx ctx.txtGhv)).toList) _ = _
  rw [hhash, htag]
  rfl

/-- **The driver implements GCM, in pieces and in any order.** From a context
with any contents, keyed and started on an IV, every sequence of header,
encryption and decryption calls, cut anywhere and at any addresses, writes what
the abstract message writes, and the tag at its end is the tag of GCM for the
header and the ciphertext that went through. -/
theorem driver_refines_gcm (P : Primitives) (key : Bytes 16) (ctx : GcmCtx) (iv : List UInt8)
    (calls : List GcmCall) {tagLen : ℕ} (hle : tagLen ≤ 16) :
    let c := ivCounter (fun a => gfMulTMD a (cipher P key (zeros 16))) iv
    let M := textMachine (gctrByte (cipher P key) c)
    let start := gcmInitMessage iv (gcmInitAndKey P key ctx)
    M.Along GcmText.Fits GcmText.empty calls →
      (gcmMachine P).answers start calls = M.answers GcmText.empty calls ∧
      (gcmComputeTag P tagLen ((gcmMachine P).exec start calls)).1 = returnGood ∧
      (gcmComputeTag P tagLen ((gcmMachine P).exec start calls)).2.1 =
        gcmTag (cipher P key) c (M.exec GcmText.empty calls) tagLen ∧
      (gcmComputeTag P tagLen ((gcmMachine P).exec start calls)).2.1.length = tagLen := by
  intro c M start hfits
  have hstart : Holds P key c start GcmText.empty :=
    gcmInitMessage_holds (gcmInitAndKey_keyed P key ctx) iv
  obtain ⟨hanswers, hend⟩ := Machine.rel_run holds_step hstart hfits
  obtain ⟨hcode, htag, -⟩ := gcmComputeTag_holds hend tagLen
  exact ⟨hanswers, hcode, htag, by rw [htag, length_gcmTag _ _ _ hle]⟩

/-- Primitives whose cipher moves the zero block, so that the hash key is not
zero. -/
def flipPrimitives : Primitives :=
  { xorPrimitives with aesRounds := fun _ _ block => block.map (· ^^^ 0x53) }

/-- Memory of zeros. -/
def blankCtx : GcmCtx where
  gfT4k _ := zeros 16
  ctrVal := zeros 16
  encCtr := zeros 16
  hdrGhv := zeros 16
  txtGhv := zeros 16
  ghashH := zeros 16
  aes := ⟨List.Vector.replicate 44 0, zeros 4⟩
  y0Val := zeros 4
  hdrCnt := 0
  txtCcnt := 0
  txtAcnt := 0

/-- A header in the middle of the text, and a decryption after an encryption
that does not fill its second block. -/
def mixedCalls : List GcmCall :=
  [.encrypt ⟨true, true, true⟩ (List.replicate 19 1), .header false [1, 2, 3],
    .decrypt ⟨true, false, true⟩ (List.replicate 16 2)]

theorem driver_refines_gcm_mixedCalls :
    let E := cipher flipPrimitives (zeros 16)
    let c := ivCounter (fun a => gfMulTMD a (E (zeros 16))) (zeros 12).toList
    let M := textMachine (gctrByte E c)
    let start := gcmInitMessage (zeros 12).toList (gcmInitAndKey flipPrimitives (zeros 16) blankCtx)
    M.Along GcmText.Fits GcmText.empty mixedCalls ∧
      (gcmMachine flipPrimitives).answers start mixedCalls = M.answers GcmText.empty mixedCalls ∧
      (gcmComputeTag flipPrimitives 12
        ((gcmMachine flipPrimitives).exec start mixedCalls)).2.1.length = 12 := by
  intro E c M start
  have hfits : M.Along GcmText.Fits GcmText.empty mixedCalls := by
    refine ⟨?_, ?_, ?_, trivial⟩
    · show 0 + 19 + 16 < 2 ^ 32
      decide
    · show 0 + 3 + 16 < 2 ^ 32
      decide
    · show ([] ++ addStream _ 0 (List.replicate 19 1)).length + 16 + 16 < 2 ^ 32
      rw [List.nil_append, length_addStream]
      decide
  have hend := driver_refines_gcm flipPrimitives (zeros 16) blankCtx (zeros 12).toList mixedCalls
    (show 12 ≤ 16 by decide) hfits
  exact ⟨hfits, hend.1, hend.2.2.2⟩

end GecRelay
