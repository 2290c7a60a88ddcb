import GecRelay.Gcm.Calls
import GecRelay.Gec.ChannelRuns

/-!
# Whole messages on one context

A context is keyed once and then encrypts and decrypts messages, one after the
other. `gcm_init_message` starts each of them afresh, so what a message before
left in the context, a refused one included, changes nothing
(`messages_independent`), and `gcm_decrypt_message` accepts exactly what
`gcm_encrypt_message` produces (`decrypt_message_exact`). Contexts that have
been keyed, with these two calls, are a `Gcm` as the GEC channel uses it
(`driverGcm`).
-/

namespace GecRelay

open Foundation

inductive GcmMessage where
  | enc (al : Aligned) (iv hdr msg : List UInt8) (tagLen : ℕ)
  | dec (al : Aligned) (iv hdr ct tag : List UInt8)

/-- Whole messages on a context: the return code, the message buffer and the
tag written. -/
def gcmMessageMachine (P : Primitives) :
    Machine GcmCtx GcmMessage (Int × List UInt8 × List UInt8) where
  step ctx
    | .enc al iv hdr msg tagLen =>
        let r := gcmEncryptMessage P al iv hdr msg tagLen ctx
        ((r.1, r.2.1, r.2.2.1), r.2.2.2)
    | .dec al iv hdr ct tag =>
        let r := gcmDecryptMessage P al iv hdr ct tag ctx
        ((r.1, r.2.1, []), r.2.2)

/-- Header and text below `2 ^ 32 - 16` bytes, and a tag that fits the block
`gcm_compute_tag` takes it from. -/
def GcmMessage.Fits : GcmMessage → Prop
  | .enc _ _ hdr msg tagLen =>
      hdr.length + 16 < 2 ^ 32 ∧ msg.length + 16 < 2 ^ 32 ∧ tagLen ≤ 16
  | .dec _ _ hdr ct tag => hdr.length + 16 < 2 ^ 32 ∧ ct.length + 16 < 2 ^ 32 ∧ tag.length ≤ 16

/-- The counter block a message starts from. -/
def startBlock (E : GfT → GfT) (iv : List UInt8) : GfT :=
  ivCounter (fun a => gfMulTMD a (E (zeros 16))) iv

/-- What a message gives by itself. -/
def messageAnswer (E : GfT → GfT) : GcmMessage → Int × List UInt8 × List UInt8
  | .enc _ iv hdr msg tagLen =>
      let c := startBlock E iv
      let ct := addStream (gctrByte E c) 0 msg
      (returnGood, ct, gcmTag E c ⟨hdr, ct⟩ tagLen)
  | .dec _ iv hdr ct tag =>
      let c := startBlock E iv
      (if tag = gcmTag E c ⟨hdr, ct⟩ tag.length then returnGood else returnError,
        addStream (gctrByte E c) 0 ct, [])

theorem header_holds {P : Primitives} {key : Bytes 16} {ctx : GcmCtx} (h : ctx.Keyed P key)
    (aligned : Bool) (iv : List UInt8) {hdr : List UInt8} (hhdr : hdr.length + 16 < 2 ^ 32) :
    Holds P key (startBlock (cipher P key) iv) (gcmAuthHeader aligned hdr (gcmInitMessage iv ctx))
      ⟨hdr, []⟩ := by
  have hstart := gcmInitMessage_holds h iv
  exact gcmAuthHeader_holds hstart aligned hdr (by simpa [GcmText.empty] using hhdr)

theorem gcmEncryptMessage_keyed {P : Primitives} {key : Bytes 16} {ctx : GcmCtx}
    (h : ctx.Keyed P key) (al : Aligned) (iv hdr msg : List UInt8) (tagLen : ℕ)
    (hhdr : hdr.length + 16 < 2 ^ 32) (hmsg : msg.length + 16 < 2 ^ 32) :
    ((gcmMessageMachine P).step ctx (.enc al iv hdr msg tagLen)).1 =
        messageAnswer (cipher P key) (.enc al iv hdr msg tagLen) ∧
      ((gcmMessageMachine P).step ctx (.enc al iv hdr msg tagLen)).2.Keyed P key := by
  have hheader := header_holds h al.hdr iv hhdr
  obtain ⟨hout, htext⟩ := gcmEncrypt_holds hheader al msg (by simpa using hmsg)
  obtain ⟨hcode, htag, hkeyed⟩ := gcmComputeTag_holds htext tagLen
  refine ⟨?_, hkeyed⟩
  set ctx₁ := gcmAuthHeader al.hdr hdr (gcmInitMessage iv ctx)
  set r := gcmComputeTag P tagLen (gcmEncrypt P al msg ctx₁).2
  show (if r.1 ≠ 0 then returnError else returnGood, (gcmEncrypt P al msg ctx₁).1, r.2.1) = _
  rw [hcode, hout, htag]
  rfl

theorem gcmDecryptMessage_keyed {P : Primitives} {key : Bytes 16} {ctx : GcmCtx}
    (h : ctx.Keyed P key) (al : Aligned) (iv hdr ct tag : List UInt8)
    (hhdr : hdr.length + 16 < 2 ^ 32) (hct : ct.length + 16 < 2 ^ 32) :
    ((gcmMessageMachine P).step ctx (.dec al iv hdr ct tag)).1 =
        messageAnswer (cipher P key) (.dec al iv hdr ct tag) ∧
      ((gcmMessageMachine P).step ctx (.dec al iv hdr ct tag)).2.Keyed P key := by
  have hheader := header_holds h al.hdr iv hhdr
  obtain ⟨hout, htext⟩ := gcmDecrypt_holds hheader al ct (by simpa using hct)
  obtain ⟨hcode, htag, hkeyed⟩ := gcmComputeTag_holds htext tag.length
  refine ⟨?_, hkeyed⟩
  set ctx₁ := gcmAuthHeader al.hdr hdr (gcmInitMessage iv ctx)
  set r := gcmComputeTag P tag.length (gcmDecrypt P al ct ctx₁).2
  have htag' : r.2.1 =
      gcmTag (cipher P key) (startBlock (cipher P key) iv) ⟨hdr, ct⟩ tag.length := htag
  refine Prod.ext ?_ (Prod.ext hout rfl)
  show (if r.1 ≠ returnGood ∨ tag ≠ r.2.1 then returnError else returnGood) =
    if tag = gcmTag (cipher P key) (startBlock (cipher P key) iv) ⟨hdr, ct⟩ tag.length
    then returnGood else returnError
  rw [hcode, ← htag']
  by_cases htrue : tag = r.2.1
  · rw [if_pos htrue, if_neg (fun hbad => hbad.elim (fun hne => hne rfl) fun hne => hne htrue)]
  · rw [if_neg htrue, if_pos (Or.inr htrue)]

theorem message_step {P : Primitives} {key : Bytes 16} {ctx : GcmCtx} (h : ctx.Keyed P key)
    {m : GcmMessage} (hm : m.Fits) :
    ((gcmMessageMachine P).step ctx m).1 = messageAnswer (cipher P key) m ∧
      ((gcmMessageMachine P).step ctx m).2.Keyed P key := by
  cases m with
  | enc al iv hdr msg tagLen => exact gcmEncryptMessage_keyed h al iv hdr msg tagLen hm.1 hm.2.1
  | dec al iv hdr ct tag => exact gcmDecryptMessage_keyed h al iv hdr ct tag hm.1 hm.2.1

theorem answers_of_keyed {P : Primitives} {key : Bytes 16} {ctx : GcmCtx} (h : ctx.Keyed P key)
    {msgs : List GcmMessage} (hfits : ∀ m ∈ msgs, m.Fits) :
    (gcmMessageMachine P).answers ctx msgs = msgs.map (messageAnswer (cipher P key)) := by
  induction msgs generalizing ctx with
  | nil => rfl
  | cons m msgs ih =>
      obtain ⟨hanswer, hnext⟩ := message_step h (hfits m List.mem_cons_self)
      rw [Machine.answers_cons, List.map_cons, hanswer,
        ih hnext fun m' hm' => hfits m' (List.mem_cons_of_mem m hm')]

/-- **Messages on one context are independent.** A context with any contents
is keyed and then used for any sequence of messages, encrypted, decrypted or
refused: each of them gives what it gives on a context keyed for it alone. -/
theorem messages_independent (P : Primitives) (key : Bytes 16) (ctx : GcmCtx)
    (fresh : GcmMessage → GcmCtx) (msgs : List GcmMessage) (hfits : ∀ m ∈ msgs, m.Fits) :
    (gcmMessageMachine P).answers (gcmInitAndKey P key ctx) msgs =
      msgs.map fun m => ((gcmMessageMachine P).step (gcmInitAndKey P key (fresh m)) m).1 := by
  rw [answers_of_keyed (gcmInitAndKey_keyed P key ctx) hfits]
  refine List.map_congr_left fun m hm => ?_
  exact (message_step (gcmInitAndKey_keyed P key (fresh m)) (hfits m hm)).1.symm

/-- Two messages under one IV, with a refused one between them. -/
def refusedBetween : List GcmMessage :=
  [.enc ⟨true, true, true⟩ (zeros 12).toList [1] (List.replicate 20 1) 12,
    .dec ⟨true, true, false⟩ (zeros 12).toList [] (List.replicate 5 2) (zeros 12).toList,
    .enc ⟨false, true, true⟩ (zeros 12).toList [] [3] 16]

theorem messages_independent_refusedBetween :
    (∀ m ∈ refusedBetween, m.Fits) ∧
      (gcmMessageMachine flipPrimitives).answers (gcmInitAndKey flipPrimitives (zeros 16) blankCtx)
          refusedBetween =
        refusedBetween.map fun m => ((gcmMessageMachine flipPrimitives).step
          (gcmInitAndKey flipPrimitives (zeros 16) { blankCtx with txtCcnt := 7 }) m).1 := by
  have hfits : ∀ m ∈ refusedBetween, m.Fits := by
    simp [refusedBetween, GcmMessage.Fits]
  exact ⟨hfits, messages_independent flipPrimitives (zeros 16) blankCtx
    (fun _ => { blankCtx with txtCcnt := 7 }) refusedBetween hfits⟩

/-- **Decryption accepts exactly what encryption produces.** Two contexts with
any contents are keyed alike. `gcm_decrypt_message` returns `RETURN_GOOD` on a
ciphertext and a tag exactly when some message encrypts to them under the same
IV and header, and the buffer then holds that message. -/
theorem decrypt_message_exact (P : Primitives) (key : Bytes 16) (ctx ctx' : GcmCtx)
    (al al' : Aligned) (iv hdr ct tag : List UInt8)
    (hfits : (GcmMessage.dec al' iv hdr ct tag).Fits) :
    let sent := fun msg => gcmEncryptMessage P al iv hdr msg tag.length (gcmInitAndKey P key ctx)
    let received := gcmDecryptMessage P al' iv hdr ct tag (gcmInitAndKey P key ctx')
    (received.1 = returnGood ↔ ∃ msg, msg.length = ct.length ∧
      (sent msg).1 = returnGood ∧ (sent msg).2.1 = ct ∧ (sent msg).2.2.1 = tag) ∧
    ∀ msg, msg.length = ct.length → (sent msg).2.1 = ct → received.2.1 = msg := by
  intro sent received
  set E := cipher P key with hE
  set c := startBlock E iv with hc
  have hsent : ∀ msg, msg.length = ct.length → (sent msg).1 = returnGood ∧
      (sent msg).2.1 = addStream (gctrByte E c) 0 msg ∧
      (sent msg).2.2.1 = gcmTag E c ⟨hdr, addStream (gctrByte E c) 0 msg⟩ tag.length := by
    intro msg hmsg
    have h := (gcmEncryptMessage_keyed (gcmInitAndKey_keyed P key ctx) al iv hdr msg tag.length
      hfits.1 (by rw [hmsg]; exact hfits.2.1)).1
    exact ⟨congrArg (·.1) h, congrArg (·.2.1) h, congrArg (·.2.2) h⟩
  have hreceived : received.1 =
        (if tag = gcmTag E c ⟨hdr, ct⟩ tag.length then returnGood else returnError) ∧
      received.2.1 = addStream (gctrByte E c) 0 ct := by
    have h := (gcmDecryptMessage_keyed (gcmInitAndKey_keyed P key ctx') al' iv hdr ct tag
      hfits.1 hfits.2.1).1
    exact ⟨congrArg (·.1) h, congrArg (·.2.1) h⟩
  have hplain : ∀ msg, msg.length = ct.length → (sent msg).2.1 = ct → received.2.1 = msg := by
    intro msg hmsg hsame
    rw [hreceived.2, ← hsame, (hsent msg hmsg).2.1, addStream_addStream]
  refine ⟨⟨fun hgood => ?_, ?_⟩, hplain⟩
  · -- the message is what decryption leaves in the buffer
    have htag : tag = gcmTag E c ⟨hdr, ct⟩ tag.length := by
      by_contra hne
      rw [hreceived.1, if_neg hne] at hgood
      exact absurd hgood (by decide)
    have hlen : (addStream (gctrByte E c) 0 ct).length = ct.length := length_addStream _ _ _
    obtain ⟨hcode, hbuf, htagbuf⟩ := hsent _ hlen
    rw [addStream_addStream] at hbuf htagbuf
    exact ⟨_, hlen, hcode, hbuf, htagbuf.trans htag.symm⟩
  · rintro ⟨msg, hmsg, -, hsame, htag⟩
    obtain ⟨-, hbuf, htagbuf⟩ := hsent msg hmsg
    rw [hbuf] at hsame
    rw [hsame] at htagbuf
    rw [hreceived.1, if_pos (htag.symm.trans htagbuf)]

/-- The tag of the bytes 1 to 5 behind a header of one byte. -/
def fiveBytesTag : List UInt8 := [164, 206, 4, 220, 3, 63, 254, 191, 0, 194, 163, 1]

theorem decrypt_message_exact_fiveBytes :
    let received := gcmDecryptMessage flipPrimitives ⟨true, false, true⟩ (zeros 12).toList [1]
      [82, 81, 80, 87, 86] fiveBytesTag (gcmInitAndKey flipPrimitives (zeros 16) blankCtx)
    received.1 = returnGood ∧ received.2.1 = [1, 2, 3, 4, 5] := by
  intro received
  have hanswer := (gcmEncryptMessage_keyed (gcmInitAndKey_keyed flipPrimitives (zeros 16) blankCtx)
    ⟨true, true, true⟩ (zeros 12).toList [1] [1, 2, 3, 4, 5] 12 (by decide) (by decide)).1
  have hvalue : messageAnswer (cipher flipPrimitives (zeros 16))
      (.enc ⟨true, true, true⟩ (zeros 12).toList [1] [1, 2, 3, 4, 5] 12) =
        (returnGood, [82, 81, 80, 87, 86], fiveBytesTag) := by
    decide +kernel
  have hsent := hanswer.trans hvalue
  have hct := congrArg (·.2.1) hsent
  obtain ⟨hgood, hplain⟩ := decrypt_message_exact flipPrimitives (zeros 16) blankCtx blankCtx
    ⟨true, true, true⟩ ⟨true, false, true⟩ (zeros 12).toList [1] [82, 81, 80, 87, 86] fiveBytesTag
    ⟨by decide, by decide, by decide⟩
  exact ⟨hgood.mpr ⟨[1, 2, 3, 4, 5], rfl, congrArg (·.1) hsent, hct, congrArg (·.2.2) hsent⟩,
    hplain [1, 2, 3, 4, 5] rfl hct⟩

/-! ## The GCM of the GEC channel -/

/-- Contexts that have been keyed. -/
def KeyedCtx (P : Primitives) : Type := { ctx : GcmCtx // ∃ key, ctx.Keyed P key }

/-- The driver as `gec_encrypt` and `gec_decrypt` call it: IVs of twelve
bytes, no header, messages of one block of the channel and tags of twelve
bytes. `mem` is what the context's memory held before it was keyed. -/
def driverGcm (P : Primitives) (al al' : Aligned) (mem : GcmCtx) : Gcm (KeyedCtx P) where
  gcmInitAndKey key := ⟨gcmInitAndKey P key mem, key, gcmInitAndKey_keyed P key mem⟩
  gcmEncryptMessage ctx iv msg :=
    let r := gcmEncryptMessage P al iv.toList [] msg.toList 12 ctx.val
    (r.1, overwrite msg 0 r.2.1, overwrite (zeros 12) 0 r.2.2.1)
  gcmDecryptMessage ctx iv msg tag :=
    let r := gcmDecryptMessage P al' iv.toList [] msg.toList tag.toList ctx.val
    (r.1, overwrite msg 0 r.2.1)

theorem driverGcm_enc (P : Primitives) (al al' : Aligned) (mem : GcmCtx) {ctx : KeyedCtx P}
    {key : Bytes 16} (hkey : ctx.val.Keyed P key) (iv : Bytes 12) (msg : Bytes 64) :
    let E := cipher P key
    let c := startBlock E iv.toList
    let r := (driverGcm P al al' mem).gcmEncryptMessage ctx iv msg
    r.1 = returnGood ∧ r.2.1.toList = addStream (gctrByte E c) 0 msg.toList ∧
      r.2.2.toList = gcmTag E c ⟨[], addStream (gctrByte E c) 0 msg.toList⟩ 12 := by
  intro E c r
  have h := (gcmEncryptMessage_keyed hkey al iv.toList [] msg.toList 12
    (by decide) (by rw [List.Vector.toList_length]; decide)).1
  have hbuf : (gcmEncryptMessage P al iv.toList [] msg.toList 12 ctx.val).2.1 =
      addStream (gctrByte E c) 0 msg.toList := congrArg (·.2.1) h
  have htag : (gcmEncryptMessage P al iv.toList [] msg.toList 12 ctx.val).2.2.1 =
      gcmTag E c ⟨[], addStream (gctrByte E c) 0 msg.toList⟩ 12 := congrArg (·.2.2) h
  refine ⟨congrArg (·.1) h, ?_, ?_⟩
  · show (overwrite msg 0 _).toList = _
    rw [hbuf, overwrite_all _ (by rw [length_addStream, List.Vector.toList_length])]
  · show (overwrite (zeros 12) 0 _).toList = _
    rw [htag, overwrite_all _ (length_gcmTag _ _ _ (by decide))]

/-- **The driver serves the GEC channel.** Whatever AES is, at whatever
addresses the buffers lie and whatever the context's memory held: on every
keyed context encryption succeeds, and decryption takes back what it gave. -/
theorem driver_serves_channel (P : Primitives) (al al' : Aligned) (mem : GcmCtx) :
    (driverGcm P al al' mem).aead.Sound ∧ (driverGcm P al al' mem).aead.Total := by
  constructor
  · rintro ctx iv m ct tag henc
    obtain ⟨key, hkey⟩ := ctx.property
    obtain ⟨-, hct, htag⟩ := driverGcm_enc P al al' mem hkey iv m
    have hct' := (congrArg (fun r => r.2.1.toList) henc).symm.trans hct
    have htag' := (congrArg (fun r => r.2.2.toList) henc).symm.trans htag
    change ct.toList = _ at hct'
    change tag.toList = _ at htag'
    have hlen : ct.toList.length + 16 < 2 ^ 32 := by
      rw [List.Vector.toList_length]
      decide
    have h := (gcmDecryptMessage_keyed hkey al' iv.toList [] ct.toList tag.toList
      (by decide) hlen).1
    have hcode : (gcmDecryptMessage P al' iv.toList [] ct.toList tag.toList ctx.val).1 =
        returnGood := by
      refine (congrArg (·.1) h).trans (if_pos ?_)
      rw [List.Vector.toList_length, hct']
      exact htag'
    have hbuf : (gcmDecryptMessage P al' iv.toList [] ct.toList tag.toList ctx.val).2.1 =
        m.toList := by
      refine (congrArg (·.2.1) h).trans ?_
      show addStream _ 0 ct.toList = _
      rw [hct', addStream_addStream]
    refine Prod.ext hcode ?_
    apply vec_ext
    show (overwrite ct 0 _).toList = _
    rw [hbuf, overwrite_all _ (List.Vector.toList_length m)]
  · intro ctx iv m
    obtain ⟨key, hkey⟩ := ctx.property
    exact (driverGcm_enc P al al' mem hkey iv m).1

end GecRelay
