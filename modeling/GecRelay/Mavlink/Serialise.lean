import GecRelay.Mavlink.Tracking

/-!
# From the parser to the wire

What `mavlink_msg_to_send_buffer` makes of a message the parser reported: the
frame again, with its payload trimmed in version 2 and with the checksum of
the message object. `forward` is that frame. The message is what the caller's
buffer holds after a byte, so the byte that is reported without a copy is
described too: the caller's old content with a new length and checksum.
-/

namespace GecRelay

open Foundation

/-! ## Bytes of wider fields -/

theorem msgidByte_zero (a b c : UInt8) :
    msgidByte (a.toBitVec.setWidth 24 ||| (b.toBitVec.setWidth 24 <<< 8) |||
      (c.toBitVec.setWidth 24 <<< 16)) 0 = a := by
  apply UInt8.toBitVec_inj.mp
  ext i hi
  simp [msgidByte]

theorem msgidByte_eight (a b c : UInt8) :
    msgidByte (a.toBitVec.setWidth 24 ||| (b.toBitVec.setWidth 24 <<< 8) |||
      (c.toBitVec.setWidth 24 <<< 16)) 8 = b := by
  apply UInt8.toBitVec_inj.mp
  ext i hi
  have h₁ : 8 + i < 24 := by omega
  have h₂ : 8 + i < 16 := by omega
  have h₃ : i < 24 := by omega
  simp [msgidByte, h₁, h₂, h₃, BitVec.getLsbD_eq_getElem hi]

theorem msgidByte_sixteen (a b c : UInt8) :
    msgidByte (a.toBitVec.setWidth 24 ||| (b.toBitVec.setWidth 24 <<< 8) |||
      (c.toBitVec.setWidth 24 <<< 16)) 16 = c := by
  apply UInt8.toBitVec_inj.mp
  ext i hi
  have ha : a.toBitVec.getLsbD (16 + i) = false := BitVec.getLsbD_of_ge _ _ (by omega)
  have hb : b.toBitVec.getLsbD (16 + i - 8) = false := BitVec.getLsbD_of_ge _ _ (by omega)
  have h₁ : 16 + i < 24 := by omega
  have h₂ : i < 24 := by omega
  simp [msgidByte, h₁, h₂, ha, hb, BitVec.getLsbD_eq_getElem hi]

theorem msgidByte_setWidth (a : UInt8) : msgidByte (a.toBitVec.setWidth 24) 0 = a := by
  apply UInt8.toBitVec_inj.mp
  ext i hi
  simp [msgidByte]

theorem checksumBytes_or (a b : UInt8) :
    checksumBytes (a.toUInt16 ||| b.toUInt16 <<< 8) = [a, b] := by
  simp only [checksumBytes, List.cons.injEq, and_true]
  constructor
  · apply UInt8.toBitVec_inj.mp
    ext i hi
    have hones : (255#8)[i] = true := BitVec.getElem_allOnes i hi
    simp [hones]
  · apply UInt8.toBitVec_inj.mp
    ext i hi
    have h₁ : 8 + i < 16 := by omega
    have h₂ : i < 16 := by omega
    simp [h₁, h₂, BitVec.getLsbD_eq_getElem hi]

/-! ## Trimming -/

/-- `_mav_trim_payload` looks at no byte past the length it is given. -/
theorem take_mavTrimPayload {payload : Bytes 264} {p : List UInt8} (h : p <+: payload.toList) :
    mavTrimPayload payload p.length = (trimZeros p).length ∧
    payload.toList.take (mavTrimPayload payload p.length) = trimZeros p := by
  cases p with
  | nil => exact ⟨rfl, rfl⟩
  | cons x xs =>
      induction xs using List.reverseRecOn with
      | nil =>
          obtain ⟨rest, hrest⟩ := h
          rw [← hrest]
          exact ⟨rfl, rfl⟩
      | append_singleton xs y ih =>
          have hlen : (x :: (xs ++ [y])).length = xs.length + 2 := by simp
          have hy : payload.toList[xs.length + 1]? = some y := by
            obtain ⟨rest, hrest⟩ := h
            rw [← hrest]
            simp
          rw [hlen, mavTrimPayload, hy, trimZeros]
          by_cases hzero : y = 0
          · rw [if_pos (by rw [hzero]), List.rdropWhile_concat_pos _ _ _ (by simp [hzero])]
            exact ih ((List.prefix_append (x :: xs) [y]).trans h)
          · rw [if_neg (by simpa using hzero),
              List.rdropWhile_concat_neg _ _ _ (by simpa using hzero)]
            refine ⟨by simp, ?_⟩
            rw [← hlen]
            exact List.prefix_iff_eq_take.mp h |>.symm

/-! ## The serialised frame -/

/-- The frame on the wire when the message object holds `f` and a checksum. -/
def MavFrame.resent (f : MavFrame) (checksum : UInt16) : MavFrame :=
  { f.trimmed with ck := ckOf checksum }

theorem sendBuffer_eq_bytes {f : MavFrame} {msg : MavlinkMessage} (hhead : HasHead f msg)
    (hpayload : f.payload <+: msg.payload.toList)
    (hsig : f.head.signed = true → msg.signature = f.signature) :
    mavlinkMsgToSendBuffer msg = (f.resent msg.checksum).bytes := by
  have hlen : msg.len.toNat = f.payload.length := by rw [hhead.len, f.len_toNat]
  obtain ⟨htrimlen, htrim⟩ := take_mavTrimPayload hpayload
  rw [mavlinkMsgToSendBuffer, hlen, hhead.magic, hhead.len, hhead.incompatFlags, hhead.compatFlags,
    hhead.seq, hhead.sysid, hhead.compid, hhead.msgid]
  obtain ⟨head, payload, ck, signature, hle⟩ := f
  cases head with
  | v1 seq sysid compid msgid =>
      have hmagic : FrameHead.magic (.v1 seq sysid compid msgid) = mavlinkStxMavlink1 := rfl
      rw [if_pos hmagic, ← List.prefix_iff_eq_take.mp hpayload]
      simp only [FrameHead.msgid, msgidByte_setWidth]
      simp [MavFrame.bytes_eq_cons, MavFrame.trailer, MavFrame.resent, MavFrame.trimmed,
        MavFrame.len, FrameHead.magic, FrameHead.fields, FrameHead.signed, FrameHead.seq,
        FrameHead.sysid, FrameHead.compid]
  | v2 signed compatFlags seq sysid compid msgid0 msgid1 msgid2 =>
      have hmagic : FrameHead.magic (.v2 signed compatFlags seq sysid compid msgid0 msgid1 msgid2) ≠
        mavlinkStxMavlink1 := show mavlinkStx ≠ mavlinkStxMavlink1 by decide
      rw [htrimlen] at htrim
      rw [if_neg hmagic]
      simp only [htrimlen, htrim, FrameHead.msgid, msgidByte_zero, msgidByte_eight,
        msgidByte_sixteen, ← FrameHead.signed_iff]
      cases signed with
      | false =>
          simp [MavFrame.bytes_eq_cons, MavFrame.trailer, MavFrame.resent, MavFrame.trimmed,
            MavFrame.len, FrameHead.magic, FrameHead.fields, FrameHead.signed, FrameHead.seq,
            FrameHead.sysid, FrameHead.compid, FrameHead.incompatFlags, FrameHead.compatFlags]
      | true =>
          rw [hsig rfl]
          simp [MavFrame.bytes_eq_cons, MavFrame.trailer, MavFrame.resent, MavFrame.trimmed,
            MavFrame.len, FrameHead.magic, FrameHead.fields, FrameHead.signed, FrameHead.seq,
            FrameHead.sysid, FrameHead.compid, FrameHead.incompatFlags, FrameHead.compatFlags]

/-! ## The caller's buffer -/

theorem trimmed_ck (f : MavFrame) : f.trimmed.ck = f.ck := by
  rw [MavFrame.trimmed]
  split <;> rfl

theorem resent_of_ck {f : MavFrame} {checksum : UInt16} (h : MavFrame.ckOf checksum = f.ck) :
    f.resent checksum = f.trimmed := by
  rw [MavFrame.resent, h, ← trimmed_ck]

theorem ckOf_wireChecksum {f : MavFrame} {msg : MavlinkMessage} (h : msg.ck = f.ck) :
    MavFrame.ckOf (wireChecksum msg) = f.ck := by
  obtain ⟨c₀, c₁, hck⟩ := ck_cases f.ck
  apply vec_ext
  rw [MavFrame.toList_ckOf, wireChecksum, h, hck]
  exact checksumBytes_or c₀ c₁

/-- The message a caller gets when a frame is complete: it does not depend on
what the caller's buffer held, and serialises to `forward`. -/
theorem caller_reported {table : MavlinkMsgTable} {chan : MavlinkChannel} {c : UInt8}
    {f : MavFrame} (h : Reported table f (switchChar table chan c)) :
    ∃ msg : MavlinkMessage, mavlinkMsgToSendBuffer msg = (f.forward table).bytes ∧
      ∀ m : MavlinkMessage, (mavlinkFrameCharBuffer table chan c m).1 ≠ .incomplete ∧
        (mavlinkFrameCharBuffer table chan c m).2.1 = msg := by
  set r := switchChar table chan c with hr
  have hpayload := (f.payload_prefix table).trans h.carries.payload
  have hmsg := h.msgReceived
  refine ⟨if r.msgReceived = .badCrc then
      { r.chan.rxmsg with checksum := wireChecksum r.chan.rxmsg }
    else r.chan.rxmsg, ?_, fun m => ⟨?_, ?_⟩⟩
  · rw [MavFrame.forward]
    by_cases hs : f.head.signed = true
    · rw [hmsg, if_pos (Or.inl hs), if_neg (by decide), if_pos hs,
        sendBuffer_eq_bytes h.carries.head hpayload h.signature, h.carries.checksum]
      rfl
    · rw [if_neg hs]
      by_cases hok : f.ChecksumOk table
      · rw [hmsg, if_pos (Or.inr hok), if_neg (by decide),
          sendBuffer_eq_bytes h.carries.head hpayload h.signature, h.carries.checksum,
          resent_of_ck (vec_ext hok.symm)]
      · rw [if_neg (not_or.mpr ⟨hs, hok⟩)] at hmsg
        rw [if_pos hmsg, ← resent_of_ck (ckOf_wireChecksum h.carries.ck)]
        exact sendBuffer_eq_bytes (h.carries.head.of_eq rfl) hpayload h.signature
  · show r.msgReceived ≠ .incomplete
    rw [hmsg]
    split <;> decide
  · simp only [mavlinkFrameCharBuffer, ← hr, h.copied, if_true]

/-- The signed frame with a wrong checksum: the caller's buffer keeps all but
its length and checksum. -/
theorem caller_uncopied {table : MavlinkMsgTable} {chan : MavlinkChannel} {c : UInt8}
    {f : MavFrame} (h : Uncopied table f (switchChar table chan c)) :
    ∃ checksum : UInt16, MavFrame.ckOf checksum = f.ck ∧
      ∀ m : MavlinkMessage, (mavlinkFrameCharBuffer table chan c m).1 = .badCrc ∧
        (mavlinkFrameCharBuffer table chan c m).2.1 =
          { m with len := f.len, checksum := checksum } := by
  refine ⟨_, ckOf_wireChecksum h.carries.ck, fun m => ⟨h.msgReceived, ?_⟩⟩
  simp only [mavlinkFrameCharBuffer, h.copied, h.msgReceived, Bool.false_eq_true, if_false, if_true,
    h.carries.head.len]

/-- The length and the checksum of that message are those of the frame and of
what is made of it. -/
theorem caller_message {table : MavlinkMsgTable} {chan : MavlinkChannel} {c : UInt8}
    {f : MavFrame} (h : Reported table f (switchChar table chan c)) (m : MavlinkMessage) :
    (mavlinkFrameCharBuffer table chan c m).2.1.len = f.len ∧
    MavFrame.ckOf (mavlinkFrameCharBuffer table chan c m).2.1.checksum = (f.forward table).ck := by
  have hmsg := h.msgReceived
  simp only [mavlinkFrameCharBuffer, h.copied, if_true]
  by_cases hs : f.head.signed = true
  · rw [if_pos (Or.inl hs)] at hmsg
    rw [MavFrame.forward, if_pos hs, hmsg, if_neg (by decide), h.carries.checksum]
    exact ⟨h.carries.head.len, rfl⟩
  · rw [MavFrame.forward, if_neg hs, trimmed_ck]
    by_cases hok : f.ChecksumOk table
    · rw [if_pos (Or.inr hok)] at hmsg
      rw [hmsg, if_neg (by decide), h.carries.checksum]
      exact ⟨h.carries.head.len, vec_ext hok.symm⟩
    · rw [if_neg (not_or.mpr ⟨hs, hok⟩)] at hmsg
      rw [if_pos hmsg]
      exact ⟨h.carries.head.len, ckOf_wireChecksum h.carries.ck⟩

theorem caller_quiet {table : MavlinkMsgTable} {chan : MavlinkChannel} {c : UInt8}
    (h : (switchChar table chan c).Quiet) (m : MavlinkMessage) :
    (mavlinkFrameCharBuffer table chan c m).1 = .incomplete ∧
    ∃ len : UInt8, (mavlinkFrameCharBuffer table chan c m).2.1 = { m with len := len } := by
  refine ⟨h.1, (switchChar table chan c).chan.rxmsg.len, ?_⟩
  simp [mavlinkFrameCharBuffer, h.1, h.2]

end GecRelay
