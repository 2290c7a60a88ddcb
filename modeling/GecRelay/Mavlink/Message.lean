import GecRelay.Gec.Primitives

/-!
# MAVLink messages on the wire

`mavlink_message_t` and its serialisation by `mavlink_msg_to_send_buffer`.
Version 1 has a header of six bytes, version 2 of ten and an optional
signature; version 2 drops trailing zeros of the payload. A serialised message
has between 8 and 280 bytes.
-/

namespace GecRelay

open Foundation

/-- `mavlink_message_t`. `msgid` is a bit field; the payload is the memory of
`payload64`. -/
structure MavlinkMessage where
  checksum : UInt16
  magic : UInt8
  len : UInt8
  incompatFlags : UInt8
  compatFlags : UInt8
  seq : UInt8
  sysid : UInt8
  compid : UInt8
  msgid : BitVec 24
  payload : Bytes 264
  ck : Bytes 2
  signature : Bytes 13
deriving DecidableEq

def mavlinkStxMavlink1 : UInt8 := 0xFE

def mavlinkIflagSigned : UInt8 := 0x01

/-- `_mav_trim_payload`: drop trailing zeros, but keep one byte. -/
def mavTrimPayload (payload : Bytes 264) : ℕ → ℕ
  | 0 => 0
  | 1 => 1
  | length + 2 =>
      if payload.toList[length + 1]? = some 0 then mavTrimPayload payload (length + 1)
      else length + 2

theorem mavTrimPayload_le (payload : Bytes 264) (length : ℕ) :
    mavTrimPayload payload length ≤ length := by
  induction length using mavTrimPayload.induct payload with
  | case1 => exact Nat.le_refl 0
  | case2 => exact Nat.le_refl 1
  | case3 length hzero ih =>
      rw [mavTrimPayload, if_pos hzero]
      exact ih.trans (Nat.le_succ _)
  | case4 length hne => rw [mavTrimPayload, if_neg hne]

def msgidByte (msgid : BitVec 24) (shift : ℕ) : UInt8 :=
  UInt8.ofBitVec ((msgid >>> shift).setWidth 8)

def checksumBytes (checksum : UInt16) : List UInt8 :=
  [(checksum &&& 0xFF).toUInt8, (checksum >>> 8).toUInt8]

/-- `mavlink_msg_to_send_buffer`: the bytes it writes to `buf`, as many as it
returns. -/
def mavlinkMsgToSendBuffer (msg : MavlinkMessage) : List UInt8 :=
  if msg.magic = mavlinkStxMavlink1 then
    [msg.magic, msg.len, msg.seq, msg.sysid, msg.compid, msgidByte msg.msgid 0] ++
      msg.payload.toList.take msg.len.toNat ++ checksumBytes msg.checksum
  else
    let length := mavTrimPayload msg.payload msg.len.toNat
    [msg.magic, UInt8.ofNat length, msg.incompatFlags, msg.compatFlags, msg.seq, msg.sysid,
        msg.compid, msgidByte msg.msgid 0, msgidByte msg.msgid 8, msgidByte msg.msgid 16] ++
      msg.payload.toList.take length ++ checksumBytes msg.checksum ++
      if msg.incompatFlags &&& mavlinkIflagSigned ≠ 0 then msg.signature.toList else []

def mavlinkMaxFrameLen : ℕ := 280

theorem length_take_payload (payload : Bytes 264) {length : ℕ} (h : length ≤ 255) :
    (payload.toList.take length).length = length := by
  rw [List.length_take, List.Vector.toList_length]
  omega

/-- The bytes `mavlink_msg_to_send_buffer` writes. -/
def sendLength (msg : MavlinkMessage) : ℕ :=
  if msg.magic = mavlinkStxMavlink1 then 8 + msg.len.toNat
  else 12 + mavTrimPayload msg.payload msg.len.toNat +
    if msg.incompatFlags &&& mavlinkIflagSigned ≠ 0 then 13 else 0

theorem length_sendBuffer (msg : MavlinkMessage) :
    (mavlinkMsgToSendBuffer msg).length = sendLength msg := by
  have hlen : msg.len.toNat ≤ 255 := Nat.le_of_lt_succ msg.len.toNat_lt
  have htrim := mavTrimPayload_le msg.payload msg.len.toNat
  rw [mavlinkMsgToSendBuffer, sendLength]
  split
  · simp [length_take_payload msg.payload hlen, checksumBytes]
    omega
  · split <;>
      simp [length_take_payload msg.payload (htrim.trans hlen), checksumBytes] <;> omega

/-- **A serialised message fits its buffer.** -/
theorem length_mavlinkMsgToSendBuffer (msg : MavlinkMessage) :
    8 ≤ (mavlinkMsgToSendBuffer msg).length ∧
    (mavlinkMsgToSendBuffer msg).length ≤ mavlinkMaxFrameLen := by
  have hlen : msg.len.toNat ≤ 255 := Nat.le_of_lt_succ msg.len.toNat_lt
  have htrim := mavTrimPayload_le msg.payload msg.len.toNat
  rw [length_sendBuffer, sendLength, mavlinkMaxFrameLen]
  split
  · omega
  · split <;> omega

end GecRelay
