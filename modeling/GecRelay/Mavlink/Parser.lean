import GecRelay.Mavlink.Message

/-!
# The MAVLink byte parser

`mavlink_frame_char_buffer` takes one byte at a time through a parse state for
each field of a frame. It keeps the frame in `rxmsg`, with the checksum of what
it has seen, and reports a message by copying `rxmsg` to the caller's buffer.
No application here configures signing, so `status->signing` is null: an
unsigned frame is never refused and a signature is never checked.

The message table is an arbitrary function. `status->msg_received` is cleared
at the start of every call, so it is the result here and the branch for a
buffer overrun is not reached.
-/

namespace GecRelay

open Foundation

/-! ## Checksums -/

/-- `X25_INIT_CRC`. -/
def crcInit : UInt16 := 0xFFFF

def crcAccumulate (data : UInt8) (crcAccum : UInt16) : UInt16 :=
  let tmp := data ^^^ (crcAccum &&& 0xFF).toUInt8
  let tmp := tmp ^^^ (tmp <<< 4)
  (crcAccum >>> 8) ^^^ (tmp.toUInt16 <<< 8) ^^^ (tmp.toUInt16 <<< 3) ^^^ (tmp.toUInt16 >>> 4)

def crcAccumulateBuffer (crcAccum : UInt16) (buffer : List UInt8) : UInt16 :=
  buffer.foldl (fun crc c => crcAccumulate c crc) crcAccum

theorem crcAccumulateBuffer_append (crc : UInt16) (x y : List UInt8) :
    crcAccumulateBuffer crc (x ++ y) = crcAccumulateBuffer (crcAccumulateBuffer crc x) y :=
  List.foldl_append

/-! ## The parser -/

inductive MavlinkParseState
  | uninit
  | idle
  | gotStx
  | gotLength
  | gotIncompatFlags
  | gotCompatFlags
  | gotSeq
  | gotSysid
  | gotCompid
  | gotMsgid1
  | gotMsgid2
  | gotMsgid3
  | gotPayload
  | gotCrc1
  | gotBadCrc1
  | signatureWait
deriving DecidableEq

inductive MavlinkFraming
  | incomplete
  | ok
  | badCrc
  | badSignature
deriving DecidableEq

/-- The fields of `mavlink_msg_entry_t` that the parser reads. -/
structure MavlinkMsgEntry where
  crcExtra : UInt8
  maxMsgLen : UInt8

/-- `mavlink_get_msg_entry`. -/
abbrev MavlinkMsgTable : Type := BitVec 24 → Option MavlinkMsgEntry

structure MavlinkStatus where
  parseError : UInt8
  parseState : MavlinkParseState
  packetIdx : UInt8
  currentRxSeq : UInt8
  packetRxSuccessCount : UInt16
  packetRxDropCount : UInt16
  flags : UInt8
  signatureWait : UInt8
deriving DecidableEq

/-- The two static buffers of a parser, `rxmsg` and `status`. -/
structure MavlinkChannel where
  rxmsg : MavlinkMessage
  status : MavlinkStatus
deriving DecidableEq

def mavlinkStx : UInt8 := 0xFD

def mavlinkIflagMask : UInt8 := 0x01

def mavlinkStatusFlagInMavlink1 : UInt8 := 1

def mavlinkUpdateChecksum (msg : MavlinkMessage) (c : UInt8) : MavlinkMessage :=
  { msg with checksum := crcAccumulate c msg.checksum }

def mavlinkStartChecksum (msg : MavlinkMessage) : MavlinkMessage :=
  { msg with checksum := crcInit }

def crcExtra (table : MavlinkMsgTable) (msgid : BitVec 24) : UInt8 :=
  match table msgid with
  | some e => e.crcExtra
  | none => 0

/-- The `memset` at the end of the payload: a known message is filled with
zeros up to its full length. -/
def zeroFill (table : MavlinkMsgTable) (msg : MavlinkMessage) (packetIdx : UInt8) : Bytes 264 :=
  match table msg.msgid with
  | some e =>
      if packetIdx < e.maxMsgLen then
        overwrite msg.payload packetIdx.toNat
          (List.replicate (e.maxMsgLen.toNat - packetIdx.toNat) 0)
      else msg.payload
  | none => msg.payload

/-- What the switch of `mavlink_frame_char_buffer` does: the result so far, and
whether `rxmsg` is copied to `r_message`. -/
structure SwitchResult where
  msgReceived : MavlinkFraming
  copied : Bool
  chan : MavlinkChannel

/-- A byte that only moves the parser on. -/
def SwitchResult.moved (rxmsg : MavlinkMessage) (status : MavlinkStatus) : SwitchResult :=
  { msgReceived := .incomplete, copied := false, chan := { rxmsg := rxmsg, status := status } }

/-- The states `GOT_CRC1` and `GOT_BAD_CRC1`. A signed frame waits for its
signature, and is reported as incomplete only if its checksum was right. -/
def gotChecksum (rxmsg : MavlinkMessage) (status : MavlinkStatus) (c : UInt8) : SwitchResult :=
  let msgReceived :=
    if status.parseState = .gotBadCrc1 ∨ c ≠ (rxmsg.checksum >>> 8).toUInt8 then
      MavlinkFraming.badCrc
    else .ok
  let rxmsg := { rxmsg with ck := rxmsg.ck.set 1 c }
  if rxmsg.incompatFlags &&& mavlinkIflagSigned ≠ 0 then
    -- a bad checksum is reported here, but the message is not copied
    { msgReceived := if msgReceived ≠ .badCrc then .incomplete else msgReceived
      copied := false
      chan := { rxmsg := rxmsg, status := { status with
        parseState := .signatureWait, signatureWait := 13 } } }
  else
    { msgReceived := msgReceived
      copied := true
      chan := { rxmsg := rxmsg, status := { status with parseState := .idle } } }

/-- The state `SIGNATURE_WAIT`; `signature_check` answers true without a
signing key. -/
def gotSignature (rxmsg : MavlinkMessage) (status : MavlinkStatus) (c : UInt8) : SwitchResult :=
  let rxmsg := { rxmsg with
    signature := rxmsg.signature.set (Fin.ofNat 13 (13 - status.signatureWait.toNat)) c }
  let status := { status with signatureWait := status.signatureWait - 1 }
  if status.signatureWait = 0 then
    { msgReceived := .ok
      copied := true
      chan := { rxmsg := rxmsg, status := { status with parseState := .idle } } }
  else .moved rxmsg status

def switchChar (table : MavlinkMsgTable) (chan : MavlinkChannel) (c : UInt8) : SwitchResult :=
  let rxmsg := chan.rxmsg
  let status := chan.status
  match status.parseState with
  | .uninit | .idle =>
      if c = mavlinkStx then
        .moved (mavlinkStartChecksum { rxmsg with len := 0, magic := c })
          { status with
            parseState := .gotStx
            flags := status.flags &&& ~~~mavlinkStatusFlagInMavlink1 }
      else if c = mavlinkStxMavlink1 then
        .moved (mavlinkStartChecksum { rxmsg with len := 0, magic := c })
          { status with
            parseState := .gotStx
            flags := status.flags ||| mavlinkStatusFlagInMavlink1 }
      else .moved rxmsg status
  | .gotStx =>
      let rxmsg := mavlinkUpdateChecksum { rxmsg with len := c } c
      let status := { status with packetIdx := 0 }
      if status.flags &&& mavlinkStatusFlagInMavlink1 ≠ 0 then
        .moved { rxmsg with incompatFlags := 0, compatFlags := 0 }
          { status with parseState := .gotCompatFlags }
      else .moved rxmsg { status with parseState := .gotLength }
  | .gotLength =>
      let rxmsg := { rxmsg with incompatFlags := c }
      if rxmsg.incompatFlags &&& ~~~mavlinkIflagMask ≠ 0 then
        -- a flag this library does not know: the message is dropped
        .moved rxmsg { status with parseError := status.parseError + 1, parseState := .idle }
      else
        .moved (mavlinkUpdateChecksum rxmsg c) { status with parseState := .gotIncompatFlags }
  | .gotIncompatFlags =>
      .moved (mavlinkUpdateChecksum { rxmsg with compatFlags := c } c)
        { status with parseState := .gotCompatFlags }
  | .gotCompatFlags =>
      .moved (mavlinkUpdateChecksum { rxmsg with seq := c } c)
        { status with parseState := .gotSeq }
  | .gotSeq =>
      .moved (mavlinkUpdateChecksum { rxmsg with sysid := c } c)
        { status with parseState := .gotSysid }
  | .gotSysid =>
      .moved (mavlinkUpdateChecksum { rxmsg with compid := c } c)
        { status with parseState := .gotCompid }
  | .gotCompid =>
      let rxmsg := mavlinkUpdateChecksum { rxmsg with msgid := c.toBitVec.setWidth 24 } c
      if status.flags &&& mavlinkStatusFlagInMavlink1 ≠ 0 then
        .moved rxmsg { status with
          parseState := if 0 < rxmsg.len then .gotMsgid3 else .gotPayload }
      else .moved rxmsg { status with parseState := .gotMsgid1 }
  | .gotMsgid1 =>
      .moved (mavlinkUpdateChecksum
          { rxmsg with msgid := rxmsg.msgid ||| (c.toBitVec.setWidth 24 <<< 8) } c)
        { status with parseState := .gotMsgid2 }
  | .gotMsgid2 =>
      let rxmsg := mavlinkUpdateChecksum
        { rxmsg with msgid := rxmsg.msgid ||| (c.toBitVec.setWidth 24 <<< 16) } c
      .moved rxmsg { status with
        parseState := if 0 < rxmsg.len then .gotMsgid3 else .gotPayload }
  | .gotMsgid3 =>
      let rxmsg := mavlinkUpdateChecksum
        { rxmsg with payload := rxmsg.payload.set (Fin.ofNat 264 status.packetIdx.toNat) c } c
      let status := { status with packetIdx := status.packetIdx + 1 }
      .moved rxmsg { status with
        parseState := if status.packetIdx = rxmsg.len then .gotPayload else .gotMsgid3 }
  | .gotPayload =>
      let rxmsg := mavlinkUpdateChecksum rxmsg (crcExtra table rxmsg.msgid)
      .moved { rxmsg with
          ck := rxmsg.ck.set 0 c
          payload := zeroFill table rxmsg status.packetIdx }
        { status with
          parseState := if c ≠ (rxmsg.checksum &&& 0xFF).toUInt8 then .gotBadCrc1 else .gotCrc1 }
  | .gotCrc1 | .gotBadCrc1 => gotChecksum rxmsg status c
  | .signatureWait => gotSignature rxmsg status c

/-- The checksum bytes on the wire, `ck[0] | (ck[1]<<8)`. -/
def wireChecksum (msg : MavlinkMessage) : UInt16 :=
  (msg.ck.get 0).toUInt16 ||| ((msg.ck.get 1).toUInt16 <<< 8)

/-- The statistics of a message that was received. -/
def countReceived (chan : MavlinkChannel) : MavlinkStatus :=
  { chan.status with
    currentRxSeq := chan.rxmsg.seq
    packetRxDropCount :=
      if chan.status.packetRxSuccessCount = 0 then 0 else chan.status.packetRxDropCount
    packetRxSuccessCount := chan.status.packetRxSuccessCount + 1 }

/-- `mavlink_frame_char_buffer`, with the caller's buffer `r_message` before
and after. The message is copied when a frame is complete; its length, and the
checksum of a frame with a bad one, are written whether it was copied or not. -/
def mavlinkFrameCharBuffer (table : MavlinkMsgTable) (chan : MavlinkChannel) (c : UInt8)
    (rMessage : MavlinkMessage) : MavlinkFraming × MavlinkMessage × MavlinkChannel :=
  let r := switchChar table chan c
  let status := if r.msgReceived = .ok then countReceived r.chan else r.chan.status
  let rMessage := if r.copied then r.chan.rxmsg else rMessage
  let rMessage := { rMessage with len := r.chan.rxmsg.len }
  let rMessage :=
    if r.msgReceived = .badCrc then { rMessage with checksum := wireChecksum r.chan.rxmsg }
    else rMessage
  (r.msgReceived, rMessage, { r.chan with status := { status with parseError := 0 } })

end GecRelay
