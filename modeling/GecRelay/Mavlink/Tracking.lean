import GecRelay.Mavlink.Frame
import GecRelay.Foundation.Machine

/-!
# The parser on whole frames

What the parser does at each byte of a frame, from any idle state and with
anything in its buffers (`frame_byte`). It reports at the last byte, where it
copies `rxmsg`, and at the second checksum byte of a signed frame whose checksum
is wrong, where it does not; every other byte is quiet. Over a stream it keeps
track of the frame that is arriving (`tracks_step`, `tracks_run`), and is idle
again after the last byte of each.
-/

namespace GecRelay

open Foundation

/-- What is left in the static buffers after the switch. -/
def SwitchResult.advance (r : SwitchResult) : MavlinkChannel :=
  { r.chan with
    status := { (if r.msgReceived = .ok then countReceived r.chan else r.chan.status) with
      parseError := 0 } }

/-- The parser without the caller's buffer, which it never reads. -/
def parserMachine (table : MavlinkMsgTable) : Machine MavlinkChannel UInt8 SwitchResult where
  step chan c := (switchChar table chan c, (switchChar table chan c).advance)

/-- The parser waits for a start marker, whatever its buffers hold. -/
def MavlinkChannel.Idle (chan : MavlinkChannel) : Prop :=
  chan.status.parseState = .uninit ∨ chan.status.parseState = .idle

def MavlinkMessage.zero : MavlinkMessage where
  checksum := 0
  magic := 0
  len := 0
  incompatFlags := 0
  compatFlags := 0
  seq := 0
  sysid := 0
  compid := 0
  msgid := 0
  payload := zeros 264
  ck := zeros 2
  signature := zeros 13

/-- The static buffers before the first byte. -/
def MavlinkChannel.init : MavlinkChannel where
  rxmsg := .zero
  status :=
    { parseError := 0, parseState := .uninit, packetIdx := 0, currentRxSeq := 0,
      packetRxSuccessCount := 0, packetRxDropCount := 0, flags := 0, signatureWait := 0 }

theorem idle_init : MavlinkChannel.init.Idle := Or.inl rfl

/-- A byte after which nothing is reported. -/
def SwitchResult.Quiet (r : SwitchResult) : Prop :=
  r.msgReceived = .incomplete ∧ r.copied = false

def QuietRun (table : MavlinkMsgTable) (chan : MavlinkChannel) : List UInt8 → Prop
  | [] => True
  | c :: cs => (switchChar table chan c).Quiet ∧ QuietRun table (switchChar table chan c).advance cs

theorem quietRun_append (table : MavlinkMsgTable) (chan : MavlinkChannel) (xs ys : List UInt8) :
    QuietRun table chan (xs ++ ys) ↔
      QuietRun table chan xs ∧ QuietRun table ((parserMachine table).exec chan xs) ys := by
  induction xs generalizing chan with
  | nil => simp [QuietRun]
  | cons x xs ih =>
      rw [List.cons_append, QuietRun, QuietRun, ih, and_assoc]
      rfl

@[simp] theorem advance_moved (rxmsg : MavlinkMessage) (status : MavlinkStatus) :
    (SwitchResult.moved rxmsg status).advance =
      { rxmsg := rxmsg, status := { status with parseError := 0 } } := rfl

@[simp] theorem quiet_moved (rxmsg : MavlinkMessage) (status : MavlinkStatus) :
    (SwitchResult.moved rxmsg status).Quiet := ⟨rfl, rfl⟩

/-- The fields of a message that come from the header. -/
structure HasHead (f : MavFrame) (msg : MavlinkMessage) : Prop where
  magic : msg.magic = f.head.magic
  len : msg.len = f.len
  incompatFlags : msg.incompatFlags = f.head.incompatFlags
  compatFlags : msg.compatFlags = f.head.compatFlags
  seq : msg.seq = f.head.seq
  sysid : msg.sysid = f.head.sysid
  compid : msg.compid = f.head.compid
  msgid : msg.msgid = f.head.msgid

structure HeaderRead (f : MavFrame) (chan : MavlinkChannel) : Prop where
  head : HasHead f chan.rxmsg
  checksum : chan.rxmsg.checksum = crcAccumulateBuffer crcInit (f.len :: f.head.fields)
  packetIdx : chan.status.packetIdx = 0
  parseState : chan.status.parseState = if 0 < f.len then .gotMsgid3 else .gotPayload

theorem clearBit (flags : UInt8) :
    (flags &&& ~~~mavlinkStatusFlagInMavlink1) &&& mavlinkStatusFlagInMavlink1 = 0 := by
  rw [UInt8.and_assoc]
  simp [mavlinkStatusFlagInMavlink1]

theorem setBit (flags : UInt8) :
    (flags ||| mavlinkStatusFlagInMavlink1) &&& mavlinkStatusFlagInMavlink1 ≠ 0 := by
  have hbits : ∀ x : BitVec 8, (x ||| 1#8) &&& 1#8 ≠ 0#8 := by decide
  simpa [← UInt8.toBitVec_inj, mavlinkStatusFlagInMavlink1] using hbits flags.toBitVec

theorem switchChar_start (table : MavlinkMsgTable) {chan : MavlinkChannel} (hidle : chan.Idle)
    (head : FrameHead) :
    switchChar table chan head.magic =
      .moved { chan.rxmsg with len := 0, magic := head.magic, checksum := crcInit }
        { chan.status with
          parseState := .gotStx
          flags := match head with
            | .v1 .. => chan.status.flags ||| mavlinkStatusFlagInMavlink1
            | .v2 .. => chan.status.flags &&& ~~~mavlinkStatusFlagInMavlink1 } := by
  have hne : mavlinkStxMavlink1 ≠ mavlinkStx := by decide
  rcases hidle with h | h <;> cases head <;>
    simp only [switchChar, h, FrameHead.magic, hne, if_true, if_false, mavlinkStartChecksum]

theorem header_run (table : MavlinkMsgTable) {chan : MavlinkChannel} (hidle : chan.Idle)
    (f : MavFrame) :
    QuietRun table chan (f.head.magic :: f.len :: f.head.fields) ∧
    HeaderRead f ((parserMachine table).exec chan (f.head.magic :: f.len :: f.head.fields)) := by
  simp only [QuietRun, Machine.exec_cons, parserMachine, switchChar_start table hidle,
    advance_moved]
  rcases hf : f.head with ⟨seq, sysid, compid, msgid⟩ |
    ⟨signed, compatFlags, seq, sysid, compid, msgid0, msgid1, msgid2⟩
  · simp only [FrameHead.magic, FrameHead.fields, QuietRun, Machine.exec_cons, Machine.exec_nil,
      switchChar, advance_moved, setBit, if_true, ne_eq, not_false_eq_true, quiet_moved, true_and,
      mavlinkUpdateChecksum]
    constructor
    · constructor <;> simp only [hf] <;> rfl
    · simp only [hf, FrameHead.fields, crcAccumulateBuffer, List.foldl_cons, List.foldl_nil]
    · rfl
    · rfl
  · have hflags : (if signed then mavlinkIflagSigned else 0) &&& ~~~mavlinkIflagMask = 0 := by
      cases signed <;> decide
    simp only [FrameHead.magic, FrameHead.fields, QuietRun, Machine.exec_cons, Machine.exec_nil,
      switchChar, advance_moved, clearBit, hflags, ne_eq, not_true_eq_false, if_false, quiet_moved,
      true_and, mavlinkUpdateChecksum]
    constructor
    · constructor <;> simp only [hf] <;> rfl
    · simp only [hf, FrameHead.fields, crcAccumulateBuffer, List.foldl_cons, List.foldl_nil]
    · rfl
    · rfl

structure PayloadRead (f : MavFrame) (chan : MavlinkChannel) : Prop where
  head : HasHead f chan.rxmsg
  checksum : chan.rxmsg.checksum = crcAccumulateBuffer crcInit f.checked
  payload : f.payload <+: chan.rxmsg.payload.toList
  packetIdx : chan.status.packetIdx = f.len
  parseState : chan.status.parseState = .gotPayload

theorem HasHead.of_eq {f : MavFrame} {msg msg' : MavlinkMessage} (h : HasHead f msg)
    {checksum : UInt16} {payload : Bytes 264} {ck : Bytes 2} {signature : Bytes 13}
    (he : msg' = { msg with
      checksum := checksum, payload := payload, ck := ck, signature := signature }) :
    HasHead f msg' := by
  subst he
  exact ⟨h.magic, h.len, h.incompatFlags, h.compatFlags, h.seq, h.sysid, h.compid, h.msgid⟩

theorem switchChar_payload (table : MavlinkMsgTable) {chan : MavlinkChannel}
    (hstate : chan.status.parseState = .gotMsgid3) (c : UInt8) :
    switchChar table chan c =
      .moved { chan.rxmsg with
          checksum := crcAccumulate c chan.rxmsg.checksum
          payload := chan.rxmsg.payload.set (Fin.ofNat 264 chan.status.packetIdx.toNat) c }
        { chan.status with
          packetIdx := chan.status.packetIdx + 1
          parseState := if chan.status.packetIdx + 1 = chan.rxmsg.len then .gotPayload
            else .gotMsgid3 } := by
  simp only [switchChar, hstate, mavlinkUpdateChecksum]
  rfl

theorem take_set_succ {α : Type} (xs : List α) {i : ℕ} (h : i < xs.length) (x : α) :
    (xs.set i x).take (i + 1) = xs.take i ++ [x] := by
  rw [List.take_set, List.set_eq_take_append_cons_drop, if_pos (by simpa using h), List.take_take,
    Nat.min_eq_left (Nat.le_succ i), List.drop_eq_nil_of_le (by simp)]

/-- The payload is stored byte by byte, whatever the buffer held before. -/
theorem payload_bytes (table : MavlinkMsgTable) {p : List UInt8} (hp : p ≠ [])
    {chan : MavlinkChannel} (hstate : chan.status.parseState = .gotMsgid3)
    (hidx : chan.status.packetIdx.toNat + p.length = chan.rxmsg.len.toNat) :
    QuietRun table chan p ∧
    ∃ payload : Bytes 264,
      chan.rxmsg.payload.toList.take chan.status.packetIdx.toNat ++ p <+: payload.toList ∧
      (parserMachine table).exec chan p =
        { rxmsg := { chan.rxmsg with
            checksum := crcAccumulateBuffer chan.rxmsg.checksum p, payload := payload }
          status := { chan.status with
            parseError := 0, packetIdx := chan.rxmsg.len, parseState := .gotPayload } } := by
  induction p generalizing chan with
  | nil => exact absurd rfl hp
  | cons c p ih =>
      have hlen := chan.rxmsg.len.toNat_lt
      rw [List.length_cons] at hidx
      have hnext : (chan.status.packetIdx + 1).toNat = chan.status.packetIdx.toNat + 1 := by
        rw [UInt8.toNat_add]
        exact Nat.mod_eq_of_lt (show chan.status.packetIdx.toNat + 1 < 256 by omega)
      have hcell :
          (chan.rxmsg.payload.set (Fin.ofNat 264 chan.status.packetIdx.toNat) c).toList.take
            (chan.status.packetIdx.toNat + 1) =
          chan.rxmsg.payload.toList.take chan.status.packetIdx.toNat ++ [c] := by
        rw [List.Vector.toList_set, Fin.val_ofNat, Nat.mod_eq_of_lt (by omega),
          take_set_succ _ (by rw [List.Vector.toList_length]; omega)]
      simp only [QuietRun, Machine.exec_cons, parserMachine, switchChar_payload table hstate,
        advance_moved, quiet_moved, true_and]
      -- the index meets the length at the last byte and not before
      rcases List.eq_nil_or_concat p with rfl | hcons
      · have hend : chan.status.packetIdx + 1 = chan.rxmsg.len := by
          apply UInt8.toNat_inj.mp
          rw [hnext]
          simpa using hidx
        refine ⟨trivial, _, ?_, by rw [if_pos hend, hend]; rfl⟩
        rw [← hcell]
        exact List.take_prefix _ _
      · have hp' : p ≠ [] := by
          rintro rfl
          simp at hcons
        have hmore : chan.status.packetIdx + 1 ≠ chan.rxmsg.len := by
          intro he
          have := congrArg UInt8.toNat he
          have := List.length_pos_iff.mpr hp'
          omega
        rw [if_neg hmore]
        let next : MavlinkChannel := {
          rxmsg := { chan.rxmsg with
            checksum := crcAccumulate c chan.rxmsg.checksum
            payload := chan.rxmsg.payload.set (Fin.ofNat 264 chan.status.packetIdx.toNat) c }
          status := { chan.status with
            parseError := 0
            packetIdx := chan.status.packetIdx + 1
            parseState := .gotMsgid3 } }
        have hidx' : next.status.packetIdx.toNat + p.length = next.rxmsg.len.toNat := by
          show (chan.status.packetIdx + 1).toNat + p.length = chan.rxmsg.len.toNat
          omega
        obtain ⟨hquiet, payload, hpre, hexec⟩ := ih hp' (show next.status.parseState = _ from rfl)
          hidx'
        refine ⟨hquiet, payload, ?_, hexec⟩
        simp only [next, hnext, hcell, List.append_assoc, List.singleton_append] at hpre
        exact hpre

theorem payload_run (table : MavlinkMsgTable) {f : MavFrame} {chan : MavlinkChannel}
    (h : HeaderRead f chan) :
    QuietRun table chan f.payload ∧
    PayloadRead f ((parserMachine table).exec chan f.payload) := by
  have hlen := f.len_toNat
  by_cases hp : f.payload = []
  · have hzero : f.len = 0 := by
      apply UInt8.toNat_inj.mp
      simp [hlen, hp]
    rw [hp]
    refine ⟨trivial, h.head, ?_, by rw [hp]; exact List.nil_prefix, ?_, ?_⟩
    · rw [Machine.exec_nil, h.checksum, MavFrame.checked, hp, List.append_nil]
    · rw [Machine.exec_nil, h.packetIdx, hzero]
    · rw [Machine.exec_nil, h.parseState, hzero]
      rfl
  · have hpos : 0 < f.len := by
      rw [UInt8.lt_iff_toNat_lt, hlen]
      exact List.length_pos_iff.mpr hp
    obtain ⟨hquiet, payload, hpre, hexec⟩ := payload_bytes table hp
      (by rw [h.parseState, if_pos hpos]) (by rw [h.packetIdx, h.head.len, hlen]; simp)
    rw [h.packetIdx] at hpre
    rw [hexec]
    refine ⟨hquiet, h.head.of_eq rfl, ?_, by simpa using hpre, h.head.len, rfl⟩
    show crcAccumulateBuffer chan.rxmsg.checksum f.payload = _
    rw [h.checksum, MavFrame.checked, ← List.cons_append, crcAccumulateBuffer_append]

/-! ## Checksum and signature -/

/-- The payload as the message table has it: a known message has its full
length. -/
def MavFrame.zeroExtended (table : MavlinkMsgTable) (f : MavFrame) : List UInt8 :=
  match table f.head.msgid with
  | some e => f.payload ++ List.replicate (e.maxMsgLen.toNat - f.payload.length) 0
  | none => f.payload

theorem MavFrame.payload_prefix (table : MavlinkMsgTable) (f : MavFrame) :
    f.payload <+: f.zeroExtended table := by
  rw [zeroExtended]
  split
  · exact List.prefix_append _ _
  · exact List.prefix_rfl

/-- What `rxmsg` has of a frame up to its checksum bytes. -/
structure Carries (table : MavlinkMsgTable) (f : MavFrame) (msg : MavlinkMessage) : Prop where
  head : HasHead f msg
  checksum : msg.checksum = f.crc table
  payload : f.zeroExtended table <+: msg.payload.toList
  ck : msg.ck = f.ck

theorem Carries.with_signature {table : MavlinkMsgTable} {f : MavFrame} {msg msg' : MavlinkMessage}
    (h : Carries table f msg) {signature : Bytes 13}
    (he : msg' = { msg with signature := signature }) : Carries table f msg' := by
  subst he
  exact ⟨h.head.of_eq rfl, h.checksum, h.payload, h.ck⟩

theorem zeroFill_prefix {table : MavlinkMsgTable} {f : MavFrame} {chan : MavlinkChannel}
    (h : PayloadRead f chan) :
    f.zeroExtended table <+:
      (zeroFill table chan.rxmsg chan.status.packetIdx).toList := by
  obtain ⟨rest, hrest⟩ := h.payload
  rw [zeroFill, MavFrame.zeroExtended, h.head.msgid, h.packetIdx]
  cases table f.head.msgid with
  | none => exact h.payload
  | some e =>
      have hmax := e.maxMsgLen.toNat_lt
      simp only [UInt8.lt_iff_toNat_lt, f.len_toNat]
      split
      · rw [toList_overwrite, ← hrest, List.take_left' rfl,
          List.take_of_length_le (by simp; omega)]
        exact List.prefix_append _ _
      · next hge =>
          rw [Nat.sub_eq_zero_of_le (Nat.le_of_not_lt hge), List.replicate_zero, List.append_nil]
          exact h.payload

theorem ck_cases (ck : Bytes 2) : ∃ c₀ c₁, ck = ⟨[c₀, c₁], rfl⟩ := by
  obtain ⟨l, hl⟩ := ck
  match l, hl with
  | [c₀, c₁], _ => exact ⟨c₀, c₁, rfl⟩

theorem set_ck (ck : Bytes 2) (c₀ c₁ : UInt8) : (ck.set 0 c₀).set 1 c₁ = ⟨[c₀, c₁], rfl⟩ := by
  obtain ⟨a, b, rfl⟩ := ck_cases ck
  rfl

theorem switchChar_ck0 (table : MavlinkMsgTable) {f : MavFrame} {chan : MavlinkChannel}
    (h : PayloadRead f chan) (c₀ : UInt8) :
    switchChar table chan c₀ =
      .moved { chan.rxmsg with
          checksum := f.crc table
          ck := chan.rxmsg.ck.set 0 c₀
          payload := zeroFill table chan.rxmsg chan.status.packetIdx }
        { chan.status with
          parseState := if c₀ = (f.crc table &&& 0xFF).toUInt8 then .gotCrc1
            else .gotBadCrc1 } := by
  have hcrc : crcAccumulate (crcExtra table chan.rxmsg.msgid) chan.rxmsg.checksum =
      f.crc table := by
    rw [h.checksum, h.head.msgid, MavFrame.crc, crcAccumulateBuffer_append]
    rfl
  simp only [switchChar, h.parseState, mavlinkUpdateChecksum, hcrc, ne_eq, ite_not]
  rfl

/-- The two checksum states together find a wrong checksum. -/
theorem badCrc_iff (table : MavlinkMsgTable) {f : MavFrame} {c₀ c₁ : UInt8}
    (hck : f.ck = ⟨[c₀, c₁], rfl⟩) :
    ((if c₀ = (f.crc table &&& 0xFF).toUInt8 then MavlinkParseState.gotCrc1
      else .gotBadCrc1) = .gotBadCrc1 ∨ c₁ ≠ (f.crc table >>> 8).toUInt8) ↔
      ¬f.ChecksumOk table := by
  have hok : f.ChecksumOk table ↔
      c₀ = (f.crc table &&& 0xFF).toUInt8 ∧ c₁ = (f.crc table >>> 8).toUInt8 := by
    simp [MavFrame.ChecksumOk, hck, checksumBytes]
  rw [hok, not_and_or]
  split
  · next h => exact ⟨fun hor => hor.imp (fun he => by cases he) id, fun hor =>
      Or.inr (hor.resolve_left (not_not_intro h))⟩
  · next h => exact ⟨fun _ => Or.inl h, fun _ => Or.inl rfl⟩

theorem checksum_run (table : MavlinkMsgTable) {f : MavFrame} {chan : MavlinkChannel}
    (h : PayloadRead f chan) {c₀ c₁ : UInt8} (hck : f.ck = ⟨[c₀, c₁], rfl⟩) :
    (switchChar table chan c₀).Quiet ∧
    let r := switchChar table (switchChar table chan c₀).advance c₁
    Carries table f r.chan.rxmsg ∧
    (f.head.signed = false → r.copied = true ∧
      r.msgReceived = (if f.ChecksumOk table then .ok else .badCrc) ∧ r.advance.Idle) ∧
    (f.head.signed = true → r.copied = false ∧
      r.msgReceived = (if f.ChecksumOk table then .incomplete else .badCrc) ∧
      r.advance.rxmsg = r.chan.rxmsg ∧
      r.advance.status.parseState = .signatureWait ∧ r.advance.status.signatureWait = 13) := by
  rw [switchChar_ck0 table h, advance_moved]
  refine ⟨quiet_moved _ _, ?_⟩
  intro r
  have hr : r = gotChecksum { chan.rxmsg with
      checksum := f.crc table
      ck := chan.rxmsg.ck.set 0 c₀
      payload := zeroFill table chan.rxmsg chan.status.packetIdx }
    { chan.status with
      parseError := 0
      parseState := if c₀ = (f.crc table &&& 0xFF).toUInt8 then .gotCrc1 else .gotBadCrc1 } c₁ := by
    by_cases hlow : c₀ = (f.crc table &&& 0xFF).toUInt8
    · simp only [r, switchChar, if_pos hlow]
    · simp only [r, switchChar, if_neg hlow]
  have hbad := badCrc_iff table hck
  have hflags : (chan.rxmsg.incompatFlags &&& mavlinkIflagSigned ≠ 0) ↔ f.head.signed = true := by
    rw [h.head.incompatFlags]
    exact f.head.signed_iff.symm
  have hcarries : ∀ msg : MavlinkMessage, msg = { chan.rxmsg with
      checksum := f.crc table
      ck := (chan.rxmsg.ck.set 0 c₀).set 1 c₁
      payload := zeroFill table chan.rxmsg chan.status.packetIdx } → Carries table f msg := by
    rintro msg rfl
    exact ⟨h.head.of_eq rfl, rfl, zeroFill_prefix h, by rw [hck]; exact set_ck _ _ _⟩
  -- the flag and both checksum bytes are those of the frame by now
  simp only [gotChecksum, hbad, hflags] at hr
  cases hs : f.head.signed
  · simp only [hs, Bool.false_eq_true, if_false, ite_not] at hr
    rw [hr]
    exact ⟨hcarries _ rfl, fun _ => ⟨rfl, rfl, Or.inr (by
      rw [SwitchResult.advance]
      split <;> rfl)⟩, fun hf => by cases hf⟩
  · simp only [hs, if_true, ite_not] at hr
    rw [hr]
    refine ⟨hcarries _ rfl, fun hf => (by cases hf), fun _ => ⟨rfl, ?_, rfl, ?_⟩⟩
    · split <;> simp
    · rw [SwitchResult.advance]
      split <;> exact ⟨rfl, rfl⟩

theorem switchChar_signature (table : MavlinkMsgTable) {chan : MavlinkChannel}
    (hstate : chan.status.parseState = .signatureWait) (c : UInt8) :
    switchChar table chan c = gotSignature chan.rxmsg chan.status c := by
  simp only [switchChar, hstate]

theorem signature_cell (signature : Bytes 13) (wait : ℕ) (h : 0 < wait) (hle : wait ≤ 13)
    (x : UInt8) :
    (signature.set (Fin.ofNat 13 (13 - wait)) x).toList.take (13 - (wait - 1)) =
      signature.toList.take (13 - wait) ++ [x] := by
  rw [List.Vector.toList_set, Fin.val_ofNat, Nat.mod_eq_of_lt (by omega),
    show 13 - (wait - 1) = 13 - wait + 1 by omega,
    take_set_succ _ (by rw [List.Vector.toList_length]; omega)]

/-- Thirteen signature bytes, of which some are there already. Only the last
one is reported. -/
theorem signature_bytes (table : MavlinkMsgTable) (pre : List UInt8) (c : UInt8)
    {chan : MavlinkChannel} (hstate : chan.status.parseState = .signatureWait)
    (hwait : pre.length + 1 = chan.status.signatureWait.toNat)
    (hle : chan.status.signatureWait.toNat ≤ 13) :
    QuietRun table chan pre ∧
    let r := switchChar table ((parserMachine table).exec chan pre) c
    (r.copied = true ∧ r.msgReceived = .ok ∧ r.advance.Idle) ∧
    ∃ signature : Bytes 13, r.chan.rxmsg = { chan.rxmsg with signature := signature } ∧
      signature.toList = chan.rxmsg.signature.toList.take (13 - chan.status.signatureWait.toNat) ++
        (pre ++ [c]) := by
  induction pre generalizing chan with
  | nil =>
      have hlast : chan.status.signatureWait = 1 := UInt8.toNat_inj.mp hwait.symm
      have hcell := signature_cell chan.rxmsg.signature 1 (by omega) (by omega) c
      rw [Machine.exec_nil, switchChar_signature table hstate, gotSignature, hlast]
      refine ⟨trivial, ⟨rfl, rfl, Or.inr rfl⟩, _, rfl, ?_⟩
      rw [List.take_of_length_le (by simp)] at hcell
      exact hcell
  | cons x pre ih =>
      rw [List.length_cons] at hwait
      have hone : (1 : UInt8) ≤ chan.status.signatureWait := by
        rw [UInt8.le_iff_toNat_le, ← hwait]
        exact Nat.le_add_left 1 _
      have hnext : (chan.status.signatureWait - 1).toNat = chan.status.signatureWait.toNat - 1 :=
        UInt8.toNat_sub_of_le _ _ hone
      have hmore : chan.status.signatureWait - 1 ≠ 0 := by
        intro he
        rw [he, ← hwait] at hnext
        simp at hnext
      have hcell := signature_cell chan.rxmsg.signature _ (by omega) hle x
      let next : MavlinkChannel := {
        rxmsg := { chan.rxmsg with
          signature := chan.rxmsg.signature.set
            (Fin.ofNat 13 (13 - chan.status.signatureWait.toNat)) x }
        status := { chan.status with
          parseError := 0, signatureWait := chan.status.signatureWait - 1 } }
      have hwait' : pre.length + 1 = next.status.signatureWait.toNat := by
        show pre.length + 1 = (chan.status.signatureWait - 1).toNat
        rw [hnext, ← hwait]
        rfl
      obtain ⟨hquiet, hreport, signature, hmsg, hsig⟩ :=
        ih (show next.status.parseState = _ from hstate) hwait' (by omega)
      simp only [next, hnext, hcell, List.append_assoc, List.singleton_append] at hsig
      simp only [QuietRun, Machine.exec_cons, parserMachine, switchChar_signature table hstate,
        gotSignature, hmore, if_false, advance_moved, quiet_moved, true_and]
      exact ⟨hquiet, hreport, signature, hmsg, hsig⟩

/-! ## One byte of a frame -/

/-- The last byte of a frame: `rxmsg` is copied, with what the frame says. A
signed frame is reported as good. -/
structure Reported (table : MavlinkMsgTable) (f : MavFrame) (r : SwitchResult) : Prop where
  copied : r.copied = true
  msgReceived : r.msgReceived =
    if f.head.signed = true ∨ f.ChecksumOk table then .ok else .badCrc
  carries : Carries table f r.chan.rxmsg
  signature : f.head.signed = true → r.chan.rxmsg.signature = f.signature
  idle : r.advance.Idle

/-- The second checksum byte of a signed frame with a wrong checksum: it is
reported as bad, but `rxmsg` is not copied. -/
structure Uncopied (table : MavlinkMsgTable) (f : MavFrame) (r : SwitchResult) : Prop where
  copied : r.copied = false
  msgReceived : r.msgReceived = .badCrc
  carries : Carries table f r.chan.rxmsg

/-- A signed frame that has arrived up to a wrong checksum. -/
def BadSigned (table : MavlinkMsgTable) (f : MavFrame) (b : List UInt8) : Prop :=
  b = f.upToChecksum ∧ f.head.signed = true ∧ ¬f.ChecksumOk table

theorem body_run (table : MavlinkMsgTable) {chan : MavlinkChannel} (hidle : chan.Idle)
    (f : MavFrame) :
    QuietRun table chan (f.head.magic :: f.checked) ∧
    PayloadRead f ((parserMachine table).exec chan (f.head.magic :: f.checked)) := by
  have hsplit : f.head.magic :: f.checked = (f.head.magic :: f.len :: f.head.fields) ++ f.payload :=
    rfl
  obtain ⟨hquiet, hhead⟩ := header_run table hidle f
  obtain ⟨hquiet', hpayload⟩ := payload_run table hhead
  rw [hsplit, quietRun_append, Machine.exec_append]
  exact ⟨⟨hquiet, hquiet'⟩, hpayload⟩

theorem quietRun_mem {table : MavlinkMsgTable} {chan : MavlinkChannel} {pre post : List UInt8}
    {c : UInt8} (h : QuietRun table chan (pre ++ c :: post)) :
    (switchChar table ((parserMachine table).exec chan pre) c).Quiet :=
  ((quietRun_append table chan pre (c :: post)).mp h).2.1

/-- The bytes before the last checksum byte. -/
theorem frame_byte_before (table : MavlinkMsgTable) {chan : MavlinkChannel} (hidle : chan.Idle)
    {f : MavFrame} {c₀ c₁ : UInt8} (hck : f.ck = ⟨[c₀, c₁], rfl⟩) {pre post : List UInt8}
    {c : UInt8} (hpre : (f.head.magic :: f.checked) ++ [c₀] = pre ++ c :: post) :
    (switchChar table ((parserMachine table).exec chan pre) c).Quiet := by
  obtain ⟨hquiet, hread⟩ := body_run table hidle f
  have hall : QuietRun table chan ((f.head.magic :: f.checked) ++ [c₀]) := by
    rw [quietRun_append]
    exact ⟨hquiet, (checksum_run table hread hck).1, trivial⟩
  rw [hpre] at hall
  exact quietRun_mem hall

/-- The last checksum byte. -/
theorem frame_byte_checksum (table : MavlinkMsgTable) {chan : MavlinkChannel} (hidle : chan.Idle)
    {f : MavFrame} {c₀ c₁ : UInt8} (hck : f.ck = ⟨[c₀, c₁], rfl⟩) :
    let r := switchChar table
      ((parserMachine table).exec chan ((f.head.magic :: f.checked) ++ [c₀])) c₁
    (f.head.signed = false → Reported table f r) ∧
    (f.head.signed = true → ¬f.ChecksumOk table → Uncopied table f r) ∧
    (f.head.signed = true → f.ChecksumOk table → r.Quiet) := by
  obtain ⟨-, hread⟩ := body_run table hidle f
  obtain ⟨-, hcarries, hunsigned, hsigned⟩ := checksum_run table hread hck
  rw [Machine.exec_append]
  refine ⟨fun hs => ?_, fun hs hbad => ?_, fun hs hok => ?_⟩
  · obtain ⟨hcopied, hmsg, hidle'⟩ := hunsigned hs
    refine ⟨hcopied, hmsg.trans ?_, hcarries, fun hs' => ?_, hidle'⟩
    · simp [hs]
    · rw [hs] at hs'
      cases hs'
  · obtain ⟨hcopied, hmsg, -⟩ := hsigned hs
    rw [if_neg hbad] at hmsg
    exact ⟨hcopied, hmsg, hcarries⟩
  · obtain ⟨hcopied, hmsg, -⟩ := hsigned hs
    rw [if_pos hok] at hmsg
    exact ⟨hmsg, hcopied⟩

/-- The signature bytes. -/
theorem frame_byte_signature (table : MavlinkMsgTable) {chan : MavlinkChannel} (hidle : chan.Idle)
    {f : MavFrame} (hs : f.head.signed = true) {pre post : List UInt8} {c : UInt8}
    (hsig : f.signature.toList = pre ++ c :: post) :
    let r := switchChar table ((parserMachine table).exec chan (f.upToChecksum ++ pre)) c
    (post = [] → Reported table f r) ∧ (post ≠ [] → r.Quiet) := by
  obtain ⟨c₀, c₁, hck⟩ := ck_cases f.ck
  obtain ⟨-, hread⟩ := body_run table hidle f
  obtain ⟨-, hcarries, -, hsigned⟩ := checksum_run table hread hck
  obtain ⟨-, -, hrx, hstate, hwait⟩ := hsigned hs
  have hup : f.upToChecksum = (f.head.magic :: f.checked) ++ [c₀, c₁] := by
    simp [MavFrame.upToChecksum, hck]
  have hlen : (pre ++ c :: post).length = 13 := by rw [← hsig, List.Vector.toList_length]
  rw [hup, Machine.exec_append, Machine.exec_append]
  constructor
  · rintro rfl
    obtain ⟨-, ⟨hcopied, hmsg, hidle'⟩, signature, hrxmsg, hall⟩ := signature_bytes table pre c
      hstate (by rw [hwait]; simpa using hlen) (by rw [hwait]; exact Nat.le_refl 13)
    have hvec : signature = f.signature := by
      apply vec_ext
      rw [hall, hsig, hwait]
      rfl
    rw [hvec] at hrxmsg
    refine ⟨hcopied, hmsg.trans ?_, ?_, fun _ => ?_, hidle'⟩
    · simp [hs]
    · rw [← hrx] at hcarries
      exact hcarries.with_signature hrxmsg
    · exact congrArg MavlinkMessage.signature hrxmsg
  · intro hpost
    obtain ⟨post', d, rfl⟩ := (List.eq_nil_or_concat post).resolve_left hpost
    have hbefore : (pre ++ c :: post').length + 1 = 13 := by
      simp at hlen ⊢
      omega
    obtain ⟨hquiet, -⟩ := signature_bytes table (pre ++ c :: post') d hstate
      (by rw [hwait]; exact hbefore) (by rw [hwait]; exact Nat.le_refl 13)
    exact quietRun_mem hquiet

/-- **What the parser does at each byte of a frame**, from any idle state. -/
theorem frame_byte (table : MavlinkMsgTable) {chan : MavlinkChannel} (hidle : chan.Idle)
    {f : MavFrame} {pre post : List UInt8} {c : UInt8} (hf : f.bytes = pre ++ c :: post) :
    let r := switchChar table ((parserMachine table).exec chan pre) c
    (post = [] → Reported table f r) ∧
    (BadSigned table f (pre ++ [c]) → Uncopied table f r) ∧
    (post ≠ [] → ¬BadSigned table f (pre ++ [c]) → r.Quiet) := by
  intro r
  obtain ⟨c₀, c₁, hck⟩ := ck_cases f.ck
  have hbytes : f.bytes = (f.head.magic :: f.checked) ++ [c₀] ++ (c₁ :: f.trailer) := by
    simp [MavFrame.bytes, MavFrame.upToChecksum, hck]
  have hup : f.upToChecksum = (f.head.magic :: f.checked) ++ [c₀] ++ [c₁] := by
    simp [MavFrame.upToChecksum, hck]
  have hlast : pre = (f.head.magic :: f.checked) ++ [c₀] → c = c₁ → post = f.trailer →
      (post = [] → Reported table f r) ∧ (BadSigned table f (pre ++ [c]) → Uncopied table f r) ∧
      (post ≠ [] → ¬BadSigned table f (pre ++ [c]) → r.Quiet) := by
    rintro rfl rfl rfl
    obtain ⟨hrep, hunc, hq⟩ := frame_byte_checksum table hidle hck
    refine ⟨fun hnil => hrep ?_, fun hbad => hunc hbad.2.1 hbad.2.2, fun hne hok => ?_⟩
    · cases hs : f.head.signed
      · rfl
      · have := congrArg List.length hnil
        simp [MavFrame.trailer, hs] at this
    · have hs : f.head.signed = true := by
        by_contra hs
        simp [MavFrame.trailer, hs] at hne
      exact hq hs (by_contra fun hbad => hok ⟨hup.symm, hs, hbad⟩)
  -- `c` is the second checksum byte, or one after it, or one before it
  rw [hbytes, List.append_eq_append_iff] at hf
  rcases hf with ⟨a, rfl, ha⟩ | ⟨a, ha, hpost⟩
  · cases a with
    | nil =>
        rw [List.nil_append, List.cons.injEq] at ha
        exact hlast (List.append_nil _) ha.1.symm ha.2.symm
    | cons x a =>
        rw [List.cons_append, List.cons.injEq] at ha
        obtain ⟨rfl, ha⟩ := ha
        -- only a signed frame goes on after its checksum
        have hs : f.head.signed = true := by
          by_contra hs
          simp [MavFrame.trailer, hs] at ha
        rw [MavFrame.trailer, if_pos hs] at ha
        obtain ⟨hrep, hq⟩ := frame_byte_signature table hidle hs ha
        have hpre : (f.head.magic :: f.checked) ++ [c₀] ++ c₁ :: a = f.upToChecksum ++ a := by
          simp [hup]
        simp only [r, hpre]
        refine ⟨hrep, fun hbad => ?_, fun hne _ => hq hne⟩
        have := congrArg List.length hbad.1
        simp at this
  · cases a with
    | nil =>
        rw [List.nil_append, List.cons.injEq] at hpost
        exact hlast (by rw [ha, List.append_nil]) hpost.1 hpost.2
    | cons x a =>
        rw [List.cons_append, List.cons.injEq] at hpost
        obtain ⟨rfl, rfl⟩ := hpost
        have hquiet := frame_byte_before table hidle hck ha
        refine ⟨fun hnil => by simp at hnil, fun hbad => ?_, fun _ _ => hquiet⟩
        have hlen := congrArg List.length hbad.1
        have := congrArg List.length ha
        rw [hup] at hlen
        simp at this hlen
        omega

/-! ## Whole streams -/

/-- The parser has seen the bytes `b` of the frame that is arriving. -/
def Tracks (table : MavlinkMsgTable) (chan : MavlinkChannel) (b : List UInt8) : Prop :=
  (chan.Idle ∧ (b = [] ∨ Done b)) ∨
  (StartsFrame b ∧ ¬Done b ∧
    ∃ chan₀ : MavlinkChannel, chan₀.Idle ∧ chan = (parserMachine table).exec chan₀ b)

/-- **What a byte does**, in terms of the bytes that have arrived. -/
inductive ByteEffect (table : MavlinkMsgTable) (b : List UInt8) (r : SwitchResult) : Prop
  | reported (f : MavFrame) (bytes : b = f.bytes)
      (rep : ∀ g : MavFrame, b = g.bytes → Reported table g r)
  | uncopied (f : MavFrame) (bad : BadSigned table f b) (unc : Uncopied table f r)
  | quiet (noFrame : ∀ f : MavFrame, b ≠ f.bytes) (noBad : ∀ f, ¬BadSigned table f b)
      (quiet : r.Quiet)

/-- A signed frame is not complete at its checksum. -/
theorem BadSigned.not_complete {table : MavlinkMsgTable} {f : MavFrame} {b : List UInt8}
    (h : BadSigned table f b) (g : MavFrame) : b ≠ g.bytes := by
  rintro hg
  have hsplit : f.upToChecksum ++ [] = g.upToChecksum ++ g.trailer := by
    rw [List.append_nil, ← h.1, hg]
    rfl
  obtain ⟨hhead, -, -, htrailer⟩ := MavFrame.bytes_inj_of_append hsplit
  have hlen := congrArg List.length htrailer
  simp [MavFrame.trailer, ← hhead, h.2.1] at hlen

theorem ByteEffect.of_bad {table : MavlinkMsgTable} {f : MavFrame} {b : List UInt8}
    {r : SwitchResult} (h : ByteEffect table b r) (hbad : BadSigned table f b) :
    ∃ g, Uncopied table g r ∧ BadSigned table g b := by
  rcases h with ⟨g, hg, -⟩ | ⟨g, hg, hunc⟩ | ⟨-, hno, -⟩
  · exact absurd hg (hbad.not_complete g)
  · exact ⟨g, hunc, hg⟩
  · exact absurd hbad (hno f)

theorem ByteEffect.of_bytes {table : MavlinkMsgTable} {f : MavFrame} {b : List UInt8}
    {r : SwitchResult} (h : ByteEffect table b r) (hf : b = f.bytes) : Reported table f r := by
  rcases h with ⟨g, -, hall⟩ | ⟨g, hg, -⟩ | ⟨hno, -, -⟩
  · exact hall f hf
  · exact absurd hf (hg.not_complete f)
  · exact absurd hf (hno f)

theorem effect_of_short {table : MavlinkMsgTable} {b : List UInt8} {r : SwitchResult}
    (hlen : b.length < 8) (hr : r.Quiet) : ByteEffect table b r := by
  refine .quiet (fun f hf => ?_) (fun f hf => ?_) hr
  · have := f.eight_le_length_upToChecksum
    rw [hf, MavFrame.bytes, List.length_append] at hlen
    omega
  · have := f.eight_le_length_upToChecksum
    rw [hf.1] at hlen
    omega

theorem tracks_frame (table : MavlinkMsgTable) {chan₀ : MavlinkChannel} (hidle : chan₀.Idle)
    (pre : List UInt8) {c : UInt8} (hs : StartsFrame (pre ++ [c])) :
    let r := switchChar table ((parserMachine table).exec chan₀ pre) c
    Tracks table r.advance (pre ++ [c]) ∧ ByteEffect table (pre ++ [c]) r := by
  intro r
  have hexec : r.advance = (parserMachine table).exec chan₀ (pre ++ [c]) :=
    ((parserMachine table).exec_snoc chan₀ pre c).symm
  obtain ⟨hne, f, rest, hf⟩ := id hs
  have hcons : f.bytes = pre ++ c :: rest := by rw [hf, List.append_assoc, List.singleton_append]
  obtain ⟨hrep, -, hquiet⟩ := frame_byte table hidle hcons
  by_cases hrest : rest = []
  · rw [hrest, List.append_nil] at hf
    refine ⟨Or.inl ⟨(hrep hrest).idle, Or.inr (Or.inl (by rw [← hf, f.frameLen_bytes]))⟩,
      .reported f hf.symm fun g hg => (frame_byte table hidle ?_).1 rfl⟩
    rw [← hg]
  · have hdone : ¬Done (pre ++ [c]) := mt (MavFrame.done_iff hf).mp hrest
    refine ⟨Or.inr ⟨hs, hdone, chan₀, hidle, hexec⟩, ?_⟩
    by_cases hbad : ∃ g, BadSigned table g (pre ++ [c])
    · obtain ⟨g, hg⟩ := hbad
      have hgcons : g.bytes = pre ++ c :: g.trailer := by
        rw [MavFrame.bytes, ← hg.1, List.append_assoc, List.singleton_append]
      exact .uncopied g hg ((frame_byte table hidle hgcons).2.1 hg)
    · rw [not_exists] at hbad
      refine .quiet (fun g hg => hdone (Or.inl ?_)) hbad (hquiet hrest (hbad f))
      rw [hg, g.frameLen_bytes]

/-- A header with a flag that is not known is dropped. -/
theorem tracks_refused (table : MavlinkMsgTable) {chan₀ : MavlinkChannel} (hidle : chan₀.Idle)
    {b : List UInt8} {c : UInt8} (h : Refused (b ++ [c])) :
    let r := switchChar table ((parserMachine table).exec chan₀ b) c
    r.Quiet ∧ r.advance.Idle := by
  obtain ⟨hlen, hmagic, hflags⟩ := h
  obtain ⟨m, len, rfl⟩ := List.length_eq_two.mp (show b.length = 2 by simpa using hlen)
  have hstx : m = (FrameHead.v2 false 0 0 0 0 0 0 0).magic := hmagic
  have hc : c &&& ~~~mavlinkIflagMask ≠ 0 := hflags
  subst hstx
  simp only [Machine.exec_cons, Machine.exec_nil, parserMachine, switchChar_start table hidle,
    advance_moved]
  simp only [switchChar, advance_moved, clearBit, ne_eq, not_true_eq_false, if_false, hc,
    not_false_eq_true, if_true, quiet_moved, true_and]
  exact Or.inr rfl

theorem switchChar_noise {table : MavlinkMsgTable} {chan : MavlinkChannel} (hidle : chan.Idle)
    {c : UInt8} (hc : ¬IsStart c) : switchChar table chan c = .moved chan.rxmsg chan.status := by
  rw [IsStart, not_or] at hc
  rcases hidle with h | h <;> simp only [switchChar, h, if_neg hc.1, if_neg hc.2]

/-- **One byte**: the parser keeps track of the frame that is arriving. -/
theorem tracks_step {table : MavlinkMsgTable} {chan : MavlinkChannel} {b : List UInt8}
    (h : Tracks table chan b) (c : UInt8) :
    let r := switchChar table chan c
    Tracks table r.advance (delimit b c) ∧ ByteEffect table (delimit b c) r := by
  intro r
  rcases h with ⟨hidle, hb⟩ | ⟨hs, hdone, chan₀, hidle, rfl⟩
  · rw [delimit_start hb]
    split
    · next hc => exact tracks_frame table hidle [] (startsFrame_singleton hc)
    · next hc =>
        have hr : r = .moved chan.rxmsg chan.status := switchChar_noise hidle hc
        rw [hr]
        exact ⟨Or.inl ⟨hidle, Or.inl rfl⟩, effect_of_short (by decide) (quiet_moved _ _)⟩
  · have hgrow : ¬(b = [] ∨ Done b) := by
      rintro (hb | hb)
      · exact hs.1 hb
      · exact hdone hb
    rw [delimit_grow hgrow]
    -- the third byte of a version 2 frame can be refused, no other
    rcases startsFrame_snoc hs hdone c with hframe | hrefused
    · exact tracks_frame table hidle b hframe
    · obtain ⟨hquiet, hidle'⟩ := tracks_refused table hidle hrefused
      refine ⟨Or.inl ⟨hidle', Or.inr (Or.inr hrefused)⟩, effect_of_short ?_ hquiet⟩
      rw [hrefused.1]
      decide

theorem tracks_append {table : MavlinkMsgTable} {chan : MavlinkChannel} {done : List UInt8}
    (h : Tracks table chan (arriving done)) (stream : List UInt8) :
    Tracks table ((parserMachine table).exec chan stream) (arriving (done ++ stream)) := by
  induction stream using List.reverseRecOn with
  | nil => rwa [List.append_nil]
  | append_singleton stream c ih =>
      rw [Machine.exec_append, ← List.append_assoc, arriving_snoc]
      exact (tracks_step ih c).1

/-- **Any stream**, from an idle parser with whatever in its buffers. -/
theorem tracks_run (table : MavlinkMsgTable) {chan : MavlinkChannel} (hidle : chan.Idle)
    (stream : List UInt8) :
    Tracks table ((parserMachine table).exec chan stream) (arriving stream) :=
  have hstart : Tracks table chan (arriving []) := Or.inl ⟨hidle, Or.inl rfl⟩
  tracks_append hstart stream

end GecRelay
