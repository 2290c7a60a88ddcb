import GecRelay.Relay.Laundering

/-!
# Parsing what was forwarded

`mavlink_msg_to_send_buffer` trims the payload of a version 2 message, and
with it the length byte, but writes the checksum of the message object, which
the parser computed over the frame as it arrived. The next parser accepts the
frame exactly when both checksums are the same, as they are when nothing is
trimmed. A signed frame is reported as good in any case, but as bad before
that.
-/

namespace GecRelay

open Foundation

/-! ## Messages up to zero-extension -/

/-- The payload, extended with zeros to the longest there is. -/
def MavlinkMessage.fullPayload (msg : MavlinkMessage) : List UInt8 :=
  msg.payload.toList.take msg.len.toNat ++ List.replicate (255 - msg.len.toNat) 0

/-- The same message: header fields, payload, and for a known message the
whole buffer that decoding reads. -/
structure SameMessage (table : MavlinkMsgTable) (msg msg' : MavlinkMessage) : Prop where
  seq : msg.seq = msg'.seq
  sysid : msg.sysid = msg'.sysid
  compid : msg.compid = msg'.compid
  msgid : msg.msgid = msg'.msgid
  incompatFlags : msg.incompatFlags = msg'.incompatFlags
  compatFlags : msg.compatFlags = msg'.compatFlags
  payload : msg.fullPayload = msg'.fullPayload
  known : ∀ e, table msg.msgid = some e →
    msg.payload.toList.take e.maxMsgLen.toNat = msg'.payload.toList.take e.maxMsgLen.toNat

theorem exists_trimZeros_append (p : List UInt8) :
    ∃ k, p = trimZeros p ++ List.replicate k 0 := by
  cases p with
  | nil => exact ⟨0, rfl⟩
  | cons x xs =>
      suffices h : ∃ k, xs = xs.rdropWhile (· == 0) ++ List.replicate k 0 by
        obtain ⟨k, hk⟩ := h
        exact ⟨k, congrArg (x :: ·) hk⟩
      induction xs using List.reverseRecOn with
      | nil => exact ⟨0, rfl⟩
      | append_singleton xs y ih =>
          by_cases hy : y = 0
          · obtain ⟨k, hk⟩ := ih
            refine ⟨k + 1, ?_⟩
            rw [List.rdropWhile_concat_pos _ _ _ (by simp [hy]), List.replicate_succ', hy,
              ← List.append_assoc, ← hk]
          · refine ⟨0, ?_⟩
            rw [List.rdropWhile_concat_neg _ _ _ (by simpa using hy)]
            exact (List.append_nil _).symm

theorem exists_payload_eq (f : MavFrame) :
    ∃ k, f.payload = f.trimmed.payload ++ List.replicate k 0 := by
  rw [MavFrame.trimmed]
  split
  · exact ⟨0, (List.append_nil _).symm⟩
  · exact exists_trimZeros_append f.payload

theorem take_pad {p : List UInt8} {n k k' : ℕ} (h : n ≤ p.length + k) (h' : n ≤ p.length + k') :
    (p ++ List.replicate k (0 : UInt8)).take n = (p ++ List.replicate k' 0).take n := by
  rw [List.take_append, List.take_append, List.take_replicate, List.take_replicate,
    Nat.min_eq_left (by omega), Nat.min_eq_left (by omega)]

theorem Carries.fullPayload {table : MavlinkMsgTable} {f : MavFrame} {msg : MavlinkMessage}
    (h : Carries table f msg) :
    msg.fullPayload = f.payload ++ List.replicate (255 - f.payload.length) 0 := by
  have hpre := (f.payload_prefix table).trans h.payload
  rw [MavlinkMessage.fullPayload, h.head.len, f.len_toNat, ← List.prefix_iff_eq_take.mp hpre]

theorem Carries.known {table : MavlinkMsgTable} {f : MavFrame} {msg : MavlinkMessage}
    (h : Carries table f msg) {e : MavlinkMsgEntry} (he : table f.head.msgid = some e) :
    msg.payload.toList.take e.maxMsgLen.toNat =
      (f.payload ++ List.replicate 255 0).take e.maxMsgLen.toNat := by
  obtain ⟨rest, hrest⟩ := h.payload
  have hmax := e.maxMsgLen.toNat_lt
  rw [MavFrame.zeroExtended, he] at hrest
  rw [← hrest, List.take_append_of_le_length (by simp; omega)]
  exact take_pad (by omega) (by omega)

/-- Two frames that differ in zeros at the end of the payload carry the same
message. -/
theorem sameMessage_of_carries {table : MavlinkMsgTable} {f g : MavFrame}
    {msg msg' : MavlinkMessage} (h : Carries table f msg) (h' : Carries table g msg')
    (hhead : g.head = f.head) {k : ℕ} (hpayload : f.payload = g.payload ++ List.replicate k 0) :
    SameMessage table msg msg' := by
  have hle := f.payload_le
  have hlen := congrArg List.length hpayload
  rw [List.length_append, List.length_replicate] at hlen
  refine ⟨?_, ?_, ?_, ?_, ?_, ?_, ?_, fun e he => ?_⟩
  · rw [h.head.seq, h'.head.seq, hhead]
  · rw [h.head.sysid, h'.head.sysid, hhead]
  · rw [h.head.compid, h'.head.compid, hhead]
  · rw [h.head.msgid, h'.head.msgid, hhead]
  · rw [h.head.incompatFlags, h'.head.incompatFlags, hhead]
  · rw [h.head.compatFlags, h'.head.compatFlags, hhead]
  · rw [h.fullPayload, h'.fullPayload, hpayload, List.append_assoc, ← List.replicate_add,
      List.length_append, List.length_replicate]
    congr 2
    omega
  · have hmax := e.maxMsgLen.toNat_lt
    rw [h.head.msgid] at he
    rw [h.known he, h'.known (hhead ▸ he), hpayload, List.append_assoc, ← List.replicate_add]
    exact take_pad (by omega) (by omega)

/-! ## The next parser -/

/-- The result of the parser at the byte after `before`. -/
def resultAt (table : MavlinkMsgTable) (chan : MavlinkChannel) (before : List UInt8) (c : UInt8)
    (m : MavlinkMessage) : MavlinkFraming × MavlinkMessage × MavlinkChannel :=
  mavlinkFrameCharBuffer table ((parserMachine table).exec chan before) c m

/-- Any idle parser reports the last of these bytes as `MAVLINK_FRAMING_OK`,
with the message `msg`. -/
def AcceptedAs (table : MavlinkMsgTable) (bytes : List UInt8) (msg : MavlinkMessage) : Prop :=
  ∀ (chan : MavlinkChannel) (m : MavlinkMessage) (before : List UInt8) (c : UInt8),
    chan.Idle → bytes = before ++ [c] →
      (resultAt table chan before c m).1 = .ok ∧
      SameMessage table msg (resultAt table chan before c m).2.1

/-- Nothing is reported before the last byte. -/
def QuietUntilEnd (table : MavlinkMsgTable) (bytes : List UInt8) : Prop :=
  ∀ (chan : MavlinkChannel) (m : MavlinkMessage) (before : List UInt8) (c : UInt8)
    (post : List UInt8), chan.Idle → bytes = before ++ c :: post → post ≠ [] →
      (resultAt table chan before c m).1 = .incomplete

theorem caller_ok {table : MavlinkMsgTable} {chan : MavlinkChannel} {c : UInt8} {f : MavFrame}
    (h : Reported table f (switchChar table chan c))
    (hgood : f.head.signed = true ∨ f.ChecksumOk table) (m : MavlinkMessage) :
    (mavlinkFrameCharBuffer table chan c m).1 = .ok ∧
    Carries table f (mavlinkFrameCharBuffer table chan c m).2.1 := by
  have hmsg := h.msgReceived
  rw [if_pos hgood] at hmsg
  refine ⟨hmsg, ?_⟩
  simp only [mavlinkFrameCharBuffer, h.copied, hmsg, if_true, reduceCtorEq, if_false]
  exact h.carries

/-- The forwarded frame of a right one is right exactly when trimming does not
change the checksum. -/
theorem forward_checksumOk_iff {table : MavlinkMsgTable} {f : MavFrame} (hok : f.ChecksumOk table) :
    (f.forward table).ChecksumOk table ↔ f.trimmed.crc table = f.crc table := by
  have hck : (f.forward table).ck.toList = checksumBytes (f.crc table) := by
    rw [MavFrame.forward]
    split
    · rfl
    · rw [trimmed_ck]
      exact hok
  have hcrc : (f.forward table).crc table = f.trimmed.crc table := by
    rw [MavFrame.forward]
    split <;> rfl
  rw [MavFrame.ChecksumOk, hck, hcrc]
  exact ⟨fun h => (checksumBytes_inj h).symm, fun h => by rw [h]⟩

theorem forward_head (table : MavlinkMsgTable) (f : MavFrame) :
    (f.forward table).head = f.head ∧ (f.forward table).payload = f.trimmed.payload := by
  have htrim : f.trimmed.head = f.head := by
    rw [MavFrame.trimmed]
    split <;> rfl
  rw [MavFrame.forward]
  split
  · exact ⟨htrim, rfl⟩
  · exact ⟨htrim, rfl⟩

/-- How the next parser takes the bytes of a frame. -/
theorem acceptedAs_bytes_iff {table : MavlinkMsgTable} {f g : MavFrame} {msg : MavlinkMessage}
    (h : Carries table f msg) (hhead : g.head = f.head) {k : ℕ}
    (hpayload : f.payload = g.payload ++ List.replicate k 0) :
    AcceptedAs table g.bytes msg ↔ (g.head.signed = true ∨ g.ChecksumOk table) := by
  constructor
  · intro hacc
    obtain ⟨before, c, hsplit⟩ := g.exists_bytes_snoc
    have hrep := (frame_byte table idle_init hsplit).1 rfl
    have hok := (hacc .init .zero before c idle_init hsplit).1
    by_contra hbad
    have hmsg := hrep.msgReceived
    rw [if_neg hbad] at hmsg
    exact absurd (hmsg.symm.trans hok) (by decide)
  · intro hgood chan m before c hidle hsplit
    have hrep := (frame_byte table hidle hsplit).1 rfl
    obtain ⟨hok, hcarries⟩ := caller_ok hrep hgood m
    exact ⟨hok, sameMessage_of_carries h hcarries hhead hpayload⟩

theorem quietUntilEnd_bytes_iff (table : MavlinkMsgTable) (g : MavFrame) :
    QuietUntilEnd table g.bytes ↔ (g.head.signed = true → g.ChecksumOk table) := by
  constructor
  · intro hquiet hs
    by_contra hbad
    obtain ⟨c₀, c₁, hck⟩ := ck_cases g.ck
    have hup : g.upToChecksum = (g.head.magic :: g.checked ++ [c₀]) ++ [c₁] := by
      simp [MavFrame.upToChecksum, hck]
    have hsplit : g.bytes = (g.head.magic :: g.checked ++ [c₀]) ++ c₁ :: g.trailer := by
      rw [MavFrame.bytes, hup, List.append_assoc, List.singleton_append]
    have hne : g.trailer ≠ [] := by
      rw [MavFrame.trailer, if_pos hs]
      exact fun h => absurd (congrArg List.length h) (by simp)
    have hunc := (frame_byte table idle_init hsplit).2.1 ⟨hup.symm, hs, hbad⟩
    exact absurd (hunc.msgReceived.symm.trans (hquiet .init .zero _ _ _ idle_init hsplit hne))
      (by decide)
  · intro hok chan m before c post hidle hsplit hne
    have hq := (frame_byte table hidle hsplit).2.2 hne fun hbad => hbad.2.2 (hok hbad.2.1)
    exact (caller_quiet hq m).1

/-- What the relay's parser reports at the end of a right frame, and what is
written. -/
theorem resultAt_forward (table : MavlinkMsgTable) {chan : MavlinkChannel} (hidle : chan.Idle)
    {stream : List UInt8} {c : UInt8} {f : MavFrame} (harr : arriving (stream ++ [c]) = f.bytes)
    (hok : f.ChecksumOk table) (m : MavlinkMessage) :
    let r := resultAt table chan stream c m
    r.1 = .ok ∧ Carries table f r.2.1 ∧
    mavlinkMsgToSendBuffer r.2.1 = (f.forward table).bytes := by
  have heffect := (tracks_step (tracks_run table hidle stream) c).2
  rw [← arriving_snoc] at heffect
  have hrep := heffect.of_bytes harr
  obtain ⟨hres, hcarries⟩ := caller_ok hrep (Or.inr hok) m
  obtain ⟨msg, hsend, hm⟩ := caller_reported hrep
  rw [← hsend, ← (hm m).2]
  exact ⟨hres, hcarries, rfl⟩

/-- **When accepted messages stay acceptable.** Let a stream end with a frame
whose checksum is right. It is reported as good, and `handle_char` writes it;
any idle parser then reports the written bytes as good, with the same message,
exactly when the frame is signed or trimming does not change its checksum, and
without reporting anything before exactly in the second case. -/
theorem accepted_stay_acceptable_exactly (table : MavlinkMsgTable) {chan : MavlinkChannel}
    (hidle : chan.Idle) {stream : List UInt8} {c : UInt8} {f : MavFrame}
    (harr : arriving (stream ++ [c]) = f.bytes) (hok : f.ChecksumOk table) (m : MavlinkMessage) :
    let r := resultAt table chan stream c m
    let written := mavlinkMsgToSendBuffer r.2.1
    r.1 = .ok ∧
    ((telemetryTxMachine table).step ((parserMachine table).exec chan stream, ()) (c, m)).1 =
      some written ∧
    (AcceptedAs table written r.2.1 ↔
      (f.head.signed = true ∨ f.trimmed.crc table = f.crc table)) ∧
    (AcceptedAs table written r.2.1 ∧ QuietUntilEnd table written ↔
      f.trimmed.crc table = f.crc table) := by
  intro r written
  obtain ⟨hres, hcarries, hwritten⟩ := resultAt_forward table hidle harr hok m
  obtain ⟨hhead, hpayload⟩ := forward_head table f
  obtain ⟨k, hk⟩ := exists_payload_eq f
  rw [← hpayload] at hk
  have hacc := acceptedAs_bytes_iff (g := f.forward table) hcarries hhead hk
  have hquiet := quietUntilEnd_bytes_iff table (f.forward table)
  rw [hhead, forward_checksumOk_iff hok] at hacc hquiet
  rw [← hwritten] at hacc hquiet
  refine ⟨hres, ?_, hacc, ?_⟩
  · have hresult : (mavlinkFrameCharBuffer table ((parserMachine table).exec chan stream) c m).1 ≠
        .incomplete := fun h => absurd (h.symm.trans hres) (by decide)
    show (handleChar table writeMessage _ (c, m)).1 = _
    rw [handleChar]
    simp only [hresult, ne_eq, not_false_eq_true, if_true]
    rfl
  · -- a signed frame is accepted in any case, but not quietly
    rw [hquiet]
    constructor
    · rintro ⟨h, hs⟩
      exact (hacc.mp h).elim hs id
    · intro h
      exact ⟨hacc.mpr (Or.inr h), fun _ => h⟩

/-- A version 2 frame with a zero at the end of its payload. -/
def zeroTailFrame : MavFrame :=
  .ofUnknown (.v2 false 0 1 2 3 4 0 0) [1, 0] (Nat.le_add_right 2 253)

def zeroTailLast : UInt8 := zeroTailFrame.bytes.getLastD 0

theorem zeroTailFrame_arrives :
    arriving (zeroTailFrame.bytes.take 13 ++ [zeroTailLast]) = zeroTailFrame.bytes := by
  decide

/-- It is reported as good, and what is written is not accepted. -/
theorem zero_tail_not_accepted :
    arriving (zeroTailFrame.bytes.take 13 ++ [zeroTailLast]) = zeroTailFrame.bytes ∧
    zeroTailFrame.ChecksumOk (fun _ => none) ∧
    let r := resultAt (fun _ => none) .init (zeroTailFrame.bytes.take 13) zeroTailLast .zero
    r.1 = .ok ∧ ¬AcceptedAs (fun _ => none) (mavlinkMsgToSendBuffer r.2.1) r.2.1 := by
  have hok : zeroTailFrame.ChecksumOk fun _ => none := rfl
  obtain ⟨hres, hcarries, hwritten⟩ := resultAt_forward (fun _ => none) idle_init
    zeroTailFrame_arrives hok .zero
  obtain ⟨hhead, hpayload⟩ := forward_head (fun _ => none) zeroTailFrame
  refine ⟨zeroTailFrame_arrives, hok, hres, fun hacc => ?_⟩
  rw [hwritten] at hacc
  have hgood := (acceptedAs_bytes_iff hcarries hhead (k := 1) (by decide)).mp hacc
  exact absurd hgood (by decide)

theorem accepted_stay_acceptable_exactly_zero_tail :
    MavlinkChannel.init.Idle ∧
    arriving (zeroTailFrame.bytes.take 13 ++ [zeroTailLast]) = zeroTailFrame.bytes ∧
    zeroTailFrame.ChecksumOk (fun _ => none) ∧
    let r := resultAt (fun _ => none) .init (zeroTailFrame.bytes.take 13) zeroTailLast .zero
    (AcceptedAs (fun _ => none) (mavlinkMsgToSendBuffer r.2.1) r.2.1 ↔
      (zeroTailFrame.head.signed = true ∨
        zeroTailFrame.trimmed.crc (fun _ => none) = zeroTailFrame.crc fun _ => none)) :=
  ⟨idle_init, zeroTailFrame_arrives, rfl, (accepted_stay_acceptable_exactly (fun _ => none)
    idle_init zeroTailFrame_arrives rfl .zero).2.2.1⟩

end GecRelay
