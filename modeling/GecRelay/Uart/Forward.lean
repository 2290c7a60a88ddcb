import GecRelay.Uart.Handshake
import GecRelay.Mavlink.Crc

/-!
# Messages through comm-uart's Encrypt and Decrypt

A call of `read_from_uart` gives a batch of bytes to the parser, all of them
into one `recv_msg`, and afterwards hands `recv_msg` over if `result` says so.
`result` is by then what the last byte answered: a message that was complete
before it stays in `recv_msg` until the next one overwrites it. Decrypt's
`read_from_telemetry` does the same in the other direction.

Between two batches the spinning `send_to_telemetry` takes what is in
`send_msg`.

A result that is not zero need not come with a message. The parser copies one
to `recv_msg` at the last byte of a frame; at a wrong checksum of a signed
frame it answers `MAVLINK_FRAMING_BAD_CRC` and writes only the length and the
checksum of that frame over the message that is there.
-/

namespace GecRelay

open Foundation

/-- The static data of Encrypt, or of Decrypt. -/
structure Forwarder where
  chan : MavlinkChannel
  recvMsg : MavlinkMessageT
  sendMsg : MavlinkMessageT

/-- A message that is passed on, and the bytes that reach the shared buffer. -/
structure Emitted where
  msg : MavlinkMessage
  rawData : List UInt8

namespace Forwarder

/-! ## The family of functions -/

/-- `Encrypt_FC_Data_to_Telem_Data`. -/
def handOver (s : Forwarder) : Forwarder :=
  if s.recvMsg.isMsg then
    { s with sendMsg := s.recvMsg, recvMsg := { s.recvMsg with isMsg := false } }
  else s

/-- The body of the loop over the bytes of a batch, with `result`. -/
def parseByte (table : MavlinkMsgTable) (s : Forwarder × MavlinkFraming) (c : UInt8) :
    Forwarder × MavlinkFraming :=
  let r := mavlinkFrameCharBuffer table s.1.chan c s.1.recvMsg.msg
  ({ s.1 with
      chan := r.2.2
      recvMsg := { msg := r.2.1, isMsg := s.1.recvMsg.isMsg || r.1 ≠ .incomplete } }, r.1)

/-- `read_from_uart`. `result` is not initialised: `stack` is what it holds if
the batch is empty. -/
def readBatch (table : MavlinkMsgTable) (convert : Forwarder → Forwarder) (s : Forwarder)
    (stack : MavlinkFraming) (batch : List UInt8) : Forwarder :=
  let r := batch.foldl (parseByte table) (s, stack)
  if r.2 ≠ .incomplete then convert r.1 else r.1

/-- `send_to_telemetry`, which spins as long as there is no message. -/
def sendOn (s : Forwarder) : Option Emitted × Forwarder :=
  if s.sendMsg.isMsg then
    (some ⟨s.sendMsg.msg, mavlinkMsgToSendBuffer s.sendMsg.msg⟩,
      { s with sendMsg := { s.sendMsg with isMsg := false } })
  else (none, s)

def encryptFcDataToTelemData : Forwarder → Forwarder := handOver

def decryptTelemDataToFcData : Forwarder → Forwarder := handOver

def readFromUart (table : MavlinkMsgTable) : Forwarder → MavlinkFraming → List UInt8 → Forwarder :=
  readBatch table encryptFcDataToTelemData

def readFromTelemetry (table : MavlinkMsgTable) :
    Forwarder → MavlinkFraming → List UInt8 → Forwarder :=
  readBatch table decryptTelemDataToFcData

def sendToTelemetry : Forwarder → Option Emitted × Forwarder := sendOn

def sendToUart : Forwarder → Option Emitted × Forwarder := sendOn

/-- After `pre_init`; the rest of the static data is zero. -/
def init : Forwarder := ⟨.init, ⟨.zero, false⟩, ⟨.zero, false⟩⟩

end Forwarder

/-- A batch, and what is on the stack when it is read. -/
structure Batch where
  stack : MavlinkFraming
  bytes : List UInt8

/-- A batch is read, and what is to be sent is sent. -/
def uartEncryptMachine (table : MavlinkMsgTable) : Machine Forwarder Batch (Option Emitted) where
  step s b := (s.readFromUart table b.stack b.bytes).sendToTelemetry

def uartDecryptMachine (table : MavlinkMsgTable) : Machine Forwarder Batch (Option Emitted) where
  step s b := (s.readFromTelemetry table b.stack b.bytes).sendToUart

/-! ## What is to cross -/

/-- The parser over a stream, with the messages it completes: what `r_message`
holds when `rxmsg` was copied to it. -/
def completionMachine (table : MavlinkMsgTable) :
    Machine (MavlinkChannel × MavlinkMessage) UInt8 (Option MavlinkMessage) where
  step p c :=
    let r := mavlinkFrameCharBuffer table p.1 c p.2
    (if (switchChar table p.1 c).copied then some r.2.1 else none, (r.2.2, r.2.1))

def completed (table : MavlinkMsgTable) (p : MavlinkChannel × MavlinkMessage)
    (stream : List UInt8) : List MavlinkMessage :=
  ((completionMachine table).answers p stream).reduceOption

/-- **Every message crosses once**, unmodified and in order: after each batch,
whatever is on the stack. -/
def CrossesOnce (table : MavlinkMsgTable) (M : Machine Forwarder Batch (Option Emitted))
    (batches : List (List UInt8)) : Prop :=
  ∀ stacked : List Batch, stacked.map Batch.bytes <+: batches →
    let emitted := (M.answers .init stacked).reduceOption
    let messages := completed table (.init, .zero) (stacked.map Batch.bytes).flatten
    emitted.map Emitted.msg = messages ∧
    emitted.map Emitted.rawData = messages.map mavlinkMsgToSendBuffer

/-- No frame ends in a part of the stream that comes after `done`. -/
def NoFrameEnds (done part : List UInt8) : Prop :=
  ∀ pre, pre <+: part → pre ≠ [] → ∀ f : MavFrame, arriving (done ++ pre) ≠ f.bytes

/-- At most the last byte of the batch ends a frame, and it is not the second
checksum byte of a signed frame with a wrong checksum. -/
def EndsClean (table : MavlinkMsgTable) (done batch : List UInt8) : Prop :=
  (∀ pre c, batch = pre ++ [c] → NoFrameEnds done pre) ∧
  ∀ f, ¬BadSigned table f (arriving (done ++ batch))

/-- One frame ends inside the batch, and the wrong checksum at the end of the
batch comes with the length of that frame, and with the checksum it is sent
on with: what is written over the message is what it held. -/
def Restored (table : MavlinkMsgTable) (done batch : List UInt8) : Prop :=
  ∃ (before : List UInt8) (c : UInt8) (after : List UInt8) (g f : MavFrame),
    batch = before ++ c :: after ∧
    NoFrameEnds done before ∧ arriving (done ++ before ++ [c]) = g.bytes ∧
    NoFrameEnds (done ++ before ++ [c]) after ∧
    BadSigned table f (arriving (done ++ batch)) ∧ f.len = g.len ∧ f.ck = (g.forward table).ck

/-- The parser reports something at the end of the stream. -/
def ReportsAt (table : MavlinkMsgTable) (stream : List UInt8) : Prop :=
  (∃ f : MavFrame, arriving stream = f.bytes) ∨ ∃ f, BadSigned table f (arriving stream)

/-- Nothing is reported in a part of the stream that comes after `done`. -/
def NoReport (table : MavlinkMsgTable) (done part : List UInt8) : Prop :=
  ∀ pre, pre <+: part → pre ≠ [] → ¬ReportsAt table (done ++ pre)

/-- The last report in these batches came inside one: `is_msg` is set, and
nothing was handed over since. -/
def Held (table : MavlinkMsgTable) (batches : List (List UInt8)) : Prop :=
  ∃ before batch after pre post, batches = before ++ batch :: after ∧ batch = pre ++ post ∧
    pre ≠ [] ∧ post ≠ [] ∧ ReportsAt table (before.flatten ++ pre) ∧
    NoReport table (before.flatten ++ pre) (post ++ after.flatten)

/-- A batch with bytes ends clean, or with its message restored; one without
finds no message that is held. -/
structure EachHandedOver (table : MavlinkMsgTable) (batches : List (List UInt8)) : Prop where
  ends : ∀ before batch after, batches = before ++ batch :: after → batch ≠ [] →
    EndsClean table before.flatten batch ∨ Restored table before.flatten batch
  empty : ∀ before after, batches = before ++ [] :: after → ¬Held table before

/-! ## The parser on a stream -/

/-- The parser over a stream, with what the caller's buffer holds when its
result is not zero. -/
def reportMachine (table : MavlinkMsgTable) :
    Machine (MavlinkChannel × MavlinkMessage) UInt8 (Option MavlinkMessage) where
  step p c :=
    let r := mavlinkFrameCharBuffer table p.1 c p.2
    (if r.1 ≠ .incomplete then some r.2.1 else none, (r.2.2, r.2.1))

def reports (table : MavlinkMsgTable) (p : MavlinkChannel × MavlinkMessage)
    (stream : List UInt8) : List MavlinkMessage :=
  ((reportMachine table).answers p stream).reduceOption

/-- **What a byte does** to the caller's buffer, by the stream it ends. -/
inductive BufferEffect (table : MavlinkMsgTable) (stream : List UInt8)
    (p : MavlinkChannel × MavlinkMessage) (c : UInt8) : Prop
  | copied (f : MavFrame) (msg : MavlinkMessage) (bytes : arriving stream = f.bytes)
      (msgOf : ∀ g : MavFrame, arriving stream = g.bytes →
        msg.len = g.len ∧ MavFrame.ckOf msg.checksum = (g.forward table).ck)
      (report : ((reportMachine table).step p c).1 = some msg)
      (complete : ((completionMachine table).step p c).1 = some msg)
  | patched (f : MavFrame) (checksum : UInt16) (bad : BadSigned table f (arriving stream))
      (ck : MavFrame.ckOf checksum = f.ck)
      (report : ((reportMachine table).step p c).1 =
        some { p.2 with len := f.len, checksum := checksum })
      (complete : ((completionMachine table).step p c).1 = none)
  | quiet (len : UInt8) (noReport : ¬ReportsAt table stream)
      (report : ((reportMachine table).step p c).1 = none)
      (complete : ((completionMachine table).step p c).1 = none)
      (kept : ((reportMachine table).step p c).2.2 = { p.2 with len := len })

section Parser

variable {table : MavlinkMsgTable} {p : MavlinkChannel × MavlinkMessage}

theorem reports_snoc (xs : List UInt8) (c : UInt8) :
    reports table p (xs ++ [c]) =
      reports table p xs ++
        ((reportMachine table).step ((reportMachine table).exec p xs) c).1.toList :=
  Machine.outputs_snoc p xs c

theorem completed_snoc (xs : List UInt8) (c : UInt8) :
    completed table p (xs ++ [c]) =
      completed table p xs ++
        ((completionMachine table).step ((reportMachine table).exec p xs) c).1.toList :=
  Machine.outputs_snoc p xs c

theorem completed_append (xs ys : List UInt8) :
    completed table p (xs ++ ys) =
      completed table p xs ++ completed table ((reportMachine table).exec p xs) ys :=
  Machine.outputs_append p xs ys

/-- The parser of the reports is that of the frames. -/
theorem reportMachine_chan (stream : List UInt8) :
    ((reportMachine table).exec p stream).1 = (parserMachine table).exec p.1 stream := by
  induction stream generalizing p with
  | nil => rfl
  | cons c stream ih => exact ih

/-- The buffer after a report is what was reported. -/
theorem report_buffer {c : UInt8} {msg : MavlinkMessage}
    (h : ((reportMachine table).step p c).1 = some msg) :
    ((reportMachine table).step p c).2.2 = msg := by
  simp only [reportMachine, Option.ite_none_right_eq_some, Option.some.injEq] at h
  exact h.2

variable (table) in
theorem buffer_effect (done : List UInt8) (c : UInt8) (m : MavlinkMessage) :
    BufferEffect table (done ++ [c]) ((reportMachine table).exec (.init, m) done) c := by
  have htracks := tracks_run table idle_init done
  rw [← reportMachine_chan (p := (.init, m))] at htracks
  set q := (reportMachine table).exec (.init, m) done
  have heffect := (tracks_step htracks c).2
  rw [← arriving_snoc] at heffect
  rcases heffect with ⟨f, hf, hrep⟩ | ⟨f, hbad, hunc⟩ | ⟨hno, hnobad, hquiet⟩
  · refine .copied f (mavlinkFrameCharBuffer table q.1 c q.2).2.1 hf
      (fun g hg => caller_message (hrep g hg) q.2) ?_ ?_
    · obtain ⟨msg, -, hmsg⟩ := caller_reported (hrep f hf)
      exact if_pos (hmsg q.2).1
    · exact if_pos (hrep f hf).copied
  · obtain ⟨checksum, hck, hmsg⟩ := caller_uncopied hunc
    refine .patched f checksum hbad hck ?_ ?_
    · rw [← (hmsg q.2).2]
      exact if_pos (by rw [(hmsg q.2).1]; decide)
    · exact if_neg (by rw [hunc.copied]; decide)
  · obtain ⟨hret, len, hmsg⟩ := caller_quiet hquiet q.2
    refine .quiet len ?_ (if_neg (not_not_intro hret)) ?_ hmsg
    · rintro (⟨f, hf⟩ | ⟨f, hf⟩)
      · exact hno f hf
      · exact hnobad f hf
    · exact if_neg (by rw [hquiet.2]; decide)

theorem report_eq_none_iff (done : List UInt8) (c : UInt8) (m : MavlinkMessage) :
    ((reportMachine table).step ((reportMachine table).exec (.init, m) done) c).1 = none ↔
      ¬ReportsAt table (done ++ [c]) := by
  rcases buffer_effect table done c m with
    ⟨f, msg, hf, -, hreport, -⟩ | ⟨f, checksum, hbad, -, hreport, -⟩ | ⟨len, hno, hreport, -, -⟩
  · rw [hreport]
    exact iff_of_false (Option.some_ne_none msg) (not_not_intro (Or.inl ⟨f, hf⟩))
  · rw [hreport]
    exact iff_of_false (Option.some_ne_none _) (not_not_intro (Or.inr ⟨f, hbad⟩))
  · exact iff_of_true hreport hno

theorem complete_eq_none_iff (done : List UInt8) (c : UInt8) (m : MavlinkMessage) :
    ((completionMachine table).step ((reportMachine table).exec (.init, m) done) c).1 = none ↔
      ∀ f : MavFrame, arriving (done ++ [c]) ≠ f.bytes := by
  rcases buffer_effect table done c m with
    ⟨f, msg, hf, -, -, hcomplete⟩ | ⟨f, checksum, hbad, -, -, hcomplete⟩ |
    ⟨len, hno, -, hcomplete, -⟩
  · rw [hcomplete]
    exact iff_of_false (Option.some_ne_none msg) fun h => h f hf
  · exact iff_of_true hcomplete hbad.not_complete
  · exact iff_of_true hcomplete fun f hf => hno (Or.inl ⟨f, hf⟩)

/-- A property of the ends of a part, byte by byte. -/
theorem forall_prefix_snoc {P : List UInt8 → Prop} {xs : List UInt8} {c : UInt8} :
    (∀ pre, pre <+: xs ++ [c] → pre ≠ [] → P pre) ↔
      (∀ pre, pre <+: xs → pre ≠ [] → P pre) ∧ P (xs ++ [c]) := by
  constructor
  · exact fun h => ⟨fun pre hpre => h pre (hpre.trans (List.prefix_append xs [c])),
      h (xs ++ [c]) List.prefix_rfl (by simp)⟩
  · rintro ⟨hbefore, hlast⟩ pre hpre hne
    rcases List.prefix_concat_iff.mp hpre with rfl | hpre
    · exact hlast
    · exact hbefore pre hpre hne

theorem reports_eq_nil_iff (done part : List UInt8) (m : MavlinkMessage) :
    reports table ((reportMachine table).exec (.init, m) done) part = [] ↔
      NoReport table done part := by
  induction part using List.reverseRecOn with
  | nil => exact iff_of_true rfl fun pre hpre hne => absurd (List.prefix_nil.mp hpre) hne
  | append_singleton part c ih =>
      rw [reports_snoc, List.append_eq_nil_iff, ih, ← Machine.exec_append,
        Option.toList_eq_nil_iff, report_eq_none_iff, List.append_assoc]
      exact forall_prefix_snoc.symm

variable (table) in
theorem completed_eq_nil_iff (done part : List UInt8) (m : MavlinkMessage) :
    completed table ((reportMachine table).exec (.init, m) done) part = [] ↔
      NoFrameEnds done part := by
  induction part using List.reverseRecOn with
  | nil => exact iff_of_true rfl fun pre hpre hne => absurd (List.prefix_nil.mp hpre) hne
  | append_singleton part c ih =>
      rw [completed_snoc, List.append_eq_nil_iff, ih, ← Machine.exec_append,
        Option.toList_eq_nil_iff, complete_eq_none_iff, List.append_assoc]
      exact forall_prefix_snoc.symm

variable (table) in
/-- Between two copies only the length and the checksum of the buffer change. -/
theorem buffer_kept (done : List UInt8) {part : List UInt8} (m : MavlinkMessage)
    (h : NoFrameEnds done part) :
    ∃ (len : UInt8) (checksum : UInt16),
      ((reportMachine table).exec (.init, m) (done ++ part)).2 =
        { ((reportMachine table).exec (.init, m) done).2 with
          len := len, checksum := checksum } := by
  induction part using List.reverseRecOn with
  | nil =>
      rw [List.append_nil]
      exact ⟨_, _, rfl⟩
  | append_singleton part c ih =>
      rw [NoFrameEnds, forall_prefix_snoc, ← List.append_assoc] at h
      obtain ⟨len, checksum, hbuffer⟩ := ih h.1
      rw [← List.append_assoc, Machine.exec_snoc]
      rcases buffer_effect table (done ++ part) c m with
        ⟨f, msg, hf, -, -, -⟩ | ⟨f, checksum', -, -, hreport, -⟩ | ⟨len', -, -, -, hkept⟩
      · exact absurd hf (h.2 f)
      · rw [report_buffer hreport, hbuffer]
        exact ⟨f.len, checksum', rfl⟩
      · rw [hkept, hbuffer]
        exact ⟨len', checksum, rfl⟩

end Parser

/-! ## The end of a batch -/

/-- What the last byte of a batch reports. -/
def endReport (table : MavlinkMsgTable) (p : MavlinkChannel × MavlinkMessage)
    (batch : List UInt8) : Option MavlinkMessage :=
  ((reportMachine table).answers p batch).getLast?.join

section Ends

variable {table : MavlinkMsgTable} {p : MavlinkChannel × MavlinkMessage}

theorem endReport_snoc (pre : List UInt8) (c : UInt8) :
    endReport table p (pre ++ [c]) =
      ((reportMachine table).step ((reportMachine table).exec p pre) c).1 := by
  rw [endReport, Machine.answers_append, Machine.answers_cons, Machine.answers_nil,
    List.getLast?_concat, Option.join_some]

theorem BadSigned.eq_of_same {f g : MavFrame} {b : List UInt8} (hf : BadSigned table f b)
    (hg : BadSigned table g b) : f.len = g.len ∧ f.ck = g.ck := by
  have hsame : f.upToChecksum ++ [] = g.upToChecksum ++ [] := by rw [← hf.1, ← hg.1]
  obtain ⟨-, hpayload, hck, -⟩ := MavFrame.bytes_inj_of_append hsame
  exact ⟨by rw [MavFrame.len, MavFrame.len, hpayload], hck⟩

theorem endsClean_snoc_iff {done pre : List UInt8} {c : UInt8} :
    EndsClean table done (pre ++ [c]) ↔
      NoFrameEnds done pre ∧ ∀ f, ¬BadSigned table f (arriving (done ++ (pre ++ [c]))) := by
  refine and_congr_left' ⟨fun h => h pre c rfl, ?_⟩
  rintro h pre' c' heq
  rwa [← (List.append_inj' heq rfl).1]

/-- A batch in which one frame ends, with its message. -/
theorem completed_eq_singleton_iff (done part : List UInt8) (m msg : MavlinkMessage) :
    completed table ((reportMachine table).exec (.init, m) done) part = [msg] ↔
      ∃ before c after, part = before ++ c :: after ∧ NoFrameEnds done before ∧
        ((completionMachine table).step
          ((reportMachine table).exec (.init, m) (done ++ before)) c).1 = some msg ∧
        NoFrameEnds (done ++ before ++ [c]) after := by
  refine Machine.outputs_eq_singleton_iff.trans ?_
  refine exists_congr fun before => exists_congr fun c => exists_congr fun after =>
    and_congr_right fun _ => ?_
  rw [← completed_eq_nil_iff table done before m,
    ← completed_eq_nil_iff table (done ++ before ++ [c]) after m, Machine.exec_snoc,
    Machine.exec_append]
  rfl

/-- The message of the one frame in a batch is restored exactly when the wrong
checksum at the end has its length and its checksum. -/
theorem patched_iff (done pre : List UInt8) (c : UInt8) (m : MavlinkMessage) {f : MavFrame}
    {checksum : UInt16} (hbad : BadSigned table f (arriving (done ++ (pre ++ [c]))))
    (hck : MavFrame.ckOf checksum = f.ck) :
    completed table ((reportMachine table).exec (.init, m) done) pre =
        [{ ((reportMachine table).exec (.init, m) (done ++ pre)).2 with
          len := f.len, checksum := checksum }] ↔
      Restored table done (pre ++ [c]) := by
  rw [completed_eq_singleton_iff]
  constructor
  · rintro ⟨before, d, after, rfl, hbefore, hcomplete, hafter⟩
    rcases buffer_effect table (done ++ before) d m with
      ⟨g, msg, hg, hmsg, -, hcopied⟩ | ⟨g, checksum', -, -, -, hnone⟩ | ⟨len', -, -, hnone, -⟩
    · rw [hcopied, Option.some.injEq] at hcomplete
      obtain ⟨hlen, hcheck⟩ := hmsg g hg
      rw [hcomplete] at hlen hcheck
      refine ⟨before, d, after ++ [c], g, f, by simp, hbefore, hg, ?_, hbad, hlen,
        hck.symm.trans hcheck⟩
      refine forall_prefix_snoc.mpr ⟨hafter, fun g' hg' => hbad.not_complete g' ?_⟩
      rw [← hg']
      simp
    · rw [hnone] at hcomplete
      cases hcomplete
    · rw [hnone] at hcomplete
      cases hcomplete
  · rintro ⟨before, d, after, g, f', hsplit, hbefore, hg, hafter, hbad', hlen, hcheck⟩
    obtain ⟨hlen', hck'⟩ := hbad.eq_of_same hbad'
    -- the frame does not end at the last byte, where a checksum is wrong
    obtain ⟨after, e, rfl⟩ := (List.eq_nil_or_concat after).resolve_left (by
      rintro rfl
      rw [hsplit, ← List.append_assoc] at hbad
      exact hbad.not_complete g hg)
    rw [List.concat_eq_append] at hsplit hafter
    rw [← List.cons_append, ← List.append_assoc] at hsplit
    obtain ⟨rfl, -⟩ := List.append_inj' hsplit rfl
    have hrest : NoFrameEnds (done ++ before ++ [d]) after := (forall_prefix_snoc.mp hafter).1
    refine ⟨before, d, after, rfl, hbefore, ?_, hrest⟩
    rcases buffer_effect table (done ++ before) d m with
      ⟨g', msg, -, hmsg, hreport, hcopied⟩ | ⟨g', checksum', hbad'', -, -, -⟩ |
      ⟨len', hno, -, -, -⟩
    · obtain ⟨hmsglen, hmsgck⟩ := hmsg g hg
      obtain ⟨len', checksum', hbuffer⟩ :=
        buffer_kept table (done ++ before ++ [d]) m hrest
      have hstream : done ++ (before ++ d :: after) = done ++ before ++ [d] ++ after := by simp
      have hsame : msg.checksum = checksum := by
        apply checksumBytes_inj
        rw [← MavFrame.toList_ckOf, ← MavFrame.toList_ckOf, hmsgck, hck, hck', hcheck]
      rw [hcopied, hstream, hbuffer, Machine.exec_snoc, report_buffer hreport, hlen', hlen,
        ← hmsglen, ← hsame]
    · exact absurd hg (hbad''.not_complete g)
    · exact absurd (Or.inl ⟨g, hg⟩) hno

/-- **What a batch with bytes hands over** is what it completes, exactly when it
ends clean or restored. -/
theorem endReport_eq_completed_iff (done : List UInt8) {batch : List UInt8} (hne : batch ≠ [])
    (m : MavlinkMessage) :
    (endReport table ((reportMachine table).exec (.init, m) done) batch).toList =
        completed table ((reportMachine table).exec (.init, m) done) batch ↔
      EndsClean table done batch ∨ Restored table done batch := by
  obtain ⟨pre, c, rfl⟩ := (List.eq_nil_or_concat batch).resolve_left hne
  rw [List.concat_eq_append, endReport_snoc, completed_snoc, endsClean_snoc_iff,
    ← completed_eq_nil_iff table done pre m, ← Machine.exec_append]
  have hnot : (∀ f, ¬BadSigned table f (arriving (done ++ pre ++ [c]))) →
      ¬Restored table done (pre ++ [c]) := by
    rintro hgood ⟨-, -, -, -, f, -, -, -, -, hbad, -⟩
    rw [← List.append_assoc] at hbad
    exact hgood f hbad
  rw [← List.append_assoc]
  rcases buffer_effect table (done ++ pre) c m with
    ⟨f, msg, hf, -, hreport, hcomplete⟩ | ⟨f, checksum, hbad, hck, hreport, hcomplete⟩ |
    ⟨len, hno, hreport, hcomplete, -⟩
  · have hgood : ∀ g, ¬BadSigned table g (arriving (done ++ pre ++ [c])) :=
      fun g hg => hg.not_complete f hf
    rw [hreport, hcomplete, List.self_eq_append_left, or_iff_left (hnot hgood),
      and_iff_left hgood]
  · rw [hreport, hcomplete, or_iff_right fun h => h.2 f hbad, Option.toList_none, List.append_nil,
      eq_comm]
    rw [List.append_assoc] at hbad
    exact patched_iff done pre c m hbad hck
  · have hgood : ∀ g, ¬BadSigned table g (arriving (done ++ pre ++ [c])) :=
      fun g hg => hno (Or.inr ⟨g, hg⟩)
    rw [hreport, hcomplete, Option.toList_none, List.append_nil, eq_comm,
      or_iff_left (hnot hgood), and_iff_left hgood]

end Ends

/-! ## What is held -/

section Holds

variable {table : MavlinkMsgTable}

theorem NoReport.append {done xs ys : List UInt8} (hx : NoReport table done xs)
    (hy : NoReport table (done ++ xs) ys) : NoReport table done (xs ++ ys) := by
  induction ys using List.reverseRecOn with
  | nil => rwa [List.append_nil]
  | append_singleton ys c ih =>
      obtain ⟨hbefore, hlast⟩ := forall_prefix_snoc.mp hy
      rw [← List.append_assoc]
      refine forall_prefix_snoc.mpr ⟨ih hbefore, ?_⟩
      rwa [List.append_assoc xs, ← List.append_assoc done]

/-- Where something was reported, there is a last report. -/
theorem exists_last_report (done : List UInt8) {part : List UInt8}
    (h : ¬NoReport table done part) :
    ∃ pre post, part = pre ++ post ∧ pre ≠ [] ∧ ReportsAt table (done ++ pre) ∧
      NoReport table (done ++ pre) post := by
  induction part using List.reverseRecOn with
  | nil => exact absurd (fun pre hpre hne => absurd (List.prefix_nil.mp hpre) hne) h
  | append_singleton part c ih =>
      by_cases hlast : ReportsAt table (done ++ (part ++ [c]))
      · exact ⟨part ++ [c], [], (List.append_nil _).symm, by simp, hlast,
          fun pre hpre hne => absurd (List.prefix_nil.mp hpre) hne⟩
      · obtain ⟨pre, post, rfl, hne, hreport, hrest⟩ :=
          ih fun hno => h (forall_prefix_snoc.mpr ⟨hno, hlast⟩)
        refine ⟨pre, post ++ [c], List.append_assoc _ _ _, hne, hreport,
          forall_prefix_snoc.mpr ⟨hrest, ?_⟩⟩
        rw [List.append_assoc]
        rwa [List.append_assoc] at hlast

/-- One more batch: what was held stays held if the batch reports nothing, and
a report inside it is held if it is the last one. -/
theorem held_snoc (batches : List (List UInt8)) (batch : List UInt8) :
    Held table (batches ++ [batch]) ↔
      (Held table batches ∧ NoReport table batches.flatten batch) ∨
      ∃ pre post, batch = pre ++ post ∧ pre ≠ [] ∧ post ≠ [] ∧
        ReportsAt table (batches.flatten ++ pre) ∧
        NoReport table (batches.flatten ++ pre) post := by
  constructor
  · rintro ⟨before, b, after, pre, post, hsplit, rfl, hpre, hpost, hreport, hrest⟩
    rcases List.eq_nil_or_concat after with rfl | ⟨after, b', rfl⟩
    · obtain ⟨rfl, hb⟩ := List.append_inj' hsplit rfl
      obtain rfl := List.singleton_inj.mp hb
      refine Or.inr ⟨pre, post, rfl, hpre, hpost, hreport, ?_⟩
      simpa using hrest
    · rw [List.concat_eq_append, ← List.cons_append, ← List.append_assoc] at hsplit
      obtain ⟨rfl, hb⟩ := List.append_inj' hsplit rfl
      obtain rfl := List.singleton_inj.mp hb
      rw [List.concat_eq_append, List.flatten_append, List.flatten_singleton,
        ← List.append_assoc] at hrest
      refine Or.inl ⟨⟨before, pre ++ post, after, pre, post, rfl, rfl, hpre, hpost, hreport,
        fun p hp => hrest p (hp.trans (List.prefix_append _ _))⟩, fun p hp hne => ?_⟩
      have hlater := hrest (post ++ after.flatten ++ p)
        ((List.prefix_append_right_inj _).mpr hp) (by simp [hne])
      simpa using hlater
  · rintro (⟨⟨before, b, after, pre, post, rfl, hb, hpre, hpost, hreport, hrest⟩, hno⟩ |
      ⟨pre, post, rfl, hpre, hpost, hreport, hrest⟩)
    · refine ⟨before, b, after ++ [batch], pre, post, by simp, hb, hpre, hpost, hreport, ?_⟩
      rw [List.flatten_append, List.flatten_singleton, ← List.append_assoc]
      refine hrest.append ?_
      simpa [hb] using hno
    · exact ⟨batches, pre ++ post, [], pre, post, rfl, rfl, hpre, hpost, hreport, by simpa using hrest⟩

theorem held_snoc_nil (batches : List (List UInt8)) :
    Held table (batches ++ [[]]) ↔ Held table batches := by
  rw [held_snoc]
  constructor
  · rintro (⟨hheld, -⟩ | ⟨pre, post, hnil, hpre, -, -, -⟩)
    · exact hheld
    · exact absurd (List.append_eq_nil_iff.mp hnil.symm).1 hpre
  · exact fun h => Or.inl ⟨h, fun pre hpre hne => absurd (List.prefix_nil.mp hpre) hne⟩

theorem held_snoc_concat (batches : List (List UInt8)) (pre : List UInt8) (c : UInt8) :
    Held table (batches ++ [pre ++ [c]]) ↔
      ¬ReportsAt table (batches.flatten ++ pre ++ [c]) ∧
      (Held table batches ∨ ¬NoReport table batches.flatten pre) := by
  rw [held_snoc, List.append_assoc batches.flatten]
  constructor
  · rintro (⟨hheld, hno⟩ | ⟨p, q, hsplit, hp, hq, hreport, hrest⟩)
    · exact ⟨(forall_prefix_snoc.mp hno).2, Or.inl hheld⟩
    · obtain ⟨q, d, rfl⟩ := (List.eq_nil_or_concat q).resolve_left hq
      rw [List.concat_eq_append] at hsplit hrest
      rw [hsplit]
      refine ⟨?_, Or.inr fun hno => hno p ?_ hp hreport⟩
      · rw [← List.append_assoc]
        exact (forall_prefix_snoc.mp hrest).2
      · rw [← List.append_assoc] at hsplit
        exact ⟨q, (List.append_inj' hsplit rfl).1.symm⟩
  · rintro ⟨hlast, hbefore⟩
    by_cases hno : NoReport table batches.flatten pre
    · exact Or.inl ⟨hbefore.resolve_right (not_not_intro hno),
        forall_prefix_snoc.mpr ⟨hno, hlast⟩⟩
    · obtain ⟨p, q, rfl, hp, hreport, hrest⟩ := exists_last_report batches.flatten hno
      refine Or.inr ⟨p, q ++ [c], List.append_assoc _ _ _, hp, by simp, hreport,
        forall_prefix_snoc.mpr ⟨hrest, ?_⟩⟩
      rw [List.append_assoc] at hlast
      rwa [List.append_assoc]

theorem EachHandedOver.of_prefix {batches batches' : List (List UInt8)}
    (h : EachHandedOver table batches') (hpre : batches <+: batches') :
    EachHandedOver table batches := by
  obtain ⟨more, rfl⟩ := hpre
  constructor
  · rintro before batch after rfl
    exact h.ends before batch (after ++ more) (by simp)
  · rintro before after rfl
    exact h.empty before (after ++ more) (by simp)

end Holds

/-! ## One batch -/

namespace Forwarder

def parser (s : Forwarder) : MavlinkChannel × MavlinkMessage := (s.chan, s.recvMsg.msg)

def emit (msg : MavlinkMessage) : Emitted := ⟨msg, mavlinkMsgToSendBuffer msg⟩

section Steps

variable {table : MavlinkMsgTable} {s : Forwarder}

variable (table) in
/-- A byte of a batch. -/
theorem parseByte_report (r : Forwarder × MavlinkFraming) (c : UInt8) :
    let r' := parseByte table r c
    r'.1.parser = ((reportMachine table).step r.1.parser c).2 ∧
    r'.1.sendMsg = r.1.sendMsg ∧
    match ((reportMachine table).step r.1.parser c).1 with
    | some msg => r'.2 ≠ .incomplete ∧ r'.1.recvMsg = ⟨msg, true⟩
    | none => r'.2 = .incomplete ∧ r'.1.recvMsg.isMsg = r.1.recvMsg.isMsg := by
  refine ⟨rfl, rfl, ?_⟩
  by_cases h : (mavlinkFrameCharBuffer table r.1.chan c r.1.recvMsg.msg).1 = .incomplete
  · simp [reportMachine, parser, parseByte, h]
  · simp [reportMachine, parser, parseByte, h]

variable (table s) in
/-- The loop over a batch follows the parser. -/
theorem foldl_parseByte (batch : List UInt8) (stack : MavlinkFraming) :
    let r := batch.foldl (parseByte table) (s, stack)
    r.1.parser = (reportMachine table).exec s.parser batch ∧
    r.1.sendMsg = s.sendMsg ∧
    (r.1.recvMsg.isMsg = true ↔ s.recvMsg.isMsg = true ∨ reports table s.parser batch ≠ []) := by
  induction batch using List.reverseRecOn with
  | nil => exact ⟨rfl, rfl, (or_iff_left fun h => h rfl).symm⟩
  | append_singleton batch c ih =>
      obtain ⟨hparser, hsend, hmsg⟩ := ih
      obtain ⟨hparser', hsend', hbyte⟩ :=
        parseByte_report table (batch.foldl (parseByte table) (s, stack)) c
      rw [List.foldl_append, Machine.exec_append, reports_snoc, ← hparser]
      refine ⟨hparser', hsend'.trans hsend, ?_⟩
      cases hreport : ((reportMachine table).step
          (batch.foldl (parseByte table) (s, stack)).1.parser c).1 with
      | some msg =>
          rw [hreport] at hbyte
          refine iff_of_true (congrArg MavlinkMessageT.isMsg hbyte.2) (Or.inr ?_)
          rw [Option.toList_some]
          exact List.append_ne_nil_of_right_ne_nil _ (List.cons_ne_nil msg [])
      | none =>
          rw [hreport] at hbyte
          rw [Option.toList_none, List.append_nil, ← hmsg]
          exact Eq.congr_left hbyte.2

theorem sendOn_none (h : s.sendMsg.isMsg = false) : s.sendOn = (none, s) := by
  simp [sendOn, h]

theorem sendOn_handOver {msg : MavlinkMessage} (h : s.recvMsg = ⟨msg, true⟩) :
    s.handOver.sendOn =
      (some (emit msg), { s with recvMsg := ⟨msg, false⟩, sendMsg := ⟨msg, false⟩ }) := by
  simp [handOver, sendOn, h, emit]

variable (table) in
/-- **A batch that is not empty** passes on what its last byte reports, and
nothing else; a report before that is held. -/
theorem step_snoc (hsend : s.sendMsg.isMsg = false) (stack : MavlinkFraming) (pre : List UInt8)
    (c : UInt8) :
    let r := (uartEncryptMachine table).step s ⟨stack, pre ++ [c]⟩
    r.1 = (endReport table s.parser (pre ++ [c])).map emit ∧
    r.2.parser = (reportMachine table).exec s.parser (pre ++ [c]) ∧
    r.2.sendMsg.isMsg = false ∧
    (r.2.recvMsg.isMsg = true ↔ endReport table s.parser (pre ++ [c]) = none ∧
      (s.recvMsg.isMsg = true ∨ reports table s.parser pre ≠ [])) := by
  intro r
  obtain ⟨hparser, hsend₀, hmsg⟩ := foldl_parseByte table s pre stack
  obtain ⟨hparser', hsend', hbyte⟩ :=
    parseByte_report table (pre.foldl (parseByte table) (s, stack)) c
  have hr : r = (readBatch table handOver s stack (pre ++ [c])).sendOn := rfl
  rw [readBatch, List.foldl_append, List.foldl_cons, List.foldl_nil] at hr
  rw [endReport_snoc, Machine.exec_append, Machine.exec_cons, Machine.exec_nil, ← hparser, hr]
  set t := parseByte table (pre.foldl (parseByte table) (s, stack)) c with ht
  cases hreport : ((reportMachine table).step
      (pre.foldl (parseByte table) (s, stack)).1.parser c).1 with
  | some msg =>
      rw [hreport] at hbyte
      rw [if_pos hbyte.1, sendOn_handOver hbyte.2]
      refine ⟨rfl, ?_, rfl, iff_of_false Bool.false_ne_true fun h => Option.some_ne_none msg h.1⟩
      rw [← hparser']
      exact congrArg (Prod.mk t.1.chan) (congrArg MavlinkMessageT.msg hbyte.2).symm
  | none =>
      rw [hreport] at hbyte
      have hidle : t.1.sendMsg.isMsg = false := by rw [hsend', hsend₀, hsend]
      rw [if_neg (not_not_intro hbyte.1), sendOn_none hidle]
      refine ⟨rfl, hparser', hidle, ?_⟩
      rw [and_iff_right rfl, ← hmsg]
      exact Eq.congr_left hbyte.2

theorem step_nil (hsend : s.sendMsg.isMsg = false) {stack : MavlinkFraming}
    (h : stack = .incomplete ∨ s.recvMsg.isMsg = false) :
    (uartEncryptMachine table).step s ⟨stack, []⟩ = (none, s) := by
  have hread : s.readFromUart table stack [] = s := by
    rcases h with rfl | h
    · rfl
    · simp [readFromUart, readBatch, encryptFcDataToTelemData, handOver, h]
  show (s.readFromUart table stack []).sendOn = (none, s)
  rw [hread, sendOn_none hsend]

/-- An empty batch that finds a message hands it over, if the stack says so. -/
theorem step_nil_held {stack : MavlinkFraming} (hstack : stack ≠ .incomplete)
    (h : s.recvMsg.isMsg = true) :
    ((uartEncryptMachine table).step s ⟨stack, []⟩).1 = some (emit s.recvMsg.msg) := by
  have hrecv : s.recvMsg = ⟨s.recvMsg.msg, true⟩ := by rw [← h]
  show (s.readFromUart table stack []).sendOn.1 = _
  rw [readFromUart, readBatch, List.foldl_nil, if_pos hstack]
  exact congrArg Prod.fst (sendOn_handOver hrecv)

/-- What the batches so far have left. -/
structure Kept (table : MavlinkMsgTable) (s : Forwarder) (batches : List (List UInt8)) : Prop where
  parser : s.parser = (reportMachine table).exec (.init, .zero) batches.flatten
  send : s.sendMsg.isMsg = false
  held : s.recvMsg.isMsg = true ↔ Held table batches

theorem kept_init : Kept table init [] := by
  refine ⟨rfl, rfl, iff_of_false Bool.false_ne_true ?_⟩
  rintro ⟨before, batch, after, -, -, hnil, -⟩
  simp at hnil

theorem Kept.step {batches : List (List UInt8)} (h : Kept table s batches) (b : Batch)
    (hfree : b.bytes = [] → b.stack = .incomplete ∨ ¬Held table batches) :
    let r := (uartEncryptMachine table).step s b
    r.1 = (endReport table s.parser b.bytes).map emit ∧ Kept table r.2 (batches ++ [b.bytes]) := by
  obtain ⟨stack, bytes⟩ := b
  rcases List.eq_nil_or_concat bytes with rfl | ⟨pre, c, rfl⟩
  · have hclean : stack = .incomplete ∨ s.recvMsg.isMsg = false :=
      (hfree rfl).imp_right fun hno => Bool.eq_false_iff.mpr (mt h.held.mp hno)
    rw [step_nil h.send hclean]
    refine ⟨rfl, ?_, h.send, h.held.trans (held_snoc_nil batches).symm⟩
    rw [h.parser]
    simp
  · rw [List.concat_eq_append]
    obtain ⟨hanswer, hparser, hsend, hheld⟩ := step_snoc table h.send stack pre c
    refine ⟨hanswer, ?_, hsend, hheld.trans ?_⟩
    · rw [hparser, h.parser, ← Machine.exec_append, List.flatten_append, List.flatten_singleton]
    · rw [held_snoc_concat, h.held, endReport_snoc, h.parser, ← Machine.exec_append,
        report_eq_none_iff, Ne, reports_eq_nil_iff]

theorem Kept.run {stacked : List Batch} (h : ∀ pre b post, stacked = pre ++ b :: post →
      b.bytes = [] → b.stack = .incomplete ∨ ¬Held table (pre.map Batch.bytes)) :
    Kept table ((uartEncryptMachine table).exec init stacked) (stacked.map Batch.bytes) := by
  induction stacked using List.reverseRecOn with
  | nil => exact kept_init
  | append_singleton stacked b ih =>
      have hbefore := ih fun pre b' post heq => h pre b' (post ++ [b]) (by rw [heq]; simp)
      rw [Machine.exec_snoc, List.map_append]
      exact (hbefore.step b (h stacked b [] rfl)).2

/-- **Whole runs**: what is passed on is what is completed, if each message is
handed over in its batch. -/
theorem emitted_eq {stacked : List Batch} (h : EachHandedOver table (stacked.map Batch.bytes)) :
    ((uartEncryptMachine table).answers init stacked).reduceOption =
      (completed table (.init, .zero) (stacked.map Batch.bytes).flatten).map emit := by
  have hfree : ∀ pre b post, stacked = pre ++ b :: post → b.bytes = [] →
      b.stack = .incomplete ∨ ¬Held table (pre.map Batch.bytes) := by
    rintro pre b post rfl hnil
    exact Or.inr (h.empty (pre.map Batch.bytes) (post.map Batch.bytes) (by simp [hnil]))
  induction stacked using List.reverseRecOn with
  | nil => rfl
  | append_singleton stacked b ih =>
      have hfree' : ∀ pre b' post, stacked = pre ++ b' :: post → b'.bytes = [] →
          b'.stack = .incomplete ∨ ¬Held table (pre.map Batch.bytes) :=
        fun pre b' post heq => hfree pre b' (post ++ [b]) (by rw [heq]; simp)
      have hkept := Kept.run hfree'
      have hbefore := ih (h.of_prefix (by simp)) hfree'
      have hends : (endReport table ((uartEncryptMachine table).exec init stacked).parser
          b.bytes).toList = completed table
            ((uartEncryptMachine table).exec init stacked).parser b.bytes := by
        rcases eq_or_ne b.bytes [] with hnil | hne
        · rw [hnil]
          rfl
        · rw [hkept.parser, endReport_eq_completed_iff _ hne]
          exact h.ends (stacked.map Batch.bytes) b.bytes [] (by simp) hne
      rw [Machine.outputs_snoc, hbefore, (hkept.step b (hfree stacked b [] rfl)).1,
        List.map_append, List.flatten_append, List.map_singleton, List.flatten_singleton,
        completed_append, ← hkept.parser, ← hends, List.map_append]
      cases endReport table _ b.bytes <;> rfl

end Steps

theorem map_msg_emit (xs : List MavlinkMessage) : (xs.map emit).map Emitted.msg = xs := by
  rw [List.map_map]
  exact List.map_id xs

def clean (batches : List (List UInt8)) : List Batch := batches.map (Batch.mk .incomplete)

@[simp] theorem map_bytes_clean (batches : List (List UInt8)) :
    (clean batches).map Batch.bytes = batches := by
  rw [clean, List.map_map]
  exact List.map_id batches

theorem kept_clean (table : MavlinkMsgTable) (batches : List (List UInt8)) :
    Kept table ((uartEncryptMachine table).exec init (clean batches)) batches := by
  have hfree : ∀ pre b post, clean batches = pre ++ b :: post → b.bytes = [] →
      b.stack = .incomplete ∨ ¬Held table (pre.map Batch.bytes) := by
    intro pre b post heq _
    have hmem : b ∈ clean batches := by simp [heq]
    obtain ⟨bytes, -, rfl⟩ := List.mem_map.mp hmem
    exact Or.inl rfl
  have hrun := Kept.run hfree
  rwa [map_bytes_clean] at hrun

/-- If every message crosses once, a batch hands over what it completes. -/
theorem crossesOnce_step {table : MavlinkMsgTable} {before : List (List UInt8)}
    {batch : List UInt8} {after : List (List UInt8)}
    (h : CrossesOnce table (uartEncryptMachine table) (before ++ batch :: after))
    (stack : MavlinkFraming) :
    ((uartEncryptMachine table).step ((uartEncryptMachine table).exec init (clean before))
        ⟨stack, batch⟩).1.toList.map Emitted.msg =
      completed table ((uartEncryptMachine table).exec init (clean before)).parser batch := by
  have hpre := (h (clean before) (by simp)).1
  have hall := (h (clean before ++ [⟨stack, batch⟩])
    (by rw [List.map_append, map_bytes_clean]; exact ⟨after, by simp⟩)).1
  simp only [List.map_append, map_bytes_clean, List.map_singleton, List.flatten_append,
    List.flatten_singleton, Machine.outputs_snoc, completed_append, hpre] at hall
  rw [← (kept_clean table before).parser] at hall
  exact List.append_cancel_left hall

theorem crossesOnce_iff (table : MavlinkMsgTable) (batches : List (List UInt8)) :
    CrossesOnce table (uartEncryptMachine table) batches ↔ EachHandedOver table batches := by
  constructor
  · intro h
    constructor
    · rintro before batch after rfl hne
      have hkept := kept_clean table before
      have hstep := crossesOnce_step h .incomplete
      rw [(hkept.step ⟨.incomplete, batch⟩ fun _ => Or.inl rfl).1] at hstep
      rw [← endReport_eq_completed_iff _ hne .zero, ← hkept.parser, ← hstep]
      cases endReport table _ batch <;> rfl
    · rintro before after rfl hheld
      have hok : MavlinkFraming.ok ≠ .incomplete := by decide
      have hstep := crossesOnce_step h .ok
      rw [step_nil_held hok ((kept_clean table before).held.mpr hheld)] at hstep
      exact absurd hstep (List.cons_ne_nil _ _)
  · intro h stacked hbytes
    have hemitted := emitted_eq (h.of_prefix hbytes)
    show List.map _ (List.reduceOption _) = _ ∧ List.map _ (List.reduceOption _) = _
    rw [hemitted, map_msg_emit, List.map_map]
    exact ⟨rfl, rfl⟩

end Forwarder

/-- **When every message crosses once.** For every stream and every split of
it into batches: after each batch Encrypt has passed on exactly the messages
that the parser has completed, once, unmodified and in order, if and only if
each batch with bytes ends clean or restored and no batch without finds a
message that is held; and so does Decrypt. -/
theorem crosses_once_exactly (table : MavlinkMsgTable) (batches : List (List UInt8)) :
    (CrossesOnce table (uartEncryptMachine table) batches ↔ EachHandedOver table batches) ∧
    (CrossesOnce table (uartDecryptMachine table) batches ↔ EachHandedOver table batches) :=
  ⟨Forwarder.crossesOnce_iff table batches, Forwarder.crossesOnce_iff table batches⟩

/-- Two messages in one batch. -/
def fullBatch : List UInt8 := (heartbeat 1).bytes ++ (heartbeat 2).bytes

/-- A message, and in the next batch a signed frame up to its checksum, which
is wrong. -/
def spoiledBatches : List (List UInt8) :=
  [(heartbeat 1).bytes, [0xFD, 0, 1, 0, 0, 1, 1, 0, 0, 0, 0, 0]]

/-- Of two messages in one batch the first is lost; and a message is passed on
again, with another checksum, for a frame that is not complete. -/
theorem first_message_lost :
    (((uartEncryptMachine fun _ => none).answers .init
      [⟨.incomplete, fullBatch⟩]).reduceOption.map fun e => e.msg.seq) = [2] ∧
    ((completed (fun _ => none) (.init, .zero) fullBatch).map fun m => m.seq) = [1, 2] ∧
    ¬CrossesOnce (fun _ => none) (uartEncryptMachine fun _ => none) [fullBatch] ∧
    ¬CrossesOnce (fun _ => none) (uartDecryptMachine fun _ => none) [fullBatch] ∧
    (((uartEncryptMachine fun _ => none).answers .init
      (Forwarder.clean spoiledBatches)).reduceOption.map fun e => e.msg.seq) = [1, 1] ∧
    ((completed (fun _ => none) (.init, .zero) spoiledBatches.flatten).map fun m => m.seq) = [1] ∧
    ¬CrossesOnce (fun _ => none) (uartEncryptMachine fun _ => none) spoiledBatches ∧
    ¬CrossesOnce (fun _ => none) (uartDecryptMachine fun _ => none) spoiledBatches := by
  have hlost : (((uartEncryptMachine fun _ => none).answers .init
      (Forwarder.clean [fullBatch])).reduceOption.map fun e => e.msg.seq) ≠
      (completed (fun _ => none) (.init, .zero) [fullBatch].flatten).map fun m => m.seq := by
    decide +kernel
  have hagain : (((uartEncryptMachine fun _ => none).answers .init
      (Forwarder.clean spoiledBatches)).reduceOption.map fun e => e.msg.seq) ≠
      (completed (fun _ => none) (.init, .zero) spoiledBatches.flatten).map fun m => m.seq := by
    decide +kernel
  have hfails : ∀ batches, (((uartEncryptMachine fun _ => none).answers .init
      (Forwarder.clean batches)).reduceOption.map fun e => e.msg.seq) ≠
      ((completed (fun _ => none) (.init, .zero) batches.flatten).map fun m => m.seq) →
      ¬CrossesOnce (fun _ => none) (uartEncryptMachine fun _ => none) batches := by
    intro batches hne h
    have hcross := (h (Forwarder.clean batches) (by simp)).1
    rw [Forwarder.map_bytes_clean] at hcross
    rw [← hcross, List.map_map] at hne
    exact hne rfl
  exact ⟨by decide +kernel, by decide +kernel, hfails _ hlost, hfails _ hlost, by decide +kernel,
    by decide +kernel, hfails _ hagain, hfails _ hagain⟩

/-! ## The batches of the handshake -/

/-- Calls of `read_from_uart` that follow each other. -/
def readMachine (table : MavlinkMsgTable) : Machine Forwarder Batch Unit where
  step s b := ((), s.readFromUart table b.stack b.bytes)

namespace Handshake

def forwarder (s : Handshake) : Forwarder := ⟨s.chan, s.recvMsg, s.sendMsg⟩

/-- Encrypt's messages are what the calls on the batches so far leave, with
the bytes of the batch that is being read. -/
def Follows (table : MavlinkMsgTable) (start : Forwarder) (g : ReadFromUart) (fw : Forwarder)
    (batches : List (List UInt8)) : Prop :=
  ∃ stacked : List Batch,
    let base := (readMachine table).exec start stacked
    match g.pc with
    | .parse | .post => stacked.map Batch.bytes = batches ∧
        ∃ stack, g.got.foldl (Forwarder.parseByte table) (base, stack) = (fw, g.result)
    | .encrypt => ∃ stack got, stacked.map Batch.bytes ++ [got] = batches ∧
        got.foldl (Forwarder.parseByte table) (base, stack) = (fw, g.result)
    | _ => stacked.map Batch.bytes = batches ∧ fw = base

section Steps

variable {table : MavlinkMsgTable} {s : Handshake} {start : Forwarder}

variable (table s) in
/-- Only the event callback touches Encrypt's messages. -/
theorem uart_frame (a : HandshakeAction) (hread : a ≠ .readFromUart) (hevent : a ≠ .deliverEvent) :
    let t := ((handshakeMachine table).step s a).2
    t.read = s.read ∧ t.forwarder = s.forwarder ∧ t.batches = s.batches := by
  cases a with
  | uartRxPoll got =>
      simp only [handshakeMachine, uartRxPoll]
      repeat' split
      all_goals exact ⟨rfl, rfl, rfl⟩
  | sendToEncrypt =>
      simp only [handshakeMachine, sendToEncrypt]
      repeat' split
      all_goals exact ⟨rfl, rfl, rfl⟩
  | readFromUart => exact absurd rfl hread
  | encryptRun =>
      simp only [handshakeMachine, encryptRun]
      split <;> exact ⟨rfl, rfl, rfl⟩
  | deliverAck =>
      simp only [handshakeMachine, deliverAck]
      split <;> exact ⟨rfl, rfl, rfl⟩
  | deliverEvent => exact absurd rfl hevent

theorem forwarder_encrypt (s : Handshake) :
    s.encryptFcDataToTelemData.forwarder = s.forwarder.encryptFcDataToTelemData ∧
    s.encryptFcDataToTelemData.batches = s.batches := by
  rw [encryptFcDataToTelemData, Forwarder.encryptFcDataToTelemData, Forwarder.handOver]
  show (if s.recvMsg.isMsg then _ else s).forwarder = (if s.recvMsg.isMsg then _ else _) ∧ _
  split <;> exact ⟨rfl, rfl⟩

theorem Follows.readFromUart (h : Follows table start s.read s.forwarder s.batches) :
    Follows table start (s.readFromUart table).read (s.readFromUart table).forwarder
      (s.readFromUart table).batches := by
  obtain ⟨stacked, h⟩ := h
  rw [Handshake.readFromUart]
  cases hpc : s.read.pc with
  | register =>
      rw [hpc] at h
      exact ⟨stacked, h⟩
  | idle =>
      rw [hpc] at h
      simp only [Follows, hpc]
      exact ⟨stacked, h⟩
  | wait =>
      rw [hpc] at h
      exact ⟨stacked, h⟩
  | size =>
      rw [hpc] at h
      exact ⟨stacked, h.1, s.read.result, by rw [← h.2]; rfl⟩
  | parse =>
      rw [hpc] at h
      obtain ⟨hbatches, stack, hfold⟩ := h
      dsimp only
      split
      · refine ⟨stacked, hbatches, stack, ?_⟩
        rw [List.foldl_append, hfold]
        rfl
      · exact ⟨stacked, hbatches, stack, hfold⟩
  | post =>
      rw [hpc] at h
      obtain ⟨hbatches, stack, hfold⟩ := h
      exact ⟨stacked, stack, s.read.got, congrArg (· ++ _) hbatches, hfold⟩
  | encrypt =>
      rw [hpc] at h
      obtain ⟨stack, got, hbatches, hfold⟩ := h
      obtain ⟨hforwarder, hsame⟩ := s.forwarder_encrypt
      have hcall : (readMachine table).exec start (stacked ++ [⟨stack, got⟩]) =
          if s.read.result ≠ .incomplete then s.encryptFcDataToTelemData.forwarder
          else s.forwarder := by
        rw [Machine.exec_append, hforwarder]
        show Forwarder.readBatch table _ _ stack got = _
        rw [Forwarder.readBatch, hfold]
      refine ⟨stacked ++ [⟨stack, got⟩], ?_, ?_⟩
      · dsimp only
        rw [List.map_append]
        split
        · exact hbatches.trans hsame.symm
        · exact hbatches
      · dsimp only
        rw [hcall]
        split <;> rfl
  | emit =>
      rw [hpc] at h
      exact ⟨stacked, h⟩

theorem Follows.step (a : HandshakeAction) (hinv : Inv s)
    (h : Follows table start s.read s.forwarder s.batches) :
    let t := ((handshakeMachine table).step s a).2
    Follows table start t.read t.forwarder t.batches := by
  intro t
  by_cases hread : a = .readFromUart
  · subst hread
    exact h.readFromUart
  · by_cases hevent : a = .deliverEvent
    · subst hevent
      show Follows table start s.deliverEvent.read s.deliverEvent.forwarder s.deliverEvent.batches
      rw [Handshake.deliverEvent]
      split
      · next hpending =>
          -- the token is the event, so no call is under way
          have hidle : s.read.pc.busy = false :=
            hinv.token.elsewhere (i := .event) (j := .read) hpending.1 (by decide)
          obtain ⟨stacked, h⟩ := h
          cases hpc : s.read.pc with
          | register =>
              rw [hpc] at h
              exact ⟨stacked, h⟩
          | idle =>
              rw [hpc] at h
              exact ⟨stacked, h⟩
          | _ => simp [hpc, ReadPc.busy] at hidle
      · exact h
    · obtain ⟨hsame, hforwarder, hbatches⟩ := uart_frame table s a hread hevent
      rw [hsame, hforwarder, hbatches]
      exact h

end Steps

end Handshake

/-- **The batch model is that of the handshake.** In every interleaving with
UART, whenever no call of `read_from_uart` is under way, Encrypt's parser and
messages are what calls on the batches read so far leave. -/
theorem handshake_follows (table : MavlinkMsgTable) (send : SendToEncrypt) (read : ReadFromUart)
    (chan : MavlinkChannel) (recvMsg sendMsg : MavlinkMessage) (actions : List HandshakeAction) :
    let start := handshakeInit send read chan recvMsg sendMsg
    let s := (handshakeMachine table).exec start actions
    s.read.pc.busy = false →
      ∃ stacked : List Batch, stacked.map Batch.bytes = s.batches ∧
        s.forwarder = (readMachine table).exec start.forwarder stacked := by
  intro start s hidle
  have hstart : Handshake.Follows table start.forwarder start.read start.forwarder start.batches :=
    ⟨[], rfl, rfl⟩
  have hinv := Handshake.inv_init send read chan recvMsg sendMsg
  obtain ⟨-, stacked, hs⟩ := Machine.exec_inv (M := handshakeMachine table)
    (I := fun t => t.Inv ∧
      Handshake.Follows table start.forwarder t.read t.forwarder t.batches)
    (fun t a ht => ⟨ht.1.step t a, ht.2.step a ht.1⟩) ⟨hinv, hstart⟩ actions
  refine ⟨stacked, ?_⟩
  cases hpc : s.read.pc with
  | register => rwa [hpc] at hs
  | idle => rwa [hpc] at hs
  | _ => simp [hpc, ReadPc.busy] at hidle

end GecRelay
