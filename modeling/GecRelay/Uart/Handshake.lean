import GecRelay.Foundation.Baton
import GecRelay.Foundation.Machine
import GecRelay.Mavlink.Tracking
import GecRelay.Relay.Queue

/-!
# The Event/Ack handshake of comm-uart

UART's main loop polls the serial port into `recv_queue`. Its ack callback
moves up to 300 bytes of the queue to the shared `FC_Data` and signals Encrypt,
whose event callback reads them and signals back. No lock covers `FC_Data`:
what keeps the two sides apart is that there is one token in the system, which
is Encrypt's initial ack, then a pending notification or the callback it
started. The threads run in any order, one access to shared data at a time.

A notification is a bit, and its callback is called when the bit is set and
the callback registered; the call takes both back. `recv_wait` and `recv_post`
of UART are a mutex. Between them only the main loop and the ack callback touch
the queue, except that the ack callback spins on its size before it has the
mutex.
-/

namespace GecRelay

open Foundation

/-- `sizeof(FC_Data_raw)`. -/
def sizeofFcDataRaw : ℕ := 300

/-- `FC_Data`. -/
structure FcData where
  rawData : ℕ → UInt8
  len : ℕ

/-- The first `n` bytes of `raw_data`. -/
def FcData.bytes (d : FcData) (n : ℕ) : List UInt8 := (List.range n).map d.rawData

def FcData.batch (d : FcData) : List UInt8 := d.bytes d.len

@[simp] theorem FcData.length_bytes (d : FcData) (n : ℕ) : (d.bytes n).length = n := by
  simp [FcData.bytes]

theorem FcData.bytes_succ (d : FcData) (n : ℕ) : d.bytes (n + 1) = d.bytes n ++ [d.rawData n] := by
  simp [FcData.bytes, List.range_succ]

theorem FcData.bytes_prefix (d : FcData) {m n : ℕ} (h : m ≤ n) : d.bytes m <+: d.bytes n := by
  obtain ⟨k, rfl⟩ := Nat.exists_eq_add_of_le h
  rw [FcData.bytes, FcData.bytes, List.range_add, List.map_append]
  exact List.prefix_append _ _

theorem FcData.bytes_store (d : FcData) (n : ℕ) (x : UInt8) :
    FcData.bytes { d with rawData := Function.update d.rawData n x } (n + 1) =
      d.bytes n ++ [x] := by
  rw [FcData.bytes_succ]
  congr 1
  · refine List.map_congr_left fun i hi => ?_
    exact Function.update_of_ne (Nat.ne_of_lt (List.mem_range.mp hi)) _ _
  · exact congrArg (fun y => [y]) (Function.update_self n x d.rawData)

/-- `MAVLink_Message_t`. -/
structure MavlinkMessageT where
  msg : MavlinkMessage
  isMsg : Bool

structure Notification where
  pending : Bool := false
  registered : Bool := false

/-- What `ps_cdev_read` returns for a buffer of 32 bytes. -/
structure RxChunk where
  bytes : List UInt8
  length_le : bytes.length ≤ 32

/-- `uart_rx_poll`, which the main loop calls over and over. -/
inductive UartRxPc
  | read
  | wait (buf : List UInt8)
  | enqueue (buf : List UInt8)
  | post

/-- `consume_UART2Encrypt_DataReadyAck_callback` with `send_to_encrypt`. -/
inductive SendPc
  | register
  | idle
  | spin
  | wait
  | size
  | dequeue
  | store
  | len
  | post
  | emit

structure SendToEncrypt where
  pc : SendPc
  dataSize : ℕ
  i : ℕ
  tmp : UInt8
  error : Int

/-- `consume_UART2Encrypt_DataReadyEvent_callback` with `read_from_uart`. -/
inductive ReadPc
  | register
  | idle
  | wait
  | size
  | parse
  | post
  | encrypt
  | emit

structure ReadFromUart where
  pc : ReadPc
  size : ℕ
  i : ℕ
  result : MavlinkFraming
  /-- The bytes of this batch given to the parser. -/
  got : List UInt8

/-- Both components, and what has happened so far: the bytes `enqueue`
accepted, the batches UART announced and those Encrypt has read. -/
structure Handshake where
  recvQueue : QueueT
  recvFree : Bool
  rx : UartRxPc
  ack : Notification
  send : SendToEncrypt
  fcData : FcData
  event : Notification
  read : ReadFromUart
  started : Bool
  chan : MavlinkChannel
  recvMsg : MavlinkMessageT
  sendMsg : MavlinkMessageT
  enqueued : List UInt8
  sent : List (List UInt8)
  batches : List (List UInt8)

namespace Handshake

/-- A step of `uart_rx_poll`; `got` is what the serial port has. -/
def uartRxPoll (s : Handshake) (got : RxChunk) : Handshake :=
  match s.rx with
  | .read => { s with rx := .wait got.bytes }
  | .wait buf => if s.recvFree then { s with rx := .enqueue buf, recvFree := false } else s
  | .enqueue [] => { s with rx := .post }
  | .enqueue (x :: buf) =>
      let r := s.recvQueue.enqueue x
      -- a full queue drops the rest of the buffer
      if r.1 ≠ 0 then { s with rx := .post }
      else { s with rx := .enqueue buf, recvQueue := r.2, enqueued := s.enqueued ++ [x] }
  | .post => { s with rx := .read, recvFree := true }

/-- A step of UART's ack callback. -/
def sendToEncrypt (s : Handshake) : Handshake :=
  let g := s.send
  match g.pc with
  | .register =>
      { s with send := { g with pc := .idle }, ack := { s.ack with registered := true } }
  | .idle => s
  | .spin => if s.recvQueue.size > 0 then { s with send := { g with pc := .wait } } else s
  | .wait =>
      if s.recvFree then { s with send := { g with pc := .size }, recvFree := false } else s
  | .size =>
      let dataSize := s.recvQueue.size
      { s with send := { g with
        pc := .dequeue
        dataSize := if dataSize > sizeofFcDataRaw then sizeofFcDataRaw else dataSize
        i := 0 } }
  | .dequeue =>
      if g.i < g.dataSize then
        let r := s.recvQueue.dequeue g.tmp
        if r.1 = 0 then
          { s with recvQueue := r.2.2, send := { g with pc := .store, tmp := r.2.1 } }
        -- "Should not get here"
        else { s with send := { g with pc := .len, dataSize := 0, error := -1 } }
      else { s with send := { g with pc := .len } }
  | .store =>
      { s with
        send := { g with pc := .dequeue, i := g.i + 1 }
        fcData := { s.fcData with rawData := Function.update s.fcData.rawData g.i g.tmp } }
  | .len =>
      { s with send := { g with pc := .post }, fcData := { s.fcData with len := g.dataSize } }
  | .post => { s with send := { g with pc := .emit }, recvFree := true }
  | .emit =>
      { s with
        send := { g with pc := .register }
        event := { s.event with pending := true }
        sent := s.sent ++ [s.fcData.batch] }

/-- `Encrypt_FC_Data_to_Telem_Data`, which works on Encrypt's own messages. -/
def encryptFcDataToTelemData (s : Handshake) : Handshake :=
  if s.recvMsg.isMsg then
    { s with sendMsg := s.recvMsg, recvMsg := { s.recvMsg with isMsg := false } }
  else s

/-- A step of Encrypt's event callback. Nothing else takes Encrypt's own mutex
while it reads. -/
def readFromUart (table : MavlinkMsgTable) (s : Handshake) : Handshake :=
  let g := s.read
  match g.pc with
  | .register =>
      { s with read := { g with pc := .idle }, event := { s.event with registered := true } }
  | .idle => s
  | .wait => { s with read := { g with pc := .size } }
  | .size => { s with read := { g with pc := .parse, size := s.fcData.len, i := 0, got := [] } }
  | .parse =>
      if g.i < g.size then
        let c := s.fcData.rawData g.i
        let r := mavlinkFrameCharBuffer table s.chan c s.recvMsg.msg
        { s with
          read := { g with i := g.i + 1, result := r.1, got := g.got ++ [c] }
          chan := r.2.2
          recvMsg := { msg := r.2.1, isMsg := s.recvMsg.isMsg || r.1 ≠ .incomplete } }
      else { s with read := { g with pc := .post } }
  | .post => { s with read := { g with pc := .encrypt }, batches := s.batches ++ [g.got] }
  | .encrypt =>
      let s := if g.result ≠ .incomplete then s.encryptFcDataToTelemData else s
      { s with read := { g with pc := .emit } }
  | .emit =>
      { s with read := { g with pc := .register }, ack := { s.ack with pending := true } }

/-- `run` of Encrypt: one ack, then an empty loop. -/
def encryptRun (s : Handshake) : Handshake :=
  if s.started then s else { s with started := true, ack := { s.ack with pending := true } }

def deliverAck (s : Handshake) : Handshake :=
  if s.ack.pending ∧ s.ack.registered then
    { s with
      ack := { pending := false, registered := false }
      send := { s.send with pc := .spin, error := 0 } }
  else s

def deliverEvent (s : Handshake) : Handshake :=
  if s.event.pending ∧ s.event.registered then
    { s with
      event := { pending := false, registered := false }
      read := { s.read with pc := .wait } }
  else s

end Handshake

inductive HandshakeAction
  | uartRxPoll (got : RxChunk)
  | sendToEncrypt
  | readFromUart
  | encryptRun
  | deliverAck
  | deliverEvent

def handshakeMachine (table : MavlinkMsgTable) : Machine Handshake HandshakeAction Unit where
  step s
    | .uartRxPoll got => ((), s.uartRxPoll got)
    | .sendToEncrypt => ((), s.sendToEncrypt)
    | .readFromUart => ((), s.readFromUart table)
    | .encryptRun => ((), s.encryptRun)
    | .deliverAck => ((), s.deliverAck)
    | .deliverEvent => ((), s.deliverEvent)

/-- After the `pre_init` of both components. The two callbacks are about to be
registered by the `__init` functions; locals are not initialised. -/
def handshakeInit (send : SendToEncrypt) (read : ReadFromUart) (chan : MavlinkChannel)
    (recvMsg sendMsg : MavlinkMessage) : Handshake where
  recvQueue := QueueT.init
  recvFree := true
  rx := .read
  ack := {}
  send := { send with pc := .register, error := 0 }
  fcData := { rawData := fun _ => 0xFF, len := 0 }
  event := {}
  read := { read with pc := .register }
  started := false
  chan := chan
  recvMsg := { msg := recvMsg, isMsg := false }
  sendMsg := { msg := sendMsg, isMsg := false }
  enqueued := []
  sent := []
  batches := []

/-! ## One token, one mutex -/

/-- From the delivery of the ack to the event. -/
def SendPc.busy : SendPc → Bool
  | .register => false
  | .idle => false
  | _ => true

/-- From the delivery of the event to the ack. -/
def ReadPc.busy : ReadPc → Bool
  | .register => false
  | .idle => false
  | _ => true

/-- The batch in `FC_Data` is announced and not read to the end. -/
def ReadPc.unread : ReadPc → Bool
  | .wait => true
  | .size => true
  | .parse => true
  | .post => true
  | _ => false

/-- Between `recv_wait` and `recv_post`. -/
def SendPc.locked : SendPc → Bool
  | .size => true
  | .dequeue => true
  | .store => true
  | .len => true
  | .post => true
  | _ => false

def UartRxPc.locked : UartRxPc → Bool
  | .enqueue _ => true
  | .post => true
  | _ => false

/-- Where the token can be; at first Encrypt's `run` has it. -/
inductive TokenPlace
  | run
  | ack
  | send
  | event
  | read
deriving DecidableEq

def Handshake.token (s : Handshake) : TokenPlace → Bool
  | .run => !s.started
  | .ack => s.ack.pending
  | .send => s.send.pc.busy
  | .event => s.event.pending
  | .read => s.read.pc.busy

inductive RecvPlace
  | free
  | rx
  | send
deriving DecidableEq

def Handshake.recv (s : Handshake) : RecvPlace → Bool
  | .free => s.recvFree
  | .rx => s.rx.locked
  | .send => s.send.pc.locked

namespace Handshake

variable {table : MavlinkMsgTable} {s : Handshake}

theorem uartRxPoll_passes (s : Handshake) (got : RxChunk) :
    (s.uartRxPoll got).token = s.token ∧ Passes s.recv (s.uartRxPoll got).recv := by
  obtain ⟨q, free, rx, ack, g, d, event, read, started, chan, recvMsg, sendMsg, enqueued, sent,
    batches⟩ := s
  cases rx with
  | read => exact ⟨rfl, .of_eq (fun p => by cases p <;> rfl)⟩
  | wait buf =>
      cases free with
      | false => exact ⟨rfl, .stay⟩
      | true => exact ⟨rfl, .of_pass .free .rx rfl (fun p => by cases p <;> rfl)⟩
  | enqueue buf =>
      cases buf with
      | nil => exact ⟨rfl, .of_eq (fun p => by cases p <;> rfl)⟩
      | cons x buf =>
          simp only [uartRxPoll]
          split
          · exact ⟨rfl, .of_eq (fun p => by cases p <;> rfl)⟩
          · exact ⟨rfl, .of_eq (fun p => by cases p <;> rfl)⟩
  | post => exact ⟨rfl, .of_pass .rx .free rfl (fun p => by cases p <;> rfl)⟩

theorem sendToEncrypt_passes (s : Handshake) :
    Passes s.token s.sendToEncrypt.token ∧ Passes s.recv s.sendToEncrypt.recv := by
  obtain ⟨q, free, rx, ack, ⟨pc, dataSize, i, tmp, error⟩, d, event, read, started, chan, recvMsg,
    sendMsg, enqueued, sent, batches⟩ := s
  cases pc with
  | emit =>
      exact ⟨.of_pass .send .event rfl (fun p => by cases p <;> rfl),
        .of_eq (fun p => by cases p <;> rfl)⟩
  | spin =>
      simp only [sendToEncrypt]
      split
      · exact ⟨.of_eq (fun p => by cases p <;> rfl), .of_eq (fun p => by cases p <;> rfl)⟩
      · exact ⟨.stay, .stay⟩
  | wait =>
      cases free with
      | false => exact ⟨.stay, .stay⟩
      | true =>
          exact ⟨.of_eq (fun p => by cases p <;> rfl),
            .of_pass .free .send rfl (fun p => by cases p <;> rfl)⟩
  | dequeue =>
      simp only [sendToEncrypt]
      split
      · split
        · exact ⟨.of_eq (fun p => by cases p <;> rfl), .of_eq (fun p => by cases p <;> rfl)⟩
        · exact ⟨.of_eq (fun p => by cases p <;> rfl), .of_eq (fun p => by cases p <;> rfl)⟩
      · exact ⟨.of_eq (fun p => by cases p <;> rfl), .of_eq (fun p => by cases p <;> rfl)⟩
  | post =>
      exact ⟨.of_eq (fun p => by cases p <;> rfl),
        .of_pass .send .free rfl (fun p => by cases p <;> rfl)⟩
  | _ => exact ⟨.of_eq (fun p => by cases p <;> rfl), .of_eq (fun p => by cases p <;> rfl)⟩

theorem readFromUart_passes (table : MavlinkMsgTable) (s : Handshake) :
    Passes s.token (s.readFromUart table).token ∧ (s.readFromUart table).recv = s.recv := by
  obtain ⟨q, free, rx, ack, g, d, event, ⟨pc, size, i, result, got⟩, started, chan, recvMsg,
    sendMsg, enqueued, sent, batches⟩ := s
  cases pc with
  | parse =>
      simp only [readFromUart]
      split
      · exact ⟨.of_eq (fun p => by cases p <;> rfl), rfl⟩
      · exact ⟨.of_eq (fun p => by cases p <;> rfl), rfl⟩
  | encrypt =>
      simp only [readFromUart, encryptFcDataToTelemData]
      split
      · split
        · exact ⟨.of_eq (fun p => by cases p <;> rfl), rfl⟩
        · exact ⟨.of_eq (fun p => by cases p <;> rfl), rfl⟩
      · exact ⟨.of_eq (fun p => by cases p <;> rfl), rfl⟩
  | emit => exact ⟨.of_pass .read .ack rfl (fun p => by cases p <;> rfl), rfl⟩
  | _ => exact ⟨.of_eq (fun p => by cases p <;> rfl), rfl⟩

theorem encryptRun_passes (s : Handshake) :
    Passes s.token s.encryptRun.token ∧ s.encryptRun.recv = s.recv := by
  obtain ⟨q, free, rx, ack, g, d, event, read, started, chan, recvMsg, sendMsg, enqueued, sent,
    batches⟩ := s
  cases started with
  | true => exact ⟨.stay, rfl⟩
  | false => exact ⟨.of_pass .run .ack rfl (fun p => by cases p <;> rfl), rfl⟩

/-- A callback that is not running holds no mutex. -/
theorem locked_of_not_busy {pc : SendPc} (h : pc.busy = false) : pc.locked = false := by
  cases pc <;> first | rfl | cases h

theorem deliverAck_passes (h : Baton s.token) :
    Passes s.token s.deliverAck.token ∧ Passes s.recv s.deliverAck.recv := by
  rw [deliverAck]
  split
  · next hready =>
      have hidle : s.send.pc.busy = false := h.elsewhere (i := .ack) (j := .send) hready.1 nofun
      refine ⟨.of_pass .ack .send hready.1 (fun p => by cases p <;> rfl), .of_eq fun p => ?_⟩
      cases p with
      | send => exact (locked_of_not_busy hidle).symm
      | _ => rfl
  · exact ⟨.stay, .stay⟩

theorem deliverEvent_passes (s : Handshake) :
    Passes s.token s.deliverEvent.token ∧ s.deliverEvent.recv = s.recv := by
  rw [deliverEvent]
  split
  · next hready => exact ⟨.of_pass .event .read hready.1 (fun p => by cases p <;> rfl), rfl⟩
  · exact ⟨.stay, rfl⟩

theorem token_recv_step (table : MavlinkMsgTable) (htoken : Baton s.token) (hrecv : Baton s.recv)
    (a : HandshakeAction) :
    Baton ((handshakeMachine table).step s a).2.token ∧
    Baton ((handshakeMachine table).step s a).2.recv := by
  cases a with
  | uartRxPoll got =>
      obtain ⟨htok, hrec⟩ := s.uartRxPoll_passes got
      exact ⟨htok ▸ htoken, hrecv.step hrec⟩
  | sendToEncrypt =>
      obtain ⟨htok, hrec⟩ := s.sendToEncrypt_passes
      exact ⟨htoken.step htok, hrecv.step hrec⟩
  | readFromUart =>
      obtain ⟨htok, hrec⟩ := readFromUart_passes table s
      exact ⟨htoken.step htok, hrec ▸ hrecv⟩
  | encryptRun =>
      obtain ⟨htok, hrec⟩ := s.encryptRun_passes
      exact ⟨htoken.step htok, hrec ▸ hrecv⟩
  | deliverAck =>
      obtain ⟨htok, hrec⟩ := deliverAck_passes htoken
      exact ⟨htoken.step htok, hrecv.step hrec⟩
  | deliverEvent =>
      obtain ⟨htok, hrec⟩ := s.deliverEvent_passes
      exact ⟨htoken.step htok, hrec ▸ hrecv⟩

/-! ## From the queue to the batch -/

/-- What the ack callback has taken from the queue and not announced yet. -/
def filled (g : SendToEncrypt) (d : FcData) : List UInt8 :=
  match g.pc with
  | .dequeue => d.bytes g.i
  | .store => d.bytes g.i ++ [g.tmp]
  | .len => d.bytes g.dataSize
  | .post => d.bytes g.dataSize
  | .emit => d.bytes g.dataSize
  | _ => []

/-- The batch fits `raw_data`, and the queue, of which only this thread takes,
has what is missing of it. -/
def Fits (g : SendToEncrypt) (queued : ℕ) (d : FcData) : Prop :=
  match g.pc with
  | .wait => 0 < queued
  | .size => 0 < queued
  | .dequeue =>
      0 < g.dataSize ∧ g.dataSize ≤ sizeofFcDataRaw ∧ g.i ≤ g.dataSize ∧ g.dataSize ≤ g.i + queued
  | .store =>
      0 < g.dataSize ∧ g.dataSize ≤ sizeofFcDataRaw ∧ g.i < g.dataSize ∧
        g.dataSize ≤ g.i + 1 + queued
  | .len => 0 < g.dataSize ∧ g.dataSize ≤ sizeofFcDataRaw
  | .post => 0 < g.dataSize ∧ g.dataSize ≤ sizeofFcDataRaw ∧ d.len = g.dataSize
  | .emit => 0 < g.dataSize ∧ g.dataSize ≤ sizeofFcDataRaw ∧ d.len = g.dataSize
  | _ => True

theorem Fits.mono {g : SendToEncrypt} {d : FcData} {m n : ℕ} (h : Fits g m d) (hmn : m ≤ n) :
    Fits g n d := by
  obtain ⟨pc, dataSize, i, tmp, error⟩ := g
  cases pc with
  | wait => exact Nat.lt_of_lt_of_le h hmn
  | size => exact Nat.lt_of_lt_of_le h hmn
  | dequeue =>
      obtain ⟨hpos, hmax, hi, hle⟩ := h
      exact ⟨hpos, hmax, hi, hle.trans (Nat.add_le_add_left hmn _)⟩
  | store =>
      obtain ⟨hpos, hmax, hi, hle⟩ := h
      exact ⟨hpos, hmax, hi, hle.trans (Nat.add_le_add_left hmn _)⟩
  | _ => exact h

/-- **What UART keeps.** Bytes leave the queue in order, and none is lost. -/
structure Filling (g : SendToEncrypt) (q : QueueT) (d : FcData) (sent : List (List UInt8))
    (enqueued : List UInt8) : Prop where
  fits : Fits g q.size d
  conserved : sent.flatten ++ filled g d ++ q.content = enqueued
  sized : ∀ b ∈ sent, 0 < b.length ∧ b.length ≤ sizeofFcDataRaw
  error_eq : g.error = 0

theorem uartRxPoll_frame (s : Handshake) (got : RxChunk) :
    (s.uartRxPoll got).send = s.send ∧ (s.uartRxPoll got).fcData = s.fcData ∧
    (s.uartRxPoll got).sent = s.sent ∧
    ∃ xs : List UInt8, (s.uartRxPoll got).recvQueue.content = s.recvQueue.content ++ xs ∧
      (s.uartRxPoll got).enqueued = s.enqueued ++ xs := by
  rw [uartRxPoll]
  split
  · exact ⟨rfl, rfl, rfl, [], by simp, by simp⟩
  · split
    · exact ⟨rfl, rfl, rfl, [], by simp, by simp⟩
    · exact ⟨rfl, rfl, rfl, [], by simp, by simp⟩
  · exact ⟨rfl, rfl, rfl, [], by simp, by simp⟩
  · next x buf _ =>
      dsimp only
      split
      · exact ⟨rfl, rfl, rfl, [], by simp, by simp⟩
      · next hret =>
          have hroom := QueueT.lt_of_enqueue (not_not.mp hret)
          exact ⟨rfl, rfl, rfl, [x], (QueueT.enqueue_content hroom x).2, rfl⟩
  · exact ⟨rfl, rfl, rfl, [], by simp, by simp⟩

theorem Filling.append {g : SendToEncrypt} {q q' : QueueT} {d : FcData}
    {sent : List (List UInt8)} {enqueued xs : List UInt8} (h : Filling g q d sent enqueued)
    (hq : q'.content = q.content ++ xs) : Filling g q' d sent (enqueued ++ xs) where
  fits := h.fits.mono (by
    rw [← QueueT.length_content, ← QueueT.length_content, hq, List.length_append]
    exact Nat.le_add_right _ _)
  conserved := by rw [hq, ← h.conserved, List.append_assoc, List.append_assoc, List.append_assoc]
  sized := h.sized
  error_eq := h.error_eq

/-- The queue has what is missing of the batch, so `dequeue` does not fail. -/
theorem Filling.dequeue {g : SendToEncrypt} {q : QueueT} {d : FcData} {sent : List (List UInt8)}
    {enqueued : List UInt8} (h : Filling g q d sent enqueued) (hpc : g.pc = .dequeue)
    (hmore : g.i < g.dataSize) :
    (q.dequeue g.tmp).1 = 0 ∧
    Filling { g with pc := .store, tmp := (q.dequeue g.tmp).2.1 } (q.dequeue g.tmp).2.2 d sent
      enqueued := by
  obtain ⟨pc, dataSize, i, tmp, error⟩ := g
  obtain rfl : pc = .dequeue := hpc
  obtain ⟨hpos, hmax, -, hle⟩ : 0 < dataSize ∧ dataSize ≤ sizeofFcDataRaw ∧ i ≤ dataSize ∧
    dataSize ≤ i + q.size := h.fits
  have hall : sent.flatten ++ d.bytes i ++ q.content = enqueued := h.conserved
  have hlt : i < dataSize := hmore
  obtain ⟨x, rest, hcons⟩ : ∃ x rest, q.content = x :: rest :=
    List.exists_cons_of_length_pos (by rw [QueueT.length_content]; omega)
  obtain ⟨hret, hx, hrest⟩ := QueueT.dequeue_content hcons tmp
  have hsize : (q.dequeue tmp).2.2.size + 1 = q.size := by
    rw [← QueueT.length_content, hrest, ← QueueT.length_content q, hcons, List.length_cons]
  have hleft : dataSize ≤ i + 1 + (q.dequeue tmp).2.2.size := by omega
  refine ⟨hret, ⟨hpos, hmax, hlt, hleft⟩, ?_, h.sized, h.error_eq⟩
  show sent.flatten ++ (d.bytes i ++ [(q.dequeue tmp).2.1]) ++ (q.dequeue tmp).2.2.content =
    enqueued
  rw [← hall, hx, hrest, hcons]
  simp

/-- The batch that is announced is what was taken from the queue. -/
theorem Filling.emit {g : SendToEncrypt} {q : QueueT} {d : FcData} {sent : List (List UInt8)}
    {enqueued : List UInt8} (h : Filling g q d sent enqueued) (hpc : g.pc = .emit) :
    Filling { g with pc := .register } q d (sent ++ [d.batch]) enqueued := by
  obtain ⟨pc, dataSize, i, tmp, error⟩ := g
  obtain rfl : pc = .emit := hpc
  obtain ⟨hpos, hmax, hlen⟩ : 0 < dataSize ∧ dataSize ≤ sizeofFcDataRaw ∧ d.len = dataSize :=
    h.fits
  subst hlen
  refine ⟨trivial, ?_, fun b hb => ?_, h.error_eq⟩
  · show (sent ++ [d.batch]).flatten ++ [] ++ q.content = enqueued
    rw [List.append_nil, List.flatten_append, List.flatten_singleton]
    exact h.conserved
  · rcases List.mem_append.mp hb with hb | hb
    · exact h.sized b hb
    · rw [List.mem_singleton.mp hb, FcData.batch, FcData.length_bytes]
      exact ⟨hpos, hmax⟩

theorem Filling.sendToEncrypt
    (h : Filling s.send s.recvQueue s.fcData s.sent s.enqueued) :
    Filling s.sendToEncrypt.send s.sendToEncrypt.recvQueue s.sendToEncrypt.fcData
      s.sendToEncrypt.sent s.sendToEncrypt.enqueued := by
  have ⟨hfits, hconserved, hsized, herror⟩ := h
  obtain ⟨q, free, rx, ack, ⟨pc, dataSize, i, tmp, error⟩, d, event, read, started, chan, recvMsg,
    sendMsg, enqueued, sent, batches⟩ := s
  cases pc with
  | register => exact ⟨trivial, hconserved, hsized, herror⟩
  | idle => exact ⟨trivial, hconserved, hsized, herror⟩
  | spin =>
      simp only [Handshake.sendToEncrypt]
      split
      · next hpos => exact ⟨hpos, hconserved, hsized, herror⟩
      · exact ⟨trivial, hconserved, hsized, herror⟩
  | wait =>
      cases free with
      | false => exact ⟨hfits, hconserved, hsized, herror⟩
      | true => exact ⟨hfits, hconserved, hsized, herror⟩
  | size =>
      have hpos : 0 < q.size := hfits
      refine ⟨?_, hconserved, hsized, herror⟩
      show 0 < (if q.size > sizeofFcDataRaw then sizeofFcDataRaw else q.size) ∧
        (if q.size > sizeofFcDataRaw then sizeofFcDataRaw else q.size) ≤ sizeofFcDataRaw ∧
        0 ≤ (if q.size > sizeofFcDataRaw then sizeofFcDataRaw else q.size) ∧
        (if q.size > sizeofFcDataRaw then sizeofFcDataRaw else q.size) ≤ 0 + q.size
      rw [sizeofFcDataRaw]
      split <;> omega
  | dequeue =>
      simp only [Handshake.sendToEncrypt]
      split
      · next hmore =>
          obtain ⟨hret, hstore⟩ := h.dequeue rfl hmore
          rw [if_pos hret]
          exact hstore
      · next hdone =>
          obtain ⟨hpos, hmax, hi, -⟩ : 0 < dataSize ∧ dataSize ≤ sizeofFcDataRaw ∧ i ≤ dataSize ∧
            dataSize ≤ i + q.size := hfits
          obtain rfl : i = dataSize := Nat.le_antisymm hi (not_lt.mp hdone)
          exact ⟨⟨hpos, hmax⟩, hconserved, hsized, herror⟩
  | store =>
      obtain ⟨hpos, hmax, hi, hle⟩ : 0 < dataSize ∧ dataSize ≤ sizeofFcDataRaw ∧ i < dataSize ∧
        dataSize ≤ i + 1 + q.size := hfits
      refine ⟨⟨hpos, hmax, hi, hle⟩, ?_, hsized, herror⟩
      show sent.flatten ++
        FcData.bytes { d with rawData := Function.update d.rawData i tmp } (i + 1) ++
          q.content = enqueued
      rw [FcData.bytes_store]
      exact hconserved
  | len =>
      exact ⟨⟨hfits.1, hfits.2, rfl⟩, hconserved, hsized, herror⟩
  | post => exact ⟨hfits, hconserved, hsized, herror⟩
  | emit => exact h.emit rfl

/-! ## From the batch to Encrypt -/

/-- The batch that is announced and not read to the end, if there is one. -/
def unread (pending : Bool) (pc : ReadPc) (d : FcData) : List (List UInt8) :=
  if pending || pc.unread then [d.batch] else []

/-- What Encrypt has read of that batch. -/
def partly (g : ReadFromUart) : List UInt8 :=
  match g.pc with
  | .parse => g.got
  | .post => g.got
  | _ => []

def Copies (g : ReadFromUart) (d : FcData) : Prop :=
  match g.pc with
  | .parse => g.size = d.len ∧ g.i ≤ g.size ∧ g.got = d.bytes g.i
  | .post => g.got = d.batch
  | _ => True

/-- **What Encrypt keeps.** Every batch that was announced is read once. -/
structure Reading (g : ReadFromUart) (pending : Bool) (d : FcData)
    (sent batches : List (List UInt8)) : Prop where
  copies : Copies g d
  once : sent = batches ++ unread pending g.pc d

section Quiet

variable {g : ReadFromUart} {d : FcData} {sent batches : List (List UInt8)}

theorem unread_of_not_busy {pc : ReadPc} (h : pc.busy = false) : pc.unread = false := by
  cases pc <;> first | rfl | cases h

/-- While the event callback is not running, `FC_Data` may change. -/
theorem Reading.of_quiet (hpc : g.pc.busy = false) (pending : Bool)
    (h : sent = batches ++ if pending then [d.batch] else []) :
    Reading g pending d sent batches where
  copies := by
    obtain ⟨pc, size, i, result, got⟩ := g
    cases pc with
    | register => exact trivial
    | idle => exact trivial
    | _ => cases hpc
  once := by rw [unread, unread_of_not_busy hpc, Bool.or_false, h]

theorem Reading.all_read (hpc : g.pc.busy = false) (h : Reading g false d sent batches) :
    sent = batches := by
  rw [h.once, unread, unread_of_not_busy hpc]
  exact List.append_nil batches

end Quiet

theorem Reading.sendToEncrypt (htoken : Baton s.token)
    (h : Reading s.read s.event.pending s.fcData s.sent s.batches) :
    Reading s.sendToEncrypt.read s.sendToEncrypt.event.pending s.sendToEncrypt.fcData
      s.sendToEncrypt.sent s.sendToEncrypt.batches := by
  have hquiet : s.send.pc.busy = true → s.event.pending = false ∧ s.read.pc.busy = false :=
    fun hbusy => ⟨htoken.elsewhere (i := .send) (j := .event) hbusy nofun,
      htoken.elsewhere (i := .send) (j := .read) hbusy nofun⟩
  obtain ⟨q, free, rx, ack, ⟨pc, dataSize, i, tmp, error⟩, d, ⟨pending, registered⟩, read, started,
    chan, recvMsg, sendMsg, enqueued, sent, batches⟩ := s
  -- where `FC_Data` or the event changes, Encrypt has nothing to read
  cases pc with
  | store =>
      obtain ⟨rfl, hread⟩ : pending = false ∧ read.pc.busy = false := hquiet rfl
      exact .of_quiet hread false ((h.all_read hread).trans (List.append_nil batches).symm)
  | len =>
      obtain ⟨rfl, hread⟩ : pending = false ∧ read.pc.busy = false := hquiet rfl
      exact .of_quiet hread false ((h.all_read hread).trans (List.append_nil batches).symm)
  | emit =>
      obtain ⟨rfl, hread⟩ : pending = false ∧ read.pc.busy = false := hquiet rfl
      have hall : sent = batches := h.all_read hread
      refine .of_quiet hread true ?_
      show sent ++ [d.batch] = batches ++ [d.batch]
      rw [hall]
  | spin =>
      simp only [Handshake.sendToEncrypt]
      split
      · exact h
      · exact h
  | wait =>
      cases free with
      | false => exact h
      | true => exact h
  | dequeue =>
      simp only [Handshake.sendToEncrypt]
      split
      · split
        · exact h
        · exact h
      · exact h
  | _ => exact h

theorem Reading.readFromUart (htoken : Baton s.token)
    (h : Reading s.read s.event.pending s.fcData s.sent s.batches) :
    Reading (s.readFromUart table).read (s.readFromUart table).event.pending
      (s.readFromUart table).fcData (s.readFromUart table).sent
      (s.readFromUart table).batches := by
  have hevent : s.read.pc.busy = true → s.event.pending = false :=
    fun hbusy => htoken.elsewhere (i := .read) (j := .event) hbusy nofun
  obtain ⟨hcopies, honce⟩ := h
  obtain ⟨q, free, rx, ack, g, d, ⟨pending, registered⟩, ⟨pc, size, i, result, got⟩, started,
    chan, recvMsg, sendMsg, enqueued, sent, batches⟩ := s
  cases pc with
  | register => exact ⟨trivial, honce⟩
  | idle => exact ⟨trivial, honce⟩
  | wait => exact ⟨trivial, honce⟩
  | size => exact ⟨⟨rfl, Nat.zero_le _, rfl⟩, honce⟩
  | parse =>
      obtain ⟨hsize, hi, hgot⟩ : size = d.len ∧ i ≤ size ∧ got = d.bytes i := hcopies
      simp only [Handshake.readFromUart]
      split
      · next hmore =>
          refine ⟨⟨hsize, hmore, ?_⟩, honce⟩
          show got ++ [d.rawData i] = d.bytes (i + 1)
          rw [hgot, FcData.bytes_succ]
      · next hdone =>
          refine ⟨?_, honce⟩
          show got = d.batch
          rw [hgot, FcData.batch, ← hsize, Nat.le_antisymm hi (not_lt.mp hdone)]
  | post =>
      have hgot : got = d.batch := hcopies
      -- no second event while this one is dealt with
      obtain rfl : pending = false := hevent rfl
      refine ⟨trivial, ?_⟩
      show sent = (batches ++ [got]) ++ []
      rw [List.append_nil, hgot]
      exact honce
  | encrypt =>
      simp only [Handshake.readFromUart, encryptFcDataToTelemData]
      split
      · split
        · exact ⟨trivial, honce⟩
        · exact ⟨trivial, honce⟩
      · exact ⟨trivial, honce⟩
  | emit => exact ⟨trivial, honce⟩

/-! ## Every schedule -/

structure Inv (s : Handshake) : Prop where
  token : Baton s.token
  recv : Baton s.recv
  filling : Filling s.send s.recvQueue s.fcData s.sent s.enqueued
  reading : Reading s.read s.event.pending s.fcData s.sent s.batches

theorem readFromUart_frame (table : MavlinkMsgTable) (s : Handshake) :
    (s.readFromUart table).send = s.send ∧ (s.readFromUart table).recvQueue = s.recvQueue ∧
    (s.readFromUart table).fcData = s.fcData ∧ (s.readFromUart table).sent = s.sent ∧
    (s.readFromUart table).enqueued = s.enqueued := by
  rw [readFromUart]
  dsimp only
  split
  all_goals try exact ⟨rfl, rfl, rfl, rfl, rfl⟩
  · split <;> exact ⟨rfl, rfl, rfl, rfl, rfl⟩
  · rw [encryptFcDataToTelemData]
    split
    · split <;> exact ⟨rfl, rfl, rfl, rfl, rfl⟩
    · exact ⟨rfl, rfl, rfl, rfl, rfl⟩

theorem uartRxPoll_reader (s : Handshake) (got : RxChunk) :
    (s.uartRxPoll got).read = s.read ∧ (s.uartRxPoll got).event = s.event ∧
    (s.uartRxPoll got).batches = s.batches := by
  rw [uartRxPoll]
  split
  all_goals try exact ⟨rfl, rfl, rfl⟩
  · split <;> exact ⟨rfl, rfl, rfl⟩
  · dsimp only
    split <;> exact ⟨rfl, rfl, rfl⟩

theorem Inv.uartRxPoll (h : Inv s) (got : RxChunk) :
    Filling (s.uartRxPoll got).send (s.uartRxPoll got).recvQueue (s.uartRxPoll got).fcData
      (s.uartRxPoll got).sent (s.uartRxPoll got).enqueued ∧
    Reading (s.uartRxPoll got).read (s.uartRxPoll got).event.pending (s.uartRxPoll got).fcData
      (s.uartRxPoll got).sent (s.uartRxPoll got).batches := by
  obtain ⟨hsend, hdata, hsent, xs, hqueue, henq⟩ := s.uartRxPoll_frame got
  obtain ⟨hread, hevent, hbatches⟩ := s.uartRxPoll_reader got
  rw [hsend, hdata, hsent, henq, hread, hevent, hbatches]
  exact ⟨h.filling.append hqueue, h.reading⟩

theorem Inv.deliverAck (h : Inv s) :
    Filling s.deliverAck.send s.deliverAck.recvQueue s.deliverAck.fcData s.deliverAck.sent
      s.deliverAck.enqueued := by
  rw [Handshake.deliverAck]
  split
  · next hready =>
      -- the ack was pending, so the callback was not at work on another batch
      have hidle : s.send.pc.busy = false :=
        h.token.elsewhere (i := .ack) (j := .send) hready.1 nofun
      refine ⟨trivial, ?_, h.filling.sized, rfl⟩
      have hfilled : filled s.send s.fcData = [] := by
        rw [filled]
        split
        all_goals try rfl
        all_goals next hpc => rw [hpc] at hidle; cases hidle
      have hall := h.filling.conserved
      rw [hfilled] at hall
      exact hall
  · exact h.filling

theorem Inv.deliverEvent (h : Inv s) :
    Reading s.deliverEvent.read s.deliverEvent.event.pending s.deliverEvent.fcData
      s.deliverEvent.sent s.deliverEvent.batches := by
  rw [Handshake.deliverEvent]
  split
  · next hready =>
      have honce := h.reading.once
      rw [unread, hready.1, Bool.true_or, if_pos rfl] at honce
      exact ⟨trivial, honce⟩
  · exact h.reading

theorem Inv.step (s : Handshake) (a : HandshakeAction) (h : Inv s) :
    Inv ((handshakeMachine table).step s a).2 := by
  obtain ⟨htoken, hrecv⟩ := token_recv_step table h.token h.recv a
  cases a with
  | uartRxPoll got =>
      obtain ⟨hfilling, hreading⟩ := h.uartRxPoll got
      exact ⟨htoken, hrecv, hfilling, hreading⟩
  | sendToEncrypt =>
      exact ⟨htoken, hrecv, h.filling.sendToEncrypt, h.reading.sendToEncrypt h.token⟩
  | readFromUart =>
      obtain ⟨hsend, hqueue, hdata, hsent, henq⟩ := readFromUart_frame table s
      refine ⟨htoken, hrecv, ?_, h.reading.readFromUart h.token⟩
      show Filling (s.readFromUart table).send (s.readFromUart table).recvQueue
        (s.readFromUart table).fcData (s.readFromUart table).sent (s.readFromUart table).enqueued
      rw [hsend, hqueue, hdata, hsent, henq]
      exact h.filling
  | encryptRun =>
      refine ⟨htoken, hrecv, ?_, ?_⟩
      · simp only [handshakeMachine, Handshake.encryptRun]
        split <;> exact h.filling
      · simp only [handshakeMachine, Handshake.encryptRun]
        split <;> exact h.reading
  | deliverAck =>
      refine ⟨htoken, hrecv, h.deliverAck, ?_⟩
      simp only [handshakeMachine, Handshake.deliverAck]
      split <;> exact h.reading
  | deliverEvent =>
      refine ⟨htoken, hrecv, ?_, h.deliverEvent⟩
      simp only [handshakeMachine, Handshake.deliverEvent]
      split <;> exact h.filling

/-- Only the ack callback writes `FC_Data`. -/
theorem busy_of_write (a : HandshakeAction)
    (hne : ((handshakeMachine table).step s a).2.fcData ≠ s.fcData) : s.send.pc.busy = true := by
  cases a with
  | uartRxPoll got => exact absurd (s.uartRxPoll_frame got).2.1 hne
  | sendToEncrypt =>
      cases hpc : s.send.pc with
      | register => exact absurd (by simp only [handshakeMachine, sendToEncrypt, hpc]) hne
      | idle => exact absurd (by simp only [handshakeMachine, sendToEncrypt, hpc]) hne
      | _ => rfl
  | readFromUart => exact absurd (readFromUart_frame table s).2.2.1 hne
  | encryptRun =>
      refine absurd ?_ hne
      simp only [handshakeMachine, encryptRun]
      split <;> rfl
  | deliverAck =>
      refine absurd ?_ hne
      simp only [handshakeMachine, deliverAck]
      split <;> rfl
  | deliverEvent =>
      refine absurd ?_ hne
      simp only [handshakeMachine, deliverEvent]
      split <;> rfl

/-- At most one of: an ack is pending, UART is filling `FC_Data`, an event is
pending, Encrypt is reading. -/
def Exclusive (s : Handshake) : Prop :=
  s.ack.pending.toNat + s.send.pc.busy.toNat + s.event.pending.toNat + s.read.pc.busy.toNat ≤ 1

/-- **What the handshake is for.** -/
structure Sound (table : MavlinkMsgTable) (s : Handshake) : Prop where
  exclusive : s.Exclusive
  mutex : s.rx.locked = true → s.send.pc.locked = false
  /-- No step writes `FC_Data` while a batch waits or is being read. -/
  unwritten : ∀ a, ((handshakeMachine table).step s a).2.fcData ≠ s.fcData →
    s.event.pending = false ∧ s.read.pc.busy = false
  once : s.sent = s.batches ++ unread s.event.pending s.read.pc s.fcData
  ordered : s.batches.flatten ++ partly s.read <+: s.enqueued
  sized : ∀ b ∈ s.sent, 0 < b.length ∧ b.length ≤ sizeofFcDataRaw
  /-- "Should not get here" is not reached. -/
  error_eq : s.send.error = 0

theorem Inv.exclusive (h : Inv s) : s.Exclusive := by
  have hno : ∀ {i j : TokenPlace}, j ≠ i → s.token i = true → s.token j = false :=
    fun hne hi => h.token.elsewhere hi hne
  show (s.token .ack).toNat + (s.token .send).toNat + (s.token .event).toNat +
    (s.token .read).toNat ≤ 1
  cases hack : s.token .ack with
  | true =>
      rw [hno (i := .ack) (j := .send) nofun hack, hno (i := .ack) (j := .event) nofun hack,
        hno (i := .ack) (j := .read) nofun hack]
      exact Nat.le_refl 1
  | false =>
      cases hsend : s.token .send with
      | true =>
          rw [hno (i := .send) (j := .event) nofun hsend, hno (i := .send) (j := .read) nofun hsend]
          exact Nat.le_refl 1
      | false =>
          cases hevent : s.token .event with
          | true =>
              rw [hno (i := .event) (j := .read) nofun hevent]
              exact Nat.le_refl 1
          | false =>
              rw [Bool.toNat_false, Nat.zero_add]
              exact Bool.toNat_le _

theorem Inv.ordered (h : Inv s) : s.batches.flatten ++ partly s.read <+: s.enqueued := by
  have hpartly : partly s.read <+: (unread s.event.pending s.read.pc s.fcData).flatten := by
    have hcopies := h.reading.copies
    rw [partly]
    rw [Copies] at hcopies
    split
    · next hpc =>
        rw [hpc] at hcopies
        rw [unread, hpc, ReadPc.unread, Bool.or_true, if_pos rfl, List.flatten_singleton,
          hcopies.2.2, FcData.batch, ← hcopies.1]
        exact FcData.bytes_prefix _ hcopies.2.1
    · next hpc =>
        rw [hpc] at hcopies
        rw [unread, hpc, ReadPc.unread, Bool.or_true, if_pos rfl, List.flatten_singleton]
        exact hcopies ▸ List.prefix_refl _
    · exact List.nil_prefix
  have hsent : s.batches.flatten ++ partly s.read <+: s.sent.flatten := by
    rw [h.reading.once, List.flatten_append]
    exact (List.prefix_append_right_inj _).mpr hpartly
  refine hsent.trans ?_
  rw [← h.filling.conserved, List.append_assoc]
  exact List.prefix_append _ _

theorem Inv.sound (h : Inv s) : s.Sound table where
  exclusive := h.exclusive
  mutex hrx := h.recv.elsewhere (i := .rx) (j := .send) hrx nofun
  unwritten a hne :=
    ⟨h.token.elsewhere (i := .send) (j := .event) (busy_of_write a hne) nofun,
      h.token.elsewhere (i := .send) (j := .read) (busy_of_write a hne) nofun⟩
  once := h.reading.once
  ordered := h.ordered
  sized := h.filling.sized
  error_eq := h.filling.error_eq

theorem inv_init (send : SendToEncrypt) (read : ReadFromUart) (chan : MavlinkChannel)
    (recvMsg sendMsg : MavlinkMessage) : Inv (handshakeInit send read chan recvMsg sendMsg) where
  token := ⟨.run, rfl, fun p hp => by cases p <;> first | rfl | cases hp⟩
  recv := ⟨.free, rfl, fun p hp => by cases p <;> first | rfl | cases hp⟩
  filling := ⟨trivial, rfl, fun b hb => absurd hb (List.not_mem_nil), rfl⟩
  reading := ⟨trivial, rfl⟩

end Handshake

/-- **The handshake in every schedule.** In every interleaving of the main
loop's polls, the two callbacks, the deliveries and Encrypt's first ack, with
any bytes from the serial port, every state reached is sound. -/
theorem handshake_sound (table : MavlinkMsgTable) (send : SendToEncrypt) (read : ReadFromUart)
    (chan : MavlinkChannel) (recvMsg sendMsg : MavlinkMessage) (actions : List HandshakeAction) :
    ((handshakeMachine table).exec (handshakeInit send read chan recvMsg sendMsg) actions).Sound
      table :=
  (Machine.exec_inv Handshake.Inv.step
    (Handshake.inv_init send read chan recvMsg sendMsg) actions).sound

/-- One byte on its way to Encrypt. -/
example :
    ((handshakeMachine fun _ => none).exec
      (handshakeInit ⟨.register, 0, 0, 0, 0⟩ ⟨.register, 0, 0, .incomplete, []⟩ .init .zero .zero)
      (List.replicate 5 (.uartRxPoll ⟨[7], by decide⟩) ++
        [.encryptRun, .sendToEncrypt, .readFromUart, .deliverAck] ++
        List.replicate 9 .sendToEncrypt ++
        .deliverEvent :: List.replicate 5 .readFromUart)).batches = [[7]] := by
  decide +kernel

end GecRelay
