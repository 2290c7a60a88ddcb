import GecRelay.Relay.Queue
import GecRelay.Mavlink.Message
import GecRelay.Gec.ChannelRuns

/-!
# The Encrypt components

`encrypt_to_frame` cuts the stream of serialised messages into 64-byte blocks:
it queues the bytes of a message and encrypts as many whole blocks as there
are, each into a frame of 82 bytes on the telemetry line. The relay's copy
takes a block out of the queue by hand, key-exchange's copy with `dequeue`;
the rest is the same. `packed_stream` is the invariant of both: what has
been handed to `gec_encrypt`, followed by what is queued, is what came in.
-/

namespace GecRelay

open Foundation

variable {κ : Type}

def gecCiphertextFrameMagic : UInt8 := 0x7e

def gecCiphertextFrameTag : UInt8 := 0

def cipherTextFrame (ciphertext : Bytes 80) : List UInt8 :=
  gecCiphertextFrameMagic :: gecCiphertextFrameTag :: ciphertext.toList

/-! ## Taking a block -/

/-- `buf[j] = queue.raw_queue[queue.head++]; queue.head %= MAX_QUEUE_SIZE`, `n`
times. -/
def readCells (rawQueue : Bytes maxQueueSize) : ℕ → ℕ → List UInt8 × ℕ
  | 0, head => ([], head)
  | n + 1, head =>
      let b := rawQueue.get (cellIndex maxQueueSize head)
      let (bytes, head') := readCells rawQueue n ((head + 1) % maxQueueSize)
      (b :: bytes, head')

theorem readCells_eq (rawQueue : Bytes maxQueueSize) (n : ℕ) {head : ℕ}
    (h : head < maxQueueSize) :
    readCells rawQueue n head = (window rawQueue head n, (head + n) % maxQueueSize) := by
  induction n generalizing head with
  | zero => rw [readCells, window_zero, Nat.add_zero, Nat.mod_eq_of_lt h]
  | succ n ih =>
      rw [readCells, ih (Nat.mod_lt _ (by decide)), window_mod, window_succ_head, Nat.mod_add_mod,
        Nat.add_assoc, Nat.add_comm 1 n]

/-- `n` cells read in place, then `queue.size -= n`. -/
def inlinedCells (n : ℕ) (q : QueueT) : Bytes n × QueueT :=
  (⟨(readCells q.rawQueue n q.head).1, by rw [readCells_eq _ _ q.head_lt, length_window]⟩, { q with
    head := (readCells q.rawQueue n q.head).2
    size := q.size - n
    head_lt := by
      rw [readCells_eq _ _ q.head_lt]
      exact Nat.mod_lt _ (by decide)
    size_le := (Nat.sub_le _ _).trans q.size_le })

def dequeuedCells (n : ℕ) (q : QueueT) : Bytes n × QueueT :=
  (⟨(q.dequeueMany n).1, q.length_dequeueMany n⟩, (q.dequeueMany n).2)

/-- What a way to take `n` bytes must do on a queue that holds them. -/
def TakesBytes (n : ℕ) (take : QueueT → Bytes n × QueueT) : Prop :=
  ∀ q : QueueT, n ≤ q.size →
    (take q).1.toList = q.content.take n ∧ (take q).2.content = q.content.drop n

theorem inlinedCells_takesBytes (n : ℕ) : TakesBytes n (inlinedCells n) := by
  intro q h
  have hsplit : q.content = window q.rawQueue q.head n ++
      window q.rawQueue (q.head + n) (q.size - n) := by
    rw [← window_add, QueueT.content]
    congr 1
    omega
  have hread := readCells_eq q.rawQueue n q.head_lt
  rw [hsplit, List.take_left' (length_window _ _ _), List.drop_left' (length_window _ _ _)]
  constructor
  · show (readCells q.rawQueue n q.head).1 = _
    rw [hread]
  · show window q.rawQueue (readCells q.rawQueue n q.head).2 (q.size - n) = _
    rw [hread, window_mod]

theorem dequeuedCells_takesBytes (n : ℕ) : TakesBytes n (dequeuedCells n) := fun _ h =>
  QueueT.dequeueMany_content n h

/-! ## `encrypt_to_frame` -/

structure EncryptState (κ : Type) where
  symkey : GecSymKey κ
  queue : QueueT

/-- What a call of `encrypt_to_frame` does besides: the log of `enqueue`, the
blocks handed to `gec_encrypt`, and the bytes written to the serial line. -/
structure EncryptTrace where
  enqueued : List (Int × ℕ)
  blocks : List (Bytes 64)
  serial : List UInt8

/-- The loop over `loop` blocks. `ciphertext` is the field of the local frame,
which a failing `gec_encrypt` may leave as it was. -/
def encryptLoop (G : Gcm κ) (take : QueueT → Bytes 64 × QueueT) :
    ℕ → Bytes 80 → EncryptState κ → List (Bytes 64) × List UInt8 × EncryptState κ
  | 0, _, s => ([], [], s)
  | loop + 1, ciphertext, s =>
      let (buf, queue) := take s.queue
      let r := gecEncrypt G s.symkey buf ciphertext
      let written := if r.ret = .success then cipherTextFrame r.ct else []
      let (blocks, serial, s') := encryptLoop G take loop r.ct { symkey := r.key, queue := queue }
      (buf :: blocks, written ++ serial, s')

def encryptToFrameWith (G : Gcm κ) (take : QueueT → Bytes 64 × QueueT) (s : EncryptState κ)
    (msg : MavlinkMessage) : EncryptTrace × EncryptState κ :=
  let (enqueued, queue) := s.queue.enqueueAll (mavlinkMsgToSendBuffer msg)
  let loop := queue.size / 64
  let (blocks, serial, s') := encryptLoop G take loop (zeros 80) { s with queue := queue }
  ({ enqueued := enqueued, blocks := blocks, serial := serial }, s')

/-- `encrypt_to_frame` of comm-crypto-relay, with the dequeue inlined. -/
def relayEncryptToFrame (G : Gcm κ) : EncryptState κ → MavlinkMessage →
    EncryptTrace × EncryptState κ :=
  encryptToFrameWith G (inlinedCells 64)

def keyExchangeEncryptToFrame (G : Gcm κ) : EncryptState κ → MavlinkMessage →
    EncryptTrace × EncryptState κ :=
  encryptToFrameWith G (dequeuedCells 64)

def encryptMachine (encryptToFrame : EncryptState κ → MavlinkMessage →
    EncryptTrace × EncryptState κ) : Machine (EncryptState κ) MavlinkMessage EncryptTrace where
  step := encryptToFrame

/-! ## The packer -/

def blockBytes (blocks : List (Bytes 64)) : List UInt8 := blocks.flatMap List.Vector.toList

@[simp] theorem blockBytes_nil : blockBytes [] = [] := rfl

@[simp] theorem blockBytes_cons (b : Bytes 64) (blocks : List (Bytes 64)) :
    blockBytes (b :: blocks) = b.toList ++ blockBytes blocks := rfl

@[simp] theorem blockBytes_append (bs cs : List (Bytes 64)) :
    blockBytes (bs ++ cs) = blockBytes bs ++ blockBytes cs := List.flatMap_append

@[simp] theorem length_blockBytes (blocks : List (Bytes 64)) :
    (blockBytes blocks).length = 64 * blocks.length := by
  induction blocks with
  | nil => rfl
  | cons b blocks ih =>
      rw [blockBytes_cons, List.length_append, ih, List.Vector.toList_length, List.length_cons]
      omega

theorem blockBytes_injective {bs cs : List (Bytes 64)} (h : blockBytes bs = blockBytes cs) :
    bs = cs := by
  induction bs generalizing cs with
  | nil =>
      have hlen := congrArg List.length h
      rw [blockBytes_nil, length_blockBytes] at hlen
      exact (List.length_eq_zero_iff.mp (by simpa using hlen.symm)).symm
  | cons b bs ih =>
      cases cs with
      | nil =>
          have hlen := congrArg List.length h
          simp at hlen
      | cons c cs =>
          obtain ⟨hb, hbs⟩ := List.append_inj h (by simp)
          rw [vec_ext hb, ih hbs]

theorem length_encryptLoop (G : Gcm κ) (take : QueueT → Bytes 64 × QueueT) (loop : ℕ)
    (ciphertext : Bytes 80) (s : EncryptState κ) :
    (encryptLoop G take loop ciphertext s).1.length = loop := by
  induction loop generalizing ciphertext s with
  | zero => rfl
  | succ loop ih => simp [encryptLoop, ih]

theorem encryptLoop_blocks (G : Gcm κ) {take : QueueT → Bytes 64 × QueueT}
    (htake : TakesBytes 64 take) (loop : ℕ) (ciphertext : Bytes 80) {s : EncryptState κ}
    (h : 64 * loop ≤ s.queue.size) :
    blockBytes (encryptLoop G take loop ciphertext s).1 = s.queue.content.take (64 * loop) ∧
    (encryptLoop G take loop ciphertext s).2.2.queue.content =
      s.queue.content.drop (64 * loop) := by
  induction loop generalizing ciphertext s with
  | zero => simp [encryptLoop]
  | succ loop ih =>
      obtain ⟨hblock, hrest⟩ := htake s.queue (by omega)
      have hsize : (take s.queue).2.size = s.queue.size - 64 := by
        rw [← QueueT.length_content, hrest, List.length_drop, QueueT.length_content]
      obtain ⟨hblocks, hleft⟩ := ih (gecEncrypt G s.symkey (take s.queue).1 ciphertext).ct
        (s := { symkey := (gecEncrypt G s.symkey (take s.queue).1 ciphertext).key,
                queue := (take s.queue).2 }) (by rw [hsize]; omega)
      simp only [encryptLoop, blockBytes_cons, hblocks, hleft, hblock, hrest]
      rw [Nat.mul_succ, Nat.add_comm, List.take_add, List.drop_drop]
      exact ⟨rfl, rfl⟩

/-- **One call of `encrypt_to_frame`**, from a queue that holds less than a
block: nothing is lost, nothing fails, and less than a block is left. -/
theorem encryptToFrameWith_packs (G : Gcm κ) {take : QueueT → Bytes 64 × QueueT}
    (htake : TakesBytes 64 take) {s : EncryptState κ} (h : s.queue.size < 64)
    (msg : MavlinkMessage) :
    let r := encryptToFrameWith G take s msg
    blockBytes r.1.blocks ++ r.2.queue.content = s.queue.content ++ mavlinkMsgToSendBuffer msg ∧
    (∀ e ∈ r.1.enqueued, e.1 = 0 ∧ e.2 ≤ 63 + mavlinkMaxFrameLen) ∧
    r.2.queue.size < 64 := by
  intro r
  have hfit := (length_mavlinkMsgToSendBuffer msg).2
  have hroom : s.queue.size + (mavlinkMsgToSendBuffer msg).length ≤ maxQueueSize := by
    rw [mavlinkMaxFrameLen] at hfit
    rw [maxQueueSize]
    omega
  obtain ⟨hcontent, hlog⟩ := QueueT.enqueueAll_content (mavlinkMsgToSendBuffer msg) hroom
  obtain ⟨hblocks, hleft⟩ := encryptLoop_blocks G htake
    ((s.queue.enqueueAll (mavlinkMsgToSendBuffer msg)).2.size / 64) (zeros 80)
    (s := { s with queue := (s.queue.enqueueAll (mavlinkMsgToSendBuffer msg)).2 })
    (Nat.mul_div_le _ _)
  refine ⟨?_, fun e he => ⟨(hlog e he).1, (hlog e he).2.trans (by omega)⟩, ?_⟩
  · rw [← hcontent]
    show blockBytes (encryptLoop G take _ _ _).1 ++ (encryptLoop G take _ _ _).2.2.queue.content = _
    rw [hblocks, hleft, List.take_append_drop]
  · show (encryptLoop G take _ _ _).2.2.queue.size < 64
    rw [← QueueT.length_content, hleft, List.length_drop, QueueT.length_content,
      ← Nat.mod_eq_sub_mul_div]
    exact Nat.mod_lt _ (by decide)

def serialised (msgs : List MavlinkMessage) : List UInt8 := msgs.flatMap mavlinkMsgToSendBuffer

def runBlocks (log : List EncryptTrace) : List (Bytes 64) := log.flatMap EncryptTrace.blocks

/-- **The packer invariant over whole runs.** -/
theorem packed_stream (G : Gcm κ) {take : QueueT → Bytes 64 × QueueT} (htake : TakesBytes 64 take)
    (msgs : List MavlinkMessage) {s : EncryptState κ} (h : s.queue.size < 64) :
    let M := encryptMachine (encryptToFrameWith G take)
    blockBytes (runBlocks (M.answers s msgs)) ++ (M.exec s msgs).queue.content =
      s.queue.content ++ serialised msgs ∧
    (∀ t ∈ M.answers s msgs, ∀ e ∈ t.enqueued, e.1 = 0 ∧ e.2 ≤ 63 + mavlinkMaxFrameLen) ∧
    (M.exec s msgs).queue.size < 64 := by
  intro M
  induction msgs generalizing s with
  | nil => simpa [M, Machine.answers, runBlocks, serialised] using h
  | cons msg msgs ih =>
      obtain ⟨hpack, hlog, hsize⟩ := encryptToFrameWith_packs G htake h msg
      obtain ⟨hpacks, hlogs, hsizes⟩ := ih hsize
      refine ⟨?_, ?_, hsizes⟩
      · have hserial : serialised (msg :: msgs) = mavlinkMsgToSendBuffer msg ++ serialised msgs :=
          rfl
        rw [hserial, ← List.append_assoc, ← hpack, List.append_assoc, ← hpacks,
          ← List.append_assoc, ← blockBytes_append]
        rfl
      · intro t ht
        rcases List.mem_cons.mp ht with rfl | ht
        · exact hlog
        · exact hlogs t ht

theorem runBlocks_eq (G : Gcm κ) {take : QueueT → Bytes 64 × QueueT} (htake : TakesBytes 64 take)
    (msgs : List MavlinkMessage) (k : GecSymKey κ) :
    blockBytes (runBlocks ((encryptMachine (encryptToFrameWith G take)).answers
      { symkey := k, queue := .init } msgs)) =
      (serialised msgs).take (64 * ((serialised msgs).length / 64)) := by
  obtain ⟨hstream, -, hsize⟩ := packed_stream G htake msgs
    (s := { symkey := k, queue := .init }) (Nat.zero_lt_succ 63)
  have hlen := congrArg List.length hstream
  rw [QueueT.content_init, List.nil_append] at hstream
  simp only [QueueT.content_init, List.nil_append, List.length_append, length_blockBytes,
    QueueT.length_content] at hlen
  rw [← hstream, List.take_left']
  simp only [List.length_append, length_blockBytes, QueueT.length_content]
  omega

/-- **Block packing, and agreement of the two copies.** From an empty queue,
over any messages: blocks and queue together are the serialised messages, no
`enqueue` fails, the queue holds at most 63 + 280 bytes during a call and less
than 64 after it; and both copies hand over the same blocks. -/
theorem encrypt_packs_stream (G : Gcm κ) (k k' : GecSymKey κ) (msgs : List MavlinkMessage) :
    let M := encryptMachine (relayEncryptToFrame G)
    let N := encryptMachine (keyExchangeEncryptToFrame G)
    let s : EncryptState κ := { symkey := k, queue := .init }
    let s' : EncryptState κ := { symkey := k', queue := .init }
    (blockBytes (runBlocks (M.answers s msgs)) ++ (M.exec s msgs).queue.content =
        serialised msgs ∧
      (∀ t ∈ M.answers s msgs, ∀ e ∈ t.enqueued, e.1 = 0 ∧ e.2 ≤ 63 + mavlinkMaxFrameLen) ∧
      (M.exec s msgs).queue.size < 64) ∧
    (blockBytes (runBlocks (N.answers s' msgs)) ++ (N.exec s' msgs).queue.content =
        serialised msgs ∧
      (∀ t ∈ N.answers s' msgs, ∀ e ∈ t.enqueued, e.1 = 0 ∧ e.2 ≤ 63 + mavlinkMaxFrameLen) ∧
      (N.exec s' msgs).queue.size < 64) ∧
    runBlocks (M.answers s msgs) = runBlocks (N.answers s' msgs) := by
  intro M N s s'
  refine ⟨packed_stream G (inlinedCells_takesBytes 64) msgs (s := s) (Nat.zero_lt_succ 63),
    packed_stream G (dequeuedCells_takesBytes 64) msgs (s := s') (Nat.zero_lt_succ 63), ?_⟩
  apply blockBytes_injective
  exact (runBlocks_eq G (inlinedCells_takesBytes 64) msgs k).trans
    (runBlocks_eq G (dequeuedCells_takesBytes 64) msgs k').symm

/-! ## The frames on the line -/

/-- A frame that the channel of `k` opens, with the block it carries. -/
structure SealedFrame (G : Gcm κ) (k : GecSymKey κ) where
  ct : Bytes 80
  block : Bytes 64
  opens : gcmOpen G k ct = (returnGood, block)

def wire {G : Gcm κ} {k : GecSymKey κ} (frames : List (SealedFrame G k)) : List UInt8 :=
  frames.flatMap fun f => cipherTextFrame f.ct

@[simp] theorem wire_append {G : Gcm κ} {k : GecSymKey κ} (fs gs : List (SealedFrame G k)) :
    wire (fs ++ gs) = wire fs ++ wire gs := List.flatMap_append

theorem encryptLoop_serial {G : Gcm κ} (hS : G.aead.Sound) (hT : G.aead.Total)
    (take : QueueT → Bytes 64 × QueueT) {k₀ : GecSymKey κ} (loop : ℕ) (ciphertext : Bytes 80)
    {s : EncryptState κ} (hk : SameChannel s.symkey k₀)
    (hroom : s.symkey.ctr.toNat + loop ≤ rolloverLimit) :
    let r := encryptLoop G take loop ciphertext s
    ∃ frames : List (SealedFrame G k₀), frames.map SealedFrame.block = r.1 ∧ r.2.1 = wire frames ∧
      SameChannel r.2.2.symkey k₀ ∧ r.2.2.symkey.ctr.toNat = s.symkey.ctr.toNat + loop := by
  induction loop generalizing ciphertext s with
  | zero => exact ⟨[], rfl, rfl, hk, rfl⟩
  | succ loop ih =>
      obtain ⟨hret, hctr, hkey, hopen⟩ := gecEncrypt_sealed hS hT hk (by omega)
        (take s.queue).1 ciphertext
      obtain ⟨frames, hblocks, hserial, hlast, hcount⟩ :=
        ih (gecEncrypt G s.symkey (take s.queue).1 ciphertext).ct
          (s := { symkey := (gecEncrypt G s.symkey (take s.queue).1 ciphertext).key,
                  queue := (take s.queue).2 }) hkey (by rw [hctr]; omega)
      refine ⟨⟨_, _, hopen⟩ :: frames, ?_, ?_, hlast, ?_⟩
      · rw [List.map_cons, hblocks]
        rfl
      · show (if _ then _ else _) ++ (encryptLoop G take loop _ _).2.1 = _
        rw [if_pos hret, hserial]
        rfl
      · rw [show s.symkey.ctr.toNat + (loop + 1) = s.symkey.ctr.toNat + 1 + loop by omega, ← hctr]
        exact hcount

def runSerial (log : List EncryptTrace) : List UInt8 := log.flatMap EncryptTrace.serial

/-- **A run puts one frame on the line for every block it hands over**, as long
as the counter lasts. -/
theorem runSerial_wire {G : Gcm κ} (hS : G.aead.Sound) (hT : G.aead.Total)
    (take : QueueT → Bytes 64 × QueueT) {k₀ : GecSymKey κ} (msgs : List MavlinkMessage)
    {s : EncryptState κ} (hk : SameChannel s.symkey k₀) :
    let log := (encryptMachine (encryptToFrameWith G take)).answers s msgs
    s.symkey.ctr.toNat + (runBlocks log).length ≤ rolloverLimit →
      ∃ frames : List (SealedFrame G k₀),
        frames.map SealedFrame.block = runBlocks log ∧ runSerial log = wire frames := by
  intro log hroom
  induction msgs generalizing s with
  | nil => exact ⟨[], rfl, rfl⟩
  | cons msg msgs ih =>
      set r := encryptToFrameWith G take s msg with hr
      have hlog : log = r.1 :: (encryptMachine (encryptToFrameWith G take)).answers r.2 msgs := rfl
      have hblocks : runBlocks log = r.1.blocks ++
          runBlocks ((encryptMachine (encryptToFrameWith G take)).answers r.2 msgs) := by
        rw [hlog, runBlocks, List.flatMap_cons]
        rfl
      have hlen : r.1.blocks.length =
          (s.queue.enqueueAll (mavlinkMsgToSendBuffer msg)).2.size / 64 :=
        length_encryptLoop _ _ _ _ _
      rw [hblocks, List.length_append] at hroom
      obtain ⟨frames, hframes, hserial, hkey, hctr⟩ := encryptLoop_serial hS hT take
        ((s.queue.enqueueAll (mavlinkMsgToSendBuffer msg)).2.size / 64) (zeros 80)
        (s := { s with queue := (s.queue.enqueueAll (mavlinkMsgToSendBuffer msg)).2 }) hk
        (by rw [← hlen]; show s.symkey.ctr.toNat + _ ≤ _; omega)
      have hnext : r.2.symkey.ctr.toNat = s.symkey.ctr.toNat + r.1.blocks.length := by
        rw [hlen]
        exact hctr
      -- the counter has moved by the blocks of this message, so the rest has room
      obtain ⟨frames', hframes', hserial'⟩ := ih (s := r.2) hkey (by rw [hnext]; omega)
      refine ⟨frames ++ frames', ?_, ?_⟩
      · rw [hblocks, List.map_append, hframes, hframes']
        rfl
      · rw [hlog, runSerial, List.flatMap_cons, wire_append, ← hserial, ← hserial']
        rfl

end GecRelay
