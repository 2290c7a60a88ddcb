import GecRelay.Relay.Encrypt
import GecRelay.KeyExchange.Run

/-!
# The Decrypt components

Both Decrypt components scan the telemetry line for a frame header, read 80
bytes, and open them with the channel key. The relay hands the 64 bytes of an
accepted frame to the MAVLink parser at once and returns early on a rejected
one; key-exchange queues them and drains about half of the queue after every
frame, accepted or not. `handed_accepted` says what reaches the parser: the
blocks of the accepted frames, in order, and for key-exchange all but a
backlog of at most 63 bytes.
-/

namespace GecRelay

open Foundation

variable {κ σ : Type}

/-! ## Reading a frame -/

structure CipherTextFrame where
  magic : UInt8
  tag : UInt8
  ciphertext : Bytes 80

/-- `read_buffer`; `none` when it waits for bytes that never come. -/
def readBuffer (len : ℕ) (line : List UInt8) : Option (Bytes len × List UInt8) :=
  if h : len ≤ line.length then some (⟨line.take len, by simp [h]⟩, line.drop len) else none

/-- The loop of `read_ciphertext_frame`, up to and including the header; each
`read_byte` takes the next byte of the line. A byte after a magic that is not
the tag is dropped with it. -/
def scanHeader : List UInt8 → Option (List UInt8)
  | [] => none
  | c :: line =>
      if c = gecCiphertextFrameMagic then
        match line with
        | [] => none
        | c' :: line' => if c' = gecCiphertextFrameTag then some line' else scanHeader line'
      else scanHeader line

def readCiphertextFrame (line : List UInt8) : Option (CipherTextFrame × List UInt8) := do
  let line ← scanHeader line
  let (ciphertext, line) ← readBuffer 80 line
  return ({ magic := gecCiphertextFrameMagic, tag := gecCiphertextFrameTag,
            ciphertext := ciphertext }, line)

theorem scanHeader_length {line rest : List UInt8} (h : scanHeader line = some rest) :
    rest.length < line.length := by
  fun_induction scanHeader line with
  | case1 => cases h
  | case2 => cases h
  | case3 line' => grind
  | case4 c' line' hne ih => grind
  | case5 c line hne ih => grind

theorem readCiphertextFrame_length {line rest : List UInt8} {frame : CipherTextFrame}
    (h : readCiphertextFrame line = some (frame, rest)) : rest.length < line.length := by
  simp only [readCiphertextFrame, Option.bind_eq_bind, Option.bind_eq_some_iff, readBuffer] at h
  obtain ⟨body, hbody, ⟨ct, rest'⟩, hread, hsome⟩ := h
  have hlt := scanHeader_length hbody
  split at hread
  · cases hread
    cases hsome
    rw [List.length_drop]
    omega
  · cases hread

/-- The frames a component reads from a line, until it waits for good. -/
def readFrames (line : List UInt8) : List CipherTextFrame :=
  match _h : readCiphertextFrame line with
  | none => []
  | some (frame, rest) => frame :: readFrames rest
termination_by line.length
decreasing_by exact readCiphertextFrame_length _h

theorem readCiphertextFrame_of_scan {line body rest : List UInt8} (hbody : body.length = 80)
    (h : scanHeader line = some (body ++ rest)) :
    readCiphertextFrame line = some (⟨gecCiphertextFrameMagic, gecCiphertextFrameTag,
      ⟨body, hbody⟩⟩, rest) := by
  have hlen : 80 ≤ (body ++ rest).length := by rw [List.length_append]; omega
  simp only [readCiphertextFrame, readBuffer, h, Option.bind_eq_bind, Option.bind_some,
    dif_pos hlen, List.take_left' hbody, List.drop_left' hbody]
  rfl

theorem readFrames_of_read {line rest : List UInt8} {frame : CipherTextFrame}
    (h : readCiphertextFrame line = some (frame, rest)) :
    readFrames line = frame :: readFrames rest := by
  rw [readFrames.eq_def]
  split <;> simp_all

theorem readFrames_of_none {line : List UInt8} (h : readCiphertextFrame line = none) :
    readFrames line = [] := by
  rw [readFrames.eq_def]
  split <;> simp_all

/-! ## What is done with a frame -/

/-- `my_mavlink_parse_char`: the parser with its two static buffers, and the
message it reports, if any. -/
abbrev MavlinkParser (σ : Type) : Type := σ → UInt8 → Option MavlinkMessage × σ

def parseChar (parse : MavlinkParser σ) (p : σ) (c : UInt8) : List UInt8 × σ :=
  match parse p c with
  | (some msg, p') => (mavlinkMsgToSendBuffer msg, p')
  | (none, p') => ([], p')

def parseChars (parse : MavlinkParser σ) (p : σ) : List UInt8 → List UInt8 × σ
  | [] => ([], p)
  | c :: cs =>
      let (serial, p') := parseChar parse p c
      let (serial', p'') := parseChars parse p' cs
      (serial ++ serial', p'')

/-- What a Decrypt component does with a frame: the bytes it hands to the
parser and those it writes to the serial line. -/
structure DecryptTrace where
  handed : List UInt8
  serial : List UInt8

structure RelayDecrypt (κ σ : Type) where
  symkey : GecSymKey κ
  parser : σ

def decryptToMsg (G : Gcm κ) (parse : MavlinkParser σ) (s : RelayDecrypt κ σ)
    (frame : CipherTextFrame) : Int × DecryptTrace × RelayDecrypt κ σ :=
  if frame.magic ≠ gecCiphertextFrameMagic then (1, ⟨[], []⟩, s)
  else if frame.tag ≠ gecCiphertextFrameTag then (1, ⟨[], []⟩, s)
  else
    let r := gecDecrypt G s.symkey frame.ciphertext
    if r.ret ≠ .success then (1, ⟨[], []⟩, { s with symkey := r.key })
    else
      let (serial, parser) := parseChars parse s.parser r.pt.toList
      (0, ⟨r.pt.toList, serial⟩, { symkey := r.key, parser := parser })

/-- `run` of comm-crypto-relay's Decrypt, frame by frame. -/
def relayDecryptMachine (G : Gcm κ) (parse : MavlinkParser σ) :
    Machine (RelayDecrypt κ σ) CipherTextFrame DecryptTrace where
  step s frame := (decryptToMsg G parse s frame).2

structure QueuedDecrypt (κ σ : Type) where
  symkey : GecSymKey κ
  queue : QueueT
  parser : σ

theorem size_dequeue (q : QueueT) (c : UInt8) : (q.dequeue c).2.2.size = q.size - 1 := by
  rw [QueueT.dequeue]
  split
  · next h => rw [h]
  · rfl

/-- The loop `for (i = 0; i < queue.size; i++)`: the size shrinks as `i` grows,
so it takes half of the queue. -/
def drainQueue (parse : MavlinkParser σ) (i : ℕ) (q : QueueT) (p : σ) :
    DecryptTrace × QueueT × σ :=
  if i < q.size then
    let d := q.dequeue 0
    let r := parseChar parse p d.2.1
    let rest := drainQueue parse (i + 1) d.2.2 r.2
    (⟨d.2.1 :: rest.1.handed, r.1 ++ rest.1.serial⟩, rest.2)
  else (⟨[], []⟩, q, p)
termination_by q.size - i
decreasing_by
  rw [size_dequeue]
  omega

def keyExchangeDecrypt (G : Gcm κ) (parse : MavlinkParser σ) (s : QueuedDecrypt κ σ)
    (frame : CipherTextFrame) : DecryptTrace × QueuedDecrypt κ σ :=
  let r := gecDecrypt G s.symkey frame.ciphertext
  let queue := if r.ret ≠ .success then s.queue else (s.queue.enqueueAll r.pt.toList).2
  let d := drainQueue parse 0 queue s.parser
  (d.1, { symkey := r.key, queue := d.2.1, parser := d.2.2 })

def keyExchangeDecryptMachine (G : Gcm κ) (parse : MavlinkParser σ) :
    Machine (QueuedDecrypt κ σ) CipherTextFrame DecryptTrace where
  step := keyExchangeDecrypt G parse

/-- `run` of key-exchange's Decrypt: it reads nothing before the key is there. -/
def keyExchangeDecryptRun (G : Gcm κ) (parse : MavlinkParser σ) (holder : KeyHolder κ) (p : σ)
    (line : List UInt8) : List DecryptTrace :=
  match holder.keyReady, holder.symkey with
  | 0, _ => []
  | _, none => []
  | _, some k =>
      (keyExchangeDecryptMachine G parse).answers { symkey := k, queue := .init, parser := p }
        (readFrames line)

/-! ## What reaches the parser -/

def handedBytes (log : List DecryptTrace) : List UInt8 := log.flatMap DecryptTrace.handed

def acceptedBlock (G : Gcm κ) (k : GecSymKey κ) (frame : CipherTextFrame) : Option (Bytes 64) :=
  if (gcmOpen G k frame.ciphertext).1 = returnGood then some (gcmOpen G k frame.ciphertext).2
  else none

def acceptedBlocks (G : Gcm κ) (k : GecSymKey κ) (frames : List CipherTextFrame) :
    List (Bytes 64) :=
  frames.filterMap (acceptedBlock G k)

theorem acceptedBlocks_cons (G : Gcm κ) (k : GecSymKey κ) (frame : CipherTextFrame)
    (frames : List CipherTextFrame) :
    blockBytes (acceptedBlocks G k (frame :: frames)) =
      blockBytes (acceptedBlock G k frame).toList ++ blockBytes (acceptedBlocks G k frames) := by
  rw [acceptedBlocks, acceptedBlocks, List.filterMap_cons]
  cases acceptedBlock G k frame with
  | none => rfl
  | some b => simp

def HasHeader (frame : CipherTextFrame) : Prop :=
  frame.magic = gecCiphertextFrameMagic ∧ frame.tag = gecCiphertextFrameTag

theorem readFrames_hasHeader (line : List UInt8) : ∀ frame ∈ readFrames line, HasHeader frame := by
  induction line using readFrames.induct with
  | case1 line hread =>
      rw [readFrames]
      split <;> simp_all
  | case2 line frame rest hread ih =>
      rw [readFrames]
      split
      · simp
      · next frame' rest' hread' =>
          rw [hread] at hread'
          cases hread'
          have hheader : HasHeader frame := by
            simp only [readCiphertextFrame, Option.bind_eq_bind, Option.bind_eq_some_iff] at hread
            obtain ⟨_, _, _, _, hsome⟩ := hread
            cases hsome
            exact ⟨rfl, rfl⟩
          intro f hf
          rcases List.mem_cons.mp hf with rfl | hf
          · exact hheader
          · exact ih f hf

theorem gecDecrypt_acceptedBlock (G : Gcm κ) {k k₀ : GecSymKey κ} (h : SameChannel k k₀)
    (frame : CipherTextFrame) :
    SameChannel (gecDecrypt G k frame.ciphertext).key k₀ ∧
    ((∃ b, acceptedBlock G k₀ frame = some b ∧
        (gecDecrypt G k frame.ciphertext).ret = .success ∧
        (gecDecrypt G k frame.ciphertext).pt = b) ∨
      (acceptedBlock G k₀ frame = none ∧
        (gecDecrypt G k frame.ciphertext).ret ≠ .success)) := by
  refine ⟨sameChannel_receiver_step G k₀ k frame.ciphertext h, ?_⟩
  rw [acceptedBlock, ← gcmOpen_congr G h]
  rcases gecDecrypt_cases G k frame.ciphertext with ⟨hok, he⟩ | ⟨hno, he⟩
  · rw [if_pos hok, he]
    exact Or.inl ⟨_, rfl, rfl, rfl⟩
  · rw [if_neg hno, he]
    exact Or.inr ⟨rfl, by simp⟩

/-- The relay hands over the block of an accepted frame and nothing of a
rejected one. -/
theorem relayDecrypt_step (G : Gcm κ) (parse : MavlinkParser σ) {k₀ : GecSymKey κ}
    {s : RelayDecrypt κ σ} (hs : SameChannel s.symkey k₀) {frame : CipherTextFrame}
    (hframe : HasHeader frame) :
    let r := (relayDecryptMachine G parse).step s frame
    r.1.handed = blockBytes (acceptedBlock G k₀ frame).toList ∧ SameChannel r.2.symkey k₀ := by
  intro r
  rcases gecDecrypt_acceptedBlock G hs frame with ⟨hkey, ⟨b, hb, hret, hpt⟩ | ⟨hb, hret⟩⟩
  all_goals
    simp only [r, relayDecryptMachine, decryptToMsg, hframe.1, hframe.2, ne_eq, not_true_eq_false,
      if_false, hb, hret, not_false_eq_true, if_true]
  · exact ⟨by rw [hpt]; simp, hkey⟩
  · exact ⟨rfl, hkey⟩

theorem relayDecrypt_handed (G : Gcm κ) (parse : MavlinkParser σ) {k₀ : GecSymKey κ}
    (frames : List CipherTextFrame) (hframes : ∀ frame ∈ frames, HasHeader frame)
    {s : RelayDecrypt κ σ} (hs : SameChannel s.symkey k₀) :
    handedBytes ((relayDecryptMachine G parse).answers s frames) =
      blockBytes (acceptedBlocks G k₀ frames) := by
  induction frames generalizing s with
  | nil => rfl
  | cons frame frames ih =>
      obtain ⟨hhanded, hkey⟩ := relayDecrypt_step G parse hs (hframes frame List.mem_cons_self)
      have hrest := ih (fun f hf => hframes f (List.mem_cons_of_mem _ hf)) hkey
      rw [acceptedBlocks_cons, ← hrest, ← hhanded]
      rfl

theorem drainQueue_content (parse : MavlinkParser σ) (i : ℕ) (q : QueueT) (p : σ) :
    (drainQueue parse i q p).1.handed ++ (drainQueue parse i q p).2.1.content = q.content ∧
    2 * (drainQueue parse i q p).2.1.size ≤ i + q.size := by
  induction i, q, p using drainQueue.induct parse with
  | case1 i q p hlt d r ih =>
      obtain ⟨x, rest, hcons⟩ : ∃ x rest, q.content = x :: rest :=
        List.exists_cons_of_length_pos (by rw [QueueT.length_content]; omega)
      obtain ⟨-, hx, hrest⟩ := QueueT.dequeue_content hcons 0
      have hsize : d.2.2.size = q.size - 1 := size_dequeue q 0
      rw [drainQueue, if_pos hlt]
      constructor
      · show (q.dequeue 0).2.1 :: ((drainQueue parse (i + 1) d.2.2 r.2).1.handed ++
          (drainQueue parse (i + 1) d.2.2 r.2).2.1.content) = _
        rw [ih.1, hx, hrest, hcons]
      · exact ih.2.trans (by omega)
  | case2 i q p hge =>
      rw [drainQueue, if_neg hge]
      exact ⟨rfl, show 2 * q.size ≤ i + q.size by omega⟩

/-- Key-exchange keeps the order too, and its backlog stays below a block. -/
theorem keyExchangeDecrypt_step (G : Gcm κ) (parse : MavlinkParser σ) {k₀ : GecSymKey κ}
    {s : QueuedDecrypt κ σ} (hs : SameChannel s.symkey k₀) (hsize : s.queue.size ≤ 63)
    (frame : CipherTextFrame) :
    let r := (keyExchangeDecryptMachine G parse).step s frame
    r.1.handed ++ r.2.queue.content =
      s.queue.content ++ blockBytes (acceptedBlock G k₀ frame).toList ∧
    SameChannel r.2.symkey k₀ ∧ r.2.queue.size ≤ 63 := by
  intro r
  rcases gecDecrypt_acceptedBlock G hs frame with ⟨hkey, ⟨b, hb, hret, hpt⟩ | ⟨hb, hret⟩⟩
  · obtain ⟨hcontent, -⟩ := QueueT.enqueueAll_content b.toList (q := s.queue)
      (by rw [List.Vector.toList_length, maxQueueSize]; omega)
    have hgrown : (s.queue.enqueueAll b.toList).2.size = s.queue.size + 64 := by
      rw [← QueueT.length_content, hcontent, List.length_append, QueueT.length_content,
        List.Vector.toList_length]
    obtain ⟨hdrain, hhalf⟩ := drainQueue_content parse 0 (s.queue.enqueueAll b.toList).2 s.parser
    simp only [r, keyExchangeDecryptMachine, keyExchangeDecrypt, hret, hpt, hb, ne_eq,
      not_true_eq_false, if_false]
    refine ⟨?_, hkey, by omega⟩
    rw [hdrain, hcontent]
    simp
  · obtain ⟨hdrain, hhalf⟩ := drainQueue_content parse 0 s.queue s.parser
    simp only [r, keyExchangeDecryptMachine, keyExchangeDecrypt, hret, hb, ne_eq,
      not_false_eq_true, if_true]
    refine ⟨?_, hkey, by omega⟩
    rw [hdrain]
    simp

theorem keyExchangeDecrypt_handed (G : Gcm κ) (parse : MavlinkParser σ) {k₀ : GecSymKey κ}
    (frames : List CipherTextFrame) {s : QueuedDecrypt κ σ} (hs : SameChannel s.symkey k₀)
    (hsize : s.queue.size ≤ 63) :
    let M := keyExchangeDecryptMachine G parse
    handedBytes (M.answers s frames) ++ (M.exec s frames).queue.content =
      s.queue.content ++ blockBytes (acceptedBlocks G k₀ frames) ∧
    (M.exec s frames).queue.size ≤ 63 := by
  intro M
  induction frames generalizing s with
  | nil => simpa [M, Machine.answers, handedBytes, acceptedBlocks] using hsize
  | cons frame frames ih =>
      obtain ⟨hstep, hkey, hleft⟩ := keyExchangeDecrypt_step G parse hs hsize frame
      obtain ⟨hrest, hend⟩ := ih hkey hleft
      refine ⟨?_, hend⟩
      rw [acceptedBlocks_cons, ← List.append_assoc, ← hstep, List.append_assoc, ← hrest,
        ← List.append_assoc]
      rfl

/-- GCM opens what the sessions produced to the block they encrypted. -/
def OpensLogged (G : Gcm κ) (rawkey : Bytes 24) (sessions : Set (List (Bytes 64))) : Prop :=
  G.aead.SoundOn (G.gcmInitAndKey (slice rawkey 0 16)) (sealLog G rawkey sessions)

theorem acceptedBlocks_sealed {G : Gcm κ} {rawkey : Bytes 24} {sessions : Set (List (Bytes 64))}
    (hI : IdealFor G rawkey sessions) (hS : OpensLogged G rawkey sessions)
    (frames : List CipherTextFrame) :
    ∀ b ∈ acceptedBlocks G (gecInitSymKeyConfAuth G rawkey) frames,
      ∃ iv, (iv, b) ∈ sealLog G rawkey sessions := by
  intro b hb
  obtain ⟨frame, -, hframe⟩ := List.mem_filterMap.mp hb
  rw [acceptedBlock] at hframe
  split at hframe
  · next hok =>
      cases hframe
      exact ⟨_, hI.dec_mem hS hok⟩
  · cases hframe

/-- **The command path fails closed.** Whatever bytes are on the telemetry
line, what either Decrypt component hands to its parser is in order a prefix
of the blocks of the frames that authenticated, each of which a holder of the
channel key passed to `gec_encrypt`; before the key is there, key-exchange's
hands over nothing. -/
theorem decrypt_fails_closed {G : Gcm κ} {rawkey : Bytes 24} {sessions : Set (List (Bytes 64))}
    (hI : IdealFor G rawkey sessions) (hS : OpensLogged G rawkey sessions)
    (parse : MavlinkParser σ) (p : σ) (line : List UInt8) :
    let k := gecInitSymKeyConfAuth G rawkey
    let blocks := acceptedBlocks G k (readFrames line)
    (∀ b ∈ blocks, ∃ iv, (iv, b) ∈ sealLog G rawkey sessions) ∧
    handedBytes ((relayDecryptMachine G parse).answers ⟨k, p⟩ (readFrames line)) <+:
      blockBytes blocks ∧
    handedBytes (keyExchangeDecryptRun G parse (keySend .waiting k) p line) <+:
      blockBytes blocks ∧
    keyExchangeDecryptRun G parse .waiting p line = [] := by
  intro k blocks
  refine ⟨acceptedBlocks_sealed hI hS (readFrames line), ?_, ?_, rfl⟩
  · have hhanded := relayDecrypt_handed G parse (readFrames line) (readFrames_hasHeader line)
      (s := ⟨k, p⟩) (show SameChannel k k from ⟨rfl, rfl⟩)
    exact hhanded ▸ List.prefix_rfl
  · obtain ⟨hstream, -⟩ := keyExchangeDecrypt_handed G parse (readFrames line)
      (s := ⟨k, .init, p⟩) (show SameChannel k k from ⟨rfl, rfl⟩) (Nat.zero_le 63)
    exact ⟨_, hstream⟩

theorem onceGcm_opensLogged : OpensLogged onceGcm (zeros 24) {[zeros 64]} := by
  rintro iv m c t ⟨blocks, rfl, e, he, -, hiv, rfl⟩ henc
  rw [onceGcm_log, List.mem_singleton] at he
  subst he
  cases hiv
  cases henc
  exact congrArg (·, zeros 64) (if_pos ⟨rfl, rfl, rfl⟩)

def withHeader (ciphertext : Bytes 80) : CipherTextFrame :=
  ⟨gecCiphertextFrameMagic, gecCiphertextFrameTag, ciphertext⟩

/-- A frame that fails, the one that was sent, and another that fails. -/
def mixedLine : List UInt8 :=
  [9] ++ cipherTextFrame (zeros 80) ++ cipherTextFrame firstFrame ++ cipherTextFrame (zeros 80)

theorem readCiphertextFrame_frame (ct : Bytes 80) (rest : List UInt8) :
    readCiphertextFrame (cipherTextFrame ct ++ rest) = some (withHeader ct, rest) := by
  have hscan : scanHeader (cipherTextFrame ct ++ rest) = some (ct.toList ++ rest) := rfl
  exact readCiphertextFrame_of_scan ct.toList_length hscan

theorem readFrames_mixedLine :
    readFrames mixedLine = [zeros 80, firstFrame, zeros 80].map withHeader := by
  have hscan : scanHeader mixedLine =
    some ((zeros 80).toList ++ (cipherTextFrame firstFrame ++ cipherTextFrame (zeros 80))) := rfl
  have hthird := readCiphertextFrame_frame (zeros 80) []
  have hend : readCiphertextFrame [] = none := rfl
  rw [List.append_nil] at hthird
  rw [readFrames_of_read (readCiphertextFrame_of_scan (zeros 80).toList_length hscan),
    readFrames_of_read (readCiphertextFrame_frame firstFrame _), readFrames_of_read hthird,
    readFrames_of_none hend]
  rfl

theorem decrypt_fails_closed_onceGcm :
    IdealFor onceGcm (zeros 24) {[zeros 64]} ∧ OpensLogged onceGcm (zeros 24) {[zeros 64]} ∧
    let k := gecInitSymKeyConfAuth onceGcm (zeros 24)
    let parse : MavlinkParser Unit := fun p _ => (none, p)
    let blocks := acceptedBlocks onceGcm k (readFrames mixedLine)
    (readFrames mixedLine).length = 3 ∧ blocks = [zeros 64] ∧
    (∀ b ∈ blocks, ∃ iv, (iv, b) ∈ sealLog onceGcm (zeros 24) {[zeros 64]}) ∧
    handedBytes ((relayDecryptMachine onceGcm parse).answers ⟨k, ()⟩ (readFrames mixedLine)) <+:
      blockBytes blocks ∧
    handedBytes (keyExchangeDecryptRun onceGcm parse (keySend .waiting k) () mixedLine) <+:
      blockBytes blocks ∧
    keyExchangeDecryptRun onceGcm parse .waiting () mixedLine = [] :=
  ⟨onceGcm_ideal, onceGcm_opensLogged, by rw [readFrames_mixedLine]; rfl,
    by rw [readFrames_mixedLine]; decide,
    decrypt_fails_closed onceGcm_ideal onceGcm_opensLogged _ () _⟩

end GecRelay
