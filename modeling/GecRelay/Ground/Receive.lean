import GecRelay.Relay.Decrypt

/-!
# The ground station

`receive` of gcs-crypto-block, as a machine that takes the outcome of one
`read` at a time: it stands at one of the three calls of `read`, and a step
runs it to the next. Header bytes are read one by one, the body with as many
calls as it takes. `link_end_to_end` joins it to the relay's Encrypt: over a
lossless line, split into reads in any way, the parser on the ground gets the
whole blocks of the relayed stream.
-/

namespace GecRelay

open Foundation

variable {κ σ : Type}

/-- What `read` answers: bytes it stored, none at the end of the file, or an
error. -/
inductive ReadOutcome
  | data (bytes : List UInt8)
  | error

def ReadOutcome.ret : ReadOutcome → Int
  | .data bytes => bytes.length
  | .error => -1

def ReadOutcome.bytes : ReadOutcome → List UInt8
  | .data bytes => bytes
  | .error => []

inductive ReceivePoint
  | magic
  | tag
  | body
deriving DecidableEq

structure PacketCount where
  allPackets : Int
  lostPackets : Int
  lastSeq : Int

def PacketCount.count (n : PacketCount) (msg : MavlinkMessage) : PacketCount :=
  let seq : Int := msg.seq.toNat
  { allPackets := n.allPackets + 1
    lostPackets :=
      if n.lastSeq ≠ -1 ∧ seq ≠ (n.lastSeq + 1).tmod 256 then
        n.lostPackets + (seq - n.lastSeq - 1 + 256).tmod 256
      else n.lostPackets
    lastSeq := if msg.sysid = 1 then seq else n.lastSeq }

/-- The variables of `receive`. `ct` is indexed as the code indexes it, also
outside the array. -/
structure ReceiveState (κ σ : Type) where
  point : ReceivePoint
  c : UInt8
  cnt : Int
  ct : Int → UInt8
  symkey : GecSymKey κ
  queue : QueueT
  parser : σ
  packets : PacketCount

def ctBytes (ct : Int → UInt8) : Bytes 80 := List.Vector.ofFn fun i => ct (i.val : Int)

/-- `read(fd, ct + cnt, ..)` stores its bytes. -/
def storeBytes (ct : Int → UInt8) (cnt : Int) (bytes : List UInt8) : Int → UInt8 := fun i =>
  if cnt ≤ i ∧ i < cnt + bytes.length then bytes.getD (i - cnt).toNat 0 else ct i

/-- The loop `while (!queue_empty(&queue))`: the bytes handed to the parser. -/
def drainAll (parse : MavlinkParser σ) (q : QueueT) (p : σ) (n : PacketCount) :
    List UInt8 × QueueT × σ × PacketCount :=
  if q.size = 0 then ([], q, p, n)
  else
    let d := q.dequeue 0
    let r := parse p d.2.1
    let rest := drainAll parse d.2.2 r.2 (r.1.elim n n.count)
    (d.2.1 :: rest.1, rest.2)
termination_by q.size
decreasing_by
  rw [size_dequeue]
  omega

/-- A frame is there: open it, queue the block, drain the queue, and begin the
loop again. -/
def gotFrame (G : Gcm κ) (parse : MavlinkParser σ) (s : ReceiveState κ σ) :
    List UInt8 × ReceiveState κ σ :=
  let r := gecDecrypt G s.symkey (ctBytes s.ct)
  let queue := if r.ret ≠ .success then s.queue else (s.queue.enqueueAll r.pt.toList).2
  let d := drainAll parse queue s.parser s.packets
  (d.1, { s with
    point := .magic
    c := 0xff
    cnt := 0
    symkey := r.key
    queue := d.2.1
    parser := d.2.2.1
    packets := d.2.2.2 })

def receiveStep (G : Gcm κ) (parse : MavlinkParser σ) (s : ReceiveState κ σ) (o : ReadOutcome) :
    List UInt8 × ReceiveState κ σ :=
  match s.point with
  | .magic =>
      let c := o.bytes.headD s.c
      ([], { s with c := c, point := if o.ret ≠ 0 ∧ c = 0x7e then .tag else .magic })
  | .tag =>
      let c := o.bytes.headD s.c
      ([], { s with c := c, point := if o.ret ≠ 0 ∧ c = 0 then .body else .magic })
  | .body =>
      let s := { s with ct := storeBytes s.ct s.cnt o.bytes, cnt := s.cnt + o.ret }
      if s.cnt < 80 then ([], s) else gotFrame G parse s

def receiveMachine (G : Gcm κ) (parse : MavlinkParser σ) :
    Machine (ReceiveState κ σ) ReadOutcome (List UInt8) where
  step := receiveStep G parse

/-- `receive` at its first `read`; `ct` holds whatever the stack held. -/
def receiveInit (k : GecSymKey κ) (ct : Int → UInt8) (p : σ) : ReceiveState κ σ where
  point := .magic
  c := 0xff
  cnt := 0
  ct := ct
  symkey := k
  queue := .init
  parser := p
  packets := { allPackets := 0, lostPackets := 0, lastSeq := -1 }

def ReceiveState.requested (s : ReceiveState κ σ) : ℕ :=
  match s.point with
  | .magic => 1
  | .tag => 1
  | .body => (80 - s.cnt).toNat

/-- Reads that deliver at least one byte each and at most what is asked for. -/
def ShortReads (G : Gcm κ) (parse : MavlinkParser σ) :
    ReceiveState κ σ → List (List UInt8) → Prop
  | _, [] => True
  | s, bytes :: reads =>
      bytes ≠ [] ∧ bytes.length ≤ s.requested ∧
        ShortReads G parse (receiveStep G parse s (.data bytes)).2 reads

/-! ## One frame -/

theorem drainAll_content (parse : MavlinkParser σ) (q : QueueT) (p : σ) (n : PacketCount) :
    (drainAll parse q p n).1 = q.content ∧ (drainAll parse q p n).2.1.size = 0 := by
  induction q, p, n using drainAll.induct parse with
  | case1 q p n hzero =>
      rw [drainAll, if_pos hzero]
      refine ⟨?_, hzero⟩
      rw [QueueT.content, hzero, window_zero]
  | case2 q p n hne d r ih =>
      obtain ⟨x, rest, hcons⟩ : ∃ x rest, q.content = x :: rest :=
        List.exists_cons_of_length_pos (by rw [QueueT.length_content]; omega)
      obtain ⟨-, hx, hrest⟩ := QueueT.dequeue_content hcons 0
      rw [drainAll, if_neg hne]
      refine ⟨?_, ih.2⟩
      show (q.dequeue 0).2.1 :: (drainAll parse d.2.2 r.2 (r.1.elim n n.count)).1 = _
      rw [ih.1, hx, hrest, hcons]

structure Receiving (s : ReceiveState κ σ) (k₀ : GecSymKey κ) : Prop where
  empty : s.queue.size = 0
  channel : SameChannel s.symkey k₀

/-- `receive` has read `off` bytes of the frame with ciphertext `ct`. -/
def AtOffset (s : ReceiveState κ σ) (ct : Bytes 80) : ℕ → Prop
  | 0 => s.point = .magic ∧ s.cnt = 0
  | 1 => s.point = .tag ∧ s.cnt = 0
  | j + 2 => s.point = .body ∧ s.cnt = j ∧ ∀ i < j, s.ct (i : Int) = ct.toList.getD i 0

theorem ctBytes_eq {mem : Int → UInt8} {ct : Bytes 80}
    (h : ∀ i : ℕ, i < 80 → mem (i : Int) = ct.toList.getD i 0) : ctBytes mem = ct := by
  apply vec_ext
  apply List.ext_getElem
  · simp
  · intro i hi _
    have hlt : i < 80 := by simpa using hi
    simp only [ctBytes, List.Vector.toList_ofFn, List.getElem_ofFn]
    rw [h i hlt, List.getD_eq_getElem?_getD, List.getElem?_eq_getElem (by simpa using hlt)]
    rfl

theorem gotFrame_opens (G : Gcm κ) (parse : MavlinkParser σ) {k₀ : GecSymKey κ}
    (f : SealedFrame G k₀) {s : ReceiveState κ σ} (hs : Receiving s k₀)
    (hct : ctBytes s.ct = f.ct) :
    (gotFrame G parse s).1 = f.block.toList ∧ Receiving (gotFrame G parse s).2 k₀ ∧
    AtOffset (gotFrame G parse s).2 f.ct 0 := by
  have hopen : gcmOpen G s.symkey f.ct = (returnGood, f.block) := by
    rw [gcmOpen_congr G hs.channel]
    exact f.opens
  have hkey := sameChannel_receiver_step G k₀ s.symkey f.ct hs.channel
  have hdec : (gecDecrypt G s.symkey f.ct).ret = .success ∧
      (gecDecrypt G s.symkey f.ct).pt = f.block := by
    rcases gecDecrypt_cases G s.symkey f.ct with ⟨_, he⟩ | ⟨hne, _⟩
    · rw [he, hopen]
      exact ⟨rfl, rfl⟩
    · exact absurd (by rw [hopen]) hne
  obtain ⟨hcontent, -⟩ := QueueT.enqueueAll_content f.block.toList (q := s.queue)
    (by rw [hs.empty, List.Vector.toList_length, maxQueueSize]; omega)
  have hempty : s.queue.content = [] := List.length_eq_zero_iff.mp (by
    rw [QueueT.length_content, hs.empty])
  rw [hempty, List.nil_append] at hcontent
  obtain ⟨hdrain, hzero⟩ := drainAll_content parse (s.queue.enqueueAll f.block.toList).2 s.parser
    s.packets
  simp only [gotFrame, hct, hdec.1, hdec.2, ne_eq, not_true_eq_false, if_false]
  exact ⟨hdrain.trans hcontent, ⟨hzero, hkey⟩, rfl, rfl⟩

theorem storeBytes_prefix {mem : Int → UInt8} {ct : Bytes 80} {j : ℕ} {bytes : List UInt8}
    (hmem : ∀ i : ℕ, i < j → mem (i : Int) = ct.toList.getD i 0)
    (hbytes : bytes = (ct.toList.drop j).take bytes.length) (i : ℕ) (hi : i < j + bytes.length) :
    storeBytes mem j bytes (i : Int) = ct.toList.getD i 0 := by
  rw [storeBytes]
  by_cases hold : i < j
  · rw [if_neg (by omega)]
    exact hmem i hold
  · have hidx : ((i : Int) - j).toNat = i - j := by omega
    rw [if_pos (by omega), hidx, hbytes, List.getD_eq_getElem?_getD, List.getElem?_take,
      if_pos (by omega), List.getElem?_drop, ← List.getD_eq_getElem?_getD]
    congr 1
    omega

theorem receiveStep_magic (G : Gcm κ) (parse : MavlinkParser σ) {s : ReceiveState κ σ}
    (h : s.point = .magic) :
    s.requested = 1 ∧
    receiveStep G parse s (.data [0x7e]) = ([], { s with c := 0x7e, point := .tag }) := by
  rw [ReceiveState.requested, receiveStep, h]
  exact ⟨rfl, rfl⟩

theorem receiveStep_tag (G : Gcm κ) (parse : MavlinkParser σ) {s : ReceiveState κ σ}
    (h : s.point = .tag) :
    s.requested = 1 ∧
    receiveStep G parse s (.data [0]) = ([], { s with c := 0, point := .body }) := by
  rw [ReceiveState.requested, receiveStep, h]
  exact ⟨rfl, rfl⟩

theorem receiveStep_body (G : Gcm κ) (parse : MavlinkParser σ) {s : ReceiveState κ σ} {j : ℕ}
    (h : s.point = .body) (hcnt : s.cnt = j) (bytes : List UInt8) :
    s.requested = 80 - j ∧
    receiveStep G parse s (.data bytes) =
      let s' := { s with ct := storeBytes s.ct j bytes, cnt := (j + bytes.length : ℕ) }
      if j + bytes.length < 80 then ([], s') else gotFrame G parse s' := by
  rw [ReceiveState.requested, receiveStep, h, hcnt]
  refine ⟨by simp only []; omega, ?_⟩
  show (if (j : Int) + bytes.length < 80 then _ else _) = _
  rw [← Nat.cast_add]
  exact if_congr (by omega) rfl rfl

theorem eq_singleton_of_take {bytes line : List UInt8} {b : UInt8} (hne : bytes ≠ [])
    (hlen : bytes.length ≤ 1) (hbytes : bytes = (b :: line).take bytes.length) : bytes = [b] := by
  have hone : bytes.length = 1 := by
    have := List.length_pos_iff.mpr hne
    omega
  rwa [hone] at hbytes

/-- A step at `off` bytes into a frame, on its next bytes: no further than the
end of the frame, and at its end the block is handed over. -/
theorem receiveStep_offset (G : Gcm κ) (parse : MavlinkParser σ) {k₀ : GecSymKey κ}
    (f : SealedFrame G k₀) {s : ReceiveState κ σ} (hs : Receiving s k₀) {off : ℕ} (hoff : off < 82)
    (hat : AtOffset s f.ct off) {bytes : List UInt8} (hne : bytes ≠ [])
    (hlen : bytes.length ≤ s.requested)
    (hbytes : bytes = ((cipherTextFrame f.ct).drop off).take bytes.length) :
    Receiving (receiveStep G parse s (.data bytes)).2 k₀ ∧
    ((off + bytes.length < 82 ∧ (receiveStep G parse s (.data bytes)).1 = [] ∧
        AtOffset (receiveStep G parse s (.data bytes)).2 f.ct (off + bytes.length)) ∨
      (off + bytes.length = 82 ∧ (receiveStep G parse s (.data bytes)).1 = f.block.toList ∧
        AtOffset (receiveStep G parse s (.data bytes)).2 f.ct 0)) := by
  -- `receive` asks for one byte of the header at a time, and then for what is left
  match off, hat with
  | 0, ⟨hpoint, hcnt⟩ =>
      obtain ⟨hreq, hstep⟩ := receiveStep_magic G parse hpoint
      obtain rfl := eq_singleton_of_take hne (hreq ▸ hlen) hbytes
      rw [show gecCiphertextFrameMagic = 0x7e from rfl, hstep]
      exact ⟨⟨hs.empty, hs.channel⟩, Or.inl ⟨by decide, rfl, rfl, hcnt⟩⟩
  | 1, ⟨hpoint, hcnt⟩ =>
      obtain ⟨hreq, hstep⟩ := receiveStep_tag G parse hpoint
      obtain rfl := eq_singleton_of_take hne (hreq ▸ hlen) hbytes
      rw [show gecCiphertextFrameTag = 0 from rfl, hstep]
      exact ⟨⟨hs.empty, hs.channel⟩, Or.inl ⟨by decide, rfl, rfl, hcnt, fun i hi =>
        absurd hi (Nat.not_lt_zero i)⟩⟩
  | j + 2, ⟨hpoint, hcnt, hmem⟩ =>
      obtain ⟨hreq, hstep⟩ := receiveStep_body G parse hpoint hcnt bytes
      have hstored := storeBytes_prefix hmem (show bytes = (f.ct.toList.drop j).take _ from hbytes)
      rw [hstep]
      by_cases hmore : j + bytes.length < 80
      · rw [if_pos hmore]
        refine ⟨⟨hs.empty, hs.channel⟩, Or.inl ⟨by omega, rfl, ?_⟩⟩
        rw [Nat.add_right_comm]
        exact ⟨hpoint, rfl, hstored⟩
      · rw [if_neg hmore]
        obtain ⟨hblock, hrecv, hzero⟩ := gotFrame_opens G parse f
          (s := { s with ct := storeBytes s.ct j bytes, cnt := (j + bytes.length : ℕ) })
          ⟨hs.empty, hs.channel⟩ (ctBytes_eq fun i hi => hstored i (by omega))
        exact ⟨hrecv, Or.inr ⟨by omega, hblock, hzero⟩⟩

/-! ## Whole streams -/

def receivedBytes (G : Gcm κ) (parse : MavlinkParser σ) (s : ReceiveState κ σ)
    (reads : List (List UInt8)) : List UInt8 :=
  ((receiveMachine G parse).answers s (reads.map .data)).flatten

/-- The offset of the frame that is being read; there is none at the end. -/
def AtFrames {G : Gcm κ} {k₀ : GecSymKey κ} (s : ReceiveState κ σ) (off : ℕ) :
    List (SealedFrame G k₀) → Prop
  | [] => off = 0
  | f :: _ => off < 82 ∧ AtOffset s f.ct off

theorem requested_le {s : ReceiveState κ σ} {ct : Bytes 80} {off : ℕ} (hat : AtOffset s ct off)
    (hoff : off < 82) : s.requested ≤ 82 - off := by
  match off, hat with
  | 0, ⟨hpoint, _⟩ => simp [ReceiveState.requested, hpoint]
  | 1, ⟨hpoint, _⟩ => simp [ReceiveState.requested, hpoint]
  | j + 2, ⟨hpoint, hcnt, _⟩ =>
      simp only [ReceiveState.requested, hpoint, hcnt]
      omega

theorem length_cipherTextFrame (ct : Bytes 80) : (cipherTextFrame ct).length = 82 := by
  simp [cipherTextFrame]

/-- A read that stays within the first frame of what is left. -/
theorem read_within {bytes rest frame more : List UInt8} {off : ℕ}
    (hline : bytes ++ rest = (frame ++ more).drop off) (hfit : off + bytes.length ≤ frame.length) :
    bytes = (frame.drop off).take bytes.length ∧
    rest = (frame ++ more).drop (off + bytes.length) := by
  constructor
  · have htake := congrArg (List.take bytes.length) hline
    rw [List.take_left, List.drop_append_of_le_length (by omega),
      List.take_append_of_le_length (by rw [List.length_drop]; omega)] at htake
    exact htake
  · have hdrop := congrArg (List.drop bytes.length) hline
    rwa [List.drop_left, List.drop_drop] at hdrop

/-- **Frames reach the parser as their blocks**, however the line is split. -/
theorem receivedBytes_wire (G : Gcm κ) (parse : MavlinkParser σ) {k₀ : GecSymKey κ}
    (reads : List (List UInt8)) (frames : List (SealedFrame G k₀)) {s : ReceiveState κ σ} {off : ℕ}
    (hs : Receiving s k₀) (hat : AtFrames s off frames) (hreads : ShortReads G parse s reads)
    (hline : reads.flatten = (wire frames).drop off) :
    receivedBytes G parse s reads = blockBytes (frames.map SealedFrame.block) := by
  -- on the reads: each stays within the first frame left, `off` bytes of which are read
  induction reads generalizing s off frames with
  | nil =>
      cases frames with
      | nil => rfl
      | cons f frames =>
          have hlong : (wire (f :: frames)).length = 82 + (wire frames).length := by
            rw [wire, List.flatMap_cons, List.length_append, length_cipherTextFrame]
            rfl
          have hnil := List.drop_eq_nil_iff.mp hline.symm
          have hlt : off < 82 := hat.1
          omega
  | cons bytes reads ih =>
      obtain ⟨hne, hlen, hrest⟩ := hreads
      rw [List.flatten_cons] at hline
      cases frames with
      | nil =>
          rw [wire, List.flatMap_nil, List.drop_nil] at hline
          exact absurd (List.append_eq_nil_iff.mp hline).1 hne
      | cons f frames =>
          obtain ⟨hoff, hatf⟩ := hat
          have hfit := requested_le hatf hoff
          have hwire : wire (f :: frames) = cipherTextFrame f.ct ++ wire frames := rfl
          have hframe := length_cipherTextFrame f.ct
          obtain ⟨hbytes, hreads⟩ := read_within (hwire ▸ hline) (by omega)
          have hans : receivedBytes G parse s (bytes :: reads) =
              (receiveStep G parse s (.data bytes)).1 ++
                receivedBytes G parse (receiveStep G parse s (.data bytes)).2 reads := rfl
          rcases receiveStep_offset G parse f hs hoff hatf hne hlen hbytes with
            ⟨hrecv, ⟨hlt, hhanded, hat'⟩ | ⟨heq, hhanded, hat'⟩⟩
          · rw [hans, hhanded, List.nil_append]
            exact ih (f :: frames) hrecv ⟨hlt, hat'⟩ hrest hreads
          · rw [heq, List.drop_left' hframe, ← List.drop_zero (l := wire frames)] at hreads
            have hnext : AtFrames (receiveStep G parse s (.data bytes)).2 0 frames := by
              cases frames with
              | nil => rfl
              | cons g frames => exact ⟨by decide, hat'⟩
            rw [hans, hhanded, List.map_cons, blockBytes_cons, ih frames hrecv hnext hrest hreads]

/-- **Relay to ground, end to end.** The relay's Encrypt packs any messages
under a fresh key, below the rollover; the ground station reads the line in
any short reads. Its parser gets the first `64 * (n / 64)` of the `n` bytes of
the serialised messages. -/
theorem link_end_to_end (G : Gcm κ) (hS : G.aead.Sound) (hT : G.aead.Total)
    (keyMaterial : Bytes 48) (msgs : List MavlinkMessage) (parse : MavlinkParser σ) (p : σ)
    (ct : Int → UInt8) (reads : List (List UInt8))
    (hroom : (serialised msgs).length / 64 ≤ rolloverLimit)
    (hreads : ShortReads G parse (receiveInit (gecKeyMaterialTo2Channels G keyMaterial).2 ct p)
      reads)
    (hline : reads.flatten = runSerial ((encryptMachine (relayEncryptToFrame G)).answers
      { symkey := gecInitSymKeyConfAuth G (slice keyMaterial 24 24), queue := .init } msgs)) :
    receivedBytes G parse (receiveInit (gecKeyMaterialTo2Channels G keyMaterial).2 ct p) reads =
      (serialised msgs).take (64 * ((serialised msgs).length / 64)) := by
  set k := gecInitSymKeyConfAuth G (slice keyMaterial 24 24) with hk
  have hblocks := runBlocks_eq G (inlinedCells_takesBytes 64) msgs k
  have hcount := congrArg List.length hblocks
  rw [length_blockBytes, List.length_take, Nat.min_eq_left (Nat.mul_div_le _ _)] at hcount
  obtain ⟨frames, hframes, hserial⟩ := runSerial_wire hS hT (inlinedCells 64) msgs
    (s := { symkey := k, queue := .init }) (show SameChannel k k from ⟨rfl, rfl⟩)
    (by show 0 + _ ≤ _; omega)
  have hstart : AtFrames (receiveInit k ct p) 0 frames := by
    cases frames with
    | nil => rfl
    | cons f frames => exact ⟨by decide, rfl, rfl⟩
  have hreceived := receivedBytes_wire G parse reads frames ⟨rfl, ⟨rfl, rfl⟩⟩ hstart hreads
    (hline.trans hserial)
  rw [hframes, hblocks] at hreceived
  exact hreceived

instance (G : Gcm κ) (parse : MavlinkParser σ) :
    ∀ (s : ReceiveState κ σ) (reads : List (List UInt8)), Decidable (ShortReads G parse s reads)
  | _, [] => isTrue trivial
  | s, bytes :: reads =>
      have := instDecidableShortReads G parse (receiveStep G parse s (.data bytes)).2 reads
      inferInstanceAs (Decidable (_ ∧ _ ∧ _))

def longMessage : MavlinkMessage where
  checksum := 0x1234
  magic := mavlinkStxMavlink1
  len := 60
  incompatFlags := 0
  compatFlags := 0
  seq := 7
  sysid := 1
  compid := 1
  msgid := 0
  payload := List.Vector.replicate 264 0x7e
  ck := zeros 2
  signature := zeros 13

def longMessageLine : List UInt8 :=
  runSerial ((encryptMachine (relayEncryptToFrame plainGcm)).answers
    { symkey := gecInitSymKeyConfAuth plainGcm (slice (zeros 48) 24 24), queue := .init }
    [longMessage])

def longMessageReads : List (List UInt8) :=
  [longMessageLine.take 1, (longMessageLine.drop 1).take 1, (longMessageLine.drop 2).take 30,
    longMessageLine.drop 32]

theorem link_end_to_end_longMessage :
    receivedBytes plainGcm (fun p _ => (none, p))
      (receiveInit (gecKeyMaterialTo2Channels plainGcm (zeros 48)).2 (fun _ => 0) ())
      longMessageReads =
      (serialised [longMessage]).take (64 * ((serialised [longMessage]).length / 64)) :=
  link_end_to_end plainGcm plainGcm_sound plainGcm_total (zeros 48) [longMessage]
    (fun p _ => (none, p)) () (fun _ => 0) longMessageReads (by decide) (by decide +kernel)
    (by decide +kernel)

end GecRelay
