import GecRelay.Relay.DecryptAgree

/-!
# The backlog of a Decrypt loop

key-exchange, comm-crypto-rpc-relay and comm-crypto-block queue the decrypted
blocks and drain with `for (i = 0; i < size; i++)`. From a backlog of `r` bytes
a frame leaves `(r + 64) / 2` when it authenticates and `r / 2` when it does
not, so the backlog never reaches a block and the queue never fills. The last
two check the header and return at a frame without one; comm-crypto-block
keeps its bytes in a `deque_t`, which simulates the queue.
-/

namespace GecRelay

open Foundation

variable {κ σ : Type}

/-! ## The deque -/

/-- `deque_t`: beside the head and the size it keeps the tail, the cell that is
written next. -/
structure DequeT where
  rawQueue : Bytes maxQueueSize
  head : ℕ
  tail : ℕ
  size : ℕ
  head_lt : head < maxQueueSize
  size_le : size ≤ maxQueueSize
  tail_eq : tail = (head + size) % maxQueueSize

namespace DequeT

def init : DequeT where
  rawQueue := List.Vector.replicate maxQueueSize 0xFF
  head := 0
  tail := 0
  size := 0
  head_lt := NeZero.pos maxQueueSize
  size_le := Nat.zero_le maxQueueSize
  tail_eq := by decide

theorem size_pushBack_le {q : DequeT} (h : q.size ≠ maxQueueSize) : q.size + 1 ≤ maxQueueSize := by
  have := q.size_le
  omega

theorem tail_pushBack (q : DequeT) :
    (q.tail + 1) % maxQueueSize = (q.head + (q.size + 1)) % maxQueueSize := by
  rw [q.tail_eq, Nat.mod_add_mod, Nat.add_assoc]

theorem tail_popFront {q : DequeT} (h : q.size ≠ 0) :
    q.tail = ((q.head + 1) % maxQueueSize + (q.size - 1)) % maxQueueSize := by
  rw [q.tail_eq, Nat.mod_add_mod]
  congr 1
  omega

/-- `deque_push_back`. -/
def pushBack (q : DequeT) (x : UInt8) : Int × DequeT :=
  if h : q.size = maxQueueSize then (-1, q)
  else (0, { q with
    rawQueue := q.rawQueue.set (cellIndex maxQueueSize q.tail) x
    tail := (q.tail + 1) % maxQueueSize
    size := q.size + 1
    size_le := size_pushBack_le h
    tail_eq := tail_pushBack q })

/-- `deque_pop_front(q, &c)`, with the value of `c` before. -/
def popFront (q : DequeT) (c : UInt8) : Int × UInt8 × DequeT :=
  if h : q.size = 0 then (-1, c, q)
  else (0, q.rawQueue.get (cellIndex maxQueueSize q.head), { q with
    head := (q.head + 1) % maxQueueSize
    size := q.size - 1
    head_lt := Nat.mod_lt _ (by decide)
    size_le := (Nat.sub_le _ _).trans q.size_le
    tail_eq := tail_popFront h })

/-- The queue with the same cells. -/
def toQueue (q : DequeT) : QueueT where
  rawQueue := q.rawQueue
  head := q.head
  size := q.size
  head_lt := q.head_lt
  size_le := q.size_le

def content (q : DequeT) : List UInt8 := q.toQueue.content

theorem enqueue_toQueue (q : DequeT) (x : UInt8) :
    q.toQueue.enqueue x = ((q.pushBack x).1, (q.pushBack x).2.toQueue) := by
  have hcell : cellIndex maxQueueSize q.tail = cellIndex maxQueueSize (q.head + q.size) := by
    rw [q.tail_eq]
    exact cellIndex_mod_self (q.head + q.size)
  by_cases h : q.size = maxQueueSize
  · rw [QueueT.enqueue, dif_pos (show q.toQueue.size = maxQueueSize from h), pushBack, dif_pos h]
  · rw [QueueT.enqueue, dif_neg (show q.toQueue.size ≠ maxQueueSize from h), pushBack, dif_neg h,
      hcell]
    rfl

theorem dequeue_toQueue (q : DequeT) (c : UInt8) :
    q.toQueue.dequeue c = ((q.popFront c).1, (q.popFront c).2.1, (q.popFront c).2.2.toQueue) := by
  by_cases h : q.size = 0
  · rw [QueueT.dequeue, if_pos (show q.toQueue.size = 0 from h), popFront, dif_pos h]
  · rw [QueueT.dequeue, if_neg (show q.toQueue.size ≠ 0 from h), popFront, dif_neg h]
    rfl

def pushAll (q : DequeT) : List UInt8 → List (Int × ℕ) × DequeT
  | [] => ([], q)
  | x :: xs =>
      let r := q.pushBack x
      let (log, q') := pushAll r.2 xs
      ((r.1, r.2.size) :: log, q')

theorem enqueueAll_toQueue (q : DequeT) (xs : List UInt8) :
    q.toQueue.enqueueAll xs = ((q.pushAll xs).1, (q.pushAll xs).2.toQueue) := by
  induction xs generalizing q with
  | nil => rfl
  | cons x xs ih =>
      rw [QueueT.enqueueAll, pushAll, enqueue_toQueue, ih]
      rfl

theorem size_popFront (q : DequeT) (c : UInt8) : (q.popFront c).2.2.size = q.size - 1 := by
  have hsize := size_dequeue q.toQueue c
  rw [dequeue_toQueue] at hsize
  exact hsize

end DequeT

/-- The drain loop of comm-crypto-block. -/
def drainDeque (parse : MavlinkParser σ) (i : ℕ) (q : DequeT) (p : σ) :
    DecryptTrace × DequeT × σ :=
  if i < q.size then
    let d := q.popFront 0
    let r := parseChar parse p d.2.1
    let rest := drainDeque parse (i + 1) d.2.2 r.2
    (⟨d.2.1 :: rest.1.handed, r.1 ++ rest.1.serial⟩, rest.2)
  else (⟨[], []⟩, q, p)
termination_by q.size - i
decreasing_by
  rw [DequeT.size_popFront]
  omega

theorem drainQueue_toQueue (parse : MavlinkParser σ) (i : ℕ) (q : DequeT) (p : σ) :
    let d := drainDeque parse i q p
    drainQueue parse i q.toQueue p = (d.1, d.2.1.toQueue, d.2.2) := by
  induction i, q, p using drainDeque.induct parse with
  | case1 i q p hlt d r ih =>
      rw [drainQueue, if_pos (show i < q.toQueue.size from hlt), drainDeque, if_pos hlt]
      simp only [DequeT.dequeue_toQueue]
      rw [show drainQueue parse (i + 1) (q.popFront 0).2.2.toQueue
        (parseChar parse p (q.popFront 0).2.1).2 = _ from ih]
  | case2 i q p hge =>
      rw [drainQueue, if_neg (show ¬i < q.toQueue.size from hge), drainDeque, if_neg hge]

/-! ## The loops -/

structure DequeDecrypt (κ σ : Type) where
  symkey : GecSymKey κ
  deque : DequeT
  parser : σ

/-- One frame with a header in `run` of comm-crypto-block's Decrypt. -/
def blockDecrypt (G : Gcm κ) (parse : MavlinkParser σ) (s : DequeDecrypt κ σ)
    (frame : CipherTextFrame) : DecryptTrace × DequeDecrypt κ σ :=
  let r := gecDecrypt G s.symkey frame.ciphertext
  let deque := if r.ret = .success then (s.deque.pushAll r.pt.toList).2 else s.deque
  let d := drainDeque parse 0 deque s.parser
  (d.1, { symkey := r.key, deque := d.2.1, parser := d.2.2 })

/-- A loop with its variables, and the code it has returned if it has. -/
structure Loop (S : Type) where
  ret : Option Int
  vars : S

/-- The header check of comm-crypto-rpc-relay and comm-crypto-block: `run`
returns 1 at a frame without a header and reads no further one. -/
def checkHeader {S : Type} (M : Machine S CipherTextFrame DecryptTrace) :
    Machine (Loop S) CipherTextFrame DecryptTrace where
  step s frame :=
    match s.ret with
    | some _ => (⟨[], []⟩, s)
    | none =>
        if frame.magic ≠ gecCiphertextFrameMagic then (⟨[], []⟩, { s with ret := some 1 })
        else if frame.tag ≠ gecCiphertextFrameTag then (⟨[], []⟩, { s with ret := some 1 })
        else
          let r := M.step s.vars frame
          (r.1, { s with vars := r.2 })

/-- `run` of comm-crypto-rpc-relay's Decrypt: behind the check, the body of
key-exchange's. -/
def rpcRelayDecryptMachine (G : Gcm κ) (parse : MavlinkParser σ) :
    Machine (Loop (QueuedDecrypt κ σ)) CipherTextFrame DecryptTrace :=
  checkHeader (keyExchangeDecryptMachine G parse)

def blockDecryptMachine (G : Gcm κ) (parse : MavlinkParser σ) :
    Machine (Loop (DequeDecrypt κ σ)) CipherTextFrame DecryptTrace :=
  checkHeader { step := blockDecrypt G parse }

/-- What `enqueue` returns for the bytes of a frame. -/
def enqueueCodes (G : Gcm κ) (s : QueuedDecrypt κ σ) (frame : CipherTextFrame) : List Int :=
  let r := gecDecrypt G s.symkey frame.ciphertext
  if r.ret ≠ .success then [] else (s.queue.enqueueAll r.pt.toList).1.map Prod.fst

/-- What `deque_push_back` returns for them. -/
def pushCodes (G : Gcm κ) (s : DequeDecrypt κ σ) (frame : CipherTextFrame) : List Int :=
  let r := gecDecrypt G s.symkey frame.ciphertext
  if r.ret = .success then (s.deque.pushAll r.pt.toList).1.map Prod.fst else []

/-- What a frame may do: nothing is refused, and the backlog goes from `before`
to `after`. -/
structure FrameKept (ret : GecStatus) (codes : List Int) (before after : ℕ) : Prop where
  codes : ∀ code ∈ codes, code = 0
  success : ret = .success → after = (before + 64) / 2
  failure : ret ≠ .success → after = before / 2
  bound : after ≤ 63

def QueueFrameKept (G : Gcm κ) (parse : MavlinkParser σ) (s : QueuedDecrypt κ σ)
    (frame : CipherTextFrame) : Prop :=
  FrameKept (gecDecrypt G s.symkey frame.ciphertext).ret (enqueueCodes G s frame) s.queue.size
    (keyExchangeDecrypt G parse s frame).2.queue.size

def DequeFrameKept (G : Gcm κ) (parse : MavlinkParser σ) (s : DequeDecrypt κ σ)
    (frame : CipherTextFrame) : Prop :=
  FrameKept (gecDecrypt G s.symkey frame.ciphertext).ret (pushCodes G s frame) s.deque.size
    (blockDecrypt G parse s frame).2.deque.size

instance (frame : CipherTextFrame) : Decidable (HasHeader frame) :=
  inferInstanceAs (Decidable (_ ∧ _))

/-- The frames that are read before `run` returns. -/
def framesRead (frames : List CipherTextFrame) : List CipherTextFrame :=
  frames.takeWhile fun frame => HasHeader frame

/-! ## The header check -/

section CheckHeader

variable {S : Type} {M : Machine S CipherTextFrame DecryptTrace}

theorem checkHeader_step {frame : CipherTextFrame} (h : HasHeader frame) (s : S) :
    (checkHeader M).step ⟨none, s⟩ frame =
      ((M.step s frame).1, ⟨none, (M.step s frame).2⟩) := by
  simp only [checkHeader, h.1, h.2, ne_eq, not_true_eq_false, if_false]

theorem checkHeader_stops {frame : CipherTextFrame} (h : ¬HasHeader frame) (s : S) :
    (checkHeader M).step ⟨none, s⟩ frame = (⟨[], []⟩, ⟨some 1, s⟩) := by
  simp only [checkHeader]
  split
  · rfl
  · next hmagic =>
      rw [if_pos fun htag => h ⟨not_not.mp hmagic, htag⟩]

theorem checkHeader_returned (code : Int) (s : S) (frames : List CipherTextFrame) :
    (checkHeader M).exec ⟨some code, s⟩ frames = ⟨some code, s⟩ ∧
    handedBytes ((checkHeader M).answers ⟨some code, s⟩ frames) = [] := by
  induction frames with
  | nil => exact ⟨rfl, rfl⟩
  | cons frame frames ih => exact ih

/-- The loop runs over the frames it reads as it would without the check. -/
theorem checkHeader_run (s : S) (frames : List CipherTextFrame) :
    ((checkHeader M).exec ⟨none, s⟩ frames).vars = M.exec s (framesRead frames) ∧
    handedBytes ((checkHeader M).answers ⟨none, s⟩ frames) =
      handedBytes (M.answers s (framesRead frames)) := by
  induction frames generalizing s with
  | nil => exact ⟨rfl, rfl⟩
  | cons frame frames ih =>
      rw [Machine.exec_cons, Machine.answers_cons]
      by_cases h : HasHeader frame
      · obtain ⟨hexec, hhanded⟩ := ih (M.step s frame).2
        have hread : framesRead (frame :: frames) = frame :: framesRead frames := by
          simp [framesRead, h]
        rw [checkHeader_step h, hread]
        exact ⟨hexec, congrArg ((M.step s frame).1.handed ++ ·) hhanded⟩
      · obtain ⟨hexec, hhanded⟩ := checkHeader_returned (M := M) 1 s frames
        have hread : framesRead (frame :: frames) = [] := by simp [framesRead, h]
        rw [checkHeader_stops h, hread, hexec]
        exact ⟨rfl, hhanded⟩

theorem checkHeader_along {I : S → Prop} {P : S → CipherTextFrame → Prop}
    (hstep : ∀ s frame, I s → P s frame ∧ I (M.step s frame).2) {s : S} (hs : I s)
    (frames : List CipherTextFrame) :
    (checkHeader M).Along (fun l frame => l.ret = none → HasHeader frame → P l.vars frame)
      ⟨none, s⟩ frames := by
  refine Machine.along_of_inv (I := fun l => I l.vars) ?_ hs frames
  rintro ⟨ret, s⟩ frame hI
  refine ⟨fun _ _ => (hstep s frame hI).1, ?_⟩
  cases ret with
  | some code => exact hI
  | none =>
      by_cases h : HasHeader frame
      · rw [checkHeader_step h]
        exact (hstep s frame hI).2
      · rw [checkHeader_stops h]
        exact hI

end CheckHeader

/-! ## The invariant -/

theorem queueFrameKept (G : Gcm κ) (parse : MavlinkParser σ) {s : QueuedDecrypt κ σ}
    (hsize : s.queue.size ≤ 63) (frame : CipherTextFrame) : QueueFrameKept G parse s frame := by
  have hdrain := fun q => drainQueue_size parse 0 q s.parser (Nat.zero_le _)
  by_cases hok : (gecDecrypt G s.symkey frame.ciphertext).ret = .success
  · obtain ⟨hcontent, hlog⟩ := QueueT.enqueueAll_content (q := s.queue)
      (gecDecrypt G s.symkey frame.ciphertext).pt.toList
      (by rw [List.Vector.toList_length, maxQueueSize]; omega)
    have hgrown := congrArg List.length hcontent
    rw [QueueT.length_content, List.length_append, QueueT.length_content,
      List.Vector.toList_length] at hgrown
    simp only [QueueFrameKept, enqueueCodes, keyExchangeDecrypt, hok, ne_eq, not_true_eq_false,
      if_false, hdrain, hgrown]
    refine ⟨?_, fun _ => rfl, fun hne => absurd rfl hne, by omega⟩
    intro code hcode
    obtain ⟨entry, hentry, rfl⟩ := List.mem_map.mp hcode
    exact (hlog entry hentry).1
  · simp only [QueueFrameKept, enqueueCodes, keyExchangeDecrypt, hok, ne_eq, not_false_eq_true,
      if_true, hdrain]
    exact ⟨fun code hcode => absurd hcode List.not_mem_nil, fun h => absurd h hok, fun _ => rfl,
      by omega⟩

/-- A block's loop on its deque is key-exchange's loop on the queue. -/
def DequeDecrypt.toQueued (s : DequeDecrypt κ σ) : QueuedDecrypt κ σ where
  symkey := s.symkey
  queue := s.deque.toQueue
  parser := s.parser

theorem blockDecrypt_toQueued (G : Gcm κ) (parse : MavlinkParser σ) (s : DequeDecrypt κ σ)
    (frame : CipherTextFrame) :
    keyExchangeDecrypt G parse s.toQueued frame =
      ((blockDecrypt G parse s frame).1, (blockDecrypt G parse s frame).2.toQueued) := by
  simp only [keyExchangeDecrypt, blockDecrypt, DequeDecrypt.toQueued]
  by_cases hok : (gecDecrypt G s.symkey frame.ciphertext).ret = .success
  · simp only [hok, ne_eq, not_true_eq_false, if_false, if_true, DequeT.enqueueAll_toQueue,
      drainQueue_toQueue]
  · simp only [hok, ne_eq, not_false_eq_true, if_false, if_true, drainQueue_toQueue]

theorem dequeFrameKept (G : Gcm κ) (parse : MavlinkParser σ) {s : DequeDecrypt κ σ}
    (hsize : s.deque.size ≤ 63) (frame : CipherTextFrame) : DequeFrameKept G parse s frame := by
  have hkept := queueFrameKept G parse (s := s.toQueued) hsize frame
  have hcodes : pushCodes G s frame = enqueueCodes G s.toQueued frame := by
    simp only [pushCodes, enqueueCodes, DequeDecrypt.toQueued, DequeT.enqueueAll_toQueue]
    by_cases hok : (gecDecrypt G s.symkey frame.ciphertext).ret = .success
    · simp only [hok, ne_eq, not_true_eq_false, if_false, if_true]
    · simp only [hok, ne_eq, not_false_eq_true, if_false, if_true]
  rw [QueueFrameKept, blockDecrypt_toQueued, ← hcodes] at hkept
  exact hkept

/-- **The backlog invariant.** From an empty queue, over every sequence of
frames that authenticate or fail: no byte is refused, the backlog goes from
`r` to `(r + 64) / 2` or `r / 2` and stays below a block, and what was handed
to the parser followed by the queue is what was decrypted. The other two loops
do the same over the frames they read. -/
theorem backlog_kept (G : Gcm κ) (parse : MavlinkParser σ) (k : GecSymKey κ) (p : σ)
    (frames : List CipherTextFrame) :
    let kx := keyExchangeDecryptMachine G parse
    let rpc := rpcRelayDecryptMachine G parse
    let block := blockDecryptMachine G parse
    let s : QueuedDecrypt κ σ := { symkey := k, queue := .init, parser := p }
    let d : DequeDecrypt κ σ := { symkey := k, deque := .init, parser := p }
    (kx.Along (QueueFrameKept G parse) s frames ∧
      handedBytes (kx.answers s frames) ++ (kx.exec s frames).queue.content =
        blockBytes (acceptedBlocks G k frames)) ∧
    (rpc.Along (fun l frame => l.ret = none → HasHeader frame →
        QueueFrameKept G parse l.vars frame) ⟨none, s⟩ frames ∧
      handedBytes (rpc.answers ⟨none, s⟩ frames) ++
        (rpc.exec ⟨none, s⟩ frames).vars.queue.content =
        blockBytes (acceptedBlocks G k (framesRead frames))) ∧
    (block.Along (fun l frame => l.ret = none → HasHeader frame →
        DequeFrameKept G parse l.vars frame) ⟨none, d⟩ frames ∧
      handedBytes (block.answers ⟨none, d⟩ frames) ++
        (block.exec ⟨none, d⟩ frames).vars.deque.content =
        blockBytes (acceptedBlocks G k (framesRead frames))) := by
  intro kx rpc block s d
  have hsame : SameChannel k k := ⟨rfl, rfl⟩
  have hqueue : ∀ (s : QueuedDecrypt κ σ) (frame : CipherTextFrame), s.queue.size ≤ 63 →
      QueueFrameKept G parse s frame ∧ (kx.step s frame).2.queue.size ≤ 63 :=
    fun s frame hs => ⟨queueFrameKept G parse hs frame, (queueFrameKept G parse hs frame).bound⟩
  have hdeque : ∀ (s : DequeDecrypt κ σ) (frame : CipherTextFrame), s.deque.size ≤ 63 →
      DequeFrameKept G parse s frame ∧ (blockDecrypt G parse s frame).2.deque.size ≤ 63 :=
    fun s frame hs => ⟨dequeFrameKept G parse hs frame, (dequeFrameKept G parse hs frame).bound⟩
  have hcontent := fun frames => (keyExchangeDecrypt_handed G parse frames (s := s) hsame
    (Nat.zero_le 63)).1
  refine ⟨⟨?_, hcontent frames⟩, ⟨?_, ?_⟩, ?_, ?_⟩
  · exact Machine.along_of_inv hqueue (Nat.zero_le 63) frames
  · exact checkHeader_along hqueue (Nat.zero_le 63) frames
  · obtain ⟨hexec, hhanded⟩ := checkHeader_run (M := kx) s frames
    rw [show (rpc.exec ⟨none, s⟩ frames).vars = _ from hexec,
      show handedBytes (rpc.answers ⟨none, s⟩ frames) = _ from hhanded]
    exact hcontent (framesRead frames)
  · exact checkHeader_along (M := { step := blockDecrypt G parse }) hdeque (Nat.zero_le 63) frames
  · obtain ⟨hexec, hhanded⟩ := checkHeader_run (M := { step := blockDecrypt G parse }) d frames
    obtain ⟨hvars, hanswers⟩ := Machine.sim_run (M := { step := blockDecrypt G parse }) (N := kx)
      (f := DequeDecrypt.toQueued) (blockDecrypt_toQueued G parse) d (framesRead frames)
    rw [show (block.exec ⟨none, d⟩ frames).vars = _ from hexec,
      show handedBytes (block.answers ⟨none, d⟩ frames) = _ from hhanded, ← hanswers]
    have hqueued := hcontent (framesRead frames)
    rw [show kx.exec s (framesRead frames) = _ from hvars] at hqueued
    exact hqueued

end GecRelay
