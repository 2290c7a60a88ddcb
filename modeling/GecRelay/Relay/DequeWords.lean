import GecRelay.Relay.Backlog
import GecRelay.Relay.QueueWords

/-!
# The deque is a bounded list, but for one return code

`deque_t` of comm-crypto-block as it is stored, with all three operations.
They simulate those of `DequeT`, where the tail is the cell behind the last
one, and these simulate a list of at most 4096 bytes under append, prepend and
removal at the front. The return codes are another matter:
`deque_push_front` sets its `_ret` only where it refuses, and otherwise
returns what the variable happens to hold.
-/

namespace GecRelay

open Foundation

inductive DequeOp
  | pushBack (x : UInt8)
  /-- `deque_push_front(q, x)`, with what its `_ret` holds before. -/
  | pushFront (ret : Int) (x : UInt8)
  /-- `deque_pop_front(q, &c)`, with the value of `c` before. -/
  | popFront (c : UInt8)

structure DequeWords where
  rawQueue : Bytes maxQueueSize
  head : UInt32
  tail : UInt32
  size : UInt32

namespace DequeWords

/-- `deque_init`. -/
def init : DequeWords where
  rawQueue := List.Vector.replicate maxQueueSize 0xFF
  head := 0
  tail := 0
  size := 0

def popFront (q : DequeWords) (c : UInt8) : Option (Int × UInt8 × DequeWords) :=
  if q.size = 0 then some (-1, c, q)
  else do
    let index ← cellAt q.head
    return (0, q.rawQueue.get index,
      { q with head := (q.head + 1) % 4096, size := q.size - 1 })

def pushBack (q : DequeWords) (x : UInt8) : Option (Int × DequeWords) :=
  if q.size = 4096 then some (-1, q)
  else do
    let index ← cellAt q.tail
    return (0, { q with
      rawQueue := q.rawQueue.set index x
      tail := (q.tail + 1) % 4096
      size := q.size + 1 })

/-- `deque_push_front`; the `_ret` of the second branch is not set. -/
def pushFront (q : DequeWords) (ret : Int) (x : UInt8) : Option (Int × DequeWords) :=
  if q.size = 4096 then some (-1, q)
  else do
    let index ← cellAt ((q.head - 1 + 4096) % 4096)
    return (ret, { q with
      rawQueue := q.rawQueue.set index x
      head := (q.head - 1) % 4096
      size := q.size + 1 })

def step (q : DequeWords) : DequeOp → Option (QueueAnswer × DequeWords)
  | .pushBack x => (q.pushBack x).map fun r => (.pushed r.1, r.2)
  | .pushFront ret x => (q.pushFront ret x).map fun r => (.pushed r.1, r.2)
  | .popFront c => (q.popFront c).map fun r => (.popped r.1 r.2.1, r.2.2)

/-- The bytes `raw_queue[(head + i) mod 4096]` for `i < size`. -/
def content (q : DequeWords) : List UInt8 := window q.rawQueue q.head.toNat q.size.toNat

end DequeWords

def dequeWordsMachine : Machine DequeWords DequeOp (Option QueueAnswer) :=
  .ofPartial DequeWords.step

/-! ## The list -/

def prependList (l : List UInt8) (x : UInt8) : QueueAnswer × List UInt8 :=
  if l.length < maxQueueSize then (.pushed 0, x :: l) else (.pushed (-1), l)

/-- **What the deque is for.** -/
def boundedListMachine : Machine (List UInt8) DequeOp QueueAnswer where
  step l
    | .pushBack x => pushList l x
    | .pushFront _ x => prependList l x
    | .popFront c => popList l c

/-- In a run from `deque_init` the content is the list, a refused operation
changes nothing, and head, tail and size are what they should be. -/
structure DequeKept (ops : List DequeOp) : Prop where
  content : (dequeWordsMachine.exec .init ops).content = boundedListMachine.exec [] ops
  refused : ∀ op,
    (boundedListMachine.step (dequeWordsMachine.exec .init ops).content op).1.ret = -1 →
    (dequeWordsMachine.step (dequeWordsMachine.exec .init ops) op).2 =
      dequeWordsMachine.exec .init ops
  tail_eq : (dequeWordsMachine.exec .init ops).tail.toNat =
    ((dequeWordsMachine.exec .init ops).head.toNat +
      (dequeWordsMachine.exec .init ops).size.toNat) % maxQueueSize
  head_lt : (dequeWordsMachine.exec .init ops).head.toNat < maxQueueSize
  tail_lt : (dequeWordsMachine.exec .init ops).tail.toNat < maxQueueSize
  size_le : (dequeWordsMachine.exec .init ops).size.toNat ≤ maxQueueSize

/-- **The deque as a bounded list**: what is kept, and every operation is
defined and answers as on the list. -/
structure DequeRefines (ops : List DequeOp) : Prop extends DequeKept ops where
  answers : dequeWordsMachine.answers .init ops = (boundedListMachine.answers [] ops).map some

/-- A `deque_push_front` that is not refused finds 0 in its `_ret`. -/
def RetIsZero (q : DequeWords) : DequeOp → Prop
  | .pushFront ret _ => q.size ≠ 4096 → ret = 0
  | _ => True

/-! ## The deque with its invariant -/

namespace DequeT

theorem head_pushFront_lt (q : DequeT) :
    (q.head + (maxQueueSize - 1)) % maxQueueSize < maxQueueSize :=
  Nat.mod_lt _ (NeZero.pos maxQueueSize)

theorem tail_pushFront (q : DequeT) :
    q.tail = ((q.head + (maxQueueSize - 1)) % maxQueueSize + (q.size + 1)) % maxQueueSize := by
  have hsum : q.head + (maxQueueSize - 1) + (q.size + 1) = q.head + q.size + maxQueueSize := by
    rw [maxQueueSize]
    omega
  rw [q.tail_eq, Nat.mod_add_mod, hsum, Nat.add_mod_right]

def pushFront (q : DequeT) (ret : Int) (x : UInt8) : Int × DequeT :=
  if h : q.size = maxQueueSize then (-1, q)
  else (ret, { q with
    rawQueue := q.rawQueue.set (cellIndex maxQueueSize (q.head + (maxQueueSize - 1))) x
    head := (q.head + (maxQueueSize - 1)) % maxQueueSize
    size := q.size + 1
    head_lt := head_pushFront_lt q
    size_le := size_pushBack_le h
    tail_eq := tail_pushFront q })

theorem length_content (q : DequeT) : q.content.length = q.size := q.toQueue.length_content

theorem tail_lt (q : DequeT) : q.tail < maxQueueSize := by
  rw [q.tail_eq]
  exact Nat.mod_lt _ (NeZero.pos maxQueueSize)

end DequeT

def dequeMachine : Machine DequeT DequeOp QueueAnswer where
  step q
    | .pushBack x => (.pushed (q.pushBack x).1, (q.pushBack x).2)
    | .pushFront ret x => (.pushed (q.pushFront ret x).1, (q.pushFront ret x).2)
    | .popFront c => (.popped (q.popFront c).1 (q.popFront c).2.1, (q.popFront c).2.2)

theorem full_of_prependList {l : List UInt8} {x : UInt8} (h : (prependList l x).1.ret = -1) :
    maxQueueSize ≤ l.length := by
  unfold prependList at h
  split at h
  · cases h
  · next hge => exact Nat.not_lt.mp hge

theorem pushList_deque (q : DequeT) (x : UInt8) :
    pushList q.content x = (.pushed (q.pushBack x).1, (q.pushBack x).2.content) := by
  unfold DequeT.content
  rw [pushList_content, DequeT.enqueue_toQueue]

theorem popList_deque (q : DequeT) (c : UInt8) :
    popList q.content c =
      (.popped (q.popFront c).1 (q.popFront c).2.1, (q.popFront c).2.2.content) := by
  unfold DequeT.content
  rw [popList_content, DequeT.dequeue_toQueue]

theorem prependList_deque (q : DequeT) (ret : Int) (x : UInt8) :
    prependList q.content x =
      (.pushed (if q.size = maxQueueSize then -1 else 0), (q.pushFront ret x).2.content) := by
  unfold prependList
  rw [q.length_content]
  by_cases hfull : q.size = maxQueueSize
  · rw [if_neg (Nat.not_lt.mpr hfull.ge), if_pos hfull, DequeT.pushFront, dif_pos hfull]
  · have hlt : q.size < maxQueueSize := Nat.lt_of_le_of_ne q.size_le hfull
    rw [if_pos hlt, if_neg hfull, DequeT.pushFront, dif_neg hfull]
    congr 1
    -- the head is stored reduced, the window does not see that
    have hwindow := window_unshift q.rawQueue q.head hlt x
    rw [← window_mod] at hwindow
    exact hwindow.symm

theorem boundedList_step (q : DequeT) (op : DequeOp) :
    (boundedListMachine.step q.content op).2 = (dequeMachine.step q op).2.content := by
  cases op with
  | pushBack x => exact congrArg Prod.snd (pushList_deque q x)
  | pushFront ret x => exact congrArg Prod.snd (prependList_deque q ret x)
  | popFront c => exact congrArg Prod.snd (popList_deque q c)

/-! ## The words -/

/-- One before the head, as the index and as the new head: below zero the
subtraction wraps at `2 ^ 32`, a multiple of the capacity. -/
theorem word_before {n : ℕ} (h : n < maxQueueSize) :
    (UInt32.ofNat n - 1 + 4096) % 4096 = UInt32.ofNat ((n + (maxQueueSize - 1)) % maxQueueSize) ∧
    (UInt32.ofNat n - 1) % 4096 = UInt32.ofNat ((n + (maxQueueSize - 1)) % maxQueueSize) := by
  have hsub : (UInt32.ofNat n - 1).toNat = (2 ^ 32 - 1 + n) % 2 ^ 32 := by
    rw [UInt32.toNat_sub, word_toNat h.le]
    rfl
  have hmod : (n + (maxQueueSize - 1)) % maxQueueSize ≤ maxQueueSize :=
    (Nat.mod_lt _ (by decide)).le
  rw [maxQueueSize] at h
  constructor
  · rw [← UInt32.toNat_inj, UInt32.toNat_mod, UInt32.toNat_add, hsub, word_toNat hmod, maxQueueSize]
    show ((2 ^ 32 - 1 + n) % 2 ^ 32 + 4096) % 2 ^ 32 % 4096 = _
    omega
  · rw [← UInt32.toNat_inj, UInt32.toNat_mod, hsub, word_toNat hmod, maxQueueSize]
    show (2 ^ 32 - 1 + n) % 2 ^ 32 % 4096 = _
    omega

def DequeT.words (q : DequeT) : DequeWords where
  rawQueue := q.rawQueue
  head := UInt32.ofNat q.head
  tail := UInt32.ofNat q.tail
  size := UInt32.ofNat q.size

theorem content_dequeWords (q : DequeT) : q.words.content = q.content :=
  content_words q.toQueue

theorem pushBack_words (q : DequeT) (x : UInt8) :
    q.words.pushBack x = some ((q.pushBack x).1, (q.pushBack x).2.words) := by
  have hsize : q.words.size = 4096 ↔ q.size = maxQueueSize := word_full_iff q.size_le
  by_cases hfull : q.size = maxQueueSize
  · rw [DequeWords.pushBack, if_pos (hsize.mpr hfull), DequeT.pushBack, dif_pos hfull]
  · have hcell : cellAt q.words.tail = _ := cellAt_word q.tail_lt
    have htail : (q.words.tail + 1) % 4096 = _ := word_succ_mod q.tail_lt
    have hsucc : q.words.size + 1 = _ := word_succ q.size
    rw [DequeWords.pushBack, if_neg (mt hsize.mp hfull), hcell, htail, hsucc, DequeT.pushBack,
      dif_neg hfull]
    rfl

theorem pushFront_words (q : DequeT) (ret : Int) (x : UInt8) :
    q.words.pushFront ret x = some ((q.pushFront ret x).1, (q.pushFront ret x).2.words) := by
  have hsize : q.words.size = 4096 ↔ q.size = maxQueueSize := word_full_iff q.size_le
  by_cases hfull : q.size = maxQueueSize
  · rw [DequeWords.pushFront, if_pos (hsize.mpr hfull), DequeT.pushFront, dif_pos hfull]
  · obtain ⟨hindex, hhead⟩ := word_before q.head_lt
    have hword : q.words.head = UInt32.ofNat q.head := rfl
    have hsucc : q.words.size + 1 = _ := word_succ q.size
    rw [DequeWords.pushFront, if_neg (mt hsize.mp hfull), hsucc, hword, hindex, hhead,
      cellAt_word q.head_pushFront_lt, cellIndex_mod_self, DequeT.pushFront, dif_neg hfull]
    rfl

theorem popFront_words (q : DequeT) (c : UInt8) :
    q.words.popFront c =
      some ((q.popFront c).1, (q.popFront c).2.1, (q.popFront c).2.2.words) := by
  have hsize : q.words.size = 0 ↔ q.size = 0 := word_empty_iff q.size_le
  by_cases hempty : q.size = 0
  · rw [DequeWords.popFront, if_pos (hsize.mpr hempty), DequeT.popFront, dif_pos hempty]
  · have hcell : cellAt q.words.head = _ := cellAt_word q.head_lt
    have hhead : (q.words.head + 1) % 4096 = _ := word_succ_mod q.head_lt
    have hpred : q.words.size - 1 = _ := word_pred hempty
    rw [DequeWords.popFront, if_neg (mt hsize.mp hempty), hcell, hhead, hpred, DequeT.popFront,
      dif_neg hempty]
    rfl

theorem step_dequeWords (q : DequeT) (op : DequeOp) :
    q.words.step op = some ((dequeMachine.step q op).1, (dequeMachine.step q op).2.words) := by
  cases op with
  | pushBack x =>
      rw [DequeWords.step, pushBack_words]
      rfl
  | pushFront ret x =>
      rw [DequeWords.step, pushFront_words]
      rfl
  | popFront c =>
      rw [DequeWords.step, popFront_words]
      rfl

theorem dequeWordsMachine_step (q : DequeT) (op : DequeOp) :
    (dequeWordsMachine.step q.words op).2 = (dequeMachine.step q op).2.words := by
  rw [dequeWordsMachine, Machine.ofPartial_step (step_dequeWords q op)]

/-! ## The return codes -/

/-- The one answer that can differ from the list's. -/
theorem answer_iff (q : DequeT) (op : DequeOp) :
    (dequeMachine.step q op).1 = (boundedListMachine.step q.content op).1 ↔
      RetIsZero q.words op := by
  cases op with
  | pushBack x => exact ⟨fun _ => trivial, fun _ => (congrArg Prod.fst (pushList_deque q x)).symm⟩
  | popFront c => exact ⟨fun _ => trivial, fun _ => (congrArg Prod.fst (popList_deque q c)).symm⟩
  | pushFront ret x =>
      show QueueAnswer.pushed (q.pushFront ret x).1 = (prependList q.content x).1 ↔
        (q.words.size ≠ 4096 → ret = 0)
      have hsize : q.words.size = 4096 ↔ q.size = maxQueueSize := word_full_iff q.size_le
      rw [prependList_deque q ret x, Ne, hsize, DequeT.pushFront]
      by_cases hfull : q.size = maxQueueSize
      · rw [dif_pos hfull, if_pos hfull]
        exact ⟨fun _ hne => absurd hfull hne, fun _ => rfl⟩
      · rw [dif_neg hfull, if_neg hfull, QueueAnswer.pushed.injEq]
        exact ⟨fun h _ => h, fun h => h hfull⟩

/-- What the list refuses leaves the deque as it is. -/
theorem dequeMachine_refused (q : DequeT) (op : DequeOp)
    (h : (boundedListMachine.step q.content op).1.ret = -1) :
    (dequeMachine.step q op).2 = q := by
  cases op with
  | pushBack x =>
      have hfull : q.size = maxQueueSize :=
        QueueT.full_of_le (show _ ≤ q.toQueue.content.length from full_of_pushList h)
      show (q.pushBack x).2 = q
      rw [DequeT.pushBack, dif_pos hfull]
  | pushFront ret x =>
      have hfull : q.size = maxQueueSize :=
        QueueT.full_of_le (show _ ≤ q.toQueue.content.length from full_of_prependList h)
      show (q.pushFront ret x).2 = q
      rw [DequeT.pushFront, dif_pos hfull]
  | popFront c =>
      have hempty : q.size = 0 :=
        QueueT.empty_of_nil (show q.toQueue.content = [] from nil_of_popList h)
      show (q.popFront c).2.2 = q
      rw [DequeT.popFront, dif_pos hempty]

/-- **All but the return codes**, in every run. -/
theorem deque_kept (ops : List DequeOp) : DequeKept ops := by
  obtain ⟨hwords, -⟩ := Machine.sim_ofPartial step_dequeWords DequeT.init ops
  have hlist := Machine.sim_exec boundedList_step DequeT.init ops
  set t := dequeMachine.exec DequeT.init ops
  have hexec : dequeWordsMachine.exec .init ops = t.words := hwords
  have htail : t.words.tail.toNat = t.tail := word_toNat t.tail_lt.le
  have hhead : t.words.head.toNat = t.head := word_toNat t.head_lt.le
  have hsize : t.words.size.toNat = t.size := word_toNat t.size_le
  refine ⟨?_, ?_, ?_, ?_, ?_, ?_⟩
  · rw [hexec, content_dequeWords]
    exact hlist.symm
  · intro op hrefused
    rw [hexec, content_dequeWords] at hrefused
    rw [hexec, dequeWordsMachine_step]
    exact congrArg DequeT.words (dequeMachine_refused t op hrefused)
  · rw [hexec, htail, hhead, hsize]
    exact t.tail_eq
  · rw [hexec, hhead]
    exact t.head_lt
  · rw [hexec, htail]
    exact t.tail_lt
  · rw [hexec, hsize]
    exact t.size_le

/-- **When the deque refines the list**: exactly in the runs in which every
`deque_push_front` that is not refused finds 0 in its unset `_ret`. -/
theorem deque_refines_exactly (ops : List DequeOp) :
    DequeRefines ops ↔ dequeWordsMachine.Along RetIsZero .init ops := by
  obtain ⟨-, hanswers⟩ := Machine.sim_ofPartial step_dequeWords DequeT.init ops
  have hrun : dequeWordsMachine.answers .init ops = (dequeMachine.answers .init ops).map some :=
    hanswers
  -- step by step, the list's answers are those of the deque where `_ret` is zero
  have halong : dequeWordsMachine.Along RetIsZero .init ops ↔
      dequeMachine.answers .init ops = boundedListMachine.answers [] ops := by
    refine (Machine.along_sim dequeWordsMachine_step DequeT.init ops).trans ?_
    simp only [← answer_iff]
    exact (Machine.answers_sim_iff boundedList_step DequeT.init ops).symm
  rw [halong]
  constructor
  · intro h
    have hsome := h.answers
    rw [hrun] at hsome
    exact List.map_injective_iff.mpr (Option.some_injective _) hsome
  · intro hsame
    refine ⟨deque_kept ops, ?_⟩
    rw [hrun, hsame]

/-- A first `deque_push_front` whose `_ret` holds 7 succeeds and returns 7. -/
theorem push_front_returns_junk :
    dequeWordsMachine.answers .init [.pushFront 7 1] = [some (.pushed 7)] ∧
    ¬DequeRefines [.pushFront 7 1] := by
  have hanswer : dequeWordsMachine.answers .init [.pushFront 7 1] = [some (.pushed 7)] := by
    decide
  refine ⟨hanswer, ?_⟩
  intro h
  have hcode := h.answers
  rw [hanswer] at hcode
  exact absurd hcode (by decide)

end GecRelay
