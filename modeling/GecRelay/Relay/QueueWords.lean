import GecRelay.Relay.Queue
import GecRelay.Foundation.Machine

/-!
# The queue is a bounded FIFO

`queue_t` as it is stored: the cells and two 32-bit words, with nothing known
of them. Its operations simulate those of `QueueT`, where the head is an index
and the size at most the capacity, and these simulate a list of at most 4096
bytes. An access outside `raw_queue` is undefined here; no run from
`queue_init` makes one.
-/

namespace GecRelay

open Foundation

/-- The cell of an index, if it is inside the array. -/
def cellAt (i : UInt32) : Option (Fin maxQueueSize) :=
  if h : i.toNat < maxQueueSize then some ⟨i.toNat, h⟩ else none

/-- What an operation returns, and what a removal leaves in its result
location. -/
inductive QueueAnswer
  | pushed (ret : Int)
  | popped (ret : Int) (c : UInt8)
deriving DecidableEq

def QueueAnswer.ret : QueueAnswer → Int
  | .pushed ret => ret
  | .popped ret _ => ret

inductive QueueOp
  | enqueue (x : UInt8)
  /-- `dequeue(q, &c)`, with the value of `c` before. -/
  | dequeue (c : UInt8)

structure QueueWords where
  rawQueue : Bytes maxQueueSize
  head : UInt32
  size : UInt32

namespace QueueWords

/-- `queue_init`. -/
def init : QueueWords where
  rawQueue := List.Vector.replicate maxQueueSize 0xFF
  head := 0
  size := 0

def enqueue (q : QueueWords) (x : UInt8) : Option (Int × QueueWords) :=
  if q.size = 4096 then some (-1, q)
  else do
    let index ← cellAt ((q.head + q.size) % 4096)
    return (0, { q with rawQueue := q.rawQueue.set index x, size := q.size + 1 })

def dequeue (q : QueueWords) (c : UInt8) : Option (Int × UInt8 × QueueWords) :=
  if q.size = 0 then some (-1, c, q)
  else do
    let index ← cellAt q.head
    return (0, q.rawQueue.get index,
      { q with head := (q.head + 1) % 4096, size := q.size - 1 })

def step (q : QueueWords) : QueueOp → Option (QueueAnswer × QueueWords)
  | .enqueue x => (q.enqueue x).map fun r => (.pushed r.1, r.2)
  | .dequeue c => (q.dequeue c).map fun r => (.popped r.1 r.2.1, r.2.2)

/-- The abstraction: `raw_queue[(head + i) mod 4096]` for `i < size`. -/
def content (q : QueueWords) : List UInt8 := window q.rawQueue q.head.toNat q.size.toNat

end QueueWords

def queueWordsMachine : Machine QueueWords QueueOp (Option QueueAnswer) :=
  .ofPartial QueueWords.step

def queueMachine : Machine QueueT QueueOp QueueAnswer where
  step q
    | .enqueue x => (.pushed (q.enqueue x).1, (q.enqueue x).2)
    | .dequeue c => (.popped (q.dequeue c).1 (q.dequeue c).2.1, (q.dequeue c).2.2)

/-! ## The list -/

def pushList (l : List UInt8) (x : UInt8) : QueueAnswer × List UInt8 :=
  if l.length < maxQueueSize then (.pushed 0, l ++ [x]) else (.pushed (-1), l)

def popList (l : List UInt8) (c : UInt8) : QueueAnswer × List UInt8 :=
  match l with
  | [] => (.popped (-1) c, [])
  | x :: rest => (.popped 0 x, rest)

/-- **What the queue is for**: a list of at most 4096 bytes, first in first
out. -/
def fifoMachine : Machine (List UInt8) QueueOp QueueAnswer where
  step l
    | .enqueue x => pushList l x
    | .dequeue c => popList l c

theorem full_of_pushList {l : List UInt8} {x : UInt8} (h : (pushList l x).1.ret = -1) :
    maxQueueSize ≤ l.length := by
  unfold pushList at h
  split at h
  · cases h
  · next hge => exact Nat.not_lt.mp hge

theorem nil_of_popList {l : List UInt8} {c : UInt8} (h : (popList l c).1.ret = -1) : l = [] := by
  cases l with
  | nil => rfl
  | cons x rest => cases h

theorem QueueT.full_of_le {q : QueueT} (h : maxQueueSize ≤ q.content.length) :
    q.size = maxQueueSize := by
  rw [q.length_content] at h
  exact Nat.le_antisymm q.size_le h

theorem QueueT.empty_of_nil {q : QueueT} (h : q.content = []) : q.size = 0 := by
  rw [← q.length_content, h]
  rfl

theorem pushList_content (q : QueueT) (x : UInt8) :
    pushList q.content x = (.pushed (q.enqueue x).1, (q.enqueue x).2.content) := by
  unfold pushList
  rw [q.length_content]
  split
  · next hlt =>
      obtain ⟨hret, hcontent⟩ := QueueT.enqueue_content hlt x
      rw [hret, hcontent]
  · next hge =>
      have hfull : q.size = maxQueueSize := Nat.le_antisymm q.size_le (Nat.not_lt.mp hge)
      rw [QueueT.enqueue, dif_pos hfull]

theorem popList_content (q : QueueT) (c : UInt8) :
    popList q.content c =
      (.popped (q.dequeue c).1 (q.dequeue c).2.1, (q.dequeue c).2.2.content) := by
  cases hcontent : q.content with
  | nil =>
      rw [QueueT.dequeue, if_pos (QueueT.empty_of_nil hcontent), hcontent]
      rfl
  | cons x rest =>
      obtain ⟨hret, hx, hrest⟩ := QueueT.dequeue_content hcontent c
      rw [hret, hx, hrest]
      rfl

theorem fifoMachine_step (q : QueueT) (op : QueueOp) :
    fifoMachine.step q.content op =
      ((queueMachine.step q op).1, (queueMachine.step q op).2.content) := by
  cases op with
  | enqueue x => exact pushList_content q x
  | dequeue c => exact popList_content q c

/-! ## The words -/

theorem word_toNat {n : ℕ} (h : n ≤ maxQueueSize) : (UInt32.ofNat n).toNat = n := by
  rw [UInt32.toNat_ofNat']
  refine Nat.mod_eq_of_lt (h.trans_lt ?_)
  decide

theorem word_eq_iff {n m : ℕ} (hn : n ≤ maxQueueSize) (hm : m ≤ maxQueueSize) :
    UInt32.ofNat n = UInt32.ofNat m ↔ n = m := by
  rw [← UInt32.toNat_inj, word_toNat hn, word_toNat hm]

/-- Two words of the queue, added and wrapped. -/
theorem word_add_mod {n m : ℕ} (hn : n ≤ maxQueueSize) (hm : m ≤ maxQueueSize) :
    (UInt32.ofNat n + UInt32.ofNat m) % 4096 = UInt32.ofNat ((n + m) % maxQueueSize) := by
  have hmod : (n + m) % maxQueueSize ≤ maxQueueSize := (Nat.mod_lt _ (by decide)).le
  have hsum : (UInt32.ofNat n + UInt32.ofNat m).toNat = n + m := by
    rw [UInt32.toNat_add, word_toNat hn, word_toNat hm]
    exact Nat.mod_eq_of_lt (by rw [maxQueueSize] at hn hm; omega)
  rw [← UInt32.toNat_inj, UInt32.toNat_mod, hsum, word_toNat hmod]
  rfl

theorem word_full_iff {n : ℕ} (h : n ≤ maxQueueSize) : UInt32.ofNat n = 4096 ↔ n = maxQueueSize :=
  word_eq_iff h le_rfl

theorem word_empty_iff {n : ℕ} (h : n ≤ maxQueueSize) : UInt32.ofNat n = 0 ↔ n = 0 :=
  word_eq_iff h (Nat.zero_le maxQueueSize)

theorem word_succ (n : ℕ) : UInt32.ofNat n + 1 = UInt32.ofNat (n + 1) := by
  rw [UInt32.ofNat_add]
  rfl

theorem word_pred {n : ℕ} (h : n ≠ 0) : UInt32.ofNat n - 1 = UInt32.ofNat (n - 1) :=
  (UInt32.ofNat_sub (Nat.one_le_iff_ne_zero.mpr h)).symm

theorem word_succ_mod {n : ℕ} (h : n < maxQueueSize) :
    (UInt32.ofNat n + 1) % 4096 = UInt32.ofNat ((n + 1) % maxQueueSize) :=
  word_add_mod h.le (by decide)

theorem cellAt_word {n : ℕ} (h : n < maxQueueSize) :
    cellAt (UInt32.ofNat n) = some (cellIndex maxQueueSize n) := by
  have hnat := word_toNat h.le
  unfold cellAt
  rw [dif_pos (by rw [hnat]; exact h)]
  congr 1
  apply Fin.ext
  show (UInt32.ofNat n).toNat = n % maxQueueSize
  rw [hnat, Nat.mod_eq_of_lt h]

def QueueT.words (q : QueueT) : QueueWords where
  rawQueue := q.rawQueue
  head := UInt32.ofNat q.head
  size := UInt32.ofNat q.size

theorem content_words (q : QueueT) : q.words.content = q.content := by
  unfold QueueWords.content QueueT.content
  rw [show q.words.head.toNat = q.head from word_toNat q.head_lt.le,
    show q.words.size.toNat = q.size from word_toNat q.size_le]
  rfl

theorem enqueue_words (q : QueueT) (x : UInt8) :
    q.words.enqueue x = some ((q.enqueue x).1, (q.enqueue x).2.words) := by
  have hsize : q.words.size = 4096 ↔ q.size = maxQueueSize := word_full_iff q.size_le
  by_cases hfull : q.size = maxQueueSize
  · rw [QueueWords.enqueue, if_pos (hsize.mpr hfull), QueueT.enqueue, dif_pos hfull]
  · have hindex : (q.words.head + q.words.size) % 4096 =
        UInt32.ofNat ((q.head + q.size) % maxQueueSize) :=
      word_add_mod q.head_lt.le q.size_le
    have hsucc : q.words.size + 1 = UInt32.ofNat (q.size + 1) := word_succ q.size
    rw [QueueWords.enqueue, if_neg (mt hsize.mp hfull), hindex, hsucc,
      cellAt_word (Nat.mod_lt _ (by decide)), cellIndex_mod_self, QueueT.enqueue, dif_neg hfull]
    rfl

theorem dequeue_words (q : QueueT) (c : UInt8) :
    q.words.dequeue c =
      some ((q.dequeue c).1, (q.dequeue c).2.1, (q.dequeue c).2.2.words) := by
  have hsize : q.words.size = 0 ↔ q.size = 0 := word_empty_iff q.size_le
  by_cases hempty : q.size = 0
  · rw [QueueWords.dequeue, if_pos (hsize.mpr hempty), QueueT.dequeue, if_pos hempty]
  · have hcell : cellAt q.words.head = _ := cellAt_word q.head_lt
    have hhead : (q.words.head + 1) % 4096 = _ := word_succ_mod q.head_lt
    have hpred : q.words.size - 1 = _ := word_pred hempty
    rw [QueueWords.dequeue, if_neg (mt hsize.mp hempty), hcell, hhead, hpred, QueueT.dequeue,
      if_neg hempty]
    rfl

theorem step_words (q : QueueT) (op : QueueOp) :
    q.words.step op = some ((queueMachine.step q op).1, (queueMachine.step q op).2.words) := by
  cases op with
  | enqueue x =>
      rw [QueueWords.step, enqueue_words]
      rfl
  | dequeue c =>
      rw [QueueWords.step, dequeue_words]
      rfl

/-- What the list refuses leaves the queue as it is. -/
theorem queueMachine_refused (q : QueueT) (op : QueueOp)
    (h : (fifoMachine.step q.content op).1.ret = -1) : (queueMachine.step q op).2 = q := by
  cases op with
  | enqueue x =>
      have hfull := QueueT.full_of_le (full_of_pushList h)
      show (q.enqueue x).2 = q
      rw [QueueT.enqueue, dif_pos hfull]
  | dequeue c =>
      have hempty := QueueT.empty_of_nil (nil_of_popList h)
      show (q.dequeue c).2.2 = q
      rw [QueueT.dequeue, if_pos hempty]

/-- **The queue is a bounded FIFO.** In every run from `queue_init` every
operation is defined and answers as on the list, the content is the list, a
refused operation changes nothing, and the words stay in their bounds. -/
theorem queue_refines_fifo (ops : List QueueOp) :
    let q := queueWordsMachine.exec .init ops
    queueWordsMachine.answers .init ops = (fifoMachine.answers [] ops).map some ∧
    q.content = fifoMachine.exec [] ops ∧
    (∀ op, (fifoMachine.step q.content op).1.ret = -1 → (queueWordsMachine.step q op).2 = q) ∧
    q.head.toNat < maxQueueSize ∧ q.size.toNat ≤ maxQueueSize := by
  obtain ⟨hwords, hanswers⟩ := Machine.sim_ofPartial step_words QueueT.init ops
  obtain ⟨hlist, hlistAnswers⟩ := Machine.sim_run fifoMachine_step QueueT.init ops
  set t := queueMachine.exec QueueT.init ops
  intro q
  have hq : q = t.words := hwords
  rw [hq]
  refine ⟨?_, ?_, ?_, ?_, ?_⟩
  · exact hanswers.trans (congrArg _ hlistAnswers.symm)
  · rw [content_words]
    exact hlist.symm
  · intro op hrefused
    rw [content_words] at hrefused
    rw [queueWordsMachine, Machine.ofPartial_step (step_words t op)]
    exact congrArg QueueT.words (queueMachine_refused t op hrefused)
  · exact (word_toNat t.head_lt.le).trans_lt t.head_lt
  · exact (word_toNat t.size_le).trans_le t.size_le

end GecRelay
