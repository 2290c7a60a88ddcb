import GecRelay.Gec.Primitives
import GecRelay.Foundation.Window

/-!
# The byte queue

`queue_t` of `my_type.h`, the same in every application: a circular buffer of
4096 bytes with a head and a size. Its content is the window of `size` cells
from `head` on; `enqueue` appends to it and `dequeue` takes its first byte.
-/

namespace GecRelay

open Foundation

def maxQueueSize : ℕ := 4096

instance : NeZero maxQueueSize := ⟨by decide⟩

/-- `queue_t`, with what every operation keeps: the head is an index and the
size does not exceed the capacity. -/
structure QueueT where
  rawQueue : Bytes maxQueueSize
  head : ℕ
  size : ℕ
  head_lt : head < maxQueueSize
  size_le : size ≤ maxQueueSize

namespace QueueT

def content (q : QueueT) : List UInt8 := window q.rawQueue q.head q.size

@[simp] theorem length_content (q : QueueT) : q.content.length = q.size :=
  length_window q.rawQueue q.head q.size

/-- `queue_init`; `memset` with -1 fills the cells with `0xFF`. -/
def init : QueueT where
  rawQueue := List.Vector.replicate maxQueueSize 0xFF
  head := 0
  size := 0
  head_lt := by decide
  size_le := by decide

@[simp] theorem content_init : init.content = [] := rfl

def enqueue (q : QueueT) (x : UInt8) : Int × QueueT :=
  if h : q.size = maxQueueSize then (-1, q)
  else (0, { q with
    rawQueue := q.rawQueue.set (cellIndex maxQueueSize (q.head + q.size)) x
    size := q.size + 1
    size_le := by
      have := q.size_le
      omega })

/-- `dequeue(q, &c)`, with the value of `c` before. -/
def dequeue (q : QueueT) (c : UInt8) : Int × UInt8 × QueueT :=
  if q.size = 0 then (-1, c, q)
  else (0, q.rawQueue.get (cellIndex maxQueueSize q.head), { q with
    head := (q.head + 1) % maxQueueSize
    size := q.size - 1
    head_lt := Nat.mod_lt _ (by decide)
    size_le := (Nat.sub_le _ _).trans q.size_le })

theorem enqueue_content {q : QueueT} (h : q.size < maxQueueSize) (x : UInt8) :
    (q.enqueue x).1 = 0 ∧ (q.enqueue x).2.content = q.content ++ [x] := by
  rw [enqueue, dif_neg (Nat.ne_of_lt h)]
  exact ⟨rfl, window_push q.rawQueue q.head h x⟩

theorem lt_of_enqueue {q : QueueT} {x : UInt8} (h : (q.enqueue x).1 = 0) :
    q.size < maxQueueSize := by
  rw [enqueue] at h
  split at h
  · cases h
  · next hne => exact Nat.lt_of_le_of_ne q.size_le hne

theorem dequeue_content {q : QueueT} {x : UInt8} {rest : List UInt8}
    (h : q.content = x :: rest) (c : UInt8) :
    (q.dequeue c).1 = 0 ∧ (q.dequeue c).2.1 = x ∧ (q.dequeue c).2.2.content = rest := by
  obtain ⟨n, hn⟩ : ∃ n, q.size = n + 1 := ⟨rest.length, by rw [← q.length_content, h]; rfl⟩
  rw [content, hn, window_succ_head, List.cons.injEq] at h
  rw [dequeue, if_neg (by omega)]
  refine ⟨rfl, h.1, ?_⟩
  show window q.rawQueue ((q.head + 1) % maxQueueSize) (q.size - 1) = rest
  rw [window_mod, hn, Nat.add_sub_cancel]
  exact h.2

/-! ## Loops over the queue -/

/-- Enqueue a buffer byte by byte. Each entry of the log is the return code of
`enqueue` and the size after it. -/
def enqueueAll (q : QueueT) : List UInt8 → List (Int × ℕ) × QueueT
  | [] => ([], q)
  | x :: xs =>
      let r := q.enqueue x
      let (log, q') := enqueueAll r.2 xs
      ((r.1, r.2.size) :: log, q')

/-- **Enqueueing what fits** never fails and appends all of it. -/
theorem enqueueAll_content (xs : List UInt8) {q : QueueT}
    (h : q.size + xs.length ≤ maxQueueSize) :
    (q.enqueueAll xs).2.content = q.content ++ xs ∧
    ∀ e ∈ (q.enqueueAll xs).1, e.1 = 0 ∧ e.2 ≤ q.size + xs.length := by
  induction xs generalizing q with
  | nil => simp [enqueueAll]
  | cons x xs ih =>
      rw [List.length_cons] at h
      obtain ⟨hret, hcontent⟩ := enqueue_content (q := q) (by omega) x
      have hsize : (q.enqueue x).2.size = q.size + 1 := by
        rw [← length_content, hcontent]
        simp
      obtain ⟨hall, hlog⟩ := ih (q := (q.enqueue x).2) (by omega)
      constructor
      · show ((q.enqueue x).2.enqueueAll xs).2.content = _
        rw [hall, hcontent, List.append_assoc, List.singleton_append]
      · intro e he
        rw [List.length_cons]
        rcases List.mem_cons.mp he with rfl | he
        · exact ⟨hret, by rw [hsize]; omega⟩
        · exact ⟨(hlog e he).1, (hlog e he).2.trans (by omega)⟩

def dequeueMany : ℕ → QueueT → List UInt8 × QueueT
  | 0, q => ([], q)
  | n + 1, q =>
      let (_, c, q') := q.dequeue 0
      let (bytes, q'') := dequeueMany n q'
      (c :: bytes, q'')

@[simp] theorem length_dequeueMany (n : ℕ) (q : QueueT) : (dequeueMany n q).1.length = n := by
  induction n generalizing q with
  | zero => rfl
  | succ n ih => simp [dequeueMany, ih]

theorem dequeueMany_content (n : ℕ) {q : QueueT} (h : n ≤ q.size) :
    (dequeueMany n q).1 = q.content.take n ∧ (dequeueMany n q).2.content = q.content.drop n := by
  induction n generalizing q with
  | zero => simp [dequeueMany]
  | succ n ih =>
      obtain ⟨x, rest, hcons⟩ : ∃ x rest, q.content = x :: rest :=
        List.exists_cons_of_length_pos (by rw [length_content]; omega)
      obtain ⟨-, hx, hrest⟩ := dequeue_content hcons 0
      have hsize : n ≤ (q.dequeue 0).2.2.size := by
        rw [← length_content, hrest]
        rw [← length_content, hcons, List.length_cons] at h
        omega
      obtain ⟨hbytes, hleft⟩ := ih hsize
      rw [hcons]
      simp only [dequeueMany, hx, hbytes, hleft, hrest, List.take_succ_cons, List.drop_succ_cons,
        and_self]

end QueueT

end GecRelay
