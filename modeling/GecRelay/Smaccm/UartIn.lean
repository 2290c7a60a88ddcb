import GecRelay.Smaccm.Hxstream
import GecRelay.Foundation.Window

/-!
# The receiving side of the UART in comm-smaccm

`UART_in` runs once a period. It takes a packet if there is one, feeds its bytes
to the hxstream decoder, whose frames go to a ring of four cells, and pops one
frame of the ring for decryption. The ring holds three frames; a frame that
finds it full is lost.

So `UART_in` is a queue with three places behind the well-formed frames of the
line. Frames come out once and in their order, however they are cut into
packets, and all of them come out while there is room (`uartIn_delivers`).
-/

namespace GecRelay

open Foundation

/-! ## The ring -/

/-- The next index, as `frameBuffer_2_ringbuffer_push` and `_pop` compute it. -/
def ringNext (i : ℕ) : ℕ := if i = 3 then 0 else (i + 1) % 4

theorem ringNext_eq (i : ℕ) : ringNext i = (i + 1) % 4 := by
  unfold ringNext
  split
  · next h => rw [h]
  · rfl

structure FrameBuffer where
  insert : ℕ
  remove : ℕ
  buf : List.Vector (Bytes 96) 4
  insert_lt : insert < 4
  remove_lt : remove < 4

namespace FrameBuffer

def init : FrameBuffer where
  insert := 0
  remove := 0
  buf := List.Vector.replicate 4 (zeros 96)
  insert_lt := by decide
  remove_lt := by decide

/-- `frameBuffer_2_ringbuffer_push`. -/
def push (s : FrameBuffer) (frame : Bytes 96) : Bool × FrameBuffer :=
  if ringNext s.insert = s.remove then (false, s)
  else (true, { s with
    buf := s.buf.set ⟨s.insert, s.insert_lt⟩ frame
    insert := ringNext s.insert
    insert_lt := by
      rw [ringNext_eq]
      exact Nat.mod_lt _ (by decide) })

/-- `frameBuffer_2_ringbuffer_pop`. -/
def pop (s : FrameBuffer) : Option (Bytes 96) × FrameBuffer :=
  if s.insert = s.remove then (none, s)
  else (some (s.buf.get ⟨s.remove, s.remove_lt⟩), { s with
    remove := ringNext s.remove
    remove_lt := by
      rw [ringNext_eq]
      exact Nat.mod_lt _ (by decide) })

def size (s : FrameBuffer) : ℕ := (s.insert + 4 - s.remove) % 4

local instance hasCells : NeZero 4 := ⟨Nat.succ_ne_zero 3⟩

def content (s : FrameBuffer) : List (Bytes 96) := window s.buf s.remove s.size

@[simp] theorem length_content (s : FrameBuffer) : s.content.length = s.size :=
  length_window s.buf s.remove s.size

theorem size_le (s : FrameBuffer) : s.size ≤ 3 := Nat.lt_succ_iff.mp (Nat.mod_lt _ (by decide))

theorem insert_eq (s : FrameBuffer) : s.insert = (s.remove + s.size) % 4 := by
  have h₁ := s.insert_lt
  have h₂ := s.remove_lt
  unfold size
  omega

theorem push_content (s : FrameBuffer) (frame : Bytes 96) :
    (s.push frame).2.content = if s.size < 3 then s.content ++ [frame] else s.content := by
  have h₁ := s.insert_lt
  have h₂ := s.remove_lt
  have hnext := ringNext_eq s.insert
  have hfull : ringNext s.insert = s.remove ↔ ¬ s.size < 3 := by
    rw [hnext]
    unfold size
    omega
  unfold push
  by_cases hroom : s.size < 3
  · rw [if_neg (fun heq => hfull.mp heq hroom), if_pos hroom]
    have hcell : (⟨s.insert, s.insert_lt⟩ : Fin 4) = cellIndex 4 (s.remove + s.size) :=
      Fin.ext s.insert_eq
    have hsize : (ringNext s.insert + 4 - s.remove) % 4 = s.size + 1 := by
      rw [hnext]
      unfold size at hroom ⊢
      omega
    show window (s.buf.set ⟨s.insert, s.insert_lt⟩ frame) s.remove
      ((ringNext s.insert + 4 - s.remove) % 4) = window s.buf s.remove s.size ++ [frame]
    rw [hsize, hcell]
    exact window_push s.buf s.remove (by omega) frame
  · rw [if_pos (hfull.mpr hroom), if_neg hroom]

theorem pop_content (s : FrameBuffer) :
    s.pop.1 = s.content.head? ∧ s.pop.2.content = s.content.tail := by
  have h₁ := s.insert_lt
  have h₂ := s.remove_lt
  have hnext := ringNext_eq s.remove
  unfold pop
  by_cases hempty : s.insert = s.remove
  · have hsize : s.size = 0 := by
      unfold size
      omega
    have hnil : s.content = [] := List.length_eq_zero_iff.mp (by rw [length_content, hsize])
    rw [if_pos hempty, hnil]
    exact ⟨rfl, rfl⟩
  · obtain ⟨n, hn⟩ : ∃ n, s.size = n + 1 := by
      refine Nat.exists_eq_succ_of_ne_zero ?_
      unfold size
      omega
    have hcons : s.content = s.buf.get (cellIndex 4 s.remove) :: window s.buf (s.remove + 1) n := by
      rw [content, hn, window_succ_head]
    have hcell : (⟨s.remove, s.remove_lt⟩ : Fin 4) = cellIndex 4 s.remove :=
      Fin.ext (Nat.mod_eq_of_lt h₂).symm
    have hsize : (s.insert + 4 - ringNext s.remove) % 4 = n := by
      rw [hnext]
      unfold size at hn
      omega
    rw [if_neg hempty, hcons, hcell]
    refine ⟨rfl, ?_⟩
    show window s.buf (ringNext s.remove) ((s.insert + 4 - ringNext s.remove) % 4) = _
    rw [hsize, hnext, window_mod]
    rfl

/-- Frames pushed one after the other: the places that are left take the first of them. -/
theorem pushes_content (s : FrameBuffer) (frames : List (Bytes 96)) :
    (frames.foldl (fun t frame => (t.push frame).2) s).content =
      s.content ++ frames.take (3 - s.size) := by
  induction frames generalizing s with
  | nil => simp
  | cons frame frames ih =>
      have hpush := s.push_content frame
      have hlen := congrArg List.length hpush
      have hsize := s.size_le
      rw [List.foldl_cons]
      by_cases hroom : s.size < 3
      · rw [if_pos hroom] at hpush hlen
        rw [List.length_append, List.length_singleton, length_content, length_content] at hlen
        rw [ih, hpush, hlen, List.append_assoc, show 3 - s.size = 3 - (s.size + 1) + 1 by omega]
        rfl
      · rw [if_neg hroom] at hpush hlen
        rw [length_content, length_content] at hlen
        rw [ih, hpush, hlen, show 3 - s.size = 0 by omega, List.take_zero,
          List.take_zero]

end FrameBuffer

/-! ## One period -/

structure UartPacket where
  data : Bytes 255
  len : Int32

structure UartIn where
  decoder : HxDecoder
  ring : FrameBuffer

namespace UartIn

def init : UartIn := ⟨.init, .init⟩

/-- `callback_decoder_serial_in`, with `callback_push` behind it. -/
def serialIn (s : UartIn) (c : UInt8) : UartIn :=
  let r := callbackDecoderSerialIn s.decoder c
  { decoder := r.2, ring := r.1.elim s.ring fun frame => (s.ring.push frame).2 }

/-- `callback_unpack`. -/
def callbackUnpack (s : UartIn) (p : UartPacket) : UartIn :=
  (List.range 255).foldl
    (fun s ix => if Int32.ofNat ix < p.len then s.serialIn (p.data.toList.getD ix 0) else s) s

/-- `component_entry`, with what `callback_periodic_pop` gives to
`callback_cyphertext_decode`. -/
def componentEntry (s : UartIn) (packet : Option UartPacket) : Option (Bytes 96) × UartIn :=
  let s := packet.elim s s.callbackUnpack
  let r := s.ring.pop
  (r.1, { s with ring := r.2 })

end UartIn

def uartInMachine : Machine UartIn (Option UartPacket) (Option (Bytes 96)) where
  step := UartIn.componentEntry

/-! ## The queue behind the line -/

/-- The bytes of a period. -/
def UartPacket.bytes (packet : Option UartPacket) : List UInt8 :=
  packet.elim [] fun p => p.data.toList.take p.len.toNatClampNeg

structure FrameQueue where
  line : Segment UInt8
  waiting : List (Bytes 96)

/-- The frames a period completes. -/
def FrameQueue.completed (q : FrameQueue) (packet : Option UartPacket) : List (Bytes 96) :=
  (hxLine.answers q.line (UartPacket.bytes packet)).reduceOption

/-- **A queue of three places**: what does not fit is lost, and one frame leaves
in every period. -/
def frameQueueMachine : Machine FrameQueue (Option UartPacket) (Option (Bytes 96)) where
  step q packet :=
    let waiting := q.waiting ++ (q.completed packet).take (3 - q.waiting.length)
    (waiting.head?, { line := hxLine.exec q.line (UartPacket.bytes packet), waiting := waiting.tail })

def FrameQueue.init : FrameQueue := ⟨⟨false, []⟩, []⟩

def FrameQueue.HasRoom (q : FrameQueue) (packet : Option UartPacket) : Prop :=
  q.waiting.length + (q.completed packet).length ≤ 3

instance (q : FrameQueue) (packet : Option UartPacket) : Decidable (q.HasRoom packet) :=
  Nat.decLe _ _

/-- A loop over the cells below a bound. -/
theorem foldl_below {σ : Type} (f : σ → UInt8 → σ) (xs : List UInt8) (k : ℕ) {n : ℕ}
    (hn : n ≤ xs.length) (s : σ) :
    (List.range n).foldl (fun s ix => if ix < k then f s (xs.getD ix 0) else s) s =
      (xs.take (min n k)).foldl f s := by
  induction n with
  | zero => rw [Nat.zero_min]; rfl
  | succ n ih =>
      rw [List.range_succ, List.foldl_append, ih (Nat.le_of_succ_le hn)]
      by_cases hlt : n < k
      · have hcell : xs.take (n + 1) = xs.take n ++ [xs.getD n 0] := by
          rw [List.take_succ_eq_append_getElem hn, List.getD_eq_getElem xs 0 hn]
        rw [Nat.min_eq_left hlt.le, Nat.min_eq_left hlt, hcell, List.foldl_append]
        exact if_pos hlt
      · rw [Nat.min_eq_right (Nat.not_lt.mp hlt), Nat.min_eq_right (by omega)]
        exact if_neg hlt

theorem unpack_eq (s : UartIn) (p : UartPacket) :
    s.callbackUnpack p = (UartPacket.bytes (some p)).foldl UartIn.serialIn s := by
  have hbelow : ∀ ix < 255, (Int32.ofNat ix < p.len ↔ ix < p.len.toNatClampNeg) := by
    intro ix hix
    rw [Int32.lt_iff_toInt_lt, Int32.toInt_ofNat_of_lt (by omega)]
    show (ix : ℤ) < p.len.toInt ↔ ix < p.len.toInt.toNat
    omega
  have hlen : p.data.toList.length = 255 := List.Vector.toList_length p.data
  calc s.callbackUnpack p
      = (List.range 255).foldl (fun s ix =>
          if ix < p.len.toNatClampNeg then s.serialIn (p.data.toList.getD ix 0) else s) s := by
        refine List.foldl_ext _ _ s ?_
        intro t ix hix
        exact if_congr (hbelow ix (List.mem_range.mp hix)) rfl rfl
    _ = (p.data.toList.take (min 255 p.len.toNatClampNeg)).foldl UartIn.serialIn s :=
        foldl_below UartIn.serialIn p.data.toList p.len.toNatClampNeg hlen.ge s
    _ = (UartPacket.bytes (some p)).foldl UartIn.serialIn s := by
        have hle : (p.data.toList.take p.len.toNatClampNeg).length ≤ 255 :=
          (List.length_take_le' _ _).trans hlen.le
        rw [← List.take_take, List.take_of_length_le hle]
        rfl

theorem serialIn_eq (s : UartIn) (c : UInt8) :
    s.serialIn c =
      { decoder := (hxDecoderMachine.step s.decoder c).2
        ring := (hxDecoderMachine.step s.decoder c).1.toList.foldl
          (fun t frame => (t.push frame).2) s.ring } := by
  show UartIn.mk _ ((callbackDecoderSerialIn s.decoder c).1.elim s.ring _) =
    UartIn.mk _ ((callbackDecoderSerialIn s.decoder c).1.toList.foldl _ s.ring)
  cases (callbackDecoderSerialIn s.decoder c).1 with
  | none => rfl
  | some frame => rfl

theorem serials (s : UartIn) (cs : List UInt8) :
    cs.foldl UartIn.serialIn s =
      { decoder := hxDecoderMachine.exec s.decoder cs
        ring := (hxDecoderMachine.answers s.decoder cs).reduceOption.foldl
          (fun t frame => (t.push frame).2) s.ring } := by
  induction cs generalizing s with
  | nil => rfl
  | cons c cs ih =>
      rw [List.foldl_cons, ih, serialIn_eq, Machine.exec_cons, Machine.answers_cons,
        Machine.reduceOption_cons, List.foldl_append]

/-- **`UART_in` and the queue.** -/
structure Served (s : UartIn) (q : FrameQueue) : Prop where
  decoder : Follows s.decoder q.line
  ring : s.ring.content = q.waiting

/-- The line stays in range through a period. -/
def FrameQueue.InRange (q : FrameQueue) (packet : Option UartPacket) : Prop :=
  hxLine.Along hxInRange q.line (UartPacket.bytes packet)

theorem served_step (s : UartIn) (q : FrameQueue) (packet : Option UartPacket) (h : Served s q)
    (hrange : q.InRange packet) :
    (uartInMachine.step s packet).1 = (frameQueueMachine.step q packet).1 ∧
      Served (uartInMachine.step s packet).2 (frameQueueMachine.step q packet).2 := by
  obtain ⟨hdecoder, hring⟩ := h
  obtain ⟨hanswers, hfollows⟩ := Machine.rel_run follows_step hdecoder hrange
  have hperiod : packet.elim s s.callbackUnpack =
      (UartPacket.bytes packet).foldl UartIn.serialIn s := by
    cases packet with
    | none => rfl
    | some p => exact unpack_eq s p
  have hwaiting : (packet.elim s s.callbackUnpack).ring.content =
      q.waiting ++ (q.completed packet).take (3 - q.waiting.length) := by
    rw [hperiod, serials, FrameBuffer.pushes_content, ← FrameBuffer.length_content, hring,
      FrameQueue.completed, hanswers]
  obtain ⟨hhead, htail⟩ := (packet.elim s s.callbackUnpack).ring.pop_content
  rw [hwaiting] at hhead htail
  refine ⟨hhead, ?_, htail⟩
  show Follows (packet.elim s s.callbackUnpack).decoder _
  rw [hperiod, serials]
  exact hfollows

/-! ## Every run -/

/-- The bytes of all periods. -/
def periodBytes (packets : List (Option UartPacket)) : List UInt8 :=
  packets.flatMap UartPacket.bytes

theorem inRange_periods (q : FrameQueue) (packets : List (Option UartPacket))
    (hrange : hxLine.Along hxInRange q.line (periodBytes packets)) :
    frameQueueMachine.Along FrameQueue.InRange q packets := by
  induction packets generalizing q with
  | nil => trivial
  | cons packet packets ih =>
      obtain ⟨hfirst, hrest⟩ := Machine.along_append.mp hrange
      exact ⟨hfirst, ih (frameQueueMachine.step q packet).2 hrest⟩

/-- The frames of the line, period by period. -/
theorem line_periods (q : FrameQueue) (packet : Option UartPacket)
    (packets : List (Option UartPacket)) :
    (hxLine.answers q.line (periodBytes (packet :: packets))).reduceOption =
      q.completed packet ++
        (hxLine.answers (frameQueueMachine.step q packet).2.line (periodBytes packets)).reduceOption :=
  Machine.outputs_append q.line (UartPacket.bytes packet) (periodBytes packets)

theorem head_tail {α : Type} (xs ys : List α) : xs.head?.toList ++ (xs.tail ++ ys) = xs ++ ys := by
  cases xs with
  | nil => rfl
  | cons x xs => rfl

theorem queue_sublist (q : FrameQueue) (packets : List (Option UartPacket)) :
    (frameQueueMachine.answers q packets).reduceOption.Sublist
      (q.waiting ++ (hxLine.answers q.line (periodBytes packets)).reduceOption) := by
  induction packets generalizing q with
  | nil => exact List.nil_sublist _
  | cons packet packets ih =>
      let waiting := q.waiting ++ (q.completed packet).take (3 - q.waiting.length)
      have hrest := (ih (frameQueueMachine.step q packet).2).append_left waiting.head?.toList
      have hkept : waiting.Sublist (q.waiting ++ q.completed packet) :=
        (List.take_sublist _ _).append_left q.waiting
      rw [line_periods, Machine.answers_cons, Machine.reduceOption_cons, ← List.append_assoc]
      refine hrest.trans ?_
      show List.Sublist (waiting.head?.toList ++ (waiting.tail ++ _)) _
      rw [head_tail]
      exact hkept.append_right _

theorem queue_lossless (q : FrameQueue) (packets : List (Option UartPacket))
    (hroom : frameQueueMachine.Along FrameQueue.HasRoom q packets) :
    (frameQueueMachine.answers q packets).reduceOption ++
        (frameQueueMachine.exec q packets).waiting =
      q.waiting ++ (hxLine.answers q.line (periodBytes packets)).reduceOption := by
  induction packets generalizing q with
  | nil => simp [periodBytes]
  | cons packet packets ih =>
      obtain ⟨hfits, hroom⟩ := hroom
      have hall : (q.completed packet).take (3 - q.waiting.length) = q.completed packet := by
        refine List.take_of_length_le ?_
        unfold FrameQueue.HasRoom at hfits
        omega
      let waiting := q.waiting ++ (q.completed packet).take (3 - q.waiting.length)
      rw [Machine.answers_cons, Machine.reduceOption_cons, Machine.exec_cons, List.append_assoc,
        ih _ hroom, line_periods]
      show waiting.head?.toList ++ (waiting.tail ++ _) = _
      rw [head_tail, ← List.append_assoc, ← hall]

/-- **`UART_in` delivers the frames of the line**, however they are cut into
packets: in their order, none of them twice, and all of them as long as the
three places suffice. -/
theorem uartIn_delivers (packets : List (Option UartPacket))
    (hrange : hxLine.Along hxInRange ⟨false, []⟩ (periodBytes packets)) :
    let handed := (uartInMachine.answers UartIn.init packets).reduceOption
    let frames := (hxLine.answers ⟨false, []⟩ (periodBytes packets)).reduceOption
    handed.Sublist frames ∧
      (frameQueueMachine.Along FrameQueue.HasRoom .init packets →
        handed ++ (uartInMachine.exec UartIn.init packets).ring.content = frames) := by
  intro handed frames
  have hstart : Served UartIn.init FrameQueue.init := ⟨follows_init, rfl⟩
  have hin := inRange_periods .init packets hrange
  obtain ⟨hanswers, -, hring⟩ := Machine.rel_run served_step hstart hin
  have hhanded : handed = (frameQueueMachine.answers .init packets).reduceOption :=
    congrArg List.reduceOption hanswers
  rw [hhanded, hring]
  exact ⟨queue_sublist .init packets, queue_lossless .init packets⟩

/-- A frame cut in two, and a second one on its heels. -/
def cutFrame : List (Option UartPacket) :=
  [some ⟨overwrite (zeros 255) 0 [126, 0, 5], 3⟩, none,
    some ⟨overwrite (zeros 255) 0 [126, 0, 6, 126], 4⟩, none]

theorem uartIn_delivers_cutFrame :
    (uartInMachine.answers UartIn.init cutFrame).reduceOption ++
        (uartInMachine.exec UartIn.init cutFrame).ring.content =
      [overwrite (zeros 96) 0 [5], overwrite (zeros 96) 0 [6]] := by
  have hall := (uartIn_delivers cutFrame (inRange_of_length (by decide +kernel))).2
    (by decide +kernel)
  rw [hall]
  decide +kernel

end GecRelay
