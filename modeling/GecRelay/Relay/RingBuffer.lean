import GecRelay.Relay.Queue
import GecRelay.Foundation.Machine
import GecRelay.Foundation.Spsc

/-!
# The ring buffers between the components

Telemetry_RX and Pixhawk_RX store what they get from their serial port in a
shared ring; Decrypt and Encrypt take it out. A step here is one access to the
shared memory, with the local computation around it, and a run is any
interleaving of the steps of the two sides: stores are taken to be visible in
program order, as the release and acquire calls are there to ensure. Decrypt
reads by calls of `read_byte` and `read_buffer` with a static `head`,
Encrypt's `run` with a local `head` and a sampled `tail`. Both keep the
`ReaderContract`, and the rest follows from `Spsc`.
-/

namespace GecRelay

open Foundation

def ringBufferSize : ℕ := 2048

/-- `ring_buffer_t`, with its array as memory from the start of `buffer` on. -/
structure RingBufferT where
  buffer : ℕ → UInt8
  head : ℕ
  tail : ℕ

/-! ## The writers -/

inductive RxPc
  /-- `tail = rb->tail`, in Pixhawk_RX only. -/
  | start
  | getchar
  | store (c : UInt8)
  | publish (c : UInt8)

structure RxState where
  pc : RxPc
  tail : ℕ

/-- One step of `run` in Telemetry_RX and Pixhawk_RX; `c` is what
`ps_cdev_getchar` returns if the step polls, `none` for `EOF`. -/
def rxStep (rb : RingBufferT) (s : RxState) (c : Option UInt8) : RingBufferT × RxState :=
  match s.pc with
  | .start => (rb, { pc := .getchar, tail := rb.tail })
  | .getchar =>
      match c with
      | none => (rb, s)
      | some c => (rb, { s with pc := .store c })
  | .store c =>
      ({ rb with buffer := Function.update rb.buffer s.tail c }, { s with pc := .publish c })
  | .publish _ =>
      let tail := (s.tail + 1) % ringBufferSize
      ({ rb with tail := tail }, { pc := .getchar, tail := tail })

/-- `static uint32_t tail = 0` of Telemetry_RX. -/
def telemetryRxInit : RxState := { pc := .getchar, tail := 0 }

/-- `uint32_t tail` of Pixhawk_RX's `run`, uninitialised. -/
def pixhawkRxInit (tail : ℕ) : RxState := { pc := .start, tail := tail }

/-! ## The readers -/

/-- A step of a reader: the index it loads from, if it loads, and what a call
returns, if one ends. -/
structure ReadStep (γ ρ : Type) where
  rb : RingBufferT
  reader : γ
  loaded : Option ℕ := none
  returned : Option ρ := none

inductive ReadCall
  | readByte
  | readBuffer (len : ℕ)
deriving DecidableEq

def ReadCall.len : ReadCall → ℕ
  | .readByte => 1
  | .readBuffer len => len

inductive DecryptPc
  | caller
  | sampleByte
  | loadByte
  | storeByte (c : UInt8)
  | fillBuffer (len : ℕ) (buf : List UInt8)
  | drainBuffer (len : ℕ) (buf : List UInt8)

/-- Decrypt's static `head`, and the local `tail` of the call it is in. -/
structure DecryptReader where
  pc : DecryptPc
  head : ℕ
  tail : ℕ

def decryptReaderInit : DecryptReader := { pc := .caller, head := 0, tail := 0 }

/-- One step of `read_byte` and `read_buffer`; `call` is the next call if none
is going on. -/
def decryptRead (rb : RingBufferT) (s : DecryptReader) (call : ReadCall) :
    ReadStep DecryptReader (ReadCall × List UInt8) :=
  match s.pc with
  | .caller =>
      match call with
      | .readByte => { rb := rb, reader := { s with pc := .sampleByte } }
      | .readBuffer len => { rb := rb, reader := { s with pc := .fillBuffer len [] } }
  | .sampleByte =>
      let pc := if rb.tail = s.head then .sampleByte else .loadByte
      { rb := rb, reader := { s with pc := pc, tail := rb.tail } }
  | .loadByte =>
      { rb := rb
        reader := { s with
          pc := .storeByte (rb.buffer s.head)
          head := (s.head + 1) % ringBufferSize }
        loaded := some s.head }
  | .storeByte c =>
      { rb := { rb with head := s.head }
        reader := { s with pc := .caller }
        returned := some (.readByte, [c]) }
  | .fillBuffer len buf =>
      if buf.length < len then
        { rb := rb, reader := { s with pc := .drainBuffer len buf, tail := rb.tail } }
      else
        { rb := { rb with head := s.head }
          reader := { s with pc := .caller }
          returned := some (.readBuffer len, buf) }
  | .drainBuffer len buf =>
      if buf.length < len ∧ s.head ≠ s.tail then
        { rb := rb
          reader := { s with
            pc := .drainBuffer len (buf ++ [rb.buffer s.head])
            head := (s.head + 1) % ringBufferSize }
          loaded := some s.head }
      else { rb := rb, reader := { s with pc := .fillBuffer len buf } }

inductive EncryptPc
  | start
  | sample
  | drain
deriving DecidableEq

structure EncryptReader where
  pc : EncryptPc
  head : ℕ
  tail : ℕ

/-- `uint32_t head, tail` of Encrypt's `run`, uninitialised. -/
def encryptReaderInit (head tail : ℕ) : EncryptReader :=
  { pc := .start, head := head, tail := tail }

/-- One step of Encrypt's `run`; what it returns is the byte it hands to
`handle_char`. -/
def encryptRead (rb : RingBufferT) (s : EncryptReader) (_ : Unit) : ReadStep EncryptReader UInt8 :=
  match s.pc with
  | .start => { rb := rb, reader := { s with pc := .sample, head := rb.head } }
  | .sample => { rb := rb, reader := { s with pc := .drain, tail := rb.tail } }
  | .drain =>
      if s.head ≠ s.tail then
        { rb := rb
          reader := { s with head := (s.head + 1) % ringBufferSize }
          loaded := some s.head
          returned := some (rb.buffer s.head) }
      else { rb := rb, reader := { s with pc := .sample } }

/-! ## Both sides together -/

/-- The shared ring, the two sides, and what has happened so far: the bytes
received from the serial port, the number published, the bytes and indices
loaded and stored, and what the reader's calls have returned. -/
structure RingSystem (γ ρ : Type) where
  rb : RingBufferT
  rx : RxState
  reader : γ
  received : List UInt8 := []
  published : ℕ := 0
  consumed : List UInt8 := []
  indices : List ℕ := []
  returned : List ρ := []

inductive RingAction (ι : Type)
  | rx (c : Option UInt8)
  | reader (i : ι)

namespace RingSystem

variable {γ ρ : Type}

/-- A step of the writer, recorded. -/
def write (s : RingSystem γ ρ) (c : Option UInt8) : RingSystem γ ρ :=
  let r := rxStep s.rb s.rx c
  let t := { s with rb := r.1, rx := r.2 }
  match s.rx.pc with
  | .start => t
  | .getchar => { t with received := s.received ++ c.toList }
  | .store _ => { t with indices := s.indices ++ [s.rx.tail] }
  | .publish _ => { t with published := s.published + 1 }

/-- A step of the reader, recorded. -/
def read (s : RingSystem γ ρ) (r : ReadStep γ ρ) : RingSystem γ ρ :=
  { s with
    rb := r.rb
    reader := r.reader
    consumed := s.consumed ++ (r.loaded.map s.rb.buffer).toList
    indices := s.indices ++ r.loaded.toList
    returned := s.returned ++ r.returned.toList }

end RingSystem

def ringMachine {γ ρ ι : Type} (read : RingBufferT → γ → ι → ReadStep γ ρ) :
    Machine (RingSystem γ ρ) (RingAction ι) Unit where
  step s
    | .rx c => ((), s.write c)
    | .reader i => ((), s.read (read s.rb s.reader i))

/-- After `pre_init`: both indices are zero. -/
def ringInit {γ ρ : Type} (buffer : ℕ → UInt8) (rx : RxState) (reader : γ) : RingSystem γ ρ :=
  { rb := { buffer := buffer, head := 0, tail := 0 }, rx := rx, reader := reader }

/-- The writer is never a whole ring ahead of the reader. -/
def NeverLapped {γ ρ ι : Type} (read : RingBufferT → γ → ι → ReadStep γ ρ) (s : RingSystem γ ρ)
    (actions : List (RingAction ι)) : Prop :=
  ∀ pre, pre <+: actions →
    ((ringMachine read).exec s pre).published <
      ((ringMachine read).exec s pre).consumed.length + ringBufferSize

/-! ## The contract of a reader -/

/-- Where a reader's head and its sample of the tail are, from `rb->head` for
a reader that has yet to fetch it, and what holds of its local state. -/
structure ReaderView (γ : Type) where
  head : ℕ → γ → ℕ
  seen : ℕ → γ → ℕ
  Ok : γ → Prop

/-- What `Spsc` asks of a reader: a step takes the byte at the head, if head
and sample differ, or none, and changes nothing but `rb->head`. -/
structure ReaderContract {γ ρ ι : Type} (read : RingBufferT → γ → ι → ReadStep γ ρ)
    (V : ReaderView γ) : Prop where
  keeps : ∀ rb g i, V.Ok g → V.Ok (read rb g i).reader ∧
    (read rb g i).rb.buffer = rb.buffer ∧ (read rb g i).rb.tail = rb.tail
  step : ∀ rb g i, V.Ok g →
    let r := read rb g i
    (r.loaded = none ∧ V.head r.rb.head r.reader = V.head rb.head g ∧
      (V.seen r.rb.head r.reader = V.seen rb.head g ∨ V.seen r.rb.head r.reader = rb.tail)) ∨
    (r.loaded = some (V.head rb.head g) ∧ V.head rb.head g ≠ V.seen rb.head g ∧
      V.head r.rb.head r.reader = (V.head rb.head g + 1) % ringBufferSize ∧
      V.seen r.rb.head r.reader = V.seen rb.head g)

def DecryptReader.Ok (g : DecryptReader) : Prop :=
  match g.pc with
  | .loadByte => g.head ≠ g.tail
  | _ => True

def decryptView : ReaderView DecryptReader where
  head _ g := g.head
  seen _ g := g.tail
  Ok := DecryptReader.Ok

/-- **Decrypt keeps the contract.** -/
theorem decrypt_contract : ReaderContract decryptRead decryptView where
  keeps := by
    rintro rb ⟨pc, head, tail⟩ call hok
    cases pc with
    | caller => cases call <;> exact ⟨trivial, rfl, rfl⟩
    | sampleByte =>
        refine ⟨?_, rfl, rfl⟩
        by_cases heq : rb.tail = head
        · simp [decryptRead, decryptView, DecryptReader.Ok, heq]
        · simp [decryptRead, decryptView, DecryptReader.Ok, heq, Ne.symm heq]
    | loadByte => exact ⟨trivial, rfl, rfl⟩
    | storeByte c => exact ⟨trivial, rfl, rfl⟩
    | fillBuffer len buf =>
        by_cases hlt : buf.length < len
        · simp [decryptRead, decryptView, DecryptReader.Ok, hlt]
        · simp [decryptRead, decryptView, DecryptReader.Ok, hlt]
    | drainBuffer len buf =>
        by_cases hmore : buf.length < len ∧ head ≠ tail
        · simp [decryptRead, decryptView, DecryptReader.Ok, hmore]
        · simp [decryptRead, decryptView, DecryptReader.Ok, if_neg hmore]
  step := by
    rintro rb ⟨pc, head, tail⟩ call hok
    cases pc with
    | caller => cases call <;> exact Or.inl ⟨rfl, rfl, Or.inl rfl⟩
    | sampleByte => exact Or.inl ⟨rfl, rfl, Or.inr rfl⟩
    | loadByte => exact Or.inr ⟨rfl, hok, rfl, rfl⟩
    | storeByte c => exact Or.inl ⟨rfl, rfl, Or.inl rfl⟩
    | fillBuffer len buf =>
        left
        by_cases hlt : buf.length < len
        · simp [decryptRead, decryptView, hlt]
        · simp [decryptRead, decryptView, hlt]
    | drainBuffer len buf =>
        by_cases hmore : buf.length < len ∧ head ≠ tail
        · right
          simp [decryptRead, decryptView, hmore]
        · left
          simp [decryptRead, decryptView, if_neg hmore]

/-- When Encrypt goes back to sampling, the head is where the sample was. -/
def encryptView : ReaderView EncryptReader where
  head rbHead g := if g.pc = .start then rbHead else g.head
  seen rbHead g := if g.pc = .start then rbHead else if g.pc = .sample then g.head else g.tail
  Ok _ := True

/-- **Encrypt keeps the contract.** -/
theorem encrypt_contract : ReaderContract encryptRead encryptView where
  keeps := by
    rintro rb ⟨pc, head, tail⟩ i -
    cases pc with
    | start => exact ⟨trivial, rfl, rfl⟩
    | sample => exact ⟨trivial, rfl, rfl⟩
    | drain =>
        by_cases hmore : head ≠ tail
        · simp [encryptRead, encryptView, hmore]
        · simp [encryptRead, encryptView, hmore]
  step := by
    rintro rb ⟨pc, head, tail⟩ i -
    cases pc with
    | start => exact Or.inl ⟨rfl, rfl, Or.inl rfl⟩
    | sample => exact Or.inl ⟨rfl, rfl, Or.inr rfl⟩
    | drain =>
        by_cases hmore : head ≠ tail
        · right
          simp [encryptRead, encryptView, hmore]
        · left
          simp [encryptRead, encryptView, not_not.mp hmore]

/-! ## Every run -/

def RxState.next (rbTail : ℕ) (s : RxState) : ℕ :=
  match s.pc with
  | .start => rbTail
  | _ => s.tail

def RxState.hand (s : RxState) : Hand UInt8 :=
  match s.pc with
  | .start => .empty
  | .getchar => .empty
  | .store c => .received c
  | .publish c => .stored c

section Runs

variable {γ ρ ι : Type} {read : RingBufferT → γ → ι → ReadStep γ ρ} {V : ReaderView γ}

/-- The system as the ring of `Spsc`. -/
def RingSystem.view (V : ReaderView γ) (s : RingSystem γ ρ) : Spsc UInt8 where
  slots := s.rb.buffer
  tail := s.rb.tail
  next := s.rx.next s.rb.tail
  hand := s.rx.hand
  head := V.head s.rb.head s.reader
  seen := V.seen s.rb.head s.reader
  received := s.received
  published := s.published
  taken := s.consumed

theorem view_write (s : RingSystem γ ρ) (c : Option UInt8) :
    Spsc.Step ringBufferSize (s.view V) ((s.write c).view V) := by
  obtain ⟨rb, ⟨pc, tail⟩, reader, received, published, consumed, indices, returned⟩ := s
  cases pc with
  | start => exact .stutter _
  | getchar =>
      cases c with
      | none =>
          simp only [RingSystem.write, rxStep, Option.toList_none, List.append_nil]
          exact .stutter _
      | some c => exact .receive _ c rfl
  | store c => exact .store _ c rfl
  | publish c => exact .publish _ c rfl

theorem view_read (hread : ReaderContract read V) {s : RingSystem γ ρ} (hok : V.Ok s.reader)
    (i : ι) :
    Spsc.Step ringBufferSize (s.view V) ((s.read (read s.rb s.reader i)).view V) := by
  obtain ⟨-, hbuffer, htail⟩ := hread.keeps s.rb s.reader i hok
  have hstep := Spsc.Step.of_read (v := s.view V) (hread.step s.rb s.reader i hok)
  simpa only [RingSystem.view, RingSystem.read, hbuffer, htail] using hstep

/-- **What holds whatever the schedule.** -/
structure RingInv (V : ReaderView γ) (s : RingSystem γ ρ) : Prop where
  ok : V.Ok s.reader
  counted : (s.view V).Counted ringBufferSize
  indices : ∀ i ∈ s.indices, i < ringBufferSize

theorem RingInv.step (hread : ReaderContract read V) (s : RingSystem γ ρ) (a : RingAction ι)
    (h : RingInv V s) : RingInv V ((ringMachine read).step s a).2 := by
  obtain ⟨hnext, hhead⟩ := h.counted.lt (show 0 < ringBufferSize by decide)
  cases a with
  | rx c =>
      refine ⟨?_, h.counted.step (view_write s c), ?_⟩
      · show V.Ok (s.write c).reader
        rw [RingSystem.write]
        split <;> exact h.ok
      · show ∀ i ∈ (s.write c).indices, i < ringBufferSize
        rw [RingSystem.write]
        split
        · exact h.indices
        · exact h.indices
        · next hpc =>
            -- the store, at the writer's own tail
            intro i hi
            rcases List.mem_append.mp hi with hi | hi
            · exact h.indices i hi
            · rw [List.mem_singleton.mp hi]
              simpa [RingSystem.view, RxState.next, hpc] using hnext
        · exact h.indices
  | reader i =>
      refine ⟨(hread.keeps s.rb s.reader i h.ok).1, h.counted.step (view_read hread h.ok i), ?_⟩
      intro j hj
      rcases List.mem_append.mp hj with hj | hj
      · exact h.indices j hj
      · rcases hread.step s.rb s.reader i h.ok with ⟨hloaded, -⟩ | ⟨hloaded, -⟩
        · rw [hloaded] at hj
          cases hj
        · rw [hloaded, Option.toList_some, List.mem_singleton] at hj
          rw [hj]
          exact hhead

theorem view_step (hread : ReaderContract read V) {s : RingSystem γ ρ} (hok : V.Ok s.reader)
    (a : RingAction ι) :
    Spsc.Step ringBufferSize (s.view V) (((ringMachine read).step s a).2.view V) := by
  cases a with
  | rx c => exact view_write s c
  | reader i => exact view_read hread hok i

theorem exec_holds (hread : ReaderContract read V) {s : RingSystem γ ρ} (h : RingInv V s)
    (hholds : (s.view V).Holds ringBufferSize) (actions : List (RingAction ι))
    (hlap : NeverLapped read s actions) :
    (((ringMachine read).exec s actions).view V).Holds ringBufferSize := by
  have halong : (ringMachine read).Along
      (fun s _ => (s.view V).NotLapped ringBufferSize) s actions := by
    rw [Machine.along_iff]
    rintro before a after rfl
    exact hlap before (List.prefix_append _ _)
  have hstep : ∀ (s : RingSystem γ ρ) (v : Spsc UInt8) (a : RingAction ι),
      v = s.view V ∧ RingInv V s → v.Counted ringBufferSize →
      (s.view V).NotLapped ringBufferSize → v.NotLapped ringBufferSize ∧
      ∃ w, Spsc.Step ringBufferSize v w ∧
        w = ((ringMachine read).step s a).2.view V ∧ RingInv V ((ringMachine read).step s a).2 := by
    rintro s v a ⟨rfl, h⟩ - hlap
    exact ⟨hlap, _, view_step hread h.ok a, rfl, RingInv.step hread s a h⟩
  obtain ⟨w, ⟨rfl, -⟩, -, hfinal⟩ := Spsc.exec_refines hstep ⟨rfl, h⟩ h.counted hholds halong
  exact hfinal

/-- **The ring, for any reader that keeps the contract.** -/
theorem ring_run (hread : ReaderContract read V) {s : RingSystem γ ρ} (hok : V.Ok s.reader)
    (hfresh : (s.view V).Fresh) (hindices : s.indices = []) (actions : List (RingAction ι)) :
    let t := (ringMachine read).exec s actions
    RingInv V t ∧ (NeverLapped read s actions → t.consumed <+: t.received) := by
  have hinv : RingInv V s := ⟨hok, hfresh.counted, by simp [hindices]⟩
  exact ⟨Machine.exec_inv (RingInv.step hread) hinv actions,
    fun hlap => (exec_holds hread hinv hfresh.holds actions hlap).prefix_received⟩

end Runs

/-! ## What the calls return -/

/-- The bytes of the call that is going on. -/
def DecryptReader.inFlight (g : DecryptReader) : List UInt8 :=
  match g.pc with
  | .storeByte c => [c]
  | .fillBuffer _ buf => buf
  | .drainBuffer _ buf => buf
  | _ => []

def DecryptReader.Fits (g : DecryptReader) : Prop :=
  match g.pc with
  | .fillBuffer len buf => buf.length ≤ len
  | .drainBuffer len buf => buf.length ≤ len
  | _ => True

/-- A step adds the byte it loads to the call that is going on, or returns
what the call has. -/
theorem decryptRead_inFlight (rb : RingBufferT) (g : DecryptReader) (call : ReadCall)
    (hfits : g.Fits) :
    let r := decryptRead rb g call
    r.reader.Fits ∧
    ((r.returned = none ∧ r.reader.inFlight = g.inFlight ++ (r.loaded.map rb.buffer).toList) ∨
      ∃ c, r.returned = some (c, g.inFlight) ∧ g.inFlight.length = c.len ∧ r.loaded = none ∧
        r.reader.inFlight = []) := by
  obtain ⟨pc, head, tail⟩ := g
  cases pc with
  | caller =>
      cases call with
      | readByte => exact ⟨trivial, Or.inl ⟨rfl, rfl⟩⟩
      | readBuffer len => exact ⟨Nat.zero_le len, Or.inl ⟨rfl, rfl⟩⟩
  | sampleByte =>
      by_cases heq : rb.tail = head
      · simp [decryptRead, DecryptReader.Fits, DecryptReader.inFlight, heq]
      · simp [decryptRead, DecryptReader.Fits, DecryptReader.inFlight, heq]
  | loadByte => exact ⟨trivial, Or.inl ⟨rfl, rfl⟩⟩
  | storeByte c => exact ⟨trivial, Or.inr ⟨.readByte, rfl, rfl, rfl, rfl⟩⟩
  | fillBuffer len buf =>
      have hle : buf.length ≤ len := hfits
      by_cases hlt : buf.length < len
      · simp [decryptRead, DecryptReader.Fits, DecryptReader.inFlight, hlt, hle]
      · have hlen : buf.length = len := Nat.le_antisymm hle (Nat.le_of_not_lt hlt)
        have hstep : decryptRead rb ⟨.fillBuffer len buf, head, tail⟩ call =
            { rb := { rb with head := head }
              reader := ⟨.caller, head, tail⟩
              returned := some (.readBuffer len, buf) } := if_neg hlt
        rw [hstep]
        exact ⟨trivial, Or.inr ⟨.readBuffer len, rfl, hlen, rfl, rfl⟩⟩
  | drainBuffer len buf =>
      by_cases hmore : buf.length < len ∧ head ≠ tail
      · have hnext : buf.length + 1 ≤ len := hmore.1
        simp [decryptRead, DecryptReader.Fits, DecryptReader.inFlight, hmore, hnext]
      · have hle : buf.length ≤ len := hfits
        simp only [decryptRead, if_neg hmore]
        exact ⟨hle, Or.inl ⟨trivial, (List.append_nil buf).symm⟩⟩

/-- **The calls return consecutive segments** of what is consumed, as long as
asked for. -/
structure Segments (s : RingSystem DecryptReader (ReadCall × List UInt8)) : Prop where
  joined : s.returned.flatMap Prod.snd ++ s.reader.inFlight = s.consumed
  lengths : ∀ r ∈ s.returned, r.2.length = r.1.len
  fits : s.reader.Fits

theorem RingSystem.write_reader {γ ρ : Type} (s : RingSystem γ ρ) (c : Option UInt8) :
    (s.write c).reader = s.reader ∧ (s.write c).returned = s.returned ∧
    (s.write c).consumed = s.consumed := by
  rw [RingSystem.write]
  split <;> exact ⟨rfl, rfl, rfl⟩

theorem Segments.step (s : RingSystem DecryptReader (ReadCall × List UInt8))
    (a : RingAction ReadCall) (h : Segments s) :
    Segments ((ringMachine decryptRead).step s a).2 := by
  obtain ⟨hjoined, hlengths, hfits⟩ := h
  cases a with
  | rx c =>
      obtain ⟨hreader, hreturned, hconsumed⟩ := s.write_reader c
      simp only [ringMachine]
      constructor
      · rw [hreader, hreturned, hconsumed]
        exact hjoined
      · rw [hreturned]
        exact hlengths
      · rw [hreader]
        exact hfits
  | reader call =>
      simp only [ringMachine, RingSystem.read]
      -- the call goes on, or it returns what it has
      obtain ⟨hfits', ⟨hnone, hmore⟩ | ⟨c, hreturned, hlen, hloaded, hdone⟩⟩ :=
        decryptRead_inFlight s.rb s.reader call hfits
      · refine ⟨?_, ?_, hfits'⟩
        · simp only [hnone, hmore, ← hjoined, Option.toList_none, List.append_nil,
            List.append_assoc]
        · simpa only [hnone, Option.toList_none, List.append_nil] using hlengths
      · refine ⟨?_, ?_, hfits'⟩
        · simp [hreturned, hdone, hloaded, ← hjoined]
        · intro r hr
          rw [hreturned, Option.toList_some, List.mem_append, List.mem_singleton] at hr
          rcases hr with hr | rfl
          · exact hlengths r hr
          · exact hlen

/-- Encrypt hands every byte it consumes to `handle_char`. -/
theorem encrypt_handed (s : RingSystem EncryptReader UInt8) (a : RingAction Unit)
    (h : s.returned = s.consumed) :
    ((ringMachine encryptRead).step s a).2.returned =
      ((ringMachine encryptRead).step s a).2.consumed := by
  cases a with
  | rx c =>
      obtain ⟨-, hreturned, hconsumed⟩ := s.write_reader c
      simp only [ringMachine, hreturned, hconsumed, h]
  | reader i =>
      obtain ⟨rb, rx, ⟨pc, head, tail⟩, received, published, consumed, indices, returned⟩ := s
      simp only [ringMachine, RingSystem.read]
      cases pc with
      | start => simpa [encryptRead] using h
      | sample => simpa [encryptRead] using h
      | drain =>
          by_cases hmore : head ≠ tail
          · simpa [encryptRead, hmore] using h
          · simpa [encryptRead, hmore] using h

/-! ## The two rings -/

/-- **The rings of the relay are queues.** For every interleaving of
Telemetry_RX with calls of `read_byte` and `read_buffer`, and of Pixhawk_RX
with Encrypt: every index is below the size of the ring, the published tail
and the reader's head count what was published and consumed, and as long as
the writer is never a whole ring ahead, what was consumed is a prefix of what
the serial port delivered. Decrypt's calls have returned it in consecutive
segments as long as asked for, and Encrypt has handed it on byte by byte. -/
theorem ring_fifo (buffer : ℕ → UInt8) :
    (∀ actions : List (RingAction ReadCall),
      let init : RingSystem DecryptReader (ReadCall × List UInt8) :=
        ringInit buffer telemetryRxInit decryptReaderInit
      let s := (ringMachine decryptRead).exec init actions
      (∀ i ∈ s.indices, i < 2048) ∧
      s.rb.tail = s.published % 2048 ∧
      s.reader.head = s.consumed.length % 2048 ∧
      Segments s ∧
      (NeverLapped decryptRead init actions → s.consumed <+: s.received)) ∧
    (∀ (tail₀ head₀ tail₁ : ℕ) (actions : List (RingAction Unit)),
      let init : RingSystem EncryptReader UInt8 :=
        ringInit buffer (pixhawkRxInit tail₀) (encryptReaderInit head₀ tail₁)
      let s := (ringMachine encryptRead).exec init actions
      (∀ i ∈ s.indices, i < 2048) ∧
      s.rb.tail = s.published % 2048 ∧
      (s.reader.pc ≠ .start → s.reader.head = s.consumed.length % 2048) ∧
      s.returned = s.consumed ∧
      (NeverLapped encryptRead init actions → s.consumed <+: s.received)) := by
  constructor
  · intro actions init s
    obtain ⟨hinv, hprefix⟩ := ring_run decrypt_contract (s := init) trivial
      ⟨rfl, rfl, rfl, rfl, rfl, rfl, rfl, rfl⟩ rfl actions
    have hsegments := Machine.exec_inv Segments.step (s := init)
      ⟨rfl, by simp [init, ringInit], trivial⟩ actions
    exact ⟨hinv.indices, hinv.counted.tail_eq, hinv.counted.head_eq, hsegments, hprefix⟩
  · intro tail₀ head₀ tail₁ actions init s
    obtain ⟨hinv, hprefix⟩ := ring_run encrypt_contract (s := init) trivial
      ⟨rfl, rfl, rfl, rfl, rfl, rfl, rfl, rfl⟩ rfl actions
    refine ⟨hinv.indices, hinv.counted.tail_eq, fun hpc => ?_, ?_, hprefix⟩
    · have hhead : (if s.reader.pc = .start then s.rb.head else s.reader.head) =
          s.consumed.length % ringBufferSize := hinv.counted.head_eq
      rwa [if_neg hpc] at hhead
    · exact Machine.exec_inv (I := fun s : RingSystem EncryptReader UInt8 =>
        s.returned = s.consumed) encrypt_handed (s := init) rfl actions

theorem published_le {γ ρ ι : Type} (read : RingBufferT → γ → ι → ReadStep γ ρ)
    (s : RingSystem γ ρ) (actions : List (RingAction ι)) :
    ((ringMachine read).exec s actions).published ≤ s.published + actions.length := by
  induction actions generalizing s with
  | nil => exact Nat.le_refl _
  | cons a actions ih =>
      have hone : ((ringMachine read).step s a).2.published ≤ s.published + 1 := by
        cases a with
        | rx c =>
            simp only [ringMachine, RingSystem.write]
            split <;> simp
        | reader i => exact Nat.le_succ _
      rw [Machine.exec_cons, List.length_cons]
      refine (ih _).trans ?_
      omega

/-- A short run laps nothing. -/
theorem neverLapped_of_short {γ ρ ι : Type} (read : RingBufferT → γ → ι → ReadStep γ ρ)
    {s : RingSystem γ ρ} (hs : s.published = 0) {actions : List (RingAction ι)}
    (hshort : actions.length < ringBufferSize) : NeverLapped read s actions := by
  intro pre hpre
  have hlen := hpre.length_le
  have hpublished := published_le read s pre
  omega

/-- The writer takes a byte, stores it and publishes it. -/
def storeByte {ι : Type} (c : UInt8) : List (RingAction ι) := [.rx (some c), .rx none, .rx none]

/-- A call for one byte, and one for two that waits for the second. -/
def decryptThree : List (RingAction ReadCall) :=
  storeByte 7 ++ storeByte 8 ++ List.replicate 4 (.reader .readByte) ++
    List.replicate 4 (.reader (.readBuffer 2)) ++ storeByte 9 ++
    List.replicate 5 (.reader (.readBuffer 2))

def encryptThree : List (RingAction Unit) :=
  [.rx none, .reader ()] ++ storeByte 7 ++ [.reader ()] ++ storeByte 8 ++
    List.replicate 4 (.reader ()) ++ storeByte 9 ++ List.replicate 3 (.reader ())

theorem ring_fifo_threeBytes :
    let decryptInit : RingSystem DecryptReader (ReadCall × List UInt8) :=
      ringInit (fun _ => 0) telemetryRxInit decryptReaderInit
    let encryptInit : RingSystem EncryptReader UInt8 :=
      ringInit (fun _ => 0) (pixhawkRxInit 5) (encryptReaderInit 6 7)
    let d := (ringMachine decryptRead).exec decryptInit decryptThree
    let e := (ringMachine encryptRead).exec encryptInit encryptThree
    (NeverLapped decryptRead decryptInit decryptThree ∧ d.consumed <+: d.received ∧
      d.returned = [(.readByte, [7]), (.readBuffer 2, [8, 9])]) ∧
    (NeverLapped encryptRead encryptInit encryptThree ∧ e.consumed <+: e.received ∧
      e.returned = [7, 8, 9]) := by
  intro decryptInit encryptInit d e
  have hdecrypt : NeverLapped decryptRead decryptInit decryptThree :=
    neverLapped_of_short decryptRead rfl (by decide)
  have hencrypt : NeverLapped encryptRead encryptInit encryptThree :=
    neverLapped_of_short encryptRead rfl (by decide)
  have hprefix := ((ring_fifo fun _ => 0).1 decryptThree).2.2.2.2 hdecrypt
  have hprefix' := ((ring_fifo fun _ => 0).2 5 6 7 encryptThree).2.2.2.2 hencrypt
  have hreturned : d.returned = [(.readByte, [7]), (.readBuffer 2, [8, 9])] := by decide +kernel
  have hreturned' : e.returned = [7, 8, 9] := by decide +kernel
  exact ⟨⟨hdecrypt, hprefix, hreturned⟩, hencrypt, hprefix', hreturned'⟩

end GecRelay
