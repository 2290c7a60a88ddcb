import GecRelay.Relay.RingBuffer

/-!
# Successive calls on a ring

comm-crypto-block's and comm-crypto-rpc-relay's `read_ringbuffer` fetch the
head from the ring at the start of a call. The first stores it back at the
end; the second does not, so every call begins at index 0 again. The calls of
the first return the stream in consecutive pieces, in any interleaving with
the writer that never laps them; those of the second do so until a byte is
loaded after a call has returned one.
-/

namespace GecRelay

open Foundation

/-! ## The writer -/

inductive FetchPc
  | getchar
  | fetch (c : UInt8)
  | store (c : UInt8)
  | publish (c : UInt8)

/-- `run` of a writer that fetches the tail for every byte. -/
structure FetchWriter where
  pc : FetchPc
  tail : ℕ

/-- One step of `run` in comm-crypto-block's Telemetry_RX, comm-crypto-rpc-relay's
Telemetry and, while it uses the ring of KeyExchange, key-exchange's Pixhawk. -/
def fetchStep (rb : RingBufferT) (s : FetchWriter) (c : Option UInt8) :
    RingBufferT × FetchWriter :=
  match s.pc with
  | .getchar =>
      match c with
      | none => (rb, s)
      | some c => (rb, { s with pc := .fetch c })
  | .fetch c => (rb, { pc := .store c, tail := rb.tail })
  | .store c =>
      ({ rb with buffer := Function.update rb.buffer s.tail c }, { s with pc := .publish c })
  | .publish _ =>
      let tail := (s.tail + 1) % ringBufferSize
      ({ rb with tail := tail }, { pc := .getchar, tail := tail })

/-- The ring, its writer and a reader, and what has happened so far. -/
structure CallSystem (γ ρ : Type) where
  rb : RingBufferT
  writer : FetchWriter
  reader : γ
  received : List UInt8 := []
  published : ℕ := 0
  consumed : List UInt8 := []
  returned : List ρ := []

namespace CallSystem

variable {γ ρ : Type}

def write (s : CallSystem γ ρ) (c : Option UInt8) : CallSystem γ ρ :=
  let r := fetchStep s.rb s.writer c
  let t := { s with rb := r.1, writer := r.2 }
  match s.writer.pc with
  | .getchar => { t with received := s.received ++ c.toList }
  | .fetch _ => t
  | .store _ => t
  | .publish _ => { t with published := s.published + 1 }

def read (s : CallSystem γ ρ) (r : ReadStep γ ρ) : CallSystem γ ρ :=
  { s with
    rb := r.rb
    reader := r.reader
    consumed := s.consumed ++ (r.loaded.map s.rb.buffer).toList
    returned := s.returned ++ r.returned.toList }

/-- The writer is not a whole ring ahead. -/
def NotAhead (s : CallSystem γ ρ) : Prop := s.published < s.consumed.length + ringBufferSize

end CallSystem

def callMachine {γ ρ ι : Type} (read : RingBufferT → γ → ι → ReadStep γ ρ) :
    Machine (CallSystem γ ρ) (RingAction ι) Unit where
  step s
    | .rx c => ((), s.write c)
    | .reader i => ((), s.read (read s.rb s.reader i))

/-- After `pre_init`; the buffer and the writer's `tail` are uninitialised. -/
def callInit {γ ρ : Type} (buffer : ℕ → UInt8) (tail : ℕ) (reader : γ) : CallSystem γ ρ :=
  { rb := { buffer := buffer, head := 0, tail := 0 }
    writer := { pc := .getchar, tail := tail }
    reader := reader }

/-! ## The readers -/

inductive CallPc
  | caller
  | fetchHead (len : ℕ)
  | fill (len : ℕ) (buf : List UInt8)
  | drain (len : ℕ) (buf : List UInt8)

/-- The locals of `read_ringbuffer`. -/
structure CallReader where
  pc : CallPc
  head : ℕ
  tail : ℕ

/-- One step of `read_ringbuffer`, which stores the head at the end or not;
`len` is that of the next call if none is going on. A call returns with its
length. -/
def readRingbuffer (storesHead : Bool) (rb : RingBufferT) (g : CallReader) (len : ℕ) :
    ReadStep CallReader (ℕ × List UInt8) :=
  match g.pc with
  | .caller => { rb := rb, reader := { g with pc := .fetchHead len } }
  | .fetchHead n => { rb := rb, reader := { g with pc := .fill n [], head := rb.head } }
  | .fill n buf =>
      if buf.length < n then { rb := rb, reader := { g with pc := .drain n buf, tail := rb.tail } }
      else
        { rb := if storesHead then { rb with head := g.head } else rb
          reader := { g with pc := .caller }
          returned := some (n, buf) }
  | .drain n buf =>
      if buf.length < n ∧ g.head ≠ g.tail then
        { rb := rb
          reader := { g with
            pc := .drain n (buf ++ [rb.buffer g.head])
            head := (g.head + 1) % ringBufferSize }
          loaded := some g.head }
      else { rb := rb, reader := { g with pc := .fill n buf } }

def blockReadRingbuffer : RingBufferT → CallReader → ℕ → ReadStep CallReader (ℕ × List UInt8) :=
  readRingbuffer true

def rpcRelayReadRingbuffer : RingBufferT → CallReader → ℕ →
    ReadStep CallReader (ℕ × List UInt8) :=
  readRingbuffer false

def CallReader.inFlight (g : CallReader) : List UInt8 :=
  match g.pc with
  | .caller => []
  | .fetchHead _ => []
  | .fill _ buf => buf
  | .drain _ buf => buf

/-- The concatenation of the buffers the calls have returned. -/
def CallSystem.buffers (s : CallSystem CallReader (ℕ × List UInt8)) : List UInt8 :=
  s.returned.flatMap Prod.snd

/-- **Successive reads are consecutive**: what they have returned is a prefix
of the stream, each as long as asked for. -/
structure Consecutive (s : CallSystem CallReader (ℕ × List UInt8)) : Prop where
  stream : s.buffers <+: s.received
  lengths : ∀ r ∈ s.returned, r.2.length = r.1

/-- No byte is loaded after a call has returned some. -/
def NoReread (s : CallSystem CallReader (ℕ × List UInt8)) (a : RingAction ℕ) : Prop :=
  match a with
  | .rx _ => True
  | .reader len =>
      s.buffers = [] ∨ (rpcRelayReadRingbuffer s.rb s.reader len).loaded = none

/-! ## The ring behind them -/

section Ring

variable {γ ρ : Type}

def FetchWriter.next (rbTail : ℕ) (w : FetchWriter) : ℕ :=
  match w.pc with
  | .getchar => rbTail
  | .fetch _ => rbTail
  | .store _ => w.tail
  | .publish _ => w.tail

def FetchWriter.hand (w : FetchWriter) : Hand UInt8 :=
  match w.pc with
  | .getchar => .empty
  | .fetch c => .received c
  | .store c => .received c
  | .publish c => .stored c

/-- The ring of `Spsc` with given positions of the reader. -/
def CallSystem.view (s : CallSystem γ ρ) (head seen : ℕ) : Spsc UInt8 where
  slots := s.rb.buffer
  tail := s.rb.tail
  next := s.writer.next s.rb.tail
  hand := s.writer.hand
  head := head
  seen := seen
  received := s.received
  published := s.published
  taken := s.consumed

theorem CallSystem.view_write (s : CallSystem γ ρ) (c : Option UInt8) (head seen : ℕ) :
    Spsc.Step ringBufferSize (s.view head seen) ((s.write c).view head seen) := by
  obtain ⟨rb, ⟨pc, tail⟩, reader, received, published, consumed, returned⟩ := s
  cases pc with
  | getchar =>
      cases c with
      | none =>
          simp only [CallSystem.write, fetchStep, Option.toList_none, List.append_nil]
          exact .stutter _
      | some c => exact .receive _ c rfl
  | fetch c => exact .stutter _
  | store c => exact .store _ c rfl
  | publish c => exact .publish _ c rfl

theorem CallSystem.write_reader (s : CallSystem γ ρ) (c : Option UInt8) :
    (s.write c).reader = s.reader ∧ (s.write c).returned = s.returned ∧
    (s.write c).consumed = s.consumed ∧ (s.write c).rb.head = s.rb.head ∧
    s.received <+: (s.write c).received := by
  obtain ⟨rb, ⟨pc, tail⟩, reader, received, published, consumed, returned⟩ := s
  cases pc with
  | getchar => cases c <;> exact ⟨rfl, rfl, rfl, rfl, List.prefix_append _ _⟩
  | fetch c => exact ⟨rfl, rfl, rfl, rfl, List.prefix_rfl⟩
  | store c => exact ⟨rfl, rfl, rfl, rfl, List.prefix_rfl⟩
  | publish c => exact ⟨rfl, rfl, rfl, rfl, List.prefix_rfl⟩

theorem fresh_callInit (buffer : ℕ → UInt8) (tail : ℕ) (reader : γ) :
    ((callInit buffer tail reader : CallSystem γ ρ).view 0 0).Fresh :=
  ⟨rfl, rfl, rfl, rfl, rfl, rfl, rfl, rfl⟩

end Ring

/-! ## One step of a call -/

/-- The index of the next byte; a call that has not begun will fetch it. -/
def CallReader.position (rbHead : ℕ) (g : CallReader) : ℕ :=
  match g.pc with
  | .caller => rbHead
  | .fetchHead _ => rbHead
  | .fill _ _ => g.head
  | .drain _ _ => g.head

def CallReader.Draining (g : CallReader) : Prop :=
  match g.pc with
  | .drain _ _ => True
  | _ => False

def CallReader.Fits (g : CallReader) : Prop :=
  match g.pc with
  | .fill n buf => buf.length ≤ n
  | .drain n buf => buf.length ≤ n
  | _ => True

/-- **What a step of `read_ringbuffer` does**: nothing but move on, perhaps
with a new sample of the tail; load a byte; or return. -/
inductive CallEffect (storesHead : Bool) (rb : RingBufferT) (g : CallReader)
    (r : ReadStep CallReader (ℕ × List UInt8)) : Prop
  | quiet (rb_eq : r.rb = rb) (loaded : r.loaded = none) (returned : r.returned = none)
      (inFlight : r.reader.inFlight = g.inFlight)
      (position : r.reader.position rb.head = g.position rb.head)
      (sampled : r.reader.Draining → r.reader.tail = rb.tail)
  | load (rb_eq : r.rb = rb) (draining : g.Draining) (more : g.head ≠ g.tail)
      (loaded : r.loaded = some g.head) (returned : r.returned = none)
      (inFlight : r.reader.inFlight = g.inFlight ++ [rb.buffer g.head])
      (head : r.reader.head = (g.head + 1) % ringBufferSize) (tail : r.reader.tail = g.tail)
      (again : r.reader.Draining)
  | ret (n : ℕ) (full : g.inFlight.length = n)
      (rb_eq : r.rb = if storesHead then { rb with head := g.head } else rb)
      (position : g.position rb.head = g.head) (loaded : r.loaded = none)
      (returned : r.returned = some (n, g.inFlight)) (done : r.reader.pc = .caller)

theorem readRingbuffer_effect (storesHead : Bool) (rb : RingBufferT) {g : CallReader}
    (hfits : g.Fits) (len : ℕ) :
    (readRingbuffer storesHead rb g len).reader.Fits ∧
    CallEffect storesHead rb g (readRingbuffer storesHead rb g len) := by
  obtain ⟨pc, head, tail⟩ := g
  cases pc with
  | caller => exact ⟨trivial, .quiet rfl rfl rfl rfl rfl False.elim⟩
  | fetchHead n => exact ⟨Nat.zero_le n, .quiet rfl rfl rfl rfl rfl False.elim⟩
  | fill n buf =>
      have hle : buf.length ≤ n := hfits
      by_cases hlt : buf.length < n
      · simp only [readRingbuffer, if_pos hlt]
        exact ⟨hle, .quiet rfl rfl rfl rfl rfl fun _ => rfl⟩
      · simp only [readRingbuffer, if_neg hlt]
        exact ⟨trivial, .ret n (Nat.le_antisymm hle (Nat.le_of_not_lt hlt)) rfl rfl rfl rfl rfl⟩
  | drain n buf =>
      by_cases hmore : buf.length < n ∧ head ≠ tail
      · simp only [readRingbuffer, if_pos hmore]
        refine ⟨?_, .load rfl trivial hmore.2 rfl rfl rfl rfl rfl trivial⟩
        have hnext : buf.length + 1 ≤ n := hmore.1
        simpa [CallReader.Fits] using hnext
      · simp only [readRingbuffer, if_neg hmore]
        exact ⟨hfits, .quiet rfl rfl rfl rfl rfl False.elim⟩

/-! ## Runs -/

/-- The reader goes on where it stopped: it stores its head, or has not
returned a byte yet. -/
def Live (storesHead : Bool) (s : CallSystem CallReader (ℕ × List UInt8)) : Prop :=
  storesHead = true ∨ s.buffers = []

/-- The system shows the ring of `Spsc`. -/
structure Shows (storesHead : Bool) (s : CallSystem CallReader (ℕ × List UInt8)) (v : Spsc UInt8) :
    Prop where
  view : v = s.view v.head v.seen
  joined : s.buffers ++ s.reader.inFlight = s.consumed
  lengths : ∀ r ∈ s.returned, r.2.length = r.1
  fits : s.reader.Fits
  zero : storesHead = false → s.rb.head = 0
  head : Live storesHead s → v.head = s.reader.position s.rb.head
  seen : Live storesHead s → s.reader.Draining → v.seen = s.reader.tail

theorem Shows.write {storesHead : Bool} {s : CallSystem CallReader (ℕ × List UInt8)}
    {v : Spsc UInt8} (h : Shows storesHead s v) (c : Option UInt8) :
    ∃ w, Spsc.Step ringBufferSize v w ∧ Shows storesHead (s.write c) w := by
  obtain ⟨hreader, hreturned, hconsumed, hhead, -⟩ := s.write_reader c
  have hbuffers : (s.write c).buffers = s.buffers := by
    rw [CallSystem.buffers, hreturned, CallSystem.buffers]
  refine ⟨(s.write c).view v.head v.seen, h.view ▸ s.view_write c v.head v.seen, rfl, ?_, ?_, ?_,
    ?_, ?_, ?_⟩
  · rw [hbuffers, hreader, hconsumed]
    exact h.joined
  · rw [hreturned]
    exact h.lengths
  · rw [hreader]
    exact h.fits
  · rw [hhead]
    exact h.zero
  · rw [Live, hbuffers, hreader, hhead]
    exact h.head
  · rw [Live, hbuffers, hreader]
    exact h.seen

theorem CallReader.Draining.position {g : CallReader} (h : g.Draining) (rbHead : ℕ) :
    g.position rbHead = g.head := by
  obtain ⟨pc, head, tail⟩ := g
  cases pc with
  | drain n buf => rfl
  | _ => exact h.elim

section Read

variable {storesHead : Bool} {s : CallSystem CallReader (ℕ × List UInt8)} {v : Spsc UInt8}
  {r : ReadStep CallReader (ℕ × List UInt8)}

/-- A step that loads and returns nothing may renew the sample. -/
theorem Shows.read_quiet (h : Shows storesHead s v) (hfits : r.reader.Fits) (hrb : r.rb = s.rb)
    (hloaded : r.loaded = none) (hreturned : r.returned = none)
    (hflight : r.reader.inFlight = s.reader.inFlight)
    (hpos : r.reader.position s.rb.head = s.reader.position s.rb.head)
    (hsampled : r.reader.Draining → r.reader.tail = s.rb.tail) :
    ∃ w, Spsc.Step ringBufferSize v w ∧ Shows storesHead (s.read r) w := by
  have hbuffers : (s.read r).buffers = s.buffers := by
    simp [CallSystem.buffers, CallSystem.read, hreturned]
  have hconsumed : (s.read r).consumed = s.consumed := by simp [CallSystem.read, hloaded]
  have hreturns : (s.read r).returned = s.returned := by simp [CallSystem.read, hreturned]
  have hstate : ∀ seen, { v with seen := seen } = (s.read r).view v.head seen := by
    intro seen
    rw [h.view]
    simp [CallSystem.view, CallSystem.read, hrb, hloaded]
  obtain ⟨seen, hstep, hseen⟩ : ∃ seen, Spsc.Step ringBufferSize v { v with seen := seen } ∧
      (r.reader.Draining → seen = r.reader.tail) := by
    by_cases hd : r.reader.Draining
    · refine ⟨v.tail, .sample v, fun _ => ?_⟩
      rw [hsampled hd, h.view]
      rfl
    · exact ⟨v.seen, .stutter v, fun hd' => absurd hd' hd⟩
  refine ⟨{ v with seen := seen }, hstep, hstate seen, ?_, ?_, hfits, ?_, ?_, ?_⟩
  · rw [hbuffers, hconsumed, ← h.joined]
    exact congrArg (s.buffers ++ ·) hflight
  · rw [hreturns]
    exact h.lengths
  · intro hst
    show r.rb.head = 0
    rw [hrb]
    exact h.zero hst
  · rw [Live, hbuffers]
    intro hlive
    show v.head = r.reader.position r.rb.head
    rw [hrb, hpos]
    exact h.head hlive
  · exact fun _ hd => hseen hd

/-- A byte is loaded from where the ring has its head. -/
theorem Shows.read_load (h : Shows storesHead s v) (hlive : Live storesHead s)
    (hfits : r.reader.Fits) (hrb : r.rb = s.rb) (hdrain : s.reader.Draining)
    (hmore : s.reader.head ≠ s.reader.tail) (hloaded : r.loaded = some s.reader.head)
    (hreturned : r.returned = none)
    (hflight : r.reader.inFlight = s.reader.inFlight ++ [s.rb.buffer s.reader.head])
    (hhead : r.reader.head = (s.reader.head + 1) % ringBufferSize)
    (htail : r.reader.tail = s.reader.tail) (hagain : r.reader.Draining) :
    ∃ w, Spsc.Step ringBufferSize v w ∧ Shows storesHead (s.read r) w := by
  have hvhead : v.head = s.reader.head := (h.head hlive).trans (hdrain.position _)
  have hvseen : v.seen = s.reader.tail := h.seen hlive hdrain
  have hbuffers : (s.read r).buffers = s.buffers := by
    simp [CallSystem.buffers, CallSystem.read, hreturned]
  have hconsumed : (s.read r).consumed = s.consumed ++ [s.rb.buffer s.reader.head] := by
    simp [CallSystem.read, hloaded]
  have hreturns : (s.read r).returned = s.returned := by simp [CallSystem.read, hreturned]
  have hstate : { v with
      head := (v.head + 1) % ringBufferSize, taken := v.taken ++ [v.slots v.head] } =
      (s.read r).view ((v.head + 1) % ringBufferSize) v.seen := by
    have hslot : v.slots v.head = s.rb.buffer s.reader.head := by
      rw [hvhead, h.view]
      rfl
    rw [hslot, CallSystem.view, hconsumed, h.view]
    simp [CallSystem.view, CallSystem.read, hrb]
  refine ⟨_, .take v (by rwa [hvhead, hvseen]), hstate, ?_, ?_, hfits, ?_, ?_, ?_⟩
  · rw [hbuffers, hconsumed, ← h.joined, List.append_assoc]
    exact congrArg (s.buffers ++ ·) hflight
  · rw [hreturns]
    exact h.lengths
  · intro hst
    show r.rb.head = 0
    rw [hrb]
    exact h.zero hst
  · intro _
    show (v.head + 1) % ringBufferSize = r.reader.position r.rb.head
    rw [hagain.position, hhead, hvhead]
  · exact fun _ _ => hvseen.trans htail.symm

/-- A call returns: the next one goes on at the head if it was stored, or if
there is nothing yet to read again. -/
theorem Shows.read_ret (h : Shows storesHead s v) (hc : v.Counted ringBufferSize) {n : ℕ}
    (hfits : r.reader.Fits) (hfull : s.reader.inFlight.length = n)
    (hrb : r.rb = if storesHead then { s.rb with head := s.reader.head } else s.rb)
    (hpos : s.reader.position s.rb.head = s.reader.head) (hloaded : r.loaded = none)
    (hreturned : r.returned = some (n, s.reader.inFlight)) (hdone : r.reader.pc = .caller) :
    Shows storesHead (s.read r) v := by
  have hbuffers : (s.read r).buffers = s.buffers ++ s.reader.inFlight := by
    simp [CallSystem.buffers, CallSystem.read, hreturned]
  have hconsumed : (s.read r).consumed = s.consumed := by simp [CallSystem.read, hloaded]
  have hring : r.rb.buffer = s.rb.buffer ∧ r.rb.tail = s.rb.tail := by
    rw [hrb]
    cases storesHead <;> exact ⟨rfl, rfl⟩
  refine ⟨?_, ?_, ?_, hfits, ?_, ?_, ?_⟩
  · rw [CallSystem.view, hconsumed]
    simp only [CallSystem.read, hring.1, hring.2]
    exact h.view
  · have hflight : (s.read r).reader.inFlight = [] := by
      rw [CallReader.inFlight, show (s.read r).reader.pc = .caller from hdone]
    rw [hbuffers, hconsumed, ← h.joined, hflight, List.append_nil]
  · intro e he
    simp only [CallSystem.read, hreturned, Option.toList_some, List.mem_append,
      List.mem_singleton] at he
    rcases he with he | rfl
    · exact h.lengths e he
    · exact hfull
  · intro hst
    show r.rb.head = 0
    rw [hrb, if_neg (by simp [hst])]
    exact h.zero hst
  · intro hlive
    show v.head = r.reader.position r.rb.head
    rw [CallReader.position, hdone, hrb]
    cases storesHead with
    | true => exact (h.head (Or.inl rfl)).trans hpos
    | false =>
        have hnone := hlive.resolve_left Bool.false_ne_true
        rw [hbuffers, List.append_eq_nil_iff] at hnone
        rw [hc.head_eq, h.view]
        show s.consumed.length % ringBufferSize = s.rb.head
        rw [← h.joined, hnone.1, hnone.2, h.zero rfl]
        rfl
  · intro _ hd
    rw [CallReader.Draining, show (s.read r).reader.pc = .caller from hdone] at hd
    exact hd.elim

end Read

theorem Shows.step {storesHead : Bool} (s : CallSystem CallReader (ℕ × List UInt8))
    (v : Spsc UInt8) (a : RingAction ℕ) (h : Shows storesHead s v)
    (hc : v.Counted ringBufferSize) (hahead : s.NotAhead)
    (hcond : Live storesHead s ∨
      ∀ len, a = .reader len → (readRingbuffer storesHead s.rb s.reader len).loaded = none) :
    v.NotLapped ringBufferSize ∧ ∃ w, Spsc.Step ringBufferSize v w ∧
      Shows storesHead ((callMachine (readRingbuffer storesHead)).step s a).2 w := by
  refine ⟨?_, ?_⟩
  · rw [h.view]
    exact hahead
  · cases a with
    | rx c => exact h.write c
    | reader len =>
        obtain ⟨hfits, heffect⟩ := readRingbuffer_effect storesHead s.rb h.fits len
        rcases heffect with ⟨hrb, hloaded, hreturned, hflight, hpos, hsampled⟩ |
          ⟨hrb, hdrain, hmore, hloaded, hreturned, hflight, hhead, htail, hagain⟩ |
          ⟨n, hfull, hrb, hpos, hloaded, hreturned, hdone⟩
        · exact h.read_quiet hfits hrb hloaded hreturned hflight hpos hsampled
        · have hlive : Live storesHead s := by
            refine hcond.resolve_right fun hnone => ?_
            rw [hnone len rfl] at hloaded
            cases hloaded
          exact h.read_load hlive hfits hrb hdrain hmore hloaded hreturned hflight hhead htail
            hagain
        · exact ⟨v, .stutter v, h.read_ret hc hfits hfull hrb hpos hloaded hreturned hdone⟩

theorem shows_init (storesHead : Bool) (buffer : ℕ → UInt8) (tail head tail₀ : ℕ) :
    Shows storesHead (callInit buffer tail ⟨.caller, head, tail₀⟩)
      ((callInit buffer tail (⟨.caller, head, tail₀⟩ : CallReader) :
        CallSystem CallReader (ℕ × List UInt8)).view 0 0) :=
  ⟨rfl, rfl, by simp [callInit], trivial, fun _ => rfl, fun _ => rfl, fun _ hd => hd.elim⟩

/-- Calls that go on where the last one stopped return consecutive pieces. -/
theorem consecutive_run (storesHead : Bool) (buffer : ℕ → UInt8) (tail head tail₀ : ℕ)
    {actions : List (RingAction ℕ)}
    (h : (callMachine (readRingbuffer storesHead)).Along
      (fun s a => s.NotAhead ∧ (Live storesHead s ∨ ∀ len, a = .reader len →
        (readRingbuffer storesHead s.rb s.reader len).loaded = none))
      (callInit buffer tail ⟨.caller, head, tail₀⟩) actions) :
    Consecutive ((callMachine (readRingbuffer storesHead)).exec
      (callInit buffer tail ⟨.caller, head, tail₀⟩) actions) := by
  have hfresh := fresh_callInit (ρ := ℕ × List UInt8) buffer tail
    (⟨.caller, head, tail₀⟩ : CallReader)
  obtain ⟨w, hw, -, hholds⟩ := Spsc.exec_refines
    (fun s v a hs hc hcond => Shows.step s v a hs hc hcond.1 hcond.2)
    (shows_init storesHead buffer tail head tail₀) hfresh.counted hfresh.holds h
  refine ⟨?_, hw.lengths⟩
  have htaken := hholds.prefix_received
  rw [hw.view] at htaken
  exact (hw.joined ▸ List.prefix_append _ _).trans htaken

/-- **Successive ring reads.** For every stream, every sequence of calls and
every interleaving with the writer in which it is never 2048 bytes ahead: the
buffers comm-crypto-block's calls return are consecutive pieces of the stream.
Those of comm-crypto-rpc-relay's are as long as no byte is loaded after a call
has returned one. -/
theorem ring_reads_consecutive (buffer : ℕ → UInt8) (tail head tail₀ : ℕ)
    (actions : List (RingAction ℕ)) :
    let init : CallSystem CallReader (ℕ × List UInt8) :=
      callInit buffer tail { pc := .caller, head := head, tail := tail₀ }
    ((callMachine blockReadRingbuffer).Along (fun s _ => s.NotAhead) init actions →
      Consecutive ((callMachine blockReadRingbuffer).exec init actions)) ∧
    ((callMachine rpcRelayReadRingbuffer).Along (fun s _ => s.NotAhead) init actions →
      (callMachine rpcRelayReadRingbuffer).Along NoReread init actions →
      Consecutive ((callMachine rpcRelayReadRingbuffer).exec init actions)) := by
  constructor
  · intro hahead
    refine consecutive_run true buffer tail head tail₀ ?_
    exact Machine.Along.mono (fun s a hs => ⟨hs, Or.inl (Or.inl rfl)⟩) hahead
  · intro hahead hfresh
    refine consecutive_run false buffer tail head tail₀ ?_
    refine Machine.Along.mono (fun s a hs => ⟨hs.1, ?_⟩) (hahead.and hfresh)
    cases a with
    | rx c => exact Or.inr fun len hlen => by cases hlen
    | reader len =>
        rcases hs.2 with hnone | hload
        · exact Or.inl (Or.inr hnone)
        · refine Or.inr fun len' hlen => ?_
          cases hlen
          exact hload

instance {γ ρ : Type} (s : CallSystem γ ρ) : Decidable s.NotAhead :=
  inferInstanceAs (Decidable (_ < _))

instance (s : CallSystem CallReader (ℕ × List UInt8)) (a : RingAction ℕ) :
    Decidable (NoReread s a) :=
  match a with
  | .rx _ => isTrue trivial
  | .reader _ => inferInstanceAs (Decidable (_ ∨ _))

/-- Bytes arrive. -/
def arrive {ι : Type} (bytes : List UInt8) : List (RingAction ι) :=
  bytes.flatMap fun c => [.rx (some c), .rx none, .rx none, .rx none]

/-- A call whose bytes are there. -/
def callOf (len : ℕ) : List (RingAction ℕ) := List.replicate (len + 5) (.reader len)

def uninitialised : CallSystem CallReader (ℕ × List UInt8) :=
  callInit (fun _ => 0) 0 { pc := .caller, head := 0, tail := 0 }

/-- A call waits for its second byte, another follows, and the third has not
begun to load. -/
def interleavedCalls : List (RingAction ℕ) :=
  arrive [1] ++ List.replicate 6 (.reader 2) ++ arrive [2, 3] ++ List.replicate 5 (.reader 2)

theorem ring_reads_consecutive_interleavedCalls :
    ((callMachine blockReadRingbuffer).Along (fun s _ => s.NotAhead) uninitialised
        interleavedCalls ∧
      Consecutive ((callMachine blockReadRingbuffer).exec uninitialised interleavedCalls)) ∧
    ((callMachine rpcRelayReadRingbuffer).Along (fun s _ => s.NotAhead) uninitialised
        interleavedCalls ∧
      (callMachine rpcRelayReadRingbuffer).Along NoReread uninitialised interleavedCalls ∧
      Consecutive ((callMachine rpcRelayReadRingbuffer).exec uninitialised interleavedCalls)) :=
  have hblock : (callMachine blockReadRingbuffer).Along (fun s _ => s.NotAhead) uninitialised
      interleavedCalls := by decide +kernel
  have hrpc : (callMachine rpcRelayReadRingbuffer).Along (fun s _ => s.NotAhead) uninitialised
      interleavedCalls := by decide +kernel
  have hfresh : (callMachine rpcRelayReadRingbuffer).Along NoReread uninitialised
      interleavedCalls := by decide +kernel
  have hreads := ring_reads_consecutive (fun _ => 0) 0 0 0 interleavedCalls
  ⟨⟨hblock, hreads.1 hblock⟩, hrpc, hfresh, hreads.2 hrpc hfresh⟩

/-- Two calls of comm-crypto-rpc-relay's `read_ringbuffer` on four bytes. -/
def twoCalls : List (RingAction ℕ) := arrive [1, 2, 3, 4] ++ callOf 2 ++ callOf 2

theorem second_call_reads_again :
    (callMachine rpcRelayReadRingbuffer).Along (fun s _ => s.NotAhead) uninitialised twoCalls ∧
    ((callMachine rpcRelayReadRingbuffer).exec uninitialised twoCalls).returned =
      [(2, [1, 2]), (2, [1, 2])] ∧
    ¬Consecutive ((callMachine rpcRelayReadRingbuffer).exec uninitialised twoCalls) := by
  refine ⟨by decide +kernel, by decide +kernel, fun h => ?_⟩
  have hstream := h.stream
  revert hstream
  decide +kernel

end GecRelay
