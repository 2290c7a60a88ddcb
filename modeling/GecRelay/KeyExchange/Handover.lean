import GecRelay.Relay.RingBuffer

/-!
# Handing the telemetry line over

While keys are exchanged Telemetry puts what arrives into the ring KeyExchange
reads; after the switch notification it uses the ring of Decrypt. Its `run`
tests `use_ringbuffer_key` in two nested loops. A byte that arrives after the
test of the outer loop still goes to the first ring, and if the flag falls
while the inner loop polls, that loop ends without a byte and the last value
of `c` is stored: `0xFF` for `EOF`. So all goes well only if, after the 96
bytes of the handshake, the outer test waits for the notification
(`SwitchedInTime`). Pixhawk's `run` is the same code on the other line.
-/

namespace GecRelay

open Foundation

inductive TelemetryPc
  | outer
  | inner
  | getcharKey
  | tailKey
  | storeKey
  | publishKey
  | getchar
  | tail
  | store
  | publish
deriving DecidableEq

/-- The locals of Telemetry's `run`; `c` is `none` for `EOF`. -/
structure Telemetry where
  pc : TelemetryPc
  c : Option UInt8
  tail : ℕ

/-- What `rb->buffer[tail] = c` stores. -/
def Telemetry.byte (t : Telemetry) : UInt8 := t.c.getD 0xFF

/-- Where KeyExchange is: in `read_from_telemetry` for msg1 or msg3, at
`switch_telemetry_emit`, or done. -/
inductive KxPc
  | fetchHead (msg3 : Bool)
  | fill (msg3 : Bool) (buf : List UInt8)
  | drain (msg3 : Bool) (buf : List UInt8)
  | emit
  | done
deriving DecidableEq

structure KxReader where
  pc : KxPc
  head : ℕ
  tail : ℕ

/-- `sizeof(msg1)` and `sizeof(msg3)`. -/
def msgLen (msg3 : Bool) : ℕ := if msg3 then 64 else 32

/-- One step of KeyExchange's `run`, as far as the telemetry line goes; it
returns msg1 and msg3. -/
def kxRead (rb : RingBufferT) (g : KxReader) (_ : Unit) : ReadStep KxReader (List UInt8) :=
  match g.pc with
  | .fetchHead m => { rb := rb, reader := { g with pc := .fill m [], head := rb.head } }
  | .fill m buf =>
      if buf.length < msgLen m then
        { rb := rb, reader := { g with pc := .drain m buf, tail := rb.tail } }
      else
        { rb := { rb with head := g.head }
          reader := { g with pc := if m then .emit else .fetchHead true }
          returned := some buf }
  | .drain m buf =>
      if buf.length < msgLen m ∧ g.head ≠ g.tail then
        { rb := rb
          reader := { g with
            pc := .drain m (buf ++ [rb.buffer g.head])
            head := (g.head + 1) % ringBufferSize }
          loaded := some g.head }
      else { rb := rb, reader := { g with pc := .fill m buf } }
  | .emit => { rb := rb, reader := { g with pc := .done } }
  | .done => { rb := rb, reader := g }

/-- The two rings, the two components, the flag and the notification, and what
has happened so far: the bytes that arrived, those stored and the number
published in each ring, and those KeyExchange has read. -/
structure Handover where
  rbKey : RingBufferT
  rb : RingBufferT
  telemetry : Telemetry
  keyExchange : KxReader
  useRingbufferKey : Bool := true
  pending : Bool := false
  arrived : List UInt8 := []
  keyStored : List UInt8 := []
  keyPublished : ℕ := 0
  ringStored : List UInt8 := []
  ringPublished : ℕ := 0
  read : List UInt8 := []

namespace Handover

/-- One step of Telemetry's `run`; `c` is what `ps_cdev_getchar` returns if the
step polls. -/
def telemetryStep (s : Handover) (c : Option UInt8) : Handover :=
  let t := s.telemetry
  match t.pc with
  | .outer =>
      { s with telemetry := { t with pc := if s.useRingbufferKey then .inner else .getchar } }
  | .inner =>
      -- the loop also ends when the flag has fallen, with `c` still `EOF`
      { s with telemetry := { t with pc := if s.useRingbufferKey then .getcharKey else .tailKey } }
  | .getcharKey =>
      { s with
        telemetry := { t with pc := if c = none then .inner else .tailKey, c := c }
        arrived := s.arrived ++ c.toList }
  | .tailKey => { s with telemetry := { t with pc := .storeKey, tail := s.rbKey.tail } }
  | .storeKey =>
      { s with
        telemetry := { t with pc := .publishKey }
        rbKey := { s.rbKey with buffer := Function.update s.rbKey.buffer t.tail t.byte }
        keyStored := s.keyStored ++ [t.byte] }
  | .publishKey =>
      let tail := (t.tail + 1) % ringBufferSize
      { s with
        telemetry := { t with pc := .outer, tail := tail }
        rbKey := { s.rbKey with tail := tail }
        keyPublished := s.keyPublished + 1 }
  | .getchar =>
      { s with
        telemetry := { t with pc := if c = none then .getchar else .tail, c := c }
        arrived := s.arrived ++ c.toList }
  | .tail => { s with telemetry := { t with pc := .store, tail := s.rb.tail } }
  | .store =>
      { s with
        telemetry := { t with pc := .publish }
        rb := { s.rb with buffer := Function.update s.rb.buffer t.tail t.byte }
        ringStored := s.ringStored ++ [t.byte] }
  | .publish =>
      let tail := (t.tail + 1) % ringBufferSize
      { s with
        telemetry := { t with pc := .getchar, tail := tail }
        rb := { s.rb with tail := tail }
        ringPublished := s.ringPublished + 1 }

def keyExchangeStep (s : Handover) : Handover :=
  let r := kxRead s.rbKey s.keyExchange ()
  { s with
    rbKey := r.rb
    keyExchange := r.reader
    pending := s.pending || s.keyExchange.pc = .emit
    read := s.read ++ (r.loaded.map s.rbKey.buffer).toList }

/-- `switch_callback`, when a notification is there. -/
def deliver (s : Handover) : Handover :=
  if s.pending then { s with pending := false, useRingbufferKey := false } else s

end Handover

inductive HandoverAction
  | telemetry (c : Option UInt8)
  | keyExchange
  | deliver

def handoverMachine : Machine Handover HandoverAction Unit where
  step s
    | .telemetry c => ((), s.telemetryStep c)
    | .keyExchange => ((), s.keyExchangeStep)
    | .deliver => ((), s.deliver)

/-- After `pre_init`. The locals are uninitialised, and so are the buffers. -/
def handoverInit (bufferKey buffer : ℕ → UInt8) (c : Option UInt8) (tail head : ℕ) : Handover where
  rbKey := { buffer := bufferKey, head := 0, tail := 0 }
  rb := { buffer := buffer, head := 0, tail := 0 }
  telemetry := { pc := .outer, c := c, tail := tail }
  keyExchange := { pc := .fetchHead false, head := head, tail := 0 }

/-! ## Both rings as rings -/

namespace Handover

/-- What was stored in the first ring, and the byte on its way there. -/
def keyIn (s : Handover) : List UInt8 :=
  match s.telemetry.pc with
  | .tailKey => s.keyStored ++ [s.telemetry.byte]
  | .storeKey => s.keyStored ++ [s.telemetry.byte]
  | _ => s.keyStored

def ringIn (s : Handover) : List UInt8 :=
  match s.telemetry.pc with
  | .tail => s.ringStored ++ [s.telemetry.byte]
  | .store => s.ringStored ++ [s.telemetry.byte]
  | _ => s.ringStored

/-- **The telemetry line is handed over.** The first 96 bytes go to the first
ring, the others to the second, once each and in order, and nothing else
does. -/
structure HandedOver (s : Handover) : Prop where
  key : s.keyIn = s.arrived.take 96
  ring : s.ringIn = s.arrived.drop 96

/-- A ring holds the last bytes stored in it, and its tail counts them. -/
structure Written (rb : RingBufferT) (stored : List UInt8) (published : ℕ) : Prop where
  slots : Spsc.Logged ringBufferSize rb.buffer stored
  tail_eq : rb.tail = published % ringBufferSize

end Handover

def kxView : ReaderView KxReader where
  head rbHead g := match g.pc with
    | .fetchHead _ => rbHead
    | _ => g.head
  seen _ g := g.tail
  Ok _ := True

/-- **KeyExchange keeps the contract of a reader.** -/
theorem kx_contract : ReaderContract kxRead kxView where
  keeps := by
    rintro rb ⟨pc, head, tail⟩ i -
    cases pc with
    | fetchHead m => exact ⟨trivial, rfl, rfl⟩
    | fill m buf =>
        by_cases hlt : buf.length < msgLen m
        · simp [kxRead, kxView, hlt]
        · simp [kxRead, kxView, hlt]
    | drain m buf =>
        by_cases hmore : buf.length < msgLen m ∧ head ≠ tail
        · simp [kxRead, kxView, hmore]
        · simp [kxRead, kxView, if_neg hmore]
    | emit => exact ⟨trivial, rfl, rfl⟩
    | done => exact ⟨trivial, rfl, rfl⟩
  step := by
    rintro rb ⟨pc, head, tail⟩ i -
    cases pc with
    | fetchHead m => exact Or.inl ⟨rfl, rfl, Or.inl rfl⟩
    | fill m buf =>
        left
        by_cases hlt : buf.length < msgLen m
        · simp [kxRead, kxView, hlt]
        · cases m <;> simp [kxRead, kxView, hlt]
    | drain m buf =>
        by_cases hmore : buf.length < msgLen m ∧ head ≠ tail
        · right
          simp [kxRead, kxView, hmore]
        · left
          simp [kxRead, kxView, if_neg hmore]
    | emit => exact Or.inl ⟨rfl, rfl, Or.inl rfl⟩
    | done => exact Or.inl ⟨rfl, rfl, Or.inl rfl⟩

namespace Handover

/-- The first ring, between Telemetry and KeyExchange. -/
def keyView (s : Handover) : Spsc UInt8 where
  slots := s.rbKey.buffer
  tail := s.rbKey.tail
  next := match s.telemetry.pc with
    | .storeKey => s.telemetry.tail
    | .publishKey => s.telemetry.tail
    | _ => s.rbKey.tail
  hand := match s.telemetry.pc with
    | .tailKey => .received s.telemetry.byte
    | .storeKey => .received s.telemetry.byte
    | .publishKey => .stored s.telemetry.byte
    | _ => .empty
  head := kxView.head s.rbKey.head s.keyExchange
  seen := kxView.seen s.rbKey.head s.keyExchange
  received := s.keyIn
  published := s.keyPublished
  taken := s.read

/-- The second ring, of which only the writer matters here. -/
def ringView (s : Handover) : Spsc UInt8 where
  slots := s.rb.buffer
  tail := s.rb.tail
  next := match s.telemetry.pc with
    | .store => s.telemetry.tail
    | .publish => s.telemetry.tail
    | _ => s.rb.tail
  hand := match s.telemetry.pc with
    | .tail => .received s.telemetry.byte
    | .store => .received s.telemetry.byte
    | .publish => .stored s.telemetry.byte
    | _ => .empty
  head := 0
  seen := 0
  received := s.ringIn
  published := s.ringPublished
  taken := []

theorem telemetryStep_views (s : Handover) (c : Option UInt8) :
    Spsc.Step ringBufferSize s.keyView (s.telemetryStep c).keyView ∧
    Spsc.Step ringBufferSize s.ringView (s.telemetryStep c).ringView := by
  obtain ⟨rbKey, rb, ⟨pc, c₀, tail⟩, kx, flag, pending, arrived, keyStored, keyPublished,
    ringStored, ringPublished, read⟩ := s
  cases pc with
  | outer =>
      cases flag with
      | true => exact ⟨.stutter _, .stutter _⟩
      | false => exact ⟨.stutter _, .stutter _⟩
  | inner =>
      cases flag with
      | true => exact ⟨.stutter _, .stutter _⟩
      | false => exact ⟨.receive _ _ rfl, .stutter _⟩
  | getcharKey =>
      cases c with
      | none =>
          simp only [telemetryStep, Option.toList_none, List.append_nil]
          exact ⟨.stutter _, .stutter _⟩
      | some x => exact ⟨.receive _ x rfl, .stutter _⟩
  | tailKey => exact ⟨.stutter _, .stutter _⟩
  | storeKey => exact ⟨.store _ _ rfl, .stutter _⟩
  | publishKey => exact ⟨.publish _ _ rfl, .stutter _⟩
  | getchar =>
      cases c with
      | none =>
          simp only [telemetryStep, Option.toList_none, List.append_nil]
          exact ⟨.stutter _, .stutter _⟩
      | some x => exact ⟨.stutter _, .receive _ x rfl⟩
  | tail => exact ⟨.stutter _, .stutter _⟩
  | store => exact ⟨.stutter _, .store _ _ rfl⟩
  | publish => exact ⟨.stutter _, .publish _ _ rfl⟩

theorem keyExchangeStep_views (s : Handover) :
    Spsc.Step ringBufferSize s.keyView s.keyExchangeStep.keyView ∧
    s.keyExchangeStep.ringView = s.ringView := by
  refine ⟨?_, rfl⟩
  obtain ⟨-, hbuffer, htail⟩ := kx_contract.keeps s.rbKey s.keyExchange () trivial
  have hstep := Spsc.Step.of_read (v := s.keyView)
    (kx_contract.step s.rbKey s.keyExchange () trivial)
  simpa only [keyView, keyIn, keyExchangeStep, hbuffer, htail] using hstep

end Handover

/-! ## What holds on every schedule -/

/-- The number of bytes KeyExchange has read. -/
def KxReader.count (g : KxReader) : ℕ :=
  match g.pc with
  | .fetchHead m => if m then 32 else 0
  | .fill m buf => (if m then 32 else 0) + buf.length
  | .drain m buf => (if m then 32 else 0) + buf.length
  | .emit => 96
  | .done => 96

def KxReader.Fits (g : KxReader) : Prop :=
  match g.pc with
  | .fill m buf => buf.length ≤ msgLen m
  | .drain m buf => buf.length ≤ msgLen m
  | _ => True

theorem kxRead_count (rb : RingBufferT) {g : KxReader} (hfits : g.Fits) :
    let r := kxRead rb g ()
    r.reader.Fits ∧ r.reader.count = g.count + r.loaded.toList.length ∧
    (g.pc = .done → r.reader.pc = .done) ∧ (g.pc = .emit → r.reader.pc = .done) := by
  obtain ⟨pc, head, tail⟩ := g
  cases pc with
  | fetchHead m => simp [kxRead, KxReader.Fits, KxReader.count]
  | fill m buf =>
      have hle : buf.length ≤ msgLen m := hfits
      by_cases hlt : buf.length < msgLen m
      · simp [kxRead, KxReader.Fits, KxReader.count, hlt, hle]
      · have hlen : buf.length = msgLen m := Nat.le_antisymm hle (Nat.le_of_not_lt hlt)
        cases m <;> simp [kxRead, KxReader.Fits, KxReader.count, hlen, msgLen]
  | drain m buf =>
      have hle : buf.length ≤ msgLen m := hfits
      by_cases hmore : buf.length < msgLen m ∧ head ≠ tail
      · have hnext : buf.length + 1 ≤ msgLen m := hmore.1
        simp [kxRead, KxReader.Fits, KxReader.count, hmore, hnext, Nat.add_assoc]
      · simp [kxRead, KxReader.Fits, KxReader.count, if_neg hmore, hle]
  | emit => simp [kxRead, KxReader.Fits, KxReader.count]
  | done => simp [kxRead, KxReader.Fits, KxReader.count]

/-- **What holds on every schedule**: the rings are written in order, and the
flag falls only after KeyExchange has read its 96 bytes. -/
structure HandoverInv (s : Handover) : Prop where
  keyCounted : s.keyView.Counted ringBufferSize
  ringCounted : s.ringView.Counted ringBufferSize
  keyLogged : Spsc.Logged ringBufferSize s.rbKey.buffer s.keyStored
  ringLogged : Spsc.Logged ringBufferSize s.rb.buffer s.ringStored
  fits : s.keyExchange.Fits
  read_eq : s.read.length = s.keyExchange.count
  told : s.pending = true ∨ s.useRingbufferKey = false → s.keyExchange.pc = .done

theorem HandoverInv.published {s : Handover} (h : HandoverInv s)
    (hflag : s.useRingbufferKey = false) : 96 ≤ s.keyPublished := by
  have hcount : s.keyExchange.count = 96 := by rw [KxReader.count, h.told (Or.inr hflag)]
  have hle : s.read.length ≤ s.keyPublished := h.keyCounted.taken_le
  rwa [h.read_eq, hcount] at hle

theorem telemetryStep_logged {s : Handover} (h : HandoverInv s) (c : Option UInt8) :
    Spsc.Logged ringBufferSize (s.telemetryStep c).rbKey.buffer (s.telemetryStep c).keyStored ∧
    Spsc.Logged ringBufferSize (s.telemetryStep c).rb.buffer (s.telemetryStep c).ringStored := by
  obtain ⟨hkey, hring, hkeyLog, hringLog, -, -, -⟩ := h
  obtain ⟨rbKey, rb, ⟨pc, c₀, tail⟩, kx, flag, pending, arrived, keyStored, keyPublished,
    ringStored, ringPublished, read⟩ := s
  cases pc with
  | storeKey =>
      refine ⟨hkeyLog.store ?_ _, hringLog⟩
      have hnext : tail = keyPublished % ringBufferSize := hkey.next_eq
      have hlen : (keyStored ++ [_]).length = keyPublished + 1 := hkey.inHand.1
      rw [List.length_append, List.length_singleton, Nat.add_right_cancel_iff] at hlen
      rw [hnext, hlen]
  | store =>
      refine ⟨hkeyLog, hringLog.store ?_ _⟩
      have hnext : tail = ringPublished % ringBufferSize := hring.next_eq
      have hlen : (ringStored ++ [_]).length = ringPublished + 1 := hring.inHand.1
      rw [List.length_append, List.length_singleton, Nat.add_right_cancel_iff] at hlen
      rw [hnext, hlen]
  | _ => exact ⟨hkeyLog, hringLog⟩

theorem telemetryStep_frame (s : Handover) (c : Option UInt8) :
    (s.telemetryStep c).keyExchange = s.keyExchange ∧ (s.telemetryStep c).read = s.read ∧
    (s.telemetryStep c).pending = s.pending ∧
    (s.telemetryStep c).useRingbufferKey = s.useRingbufferKey := by
  rw [Handover.telemetryStep]
  split <;> exact ⟨rfl, rfl, rfl, rfl⟩

theorem HandoverInv.step (s : Handover) (a : HandoverAction) (h : HandoverInv s) :
    HandoverInv (handoverMachine.step s a).2 := by
  cases a with
  | telemetry c =>
      obtain ⟨hkey, hring⟩ := s.telemetryStep_views c
      obtain ⟨hkeyLog, hringLog⟩ := telemetryStep_logged h c
      obtain ⟨hkx, hread, hpending, hflag⟩ := telemetryStep_frame s c
      refine ⟨h.keyCounted.step hkey, h.ringCounted.step hring, hkeyLog, hringLog, ?_, ?_, ?_⟩
      · show (s.telemetryStep c).keyExchange.Fits
        rw [hkx]
        exact h.fits
      · show (s.telemetryStep c).read.length = (s.telemetryStep c).keyExchange.count
        rw [hkx, hread]
        exact h.read_eq
      · show (s.telemetryStep c).pending = true ∨ (s.telemetryStep c).useRingbufferKey = false →
          (s.telemetryStep c).keyExchange.pc = .done
        rw [hkx, hpending, hflag]
        exact h.told
  | keyExchange =>
      obtain ⟨hkey, hring⟩ := s.keyExchangeStep_views
      obtain ⟨-, hbuffer, -⟩ := kx_contract.keeps s.rbKey s.keyExchange () trivial
      obtain ⟨hfits, hcount, hdone, hemit⟩ := kxRead_count s.rbKey h.fits
      refine ⟨h.keyCounted.step hkey, ?_, ?_, h.ringLogged, hfits, ?_, ?_⟩
      · show s.keyExchangeStep.ringView.Counted ringBufferSize
        rw [hring]
        exact h.ringCounted
      · show Spsc.Logged ringBufferSize (kxRead s.rbKey s.keyExchange ()).rb.buffer s.keyStored
        rw [hbuffer]
        exact h.keyLogged
      · show (s.read ++ _).length = (kxRead s.rbKey s.keyExchange ()).reader.count
        rw [hcount, ← h.read_eq, List.length_append]
        cases (kxRead s.rbKey s.keyExchange ()).loaded <;> rfl
      · intro htold
        have hcases : s.pending = true ∨ s.keyExchange.pc = .emit ∨ s.useRingbufferKey = false := by
          simpa [handoverMachine, Handover.keyExchangeStep, or_assoc] using htold
        rcases hcases with hp | he | hf
        · exact hdone (h.told (Or.inl hp))
        · exact hemit he
        · exact hdone (h.told (Or.inr hf))
  | deliver =>
      simp only [handoverMachine, Handover.deliver]
      split
      · next hpending =>
          exact ⟨h.keyCounted, h.ringCounted, h.keyLogged, h.ringLogged, h.fits, h.read_eq,
            fun _ => h.told (Or.inl hpending)⟩
      · exact h

/-! ## Switching in time -/

/-- Between the two loop tests and the end of the round. -/
def TelemetryPc.looping : TelemetryPc → Bool
  | .inner => true
  | .getcharKey => true
  | .tailKey => true
  | .storeKey => true
  | .publishKey => true
  | _ => false

/-- In the second loop. -/
def TelemetryPc.switched : TelemetryPc → Bool
  | .getchar => true
  | .tail => true
  | .store => true
  | .publish => true
  | _ => false

/-- The step does not test the outer loop too early: with the handshake all in
the ring and the notification not delivered. -/
def WaitsForSwitch (s : Handover) : HandoverAction → Prop
  | .telemetry _ => s.telemetry.pc = .outer → 96 ≤ s.keyPublished → s.useRingbufferKey = false
  | _ => True

def SwitchedInTime (s : Handover) : List HandoverAction → Prop
  | [] => True
  | a :: actions => WaitsForSwitch s a ∧ SwitchedInTime (handoverMachine.step s a).2 actions

instance decidableWaitsForSwitch (s : Handover) : (a : HandoverAction) →
    Decidable (WaitsForSwitch s a)
  | .telemetry _ => inferInstanceAs (Decidable (_ → _ → _))
  | .keyExchange => inferInstanceAs (Decidable True)
  | .deliver => inferInstanceAs (Decidable True)

instance decidableSwitchedInTime : (s : Handover) → (actions : List HandoverAction) →
    Decidable (SwitchedInTime s actions)
  | _, [] => inferInstanceAs (Decidable True)
  | s, a :: actions =>
      have := decidableSwitchedInTime (handoverMachine.step s a).2 actions
      inferInstanceAs (Decidable (_ ∧ _))

/-- **What holds while all steps wait for the switch.** -/
structure OnTime (s : Handover) : Prop where
  arrived : s.keyIn ++ s.ringIn = s.arrived
  key_le : s.keyPublished ≤ 96
  looping : s.telemetry.pc.looping = true → s.keyPublished < 96
  before : s.telemetry.pc.switched = false → s.ringStored = []
  after : s.telemetry.pc.switched = true → s.keyPublished = 96

theorem OnTime.telemetryStep {s : Handover} (hinv : HandoverInv s) (h : OnTime s)
    {c : Option UInt8} (hwait : WaitsForSwitch s (.telemetry c)) : OnTime (s.telemetryStep c) := by
  have hpub := hinv.published
  obtain ⟨harrived, hle, hloop, hbefore, hafter⟩ := h
  obtain ⟨rbKey, rb, ⟨pc, c₀, tail⟩, kx, flag, pending, arrived, keyStored, keyPublished,
    ringStored, ringPublished, read⟩ := s
  cases pc with
  | outer =>
      cases flag with
      | true =>
          -- with 96 bytes published the flag would have to be down
          have hlt : keyPublished < 96 := by
            by_contra hge
            exact absurd (hwait rfl (not_lt.mp hge)) Bool.noConfusion
          exact ⟨harrived, hle, fun _ => hlt, hbefore, fun hs => absurd hs Bool.noConfusion⟩
      | false =>
          exact ⟨harrived, hle, fun hl => absurd hl Bool.noConfusion,
            fun hs => absurd hs Bool.noConfusion, fun _ => Nat.le_antisymm hle (hpub rfl)⟩
  | inner =>
      have hlt : keyPublished < 96 := hloop rfl
      cases flag with
      | true => exact ⟨harrived, hle, fun _ => hlt, hbefore, fun hs => absurd hs Bool.noConfusion⟩
      -- KeyExchange emits after it has read 96 bytes
      | false => exact absurd (hpub rfl) (not_le.mpr hlt)
  | getcharKey =>
      have hnil : ringStored = [] := hbefore rfl
      subst hnil
      have hkey : keyStored ++ [] = arrived := harrived
      cases c with
      | none =>
          refine ⟨?_, hle, hloop, hbefore, hafter⟩
          show keyStored ++ [] = arrived ++ []
          rw [hkey, List.append_nil]
      | some x =>
          refine ⟨?_, hle, hloop, hbefore, hafter⟩
          show (keyStored ++ [x]) ++ [] = arrived ++ [x]
          rw [← hkey]
          simp
  | tailKey => exact ⟨harrived, hle, hloop, hbefore, hafter⟩
  | storeKey => exact ⟨harrived, hle, hloop, hbefore, hafter⟩
  | publishKey =>
      exact ⟨harrived, hloop rfl, fun hl => absurd hl Bool.noConfusion, hbefore,
        fun hs => absurd hs Bool.noConfusion⟩
  | getchar =>
      have hall : keyStored ++ ringStored = arrived := harrived
      cases c with
      | none =>
          refine ⟨?_, hle, hloop, hbefore, hafter⟩
          show keyStored ++ ringStored = arrived ++ []
          rw [hall, List.append_nil]
      | some x =>
          refine ⟨?_, hle, hloop, fun hs => absurd hs Bool.noConfusion, hafter⟩
          show keyStored ++ (ringStored ++ [x]) = arrived ++ [x]
          rw [← hall, List.append_assoc]
  | tail => exact ⟨harrived, hle, hloop, hbefore, hafter⟩
  | store => exact ⟨harrived, hle, hloop, fun hs => absurd hs Bool.noConfusion, hafter⟩
  | publish => exact ⟨harrived, hle, hloop, hbefore, hafter⟩

theorem OnTime.step {s : Handover} (hinv : HandoverInv s) (h : OnTime s) {a : HandoverAction}
    (hwait : WaitsForSwitch s a) : OnTime (handoverMachine.step s a).2 := by
  cases a with
  | telemetry c => exact h.telemetryStep hinv hwait
  | keyExchange => exact ⟨h.arrived, h.key_le, h.looping, h.before, h.after⟩
  | deliver =>
      simp only [handoverMachine, Handover.deliver]
      split
      · exact ⟨h.arrived, h.key_le, h.looping, h.before, h.after⟩
      · exact h

/-- **Over a run.** -/
theorem exec_onTime {s : Handover} (hinv : HandoverInv s) (h : OnTime s)
    (actions : List HandoverAction) (hwait : SwitchedInTime s actions) :
    HandoverInv (handoverMachine.exec s actions) ∧ OnTime (handoverMachine.exec s actions) := by
  induction actions generalizing s with
  | nil => exact ⟨hinv, h⟩
  | cons a actions ih => exact ih (hinv.step s a) (h.step hinv hwait.1) hwait.2

/-- In the first loop at most 96 bytes are in the ring or on their way there,
in the second exactly 96. -/
theorem OnTime.length_keyIn {s : Handover} (hinv : HandoverInv s) (h : OnTime s) :
    s.keyIn.length ≤ 96 ∧ (s.telemetry.pc.switched = true → s.keyIn.length = 96) := by
  have hin := hinv.keyCounted.inHand
  obtain ⟨-, hle, hloop, -, hafter⟩ := h
  obtain ⟨rbKey, rb, ⟨pc, c₀, tail⟩, kx, flag, pending, arrived, keyStored, keyPublished,
    ringStored, ringPublished, read⟩ := s
  have hempty : keyStored.length = keyPublished → keyStored.length ≤ 96 ∧
      (pc.switched = true → keyStored.length = 96) :=
    fun hlen => ⟨hlen.trans_le hle, fun hs => hlen.trans (hafter hs)⟩
  have hbusy : ∀ xs : List UInt8, xs.length = keyPublished + 1 → keyPublished < 96 →
      xs.length ≤ 96 := fun xs hlen hlt => hlen.trans_le hlt
  cases pc with
  | tailKey => exact ⟨hbusy _ hin.1 (hloop rfl), fun hs => absurd hs Bool.noConfusion⟩
  | storeKey => exact ⟨hbusy _ hin.1 (hloop rfl), fun hs => absurd hs Bool.noConfusion⟩
  | publishKey => exact ⟨hbusy _ hin.1 (hloop rfl), fun hs => absurd hs Bool.noConfusion⟩
  | _ => exact hempty hin

theorem OnTime.handedOver {s : Handover} (hinv : HandoverInv s) (h : OnTime s) : s.HandedOver := by
  obtain ⟨hle, hfull⟩ := h.length_keyIn hinv
  cases hs : s.telemetry.pc.switched with
  | true =>
      have hlen := hfull hs
      constructor
      · rw [← h.arrived, ← hlen, List.take_left]
      · rw [← h.arrived, ← hlen, List.drop_left]
  | false =>
      have hnil : s.ringIn = [] := by
        rw [← h.before hs, Handover.ringIn]
        split
        · next hpc => rw [hpc] at hs; cases hs
        · next hpc => rw [hpc] at hs; cases hs
        · rfl
      have harrived := h.arrived
      rw [hnil, List.append_nil] at harrived
      constructor
      · rw [← harrived, List.take_of_length_le hle]
      · rw [hnil, ← harrived, List.drop_eq_nil_of_le hle]

theorem handoverInv_init (bufferKey buffer : ℕ → UInt8) (c : Option UInt8) (tail head : ℕ) :
    HandoverInv (handoverInit bufferKey buffer c tail head) where
  keyCounted := Spsc.Fresh.counted ⟨rfl, rfl, rfl, rfl, rfl, rfl, rfl, rfl⟩
  ringCounted := Spsc.Fresh.counted ⟨rfl, rfl, rfl, rfl, rfl, rfl, rfl, rfl⟩
  keyLogged := fun i hi => absurd hi (Nat.not_lt_zero i)
  ringLogged := fun i hi => absurd hi (Nat.not_lt_zero i)
  fits := trivial
  read_eq := rfl
  told := by
    rintro (h | h)
    · cases h
    · cases h

theorem onTime_init (bufferKey buffer : ℕ → UInt8) (c : Option UInt8) (tail head : ℕ) :
    OnTime (handoverInit bufferKey buffer c tail head) where
  arrived := rfl
  key_le := Nat.zero_le 96
  looping := Bool.noConfusion
  before := fun _ => rfl
  after := Bool.noConfusion

/-- **When the telemetry line is handed over.** In every interleaving of
arrivals, empty polls, steps of Telemetry and KeyExchange, and the delivery of
the notification, in which Telemetry never tests its outer loop between the
last byte of the handshake and the notification: the 96 bytes of the handshake
are in the first ring and what arrives later is in the second, in order and
with nothing else, and each ring holds the last bytes stored in it behind a
tail that counts those published. -/
theorem handed_over_in_time (bufferKey buffer : ℕ → UInt8) (c : Option UInt8) (tail head : ℕ)
    (actions : List HandoverAction)
    (hwait : SwitchedInTime (handoverInit bufferKey buffer c tail head) actions) :
    let s := handoverMachine.exec (handoverInit bufferKey buffer c tail head) actions
    s.HandedOver ∧ Handover.Written s.rbKey s.keyStored s.keyPublished ∧
      Handover.Written s.rb s.ringStored s.ringPublished := by
  intro s
  obtain ⟨hinv, htime⟩ := exec_onTime (handoverInv_init bufferKey buffer c tail head)
    (onTime_init bufferKey buffer c tail head) actions hwait
  exact ⟨htime.handedOver hinv, ⟨hinv.keyLogged, hinv.keyCounted.tail_eq⟩,
    ⟨hinv.ringLogged, hinv.ringCounted.tail_eq⟩⟩

/-- Telemetry polls for more while KeyExchange reads the handshake and the
notification arrives. -/
def lateSwitch : List HandoverAction :=
  List.replicate 576 (.telemetry (some 0)) ++ List.replicate 3 (.telemetry none) ++
    List.replicate 105 .keyExchange ++ [.deliver] ++ List.replicate 3 (.telemetry none)

/-- A byte that never arrived is stored in the first ring. -/
theorem spurious_byte_stored :
    (handoverMachine.exec (handoverInit (fun _ => 0) (fun _ => 0) none 0 0)
      lateSwitch).arrived = List.replicate 96 0 ∧
    (handoverMachine.exec (handoverInit (fun _ => 0) (fun _ => 0) none 0 0)
      lateSwitch).keyStored = List.replicate 96 0 ++ [0xFF] ∧
    ¬(handoverMachine.exec (handoverInit (fun _ => 0) (fun _ => 0) none 0 0)
      lateSwitch).HandedOver := by
  have hlen : (handoverMachine.exec (handoverInit (fun _ => 0) (fun _ => 0) none 0 0)
      lateSwitch).keyIn.length = 97 := by
    decide +kernel
  refine ⟨by decide +kernel, by decide +kernel, fun h => ?_⟩
  rw [h.key] at hlen
  have := List.length_take_le 96
    (handoverMachine.exec (handoverInit (fun _ => 0) (fun _ => 0) none 0 0) lateSwitch).arrived
  omega

/-- The handshake, the switch, and one more byte. -/
def promptSwitch : List HandoverAction :=
  List.replicate 576 (.telemetry (some 0)) ++ List.replicate 105 .keyExchange ++ [.deliver] ++
    List.replicate 5 (.telemetry (some 7))

theorem handed_over_in_time_prompt :
    SwitchedInTime (handoverInit (fun _ => 0) (fun _ => 0) none 0 0) promptSwitch ∧
    (handoverMachine.exec (handoverInit (fun _ => 0) (fun _ => 0) none 0 0)
      promptSwitch).HandedOver :=
  have hwait : SwitchedInTime (handoverInit (fun _ => 0) (fun _ => 0) none 0 0) promptSwitch := by
    decide +kernel
  ⟨hwait, (handed_over_in_time (fun _ => 0) (fun _ => 0) none 0 0 promptSwitch hwait).1⟩

end GecRelay
