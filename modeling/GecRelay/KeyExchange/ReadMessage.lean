import GecRelay.Relay.RingCalls
import GecRelay.Mavlink.Tracking

/-!
# Reading messages of the autopilot

KeyExchange's `read_message` parses bytes of the ring that Pixhawk fills until
the parser answers `MAVLINK_FRAMING_OK`. It returns from inside its loops, so
the store of the head behind them is never reached: the next call fetches the
head of the first again and gives the parser bytes it has seen. What is
promised holds for the first call.
-/

namespace GecRelay

open Foundation

inductive MessagePc
  | caller
  | fetchHead
  | sample
  | drain
deriving DecidableEq

/-- The locals of `read_message`, the static buffers of the parser and the
caller's message. -/
structure MessageReader where
  pc : MessagePc
  head : ℕ
  tail : ℕ
  parser : MavlinkChannel × MavlinkMessage

/-- One step of `read_message`. -/
def readMessage (table : MavlinkMsgTable) (rb : RingBufferT) (g : MessageReader) (_ : Unit) :
    ReadStep MessageReader MavlinkMessage :=
  match g.pc with
  | .caller => { rb := rb, reader := { g with pc := .fetchHead } }
  | .fetchHead => { rb := rb, reader := { g with pc := .sample, head := rb.head } }
  | .sample => { rb := rb, reader := { g with pc := .drain, tail := rb.tail } }
  | .drain =>
      if g.head ≠ g.tail then
        let r := mavlinkFrameCharBuffer table g.parser.1 (rb.buffer g.head) g.parser.2
        if r.1 = .ok then
          { rb := rb
            reader := { g with pc := .caller, parser := (r.2.2, r.2.1) }
            loaded := some g.head
            returned := some r.2.1 }
        else
          { rb := rb
            reader := { g with head := (g.head + 1) % ringBufferSize, parser := (r.2.2, r.2.1) }
            loaded := some g.head }
      else { rb := rb, reader := { g with pc := .sample } }

/-- The parser over a stream, with the messages it accepts. -/
def okMachine (table : MavlinkMsgTable) :
    Machine (MavlinkChannel × MavlinkMessage) UInt8 (Option MavlinkMessage) where
  step p c :=
    let r := mavlinkFrameCharBuffer table p.1 c p.2
    (if r.1 = .ok then some r.2.1 else none, (r.2.2, r.2.1))

def okFrames (table : MavlinkMsgTable) (p : MavlinkChannel × MavlinkMessage)
    (stream : List UInt8) : List MavlinkMessage :=
  ((okMachine table).answers p stream).reduceOption

/-- **Each message is read once**: the bytes given to the parser are those of
the stream, once and in order, and the calls have returned the first frames it
accepts. -/
structure ReadOnce (table : MavlinkMsgTable) (p : MavlinkChannel × MavlinkMessage)
    (s : CallSystem MessageReader MavlinkMessage) : Prop where
  parsed : s.consumed <+: s.received
  returned : s.returned = okFrames table p s.consumed
  first : s.returned <+: okFrames table p s.received

/-- No byte is given to the parser after a call has returned. -/
def OneCall (table : MavlinkMsgTable) (s : CallSystem MessageReader MavlinkMessage)
    (a : RingAction Unit) : Prop :=
  match a with
  | .rx _ => True
  | .reader i => s.returned = [] ∨ (readMessage table s.rb s.reader i).loaded = none

/-! ## The parser -/

section Parser

variable {table : MavlinkMsgTable} {p : MavlinkChannel × MavlinkMessage}

theorem okFrames_prefix {xs ys : List UInt8} (h : xs <+: ys) :
    okFrames table p xs <+: okFrames table p ys := by
  obtain ⟨zs, rfl⟩ := h
  rw [okFrames, okFrames, Machine.outputs_append]
  exact List.prefix_append _ _

variable (table p) in
theorem okFrames_snoc (xs : List UInt8) (c : UInt8) :
    okFrames table p (xs ++ [c]) =
      okFrames table p xs ++ ((okMachine table).step ((okMachine table).exec p xs) c).1.toList :=
  Machine.outputs_snoc p xs c

end Parser

/-! ## One step -/

def MessageReader.position (rbHead : ℕ) (g : MessageReader) : ℕ :=
  match g.pc with
  | .caller => rbHead
  | .fetchHead => rbHead
  | .sample => g.head
  | .drain => g.head

/-- The system shows the ring of `Spsc` as long as no call has returned. -/
structure ReadsOn (table : MavlinkMsgTable) (p : MavlinkChannel × MavlinkMessage)
    (s : CallSystem MessageReader MavlinkMessage) (v : Spsc UInt8) : Prop where
  view : v = s.view v.head v.seen
  parser : s.reader.parser = (okMachine table).exec p s.consumed
  returned : s.returned = okFrames table p s.consumed
  head : s.returned = [] → v.head = s.reader.position s.rb.head
  seen : s.returned = [] → s.reader.pc = .drain → v.seen = s.reader.tail

section Steps

variable {table : MavlinkMsgTable} {p : MavlinkChannel × MavlinkMessage}
  {s : CallSystem MessageReader MavlinkMessage} {v : Spsc UInt8}

theorem ReadsOn.write (h : ReadsOn table p s v) (c : Option UInt8) :
    ∃ w, Spsc.Step ringBufferSize v w ∧ ReadsOn table p (s.write c) w := by
  obtain ⟨hreader, hreturned, hconsumed, hhead, -⟩ := s.write_reader c
  refine ⟨(s.write c).view v.head v.seen, h.view ▸ s.view_write c v.head v.seen, rfl, ?_, ?_, ?_,
    ?_⟩
  · rw [hreader, hconsumed]
    exact h.parser
  · rw [hreturned, hconsumed]
    exact h.returned
  · rw [hreturned, hreader, hhead]
    exact h.head
  · rw [hreturned, hreader]
    exact h.seen

/-- A byte is parsed. -/
theorem ReadsOn.load (h : ReadsOn table p s v) (hnone : s.returned = [])
    (hpc : s.reader.pc = .drain) (hmore : s.reader.head ≠ s.reader.tail) :
    ∃ w, Spsc.Step ringBufferSize v w ∧
      ReadsOn table p (s.read (readMessage table s.rb s.reader ())) w ∧
      (s.read (readMessage table s.rb s.reader ())).consumed.length = s.consumed.length + 1 := by
  have hvhead : v.head = s.reader.head := by
    rw [h.head hnone, MessageReader.position, hpc]
  have hvseen : v.seen = s.reader.tail := h.seen hnone hpc
  have hslot : v.slots v.head = s.rb.buffer s.reader.head := by
    rw [hvhead, h.view]
    rfl
  have hnext := okFrames_snoc table p s.consumed (s.rb.buffer s.reader.head)
  have hstate := (okMachine table).exec_snoc p s.consumed (s.rb.buffer s.reader.head)
  rw [← h.returned, ← h.parser] at hnext
  rw [← h.parser] at hstate
  refine ⟨{ v with
    head := (v.head + 1) % ringBufferSize
    taken := v.taken ++ [v.slots v.head] }, .take v (by rwa [hvhead, hvseen]), ?_⟩
  rw [hslot]
  simp only [readMessage, hpc, if_pos hmore]
  by_cases hok : (mavlinkFrameCharBuffer table s.reader.parser.1 (s.rb.buffer s.reader.head)
      s.reader.parser.2).1 = .ok
  · rw [if_pos hok]
    simp only [okMachine, hok, if_true, Option.toList_some] at hnext
    refine ⟨⟨?_, hstate.symm, hnext.symm, fun hnil => ?_, fun hnil => ?_⟩, ?_⟩
    · rw [h.view]
      rfl
    · simp [CallSystem.read] at hnil
    · simp [CallSystem.read] at hnil
    · simp [CallSystem.read]
  · rw [if_neg hok]
    simp only [okMachine, hok, if_false, Option.toList_none] at hnext
    refine ⟨⟨?_, hstate.symm, hnext.symm, fun _ => ?_, fun _ _ => hvseen⟩, ?_⟩
    · rw [h.view]
      rfl
    · rw [hvhead]
      simp [CallSystem.read, MessageReader.position]
    · simp [CallSystem.read]

/-- A step that parses nothing. -/
theorem ReadsOn.quiet (h : ReadsOn table p s v)
    (hloaded : (readMessage table s.rb s.reader ()).loaded = none) :
    (∃ w, Spsc.Step ringBufferSize v w ∧
      ReadsOn table p (s.read (readMessage table s.rb s.reader ())) w) ∧
    (s.read (readMessage table s.rb s.reader ())).consumed = s.consumed ∧
    (s.read (readMessage table s.rb s.reader ())).returned = s.returned := by
  obtain ⟨rb, writer, ⟨pc, head, tail, parser⟩, received, published, consumed, returned⟩ := s
  have hview := h.view
  cases pc with
  | caller =>
      simp only [CallSystem.read, readMessage, Option.map_none, Option.toList_none,
        List.append_nil, and_self, and_true]
      exact ⟨v, .stutter v, hview, h.parser, h.returned, h.head, fun _ hpc => by cases hpc⟩
  | fetchHead =>
      simp only [CallSystem.read, readMessage, Option.map_none, Option.toList_none,
        List.append_nil, and_self, and_true]
      exact ⟨v, .stutter v, hview, h.parser, h.returned, h.head, fun _ hpc => by cases hpc⟩
  | sample =>
      simp only [CallSystem.read, readMessage, Option.map_none, Option.toList_none,
        List.append_nil, and_self, and_true]
      refine ⟨{ v with seen := v.tail }, .sample v, ?_, h.parser, h.returned, h.head, fun _ _ => ?_⟩
      · rw [hview]
        rfl
      · rw [hview]
        rfl
  | drain =>
      have heq : head = tail := by
        by_contra hne
        simp only [readMessage, if_pos hne] at hloaded
        split at hloaded <;> cases hloaded
      simp only [CallSystem.read, readMessage, heq, ne_eq, not_true_eq_false, if_false,
        Option.map_none, Option.toList_none, List.append_nil, and_self, and_true]
      exact ⟨v, .stutter v, hview, h.parser, h.returned, heq ▸ h.head, fun _ hpc => by cases hpc⟩

theorem readMessage_load {rb : RingBufferT} {g : MessageReader}
    (h : (readMessage table rb g ()).loaded ≠ none) : g.pc = .drain ∧ g.head ≠ g.tail := by
  obtain ⟨pc, head, tail, parser⟩ := g
  cases pc with
  | drain =>
      refine ⟨rfl, fun heq => h ?_⟩
      simp only [readMessage, if_neg (not_not_intro heq)]
  | _ => exact absurd rfl h

theorem ReadsOn.step (s : CallSystem MessageReader MavlinkMessage) (v : Spsc UInt8)
    (a : RingAction Unit) (h : ReadsOn table p s v) (hahead : s.NotAhead)
    (hone : OneCall table s a) :
    v.NotLapped ringBufferSize ∧ ∃ w, Spsc.Step ringBufferSize v w ∧
      ReadsOn table p ((callMachine (readMessage table)).step s a).2 w := by
  refine ⟨by rw [h.view]; exact hahead, ?_⟩
  cases a with
  | rx c => exact h.write c
  | reader i =>
      by_cases hloaded : (readMessage table s.rb s.reader i).loaded = none
      · exact (h.quiet hloaded).1
      · obtain ⟨hpc, hmore⟩ := readMessage_load hloaded
        obtain ⟨w, hw, hnext, -⟩ := h.load (hone.resolve_right hloaded) hpc hmore
        exact ⟨w, hw, hnext⟩

theorem ReadsOn.readOnce (h : ReadsOn table p s v) (hholds : v.Holds ringBufferSize) :
    ReadOnce table p s := by
  have hparsed := hholds.prefix_received
  rw [h.view] at hparsed
  refine ⟨hparsed, h.returned, ?_⟩
  rw [h.returned]
  exact okFrames_prefix hparsed

end Steps

/-! ## Whole runs -/

/-- After `pre_init`; the locals are uninitialised. -/
def messageInit (buffer : ℕ → UInt8) (tail head tail₀ : ℕ)
    (p : MavlinkChannel × MavlinkMessage) : CallSystem MessageReader MavlinkMessage :=
  callInit buffer tail { pc := .caller, head := head, tail := tail₀, parser := p }

theorem readsOn_run (table : MavlinkMsgTable) (p : MavlinkChannel × MavlinkMessage)
    (buffer : ℕ → UInt8) (tail head tail₀ : ℕ) {actions : List (RingAction Unit)}
    (hahead : (callMachine (readMessage table)).Along (fun s _ => s.NotAhead)
      (messageInit buffer tail head tail₀ p) actions)
    (hone : (callMachine (readMessage table)).Along (OneCall table)
      (messageInit buffer tail head tail₀ p) actions) :
    ∃ v, ReadsOn table p ((callMachine (readMessage table)).exec
        (messageInit buffer tail head tail₀ p) actions) v ∧
      v.Counted ringBufferSize ∧ v.Holds ringBufferSize := by
  have hfresh := fresh_callInit (ρ := MavlinkMessage) buffer tail
    ({ pc := .caller, head := head, tail := tail₀, parser := p } : MessageReader)
  have hstart : ReadsOn table p (messageInit buffer tail head tail₀ p)
      ((messageInit buffer tail head tail₀ p).view 0 0) :=
    ⟨rfl, rfl, rfl, fun _ => rfl, fun _ hpc => by cases hpc⟩
  exact Spsc.exec_refines (fun s v a hs _ hcond => hs.step s v a hcond.1 hcond.2) hstart
    hfresh.counted hfresh.holds (hahead.and hone)

/-! ## The call returns -/

/-- A frame has been published. -/
def FrameThere (table : MavlinkMsgTable) (p : MavlinkChannel × MavlinkMessage)
    (s : CallSystem MessageReader MavlinkMessage) : Prop :=
  okFrames table p (s.received.take s.published) ≠ []

instance (table : MavlinkMsgTable) (p : MavlinkChannel × MavlinkMessage)
    (s : CallSystem MessageReader MavlinkMessage) : Decidable (FrameThere table p s) :=
  inferInstanceAs (Decidable (_ ≠ _))

/-- The steps of the loop that are left before the next byte is parsed. -/
def MessageReader.rank (g : MessageReader) : ℕ :=
  match g.pc with
  | .caller => 3
  | .fetchHead => 2
  | .sample => 1
  | .drain => if g.head ≠ g.tail then 0 else 2

def toGo (s : CallSystem MessageReader MavlinkMessage) : ℕ :=
  4 * (s.published - s.consumed.length) + s.reader.rank

section Progress

variable {table : MavlinkMsgTable} {p : MavlinkChannel × MavlinkMessage}
  {s : CallSystem MessageReader MavlinkMessage} {v : Spsc UInt8}

/-- As long as nothing is returned there are bytes left to parse. -/
theorem ReadsOn.tail_ne (h : ReadsOn table p s v) (hc : v.Counted ringBufferSize)
    (hholds : v.Holds ringBufferSize) (hahead : s.NotAhead) (hnone : s.returned = [])
    (hframe : FrameThere table p s) : v.head ≠ s.rb.tail := by
  intro heq
  have htail : s.rb.tail = s.published % ringBufferSize := by
    have := hc.tail_eq
    rwa [h.view] at this
  have hhead : v.head = s.consumed.length % ringBufferSize := by
    rw [hc.head_eq, h.view]
    rfl
  have hle : s.consumed.length ≤ s.published := by
    have := hc.taken_le
    rwa [h.view] at this
  have hall : s.consumed.length = s.published := by
    by_contra hne
    exact Spsc.mod_ne_mod (Nat.lt_of_le_of_ne hle hne) hahead (hhead ▸ htail ▸ heq)
  have hparsed := (h.readOnce hholds).parsed
  apply hframe
  rw [← hall, ← List.prefix_iff_eq_take.mp hparsed, ← h.returned, hnone]

/-- A step that parses nothing brings the next byte nearer. -/
theorem ReadsOn.quiet_rank (h : ReadsOn table p s v) (hc : v.Counted ringBufferSize)
    (hholds : v.Holds ringBufferSize) (hahead : s.NotAhead) (hnone : s.returned = [])
    (hframe : FrameThere table p s)
    (hloaded : (readMessage table s.rb s.reader ()).loaded = none) :
    (readMessage table s.rb s.reader ()).reader.rank < s.reader.rank := by
  have hne := h.tail_ne hc hholds hahead hnone hframe
  rw [h.head hnone] at hne
  obtain ⟨rb, writer, ⟨pc, head, tail, parser⟩, received, published, consumed, returned⟩ := s
  cases pc with
  | caller => exact Nat.lt_succ_self 2
  | fetchHead => exact Nat.lt_succ_self 1
  | sample =>
      have hmore : head ≠ rb.tail := hne
      simp [readMessage, MessageReader.rank, hmore]
  | drain =>
      have heq : head = tail := by
        by_contra hmore
        simp only [readMessage, if_pos hmore] at hloaded
        split at hloaded <;> cases hloaded
      simp only [readMessage, heq, ne_eq, not_true_eq_false, if_false, MessageReader.rank]
      exact Nat.lt_succ_self 1

theorem rank_le (g : MessageReader) : g.rank ≤ 3 := by
  obtain ⟨pc, head, tail, parser⟩ := g
  cases pc with
  | drain =>
      simp only [MessageReader.rank]
      split <;> omega
  | _ => simp [MessageReader.rank]

theorem ReadsOn.toGo_lt (h : ReadsOn table p s v) (hc : v.Counted ringBufferSize)
    (hholds : v.Holds ringBufferSize) (hahead : s.NotAhead) (hnone : s.returned = [])
    (hframe : FrameThere table p s) :
    toGo (s.read (readMessage table s.rb s.reader ())) < toGo s := by
  by_cases hloaded : (readMessage table s.rb s.reader ()).loaded = none
  · have hrank := h.quiet_rank hc hholds hahead hnone hframe hloaded
    rw [toGo, toGo, (h.quiet hloaded).2.1]
    exact Nat.add_lt_add_left hrank _
  · obtain ⟨hpc, hmore⟩ := readMessage_load hloaded
    obtain ⟨w, hw, hnext, hlen⟩ := h.load hnone hpc hmore
    have hle : (s.read (readMessage table s.rb s.reader ())).consumed.length ≤ s.published := by
      have := (hc.step hw).taken_le
      rwa [hnext.view] at this
    have hrank := rank_le (s.read (readMessage table s.rb s.reader ())).reader
    rw [hlen] at hle
    rw [toGo, toGo, hlen]
    show 4 * (s.published - (s.consumed.length + 1)) + _ < _
    omega

/-- **A call returns when a frame is there.** -/
theorem ReadsOn.returns (h : ReadsOn table p s v) (hc : v.Counted ringBufferSize)
    (hholds : v.Holds ringBufferSize) (hahead : s.NotAhead) (hnone : s.returned = [])
    (hframe : FrameThere table p s) :
    ∃ k, let steps := List.replicate k (.reader ())
      (callMachine (readMessage table)).Along (fun s _ => s.NotAhead) s steps ∧
      (callMachine (readMessage table)).Along (OneCall table) s steps ∧
      ((callMachine (readMessage table)).exec s steps).returned ≠ [] := by
  induction hgo : toGo s using Nat.strong_induction_on generalizing s v with
  | _ n ih =>
      obtain ⟨hlap, w, hw, hnext⟩ := h.step s v (.reader ()) hahead (Or.inl hnone)
      by_cases hdone : (s.read (readMessage table s.rb s.reader ())).returned = []
      · have hahead' : (s.read (readMessage table s.rb s.reader ())).NotAhead := by
          have hgrow : s.consumed.length ≤
              (s.read (readMessage table s.rb s.reader ())).consumed.length := by
            simp [CallSystem.read]
          have hbefore : s.published < s.consumed.length + ringBufferSize := hahead
          show s.published < _
          omega
        obtain ⟨k, hnotAhead, hone, hret⟩ := ih _
          (hgo ▸ h.toGo_lt hc hholds hahead hnone hframe) hnext (hc.step hw)
          (hholds.step hc hlap hw) hahead' hdone hframe rfl
        exact ⟨k + 1, ⟨hahead, hnotAhead⟩, ⟨Or.inl hnone, hone⟩, hret⟩
      · exact ⟨1, ⟨hahead, trivial⟩, ⟨Or.inl hnone, trivial⟩, hdone⟩

end Progress

/-- **Each message is read once**, as long as no byte is given to the parser
after a call has returned. In every interleaving with Pixhawk in which it is
never 2048 bytes ahead: the parser has got the bytes of the stream once and in
order, and the call has returned the first frame it accepts, if it has
returned; and it does return once that frame is published. -/
theorem first_message_read_once (table : MavlinkMsgTable) (p : MavlinkChannel × MavlinkMessage)
    (buffer : ℕ → UInt8) (tail head tail₀ : ℕ) (actions : List (RingAction Unit))
    (hahead : (callMachine (readMessage table)).Along (fun s _ => s.NotAhead)
      (messageInit buffer tail head tail₀ p) actions)
    (hone : (callMachine (readMessage table)).Along (OneCall table)
      (messageInit buffer tail head tail₀ p) actions) :
    let s := (callMachine (readMessage table)).exec (messageInit buffer tail head tail₀ p) actions
    ReadOnce table p s ∧
    (s.NotAhead → s.returned = [] → FrameThere table p s →
      ∃ k, let t := (callMachine (readMessage table)).exec s (List.replicate k (.reader ()))
        t.returned ≠ [] ∧ ReadOnce table p t) := by
  intro s
  obtain ⟨v, hv, hc, hholds⟩ := readsOn_run table p buffer tail head tail₀ hahead hone
  refine ⟨hv.readOnce hholds, fun hnotAhead hnone hframe => ?_⟩
  obtain ⟨k, hahead', hone', hret⟩ := hv.returns hc hholds hnotAhead hnone hframe
  have hlong := Machine.along_append.mpr ⟨hahead, hahead'⟩
  have hlong' := Machine.along_append.mpr ⟨hone, hone'⟩
  obtain ⟨w, hw, -, hholds'⟩ := readsOn_run table p buffer tail head tail₀ hlong hlong'
  rw [Machine.exec_append] at hw
  exact ⟨k, hret, hw.readOnce hholds'⟩

instance (table : MavlinkMsgTable) (s : CallSystem MessageReader MavlinkMessage)
    (a : RingAction Unit) : Decidable (OneCall table s a) :=
  match a with
  | .rx _ => isTrue trivial
  | .reader _ => inferInstanceAs (Decidable (_ ∨ _))

def zeroMessageInit : CallSystem MessageReader MavlinkMessage :=
  messageInit (fun _ => 0) 0 0 0 (.init, .zero)

/-- The call polls, and a frame arrives. -/
def polledMessage : List (RingAction Unit) :=
  List.replicate 6 (.reader ()) ++ arrive (heartbeat 1).bytes

def polledState : CallSystem MessageReader MavlinkMessage :=
  (callMachine (readMessage fun _ => none)).exec zeroMessageInit polledMessage

theorem first_message_read_once_polledMessage :
    (callMachine (readMessage fun _ => none)).Along (fun s _ => s.NotAhead) zeroMessageInit
      polledMessage ∧
    (callMachine (readMessage fun _ => none)).Along (OneCall fun _ => none) zeroMessageInit
      polledMessage ∧
    ReadOnce (fun _ => none) (.init, .zero) polledState ∧
    ∃ k,
      let steps : List (RingAction Unit) := List.replicate k (.reader ())
      let t := (callMachine (readMessage fun _ => none)).exec polledState steps
      t.returned ≠ [] ∧ ReadOnce (fun _ => none) (.init, .zero) t :=
  have hahead : (callMachine (readMessage fun _ => none)).Along (fun s _ => s.NotAhead)
      zeroMessageInit polledMessage := by decide +kernel
  have hone : (callMachine (readMessage fun _ => none)).Along (OneCall fun _ => none)
      zeroMessageInit polledMessage := by decide +kernel
  have hreads := first_message_read_once (fun _ => none) (.init, .zero) (fun _ => 0) 0 0 0
    polledMessage hahead hone
  ⟨hahead, hone, hreads.1, hreads.2 (by decide +kernel) (by decide +kernel) (by decide +kernel)⟩

/-- Two frames are there, and two calls follow each other. -/
def twoMessages : List (RingAction Unit) :=
  arrive ((heartbeat 1).bytes ++ (heartbeat 2).bytes) ++ List.replicate 22 (.reader ())

def twoMessagesRead : CallSystem MessageReader MavlinkMessage :=
  (callMachine (readMessage fun _ => none)).exec zeroMessageInit twoMessages

theorem second_message_is_first :
    (callMachine (readMessage fun _ => none)).Along (fun s _ => s.NotAhead) zeroMessageInit
      twoMessages ∧
    twoMessagesRead.returned.map MavlinkMessage.seq = [1, 1] ∧
    (okFrames (fun _ => none) (.init, .zero) twoMessagesRead.received).map MavlinkMessage.seq =
      [1, 2] ∧
    ¬ReadOnce (fun _ => none) (.init, .zero) twoMessagesRead := by
  refine ⟨by decide +kernel, by decide +kernel, by decide +kernel, fun h => ?_⟩
  have hparsed := h.parsed
  revert hparsed
  decide +kernel

end GecRelay
