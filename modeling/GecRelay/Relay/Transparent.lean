import GecRelay.Relay.HandleChar
import Mathlib.Data.List.ReduceOption

/-!
# Relay transparency

A stream of well-formed frames passes through `handle_char` unchanged, with
anything between the frames dropped. The frames may be of either version and
may be unknown to the message table or carry a wrong checksum; a version 2
payload has to be trimmed already, and a signed frame has to have the right
checksum. What each frame leaves in the parser's buffers does not matter: the
result about one item starts from any idle parser.
-/

namespace GecRelay

open Foundation

variable {κ : Type}

/-- A stream as a sender puts it on the line: frames, and bytes between them. -/
inductive StreamItem
  | noise (c : UInt8)
  | frame (f : MavFrame)

namespace StreamItem

def bytes : StreamItem → List UInt8
  | noise c => [c]
  | frame f => f.bytes

def frameBytes : StreamItem → List UInt8
  | noise _ => []
  | frame f => f.bytes

/-- What passes through unchanged. -/
def Transparent (table : MavlinkMsgTable) : StreamItem → Prop
  | noise c => ¬IsStart c
  | frame f =>
      match f.head with
      | .v1 .. => True
      | .v2 signed .. => Trimmed f.payload ∧ (signed = true → f.ChecksumOk table)

end StreamItem

theorem trimmed_eq_self {f : MavFrame} (h : trimZeros f.payload = f.payload) : f.trimmed = f := by
  rw [MavFrame.trimmed]
  split
  · rfl
  · simp only [h]

theorem forward_of_transparent {table : MavlinkMsgTable} {f : MavFrame}
    (h : (StreamItem.frame f).Transparent table) :
    f.forward table = f ∧ (f.head.signed = true → f.ChecksumOk table) := by
  have hfields : f.trimmed = f ∧ (f.head.signed = true → f.ChecksumOk table) := by
    rcases hf : f.head with _ | ⟨signed⟩
    · refine ⟨?_, fun hs => by cases hs⟩
      rw [MavFrame.trimmed, hf]
    · rw [StreamItem.Transparent, hf] at h
      exact ⟨trimmed_eq_self (trimZeros_of_trimmed h.1), h.2⟩
  refine ⟨?_, hfields.2⟩
  rw [MavFrame.forward, hfields.1]
  split
  · next hs =>
      have hck : MavFrame.ckOf (f.crc table) = f.ck := vec_ext (hfields.2 hs).symm
      rw [hck]
  · rfl

/-! ## One item -/

theorem quietRun_of_forall {table : MavlinkMsgTable} {chan : MavlinkChannel} {xs : List UInt8}
    (h : ∀ pre c post, xs = pre ++ c :: post →
      (switchChar table ((parserMachine table).exec chan pre) c).Quiet) :
    QuietRun table chan xs := by
  induction xs generalizing chan with
  | nil => trivial
  | cons x xs ih =>
      refine ⟨h [] x xs rfl, ih fun pre c post hxs => ?_⟩
      exact h (x :: pre) c post (by rw [hxs, List.cons_append])

/-- A frame whose checksum does not matter or is right is reported once, at
its last byte. -/
theorem frame_run (table : MavlinkMsgTable) {chan : MavlinkChannel} (hidle : chan.Idle)
    {f : MavFrame} (hok : f.head.signed = true → f.ChecksumOk table) :
    ∃ before c, f.bytes = before ++ [c] ∧ QuietRun table chan before ∧
      Reported table f (switchChar table ((parserMachine table).exec chan before) c) := by
  obtain ⟨before, c, hsplit⟩ := f.exists_bytes_snoc
  refine ⟨before, c, hsplit, quietRun_of_forall fun pre x post hpre => ?_,
    (frame_byte table hidle hsplit).1 rfl⟩
  have hf : f.bytes = pre ++ x :: (post ++ [c]) := by rw [hsplit, hpre]; simp
  exact (frame_byte table hidle hf).2.2 (by simp) fun hbad => hbad.2.2 (hok hbad.2.1)

section Handler

variable {σ ω : Type} {table : MavlinkMsgTable} {onMessage : σ → MavlinkMessage → ω × σ}

def messageMachine (onMessage : σ → MavlinkMessage → ω × σ) : Machine σ MavlinkMessage ω where
  step := onMessage

/-- A handler run that has passed on `msgs` and nothing else. -/
structure PassedOn (table : MavlinkMsgTable) (onMessage : σ → MavlinkMessage → ω × σ)
    (s : MavlinkChannel × σ) (inputs : List (UInt8 × MavlinkMessage))
    (msgs : List MavlinkMessage) : Prop where
  emitted : ((handleCharMachine table onMessage).answers s inputs).reduceOption =
    (messageMachine onMessage).answers s.2 msgs
  state : ((handleCharMachine table onMessage).exec s inputs).2 =
    (messageMachine onMessage).exec s.2 msgs

theorem PassedOn.append {s : MavlinkChannel × σ} {is js : List (UInt8 × MavlinkMessage)}
    {ms ns : List MavlinkMessage} (h : PassedOn table onMessage s is ms)
    (h' : PassedOn table onMessage ((handleCharMachine table onMessage).exec s is) js ns) :
    PassedOn table onMessage s (is ++ js) (ms ++ ns) := by
  constructor
  · rw [Machine.answers_append, Machine.answers_append, List.reduceOption_append, h.emitted,
      h'.emitted, h.state]
  · rw [Machine.exec_append, Machine.exec_append, h'.state, h.state]

theorem passedOn_quiet {s : MavlinkChannel × σ} {inputs : List (UInt8 × MavlinkMessage)}
    (h : QuietRun table s.1 (inputs.map Prod.fst)) : PassedOn table onMessage s inputs [] := by
  induction inputs generalizing s with
  | nil => exact ⟨rfl, rfl⟩
  | cons input inputs ih =>
      have hstep : (handleCharMachine table onMessage).step s input = _ :=
        handleChar_quiet onMessage input h.1
      obtain ⟨hemit, hstate⟩ := ih (s := ((switchChar table s.1 input.1).advance, s.2)) h.2
      constructor
      · rw [Machine.answers_cons, hstep, List.reduceOption_cons_of_none]
        exact hemit
      · rw [Machine.exec_cons, hstep]
        exact hstate

theorem passedOn_message {s t : MavlinkChannel × σ} {input : UInt8 × MavlinkMessage}
    {msg : MavlinkMessage}
    (h : handleChar table onMessage s input = (some (onMessage s.2 msg).1, t))
    (ht : t.2 = (onMessage s.2 msg).2) : PassedOn table onMessage s [input] [msg] := by
  have hstep : (handleCharMachine table onMessage).step s input = _ := h
  constructor
  · rw [Machine.answers_cons, hstep, Machine.answers_nil, List.reduceOption_cons_of_some]
    rfl
  · rw [Machine.exec_cons, hstep]
    exact ht

/-- **One item**: its frame is passed on and the parser is idle again. -/
theorem item_passedOn (onMessage : σ → MavlinkMessage → ω × σ) {item : StreamItem}
    (hitem : item.Transparent table) {s : MavlinkChannel × σ} (hidle : s.1.Idle)
    {inputs : List (UInt8 × MavlinkMessage)} (hin : inputs.map Prod.fst = item.bytes) :
    (∃ msgs, serialised msgs = item.frameBytes ∧ PassedOn table onMessage s inputs msgs) ∧
    ((handleCharMachine table onMessage).exec s inputs).1.Idle := by
  rw [exec_chan, hin]
  cases item with
  | noise c =>
      have hmove : switchChar table s.1 c = .moved s.1.rxmsg s.1.status :=
        switchChar_noise hidle hitem
      refine ⟨⟨[], rfl, passedOn_quiet ?_⟩, ?_⟩
      · rw [hin]
        exact ⟨by rw [hmove]; exact quiet_moved _ _, trivial⟩
      · show (switchChar table s.1 c).advance.Idle
        rw [hmove]
        exact hidle
  | frame f =>
      obtain ⟨hforward, hok⟩ := forward_of_transparent hitem
      obtain ⟨before, c, hsplit, hquiet, hrep⟩ := frame_run table hidle hok
      have hbytes : (StreamItem.frame f).bytes = before ++ [c] := hsplit
      rw [hbytes] at hin ⊢
      obtain ⟨ins, last, rfl, hbefore, hlast⟩ := List.map_eq_append_iff.mp hin
      obtain ⟨input, rfl, rfl⟩ := List.map_eq_singleton_iff.mp hlast
      have hpre : PassedOn table onMessage s ins [] := passedOn_quiet (hbefore ▸ hquiet)
      have hchan : ((handleCharMachine table onMessage).exec s ins).1 = _ :=
        exec_chan onMessage s ins
      rw [hbefore] at hchan
      obtain ⟨msg, hsend, hm⟩ := handleChar_reported onMessage
        (s := (handleCharMachine table onMessage).exec s ins) (hchan ▸ hrep)
      refine ⟨⟨[msg], ?_, hpre.append (passedOn_message (hm input.2) rfl)⟩, ?_⟩
      · rw [hforward] at hsend
        simpa [serialised, StreamItem.frameBytes] using hsend
      · rw [Machine.exec_append]
        exact hrep.idle

/-- **Any stream of such items.** -/
theorem items_passedOn (onMessage : σ → MavlinkMessage → ω × σ) {items : List StreamItem}
    (hitems : ∀ i ∈ items, i.Transparent table)
    {s : MavlinkChannel × σ} (hidle : s.1.Idle)
    {inputs : List (UInt8 × MavlinkMessage)}
    (hin : inputs.map Prod.fst = items.flatMap StreamItem.bytes) :
    (∃ msgs, serialised msgs = items.flatMap StreamItem.frameBytes ∧
      PassedOn table onMessage s inputs msgs) ∧
    ((handleCharMachine table onMessage).exec s inputs).1.Idle := by
  induction items generalizing s inputs with
  | nil =>
      rw [List.flatMap_nil, List.map_eq_nil_iff] at hin
      subst hin
      exact ⟨⟨[], rfl, rfl, rfl⟩, hidle⟩
  | cons item items ih =>
      rw [List.flatMap_cons] at hin
      obtain ⟨ins, rest, rfl, hins, hrest⟩ := List.map_eq_append_iff.mp hin
      obtain ⟨⟨msgs, hmsgs, hpassed⟩, hidle'⟩ := item_passedOn onMessage
        (hitems item List.mem_cons_self) hidle hins
      obtain ⟨⟨msgs', hmsgs', hpassed'⟩, hidle''⟩ := ih
        (fun i hi => hitems i (List.mem_cons_of_mem item hi)) hidle' hrest
      refine ⟨⟨msgs ++ msgs', ?_, hpassed.append hpassed'⟩, ?_⟩
      · rw [serialised, List.flatMap_append, List.flatMap_cons, ← hmsgs, ← hmsgs']
        rfl
      · rw [Machine.exec_append]
        exact hidle''

end Handler

/-! ## The two relays -/

theorem written_eq_serialised (msgs : List MavlinkMessage) :
    ((messageMachine writeMessage).answers () msgs).flatten = serialised msgs := by
  induction msgs with
  | nil => rfl
  | cons msg msgs ih =>
      rw [Machine.answers_cons, List.flatten_cons, ih]
      rfl

/-- Behind the handler an Encrypt component is the packer. -/
theorem encrypted_eq_packed (f : EncryptState κ → MavlinkMessage → EncryptTrace × EncryptState κ)
    (s : EncryptState κ) (msgs : List MavlinkMessage) :
    let out := (messageMachine (encryptMessage f)).answers s msgs
    out.flatMap EncryptEmit.queued = serialised msgs ∧
    out.map EncryptEmit.trace = (encryptMachine f).answers s msgs ∧
    (messageMachine (encryptMessage f)).exec s msgs = (encryptMachine f).exec s msgs := by
  induction msgs generalizing s with
  | nil => exact ⟨rfl, rfl, rfl⟩
  | cons msg msgs ih =>
      obtain ⟨hqueued, htrace, hexec⟩ := ih (f s msg).2
      refine ⟨?_, ?_, hexec⟩
      · rw [Machine.answers_cons, List.flatMap_cons]
        exact congrArg (mavlinkMsgToSendBuffer msg ++ ·) hqueued
      · rw [Machine.answers_cons, List.map_cons, Machine.answers_cons]
        exact congrArg ((f s msg).1 :: ·) htrace

/-- **Relay transparency.** Take any frames of the kinds above with any other
bytes around them, an idle parser with anything in its buffers and any stack
contents. After each item, Telemetry_TX has written exactly the bytes of the
frames so far; the Encrypt relay has queued exactly these bytes, without a
failing `enqueue`, and has cut them into blocks and rest; and both parsers are
idle. -/
theorem relay_transparent (G : Gcm κ) (table : MavlinkMsgTable) {items : List StreamItem}
    (hitems : ∀ i ∈ items, i.Transparent table) {chan : MavlinkChannel} (hidle : chan.Idle)
    {enc : EncryptState κ} (hqueue : enc.queue.size < 64)
    {inputs : List (UInt8 × MavlinkMessage)}
    (hin : inputs.map Prod.fst = items.flatMap StreamItem.bytes) (n : ℕ) :
    let ins := inputs.take ((items.take n).flatMap StreamItem.bytes).length
    let frames := (items.take n).flatMap StreamItem.frameBytes
    let T := telemetryTxMachine table
    let E := relayEncryptMachine G table
    let out := (E.answers (chan, enc) ins).reduceOption
    ((T.answers (chan, ()) ins).reduceOption.flatten = frames ∧ (T.exec (chan, ()) ins).1.Idle) ∧
    (out.flatMap EncryptEmit.queued = frames ∧
      (∀ o ∈ out, ∀ e ∈ o.trace.enqueued, e.1 = 0) ∧
      blockBytes (runBlocks (out.map EncryptEmit.trace)) ++
        (E.exec (chan, enc) ins).2.queue.content = enc.queue.content ++ frames ∧
      (E.exec (chan, enc) ins).1.Idle) := by
  intro ins frames T E out
  have hsome : ∀ i ∈ items.take n, i.Transparent table := fun i hi =>
    hitems i (List.mem_of_mem_take hi)
  have hins : ins.map Prod.fst = (items.take n).flatMap StreamItem.bytes := by
    have hpre : (items.take n).flatMap StreamItem.bytes <+: items.flatMap StreamItem.bytes :=
      ⟨(items.drop n).flatMap StreamItem.bytes, by
        rw [← List.flatMap_append, List.take_append_drop]⟩
    rw [List.map_take, hin]
    exact (List.prefix_iff_eq_take.mp hpre).symm
  constructor
  · obtain ⟨⟨msgs, hmsgs, hpassed⟩, hidle'⟩ := items_passedOn writeMessage hsome
      (s := (chan, ())) hidle hins
    refine ⟨?_, hidle'⟩
    show ((handleCharMachine table writeMessage).answers (chan, ()) ins).reduceOption.flatten = _
    rw [hpassed.emitted]
    exact (written_eq_serialised msgs).trans hmsgs
  · obtain ⟨⟨msgs, hmsgs, hpassed⟩, hidle'⟩ := items_passedOn
      (encryptMessage (relayEncryptToFrame G)) hsome (s := (chan, enc)) hidle hins
    obtain ⟨hqueued, htrace, hexec⟩ := encrypted_eq_packed (relayEncryptToFrame G) enc msgs
    obtain ⟨hpack, hlog, -⟩ := packed_stream G (inlinedCells_takesBytes 64) msgs hqueue
    have hout : out = (messageMachine (encryptMessage (relayEncryptToFrame G))).answers enc msgs :=
      hpassed.emitted
    have hstate : (E.exec (chan, enc) ins).2 =
        (encryptMachine (relayEncryptToFrame G)).exec enc msgs := hpassed.state.trans hexec
    rw [hout, hstate]
    refine ⟨hqueued.trans hmsgs, fun o ho e he => ?_, ?_, hidle'⟩
    · have hmem : o.trace ∈ (encryptMachine (relayEncryptToFrame G)).answers enc msgs := by
        rw [← htrace]
        exact List.mem_map_of_mem ho
      exact (hlog o.trace hmem e he).1
    · rw [htrace, show frames = serialised msgs from hmsgs.symm]
      exact hpack

/-- A padding byte, a version 1 frame with a wrong checksum, and a signed
version 2 frame with the right one. -/
def sampleItems : List StreamItem :=
  [.noise 0,
    .frame { MavFrame.ofUnknown (.v1 1 2 3 4) [] MavFrame.empty_payload_le with ck := zeros 2 },
    .frame (.ofUnknown (.v2 true 0 1 2 3 4 0 0) [] MavFrame.empty_payload_le)]

theorem sampleItems_transparent :
    ∀ i ∈ sampleItems, i.Transparent fun _ => none := by
  intro i hi
  rcases hi with _ | ⟨_, _ | ⟨_, _ | ⟨_, ⟨⟩⟩⟩⟩
  · exact (by decide : ¬IsStart 0)
  · trivial
  · exact ⟨Or.inl (Nat.zero_le 1), fun _ => rfl⟩

theorem relay_transparent_sample :
    (∀ i ∈ sampleItems, i.Transparent fun _ => none) ∧
    let ins := (sampleItems.flatMap StreamItem.bytes).map fun c => (c, MavlinkMessage.zero)
    let T := telemetryTxMachine fun _ => none
    (T.answers (.init, ()) ins).reduceOption.flatten =
      sampleItems.flatMap StreamItem.frameBytes := by
  refine ⟨sampleItems_transparent, ?_⟩
  let enc : EncryptState _ :=
    { symkey := gecInitSymKeyConfAuth onceGcm (zeros 24), queue := .init }
  have hqueue : enc.queue.size < 64 := Nat.zero_lt_succ 63
  have hin : ((sampleItems.flatMap StreamItem.bytes).map fun c => (c, MavlinkMessage.zero)).map
      Prod.fst = sampleItems.flatMap StreamItem.bytes := by
    rw [List.map_map]
    exact List.map_id _
  have h := relay_transparent onceGcm (fun _ => none) sampleItems_transparent idle_init hqueue
    hin 3
  have hall : sampleItems.take 3 = sampleItems := rfl
  rw [hall, List.take_of_length_le (by rw [List.length_map])] at h
  exact h.1.1

end GecRelay
