import GecRelay.Mavlink.Serialise
import GecRelay.Relay.Encrypt

/-!
# The byte handlers

`handle_char` gives one byte to the parser and passes a message on when the
result is not zero: Telemetry_TX of comm-mavlink-relay writes it to the serial
port, the two Encrypt components hand it to `encrypt_to_frame`. Its local
`mavlink_message_t` is not initialised, so its content is an input here, a new
one for every byte.
-/

namespace GecRelay

open Foundation

variable {κ : Type}

/-- `handle_char`, for what a component does with a message. `input` is the
byte and the content of the local `msg`. -/
def handleChar {σ ω : Type} (table : MavlinkMsgTable) (onMessage : σ → MavlinkMessage → ω × σ)
    (s : MavlinkChannel × σ) (input : UInt8 × MavlinkMessage) :
    Option ω × (MavlinkChannel × σ) :=
  let r := mavlinkFrameCharBuffer table s.1 input.1 input.2
  -- `if (result)`: a bad checksum counts as well
  if r.1 ≠ .incomplete then
    let e := onMessage s.2 r.2.1
    (some e.1, (r.2.2, e.2))
  else (none, (r.2.2, s.2))

def handleCharMachine {σ ω : Type} (table : MavlinkMsgTable)
    (onMessage : σ → MavlinkMessage → ω × σ) :
    Machine (MavlinkChannel × σ) (UInt8 × MavlinkMessage) (Option ω) where
  step := handleChar table onMessage

/-- Telemetry_TX: serialise and write. -/
def writeMessage (s : Unit) (msg : MavlinkMessage) : List UInt8 × Unit :=
  (mavlinkMsgToSendBuffer msg, s)

def telemetryTxMachine (table : MavlinkMsgTable) :
    Machine (MavlinkChannel × Unit) (UInt8 × MavlinkMessage) (Option (List UInt8)) :=
  handleCharMachine table writeMessage

/-- What an Encrypt component does with a message: the bytes that
`encrypt_to_frame` gives to `enqueue`, and the rest of its trace. -/
structure EncryptEmit where
  queued : List UInt8
  trace : EncryptTrace

def encryptMessage (encryptToFrame : EncryptState κ → MavlinkMessage →
    EncryptTrace × EncryptState κ) (s : EncryptState κ) (msg : MavlinkMessage) :
    EncryptEmit × EncryptState κ :=
  let (trace, t) := encryptToFrame s msg
  ({ queued := mavlinkMsgToSendBuffer msg, trace := trace }, t)

def relayEncryptMachine (G : Gcm κ) (table : MavlinkMsgTable) :
    Machine (MavlinkChannel × EncryptState κ) (UInt8 × MavlinkMessage) (Option EncryptEmit) :=
  handleCharMachine table (encryptMessage (relayEncryptToFrame G))

def keyExchangeEncryptMachine (G : Gcm κ) (table : MavlinkMsgTable) :
    Machine (MavlinkChannel × EncryptState κ) (UInt8 × MavlinkMessage) (Option EncryptEmit) :=
  handleCharMachine table (encryptMessage (keyExchangeEncryptToFrame G))

/-! ## One byte -/

section Handler

variable {σ ω : Type} {table : MavlinkMsgTable} (onMessage : σ → MavlinkMessage → ω × σ)

/-- The parser's part of a run does not depend on the rest. -/
theorem exec_chan (s : MavlinkChannel × σ) (inputs : List (UInt8 × MavlinkMessage)) :
    ((handleCharMachine table onMessage).exec s inputs).1 =
      (parserMachine table).exec s.1 (inputs.map Prod.fst) := by
  induction inputs generalizing s with
  | nil => rfl
  | cons input inputs ih =>
      rw [Machine.exec_cons, ih, List.map_cons, Machine.exec_cons]
      congr 1
      show (handleChar table onMessage s input).2.1 = _
      simp only [handleChar]
      split <;> rfl

theorem handleChar_quiet {s : MavlinkChannel × σ} (input : UInt8 × MavlinkMessage)
    (h : (switchChar table s.1 input.1).Quiet) :
    handleChar table onMessage s input =
      (none, ((switchChar table s.1 input.1).advance, s.2)) := by
  rw [handleChar]
  simp only [(caller_quiet h input.2).1, ne_eq, not_true_eq_false, if_false]
  rfl

theorem handleChar_reported {s : MavlinkChannel × σ} {c : UInt8} {f : MavFrame}
    (h : Reported table f (switchChar table s.1 c)) :
    ∃ msg : MavlinkMessage, mavlinkMsgToSendBuffer msg = (f.forward table).bytes ∧
      ∀ m : MavlinkMessage, handleChar table onMessage s (c, m) =
        (some (onMessage s.2 msg).1,
          ((switchChar table s.1 c).advance, (onMessage s.2 msg).2)) := by
  obtain ⟨msg, hsend, hm⟩ := caller_reported h
  refine ⟨msg, hsend, fun m => ?_⟩
  rw [handleChar]
  simp only [(hm m).1, (hm m).2, ne_eq, not_false_eq_true, if_true]
  rfl

theorem handleChar_uncopied {s : MavlinkChannel × σ} {c : UInt8} {f : MavFrame}
    (h : Uncopied table f (switchChar table s.1 c)) :
    ∃ checksum : UInt16, MavFrame.ckOf checksum = f.ck ∧
      ∀ m : MavlinkMessage,
        let msg : MavlinkMessage := { m with len := f.len, checksum := checksum }
        handleChar table onMessage s (c, m) =
          (some (onMessage s.2 msg).1,
            ((switchChar table s.1 c).advance, (onMessage s.2 msg).2)) := by
  obtain ⟨checksum, hck, hm⟩ := caller_uncopied h
  refine ⟨checksum, hck, fun m => ?_⟩
  rw [handleChar]
  simp only [(hm m).1, (hm m).2, ne_eq, reduceCtorEq, not_false_eq_true, if_true]
  rfl

end Handler

end GecRelay
