import GecRelay.Relay.StackContent

/-!
# The buffer for a serialised message

A Decrypt component serialises every message its parser reports into a local
buffer. comm-crypto-relay and key-exchange have `MAVLINK_MAX_FRAME_LEN` bytes
there, enough for any message; comm-crypto-rpc-relay and comm-crypto-block
have `GEC_CT_LEN`, the length of a ciphertext. A message does not have to fit
the block it was decrypted from, so there the writes stay inside exactly when
no long frame comes, and no length that makes the message left in `msg` long.
-/

namespace GecRelay

open Foundation

def gecCtLen : ℕ := 80

/-- The bytes a frame is sent on with. -/
def MavFrame.sentLength (f : MavFrame) : ℕ :=
  match f.head with
  | .v1 .. => 8 + f.payload.length
  | .v2 signed .. => 12 + (trimZeros f.payload).length + if signed then 13 else 0

/-- Whatever is reported on the stream is serialised to at most `size` bytes. -/
def Fits (table : MavlinkMsgTable) (size : ℕ) (p : MavlinkChannel × MavlinkMessage)
    (stream : List UInt8) : Prop :=
  ∀ pre c, pre ++ [c] <+: stream →
    (parseChar (mavlinkParseChar table) (parseChars (mavlinkParseChar table) p pre).2 c).1.length ≤
      size

/-- Every frame of the stream is short; and so is the message left in `msg`,
with the length of a signed frame whose checksum is wrong. -/
def ShortReports (table : MavlinkMsgTable) (size : ℕ) (p : MavlinkChannel × MavlinkMessage)
    (stream : List UInt8) : Prop :=
  ∀ pre c, pre ++ [c] <+: stream →
    (∀ f : MavFrame, arriving (pre ++ [c]) = f.bytes → f.sentLength ≤ size) ∧
    ∀ f : MavFrame, BadSigned table f (arriving (pre ++ [c])) →
      let msg := (parseChars (mavlinkParseChar table) p pre).2.2
      sendLength { msg with len := f.len } ≤ size

theorem length_forward (table : MavlinkMsgTable) (f : MavFrame) :
    (f.forward table).bytes.length = f.sentLength := by
  rw [MavFrame.length_bytes, MavFrame.forward, MavFrame.sentLength]
  obtain ⟨head, payload, ck, signature, hle⟩ := f
  cases head with
  | v1 =>
      simp only [MavFrame.trimmed, FrameHead.signed, FrameHead.fields, List.length_cons,
        List.length_nil, Bool.false_eq_true, if_false]
      omega
  | v2 signed =>
      cases signed <;>
        simp only [MavFrame.trimmed, FrameHead.signed, FrameHead.fields, List.length_cons,
          List.length_nil, Bool.false_eq_true, if_false, if_true] <;> omega

/-- One byte, by what arrives with it. -/
theorem parseChar_fits_iff {table : MavlinkMsgTable} {chan : MavlinkChannel} {b : List UInt8}
    (h : Tracks table chan b) (c : UInt8) (m : MavlinkMessage) (size : ℕ) :
    (parseChar (mavlinkParseChar table) (chan, m) c).1.length ≤ size ↔
      (∀ f : MavFrame, delimit b c = f.bytes → f.sentLength ≤ size) ∧
      ∀ f : MavFrame, BadSigned table f (delimit b c) →
        sendLength { m with len := f.len } ≤ size := by
  have heffect := (tracks_step h c).2
  by_cases hframe : ∃ f : MavFrame, delimit b c = f.bytes
  · obtain ⟨f, hf⟩ := hframe
    obtain ⟨msg, hmsg⟩ := parseChar_reported (heffect.of_bytes hf)
    rw [hmsg m, length_forward]
    refine ⟨fun hfit => ⟨fun g hg => ?_, fun g hg => absurd hf (hg.not_complete f)⟩,
      fun hall => hall.1 f hf⟩
    obtain ⟨msg', hmsg'⟩ := parseChar_reported (heffect.of_bytes hg)
    rw [← length_forward table, ← show _ = (g.forward table).bytes from congrArg Prod.fst (hmsg' m),
      hmsg m, length_forward]
    exact hfit
  · by_cases hbad : ∃ f, BadSigned table f (delimit b c)
    · obtain ⟨f, hf⟩ := hbad
      obtain ⟨g, hunc, hg⟩ := heffect.of_bad hf
      obtain ⟨checksum, -, hmsg⟩ := parseChar_uncopied hunc
      rw [hmsg m, length_sendBuffer]
      refine ⟨fun hfit => ⟨fun f' hf' => absurd ⟨f', hf'⟩ hframe, fun f' hf' => ?_⟩,
        fun hall => hall.2 g hg⟩
      have hlen : f'.len = g.len := by
        have hbytes := hf'.1.symm.trans hg.1
        simp only [MavFrame.upToChecksum, MavFrame.checked, List.cons_append,
          List.cons.injEq] at hbytes
        exact hbytes.2.1
      rw [hlen]
      exact hfit
    · rcases heffect with ⟨f, hf, -⟩ | ⟨f, hf, -⟩ | ⟨-, -, hquiet⟩
      · exact absurd ⟨f, hf⟩ hframe
      · exact absurd ⟨f, hf⟩ hbad
      · obtain ⟨len, hlen⟩ := parseChar_quiet hquiet m
        rw [hlen]
        exact ⟨fun _ => ⟨fun f hf => absurd ⟨f, hf⟩ hframe, fun f hf => absurd ⟨f, hf⟩ hbad⟩,
          fun _ => Nat.zero_le size⟩

theorem fits_iff {table : MavlinkMsgTable} {chan : MavlinkChannel} (hidle : chan.Idle)
    (m : MavlinkMessage) (size : ℕ) {pre : List UInt8} {c : UInt8} :
    (parseChar (mavlinkParseChar table)
        (parseChars (mavlinkParseChar table) (chan, m) pre).2 c).1.length ≤ size ↔
      (∀ f : MavFrame, arriving (pre ++ [c]) = f.bytes → f.sentLength ≤ size) ∧
      ∀ f : MavFrame, BadSigned table f (arriving (pre ++ [c])) →
        let msg := (parseChars (mavlinkParseChar table) (chan, m) pre).2.2
        sendLength { msg with len := f.len } ≤ size := by
  have htracks := tracks_run table hidle pre
  rw [← parseChars_chan (chan, m)] at htracks
  rw [arriving_snoc]
  exact parseChar_fits_iff htracks c _ size

/-- **When a serialised message fits.** For every stream, every content of
`msg` and every idle parser: 280 bytes are always enough, whatever the parser
has read; 80 are exactly when every frame is sent on with at most 80 bytes and
no wrong checksum of a signed frame makes a longer message of the one in
`msg`. -/
theorem serialised_fits_exactly (table : MavlinkMsgTable) {chan : MavlinkChannel}
    (hidle : chan.Idle) (m : MavlinkMessage) (stream : List UInt8) :
    (∀ p c, (parseChar (mavlinkParseChar table) p c).1.length ≤ mavlinkMaxFrameLen) ∧
    (Fits table gecCtLen (chan, m) stream ↔
      ShortReports table gecCtLen (chan, m) stream) := by
  constructor
  · intro p c
    rw [parseChar]
    split
    · exact (length_mavlinkMsgToSendBuffer _).2
    · exact Nat.zero_le mavlinkMaxFrameLen
  · constructor
    · intro h pre c hpre
      exact (fits_iff hidle m gecCtLen).mp (h pre c hpre)
    · intro h pre c hpre
      exact (fits_iff hidle m gecCtLen).mpr (h pre c hpre)

theorem long_payload_le : (List.replicate 73 (1 : UInt8)).length ≤ 255 := by decide

/-- A version 1 frame with a payload of 73 bytes; it spans two blocks. -/
def longFrame : MavFrame := .ofUnknown (.v1 0 1 1 0) (List.replicate 73 1) long_payload_le

theorem long_frame_overflows :
    ¬Fits (fun _ => none) gecCtLen (.init, .zero) longFrame.bytes := by
  intro h
  obtain ⟨pre, c, hsnoc⟩ := longFrame.exists_bytes_snoc
  have harrives : arriving (pre ++ [c]) = longFrame.bytes := by
    rw [← hsnoc]
    decide +kernel
  have hshort := ((fits_iff idle_init .zero gecCtLen).mp
    (h pre c (hsnoc ▸ List.prefix_rfl))).1 longFrame harrives
  exact absurd hshort (by decide)

theorem serialised_fits_exactly_longFrame :
    MavlinkChannel.init.Idle ∧
    (∀ p c, (parseChar (mavlinkParseChar fun _ => none) p c).1.length ≤ mavlinkMaxFrameLen) ∧
    (Fits (fun _ => none) gecCtLen (.init, .zero) longFrame.bytes ↔
      ShortReports (fun _ => none) gecCtLen (.init, .zero) longFrame.bytes) :=
  ⟨idle_init, serialised_fits_exactly (fun _ => none) idle_init .zero longFrame.bytes⟩

end GecRelay
