import GecRelay.Relay.StackContent
import GecRelay.Mavlink.Crc

/-!
# Checksums through the relay

The relay forwards a frame with a wrong checksum too, and relies on it staying
wrong. It does not for a signed frame, which is serialised with the checksum
the parser computed (and, at the checksum already, as whatever the stack
holds), nor for an unsigned version 2 frame whose wrong checksum happens to be
the right one without its trailing zeros. Conversely a frame that was right
comes out wrong when trimming changes its checksum.
-/

namespace GecRelay

open Foundation

variable {κ : Type}

/-- What one byte may emit when `b` has arrived: a frame with a right checksum
arrived with a right one, and one that arrived with a wrong checksum keeps
the checksum it came with. -/
def Honest (table : MavlinkMsgTable) (b emitted : List UInt8) : Prop :=
  (∀ g : MavFrame, emitted = g.bytes → g.ChecksumOk table →
    ∃ f : MavFrame, b = f.bytes ∧ f.ChecksumOk table) ∧
  ∀ f g : MavFrame, b = f.bytes ∨ BadSigned table f b → ¬f.ChecksumOk table →
    emitted = g.bytes → g.ck = f.ck

/-- An unsigned frame with a wrong checksum that is right once its payload is
trimmed. -/
def RightWhenTrimmed (table : MavlinkMsgTable) (f : MavFrame) : Prop :=
  f.head.signed = false ∧ ¬f.ChecksumOk table ∧ f.trimmed.ChecksumOk table

/-- **The streams that are relayed honestly.** -/
def KeepsErrors (table : MavlinkMsgTable) (stream : List UInt8) : Prop :=
  NoBadSigned table stream ∧
  ∀ pre, pre <+: stream → ∀ f : MavFrame, arriving pre = f.bytes → ¬RightWhenTrimmed table f

theorem KeepsErrors.mono {table : MavlinkMsgTable} {stream pre : List UInt8}
    (h : KeepsErrors table stream) (hpre : pre <+: stream) : KeepsErrors table pre :=
  ⟨fun p hp => h.1 p (hp.trans hpre), fun p hp => h.2 p (hp.trans hpre)⟩

/-- What arrives grows byte by byte. -/
theorem exists_arriving {b r : List UInt8} (hb : b ≠ []) {stream : List UInt8}
    (h : arriving stream = b ++ r) : ∃ pre, pre <+: stream ∧ arriving pre = b := by
  induction stream using List.reverseRecOn generalizing r with
  | nil =>
      have : b = [] := (List.append_eq_nil_iff.mp h.symm).1
      exact absurd this hb
  | append_singleton stream c ih =>
      rcases List.eq_nil_or_concat r with rfl | ⟨r', x, rfl⟩
      · exact ⟨_, List.prefix_rfl, by rw [h, List.append_nil]⟩
      · rw [arriving_snoc] at h
        rw [List.concat_eq_append, ← List.append_assoc] at h
        by_cases hnew : arriving stream = [] ∨ Done (arriving stream)
        · rw [delimit_start hnew] at h
          split at h
          · rw [← List.nil_append [c]] at h
            have hnil := (List.append_inj' h rfl).1
            exact absurd (List.append_eq_nil_iff.mp hnil.symm).1 hb
          · simp at h
        · rw [delimit_grow hnew] at h
          obtain ⟨pre, hpre, harr⟩ := ih (List.append_inj' h rfl).1
          exact ⟨pre, hpre.trans (List.prefix_append _ _), harr⟩

/-- So a signed frame that is complete had a right checksum. -/
theorem checksumOk_of_noBadSigned {table : MavlinkMsgTable} {stream : List UInt8}
    (h : NoBadSigned table stream) {pre : List UInt8} (hpre : pre <+: stream) {f : MavFrame}
    (hf : arriving pre = f.bytes) (hs : f.head.signed = true) : f.ChecksumOk table := by
  by_contra hbad
  have hne : f.upToChecksum ≠ [] := by simp [MavFrame.upToChecksum]
  obtain ⟨p, hp, harr⟩ := exists_arriving (r := f.trailer) hne hf
  exact h p (hp.trans hpre) f ⟨harr, hs, hbad⟩

/-! ## Emissions -/

theorem forward_unsigned {table : MavlinkMsgTable} {f : MavFrame} (hs : f.head.signed = false) :
    f.forward table = f.trimmed := by
  rw [MavFrame.forward, hs, if_neg (by decide)]

/-- A frame of an honest stream. -/
theorem honest_forward {table : MavlinkMsgTable} {stream : List UInt8}
    (h : KeepsErrors table stream) {pre : List UInt8} (hpre : pre <+: stream) {f : MavFrame}
    (hf : arriving pre = f.bytes) : Honest table (arriving pre) (f.forward table).bytes := by
  have hsame : ∀ f' : MavFrame, arriving pre = f'.bytes ∨ BadSigned table f' (arriving pre) →
      f'.ck = f.ck ∧ (f'.ChecksumOk table ↔ f.ChecksumOk table) := by
    rintro f' (hf' | hf')
    · rw [hf] at hf'
      exact ⟨(MavFrame.bytes_inj_of_append hf').2.2.1.symm,
        (MavFrame.checksumOk_congr table hf').symm⟩
    · exact absurd hf' (h.1 pre hpre f')
  cases hs : f.head.signed with
  | true =>
      have hok := checksumOk_of_noBadSigned h.1 hpre hf hs
      exact ⟨fun _ _ _ => ⟨f, hf, hok⟩,
        fun f' _ hf' hbad _ => absurd ((hsame f' hf').2.mpr hok) hbad⟩
  | false =>
      rw [forward_unsigned hs]
      constructor
      · intro g hg hok
        refine ⟨f, hf, by_contra fun hbad => ?_⟩
        exact h.2 pre hpre f hf ⟨hs, hbad, (MavFrame.checksumOk_congr table hg).mpr hok⟩
      · intro f' g hf' _ hg
        rw [(hsame f' hf').1, ← trimmed_ck f]
        exact (MavFrame.bytes_inj_of_append hg).2.2.1.symm

/-- A version 1 message that an unlucky stack can hold: with any length and
checksum it is a frame whose checksum is right. -/
theorem exists_unlucky_stack (table : MavlinkMsgTable) (len : UInt8) (checksum : UInt16) :
    ∃ (m : MavlinkMessage) (g : MavFrame), g.ChecksumOk table ∧
      mavlinkMsgToSendBuffer { m with len := len, checksum := checksum } = g.bytes := by
  obtain ⟨seq, sysid, hcrc⟩ := exists_crc_eq (crcAccumulate len crcInit) checksum
    ([0, 0] ++ List.replicate len.toNat 0 ++ [crcExtra table ((0 : UInt8).toBitVec.setWidth 24)])
  have hle : len.toNat ≤ 255 := Nat.le_of_lt_succ len.toNat_lt
  let f : MavFrame :=
    { head := .v1 seq sysid 0 0, payload := List.replicate len.toNat 0, ck := zeros 2
      signature := zeros 13, payload_le := by rwa [List.length_replicate] }
  have hlen : f.len = len := by
    rw [MavFrame.len, List.length_replicate, UInt8.ofNat_toNat]
  refine ⟨{ MavlinkMessage.zero with magic := mavlinkStxMavlink1, seq := seq, sysid := sysid },
    f.resent checksum, ?_, ?_⟩
  · have hall : (f.resent checksum).checked = f.len :: seq :: sysid ::
        ([0, 0] ++ List.replicate len.toNat 0) := rfl
    rw [MavFrame.ChecksumOk, MavFrame.crc, hall, hlen]
    exact congrArg checksumBytes hcrc.symm
  · refine sendBuffer_eq_bytes (f := f) ⟨rfl, hlen.symm, rfl, rfl, rfl, rfl, rfl, rfl⟩ ?_
      (fun hs => by cases hs)
    show List.replicate len.toNat 0 <+: List.replicate 264 0
    exact ⟨List.replicate (264 - len.toNat) 0, by
      rw [← List.replicate_add]
      congr 1
      omega⟩

/-! ## The handlers -/

/-- Every emission of a run is honest. `byte` reads the byte of an input,
`reveal` the bytes of an emission; `before` has come already. -/
def HonestRun {σ ι ω : Type} (table : MavlinkMsgTable) (M : Machine σ ι (Option ω))
    (byte : ι → UInt8) (reveal : ω → List UInt8) (before : List UInt8) (s : σ)
    (inputs : List ι) : Prop :=
  ∀ pre i post, inputs = pre ++ i :: post → ∀ o, (M.step (M.exec s pre) i).1 = some o →
    Honest table (arriving (before ++ (pre ++ [i]).map byte)) (reveal o)

section Handler

variable {σ ω : Type} {table : MavlinkMsgTable} {onMessage : σ → MavlinkMessage → ω × σ}

theorem handler_honest {chan : MavlinkChannel} (hidle : chan.Idle) (s : σ)
    {reveal : ω → List UInt8} (hreveal : ∀ t msg, reveal (onMessage t msg).1 =
      mavlinkMsgToSendBuffer msg) {ins : List (UInt8 × MavlinkMessage)}
    (h : KeepsErrors table (ins.map Prod.fst)) :
    HonestRun table (handleCharMachine table onMessage) Prod.fst reveal [] (chan, s) ins := by
  rintro pre ⟨c, m⟩ post rfl o ho
  set t := (handleCharMachine table onMessage).exec (chan, s) pre with ht
  have htracks : Tracks table t.1 (arriving (pre.map Prod.fst)) := by
    rw [ht, exec_chan]
    exact tracks_run table hidle _
  have hpre : (pre ++ [(c, m)]).map Prod.fst <+: (pre ++ (c, m) :: post).map Prod.fst :=
    ⟨post.map Prod.fst, by simp⟩
  have heffect := (tracks_step htracks c).2
  have hnext : delimit (arriving (pre.map Prod.fst)) c =
      arriving ((pre ++ [(c, m)]).map Prod.fst) := by
    rw [List.map_append]
    exact (arriving_snoc _ c).symm
  rw [hnext] at heffect
  rw [List.nil_append]
  change (handleChar table onMessage t (c, m)).1 = some o at ho
  rcases heffect with ⟨f, hf, hrep⟩ | ⟨f, hbad, -⟩ | ⟨-, -, hquiet⟩
  · obtain ⟨msg, hsend, hm⟩ := handleChar_reported onMessage (hrep f hf)
    rw [hm m] at ho
    rw [← Option.some.inj ho, hreveal, hsend]
    exact honest_forward h hpre hf
  · exact absurd hbad (h.1 _ hpre f)
  · rw [handleChar_quiet onMessage (c, m) hquiet] at ho
    cases ho

/-- The byte of a stream after which `pre` has come. -/
theorem step_at (table : MavlinkMsgTable) (onMessage : σ → MavlinkMessage → ω × σ)
    {chan : MavlinkChannel} (hidle : chan.Idle) (s : σ) (pre : List UInt8) (c : UInt8) :
    let t := (handleCharMachine table onMessage).exec (chan, s) (onStack .zero pre)
    ByteEffect table (arriving (pre ++ [c])) (switchChar table t.1 c) := by
  intro t
  have htracks : Tracks table t.1 (arriving pre) := by
    rw [exec_chan, map_fst_onStack]
    exact tracks_run table hidle pre
  rw [arriving_snoc]
  exact (tracks_step htracks c).2

theorem handler_dishonest {chan : MavlinkChannel} (hidle : chan.Idle) (s : σ)
    {reveal : ω → List UInt8} (hreveal : ∀ t msg, reveal (onMessage t msg).1 =
      mavlinkMsgToSendBuffer msg) {stream : List UInt8} (h : ¬KeepsErrors table stream) :
    ∃ ins : List (UInt8 × MavlinkMessage), ins.map Prod.fst = stream ∧
      ¬HonestRun table (handleCharMachine table onMessage) Prod.fst reveal [] (chan, s) ins := by
  by_cases hsigned : NoBadSigned table stream
  · -- a wrong frame that trimming makes right
    rw [KeepsErrors, not_and] at h
    have htrim := h hsigned
    simp only [not_forall, not_not] at htrim
    obtain ⟨p, ⟨post, rfl⟩, f, hf, hs, hbad, hok⟩ := htrim
    rcases List.eq_nil_or_concat p with rfl | ⟨pre, c, rfl⟩
    · have hlen := f.eight_le_length_upToChecksum
      have hnil : f.bytes = [] := hf.symm
      rw [MavFrame.bytes, List.append_eq_nil_iff] at hnil
      simp [hnil.1] at hlen
    · rw [List.concat_eq_append] at hf ⊢
      have hrep := (step_at table onMessage hidle s pre c).of_bytes hf
      obtain ⟨msg, hsend, hm⟩ := handleChar_reported onMessage hrep
      refine ⟨onStack .zero pre ++ (c, .zero) :: onStack .zero post, by simp, fun hrun => ?_⟩
      have hhonest := hrun (onStack .zero pre) (c, .zero) (onStack .zero post) rfl _
        (congrArg Prod.fst (hm .zero))
      rw [hreveal, hsend, forward_unsigned hs, List.nil_append, List.map_append,
        map_fst_onStack] at hhonest
      obtain ⟨f', hf', hok'⟩ := hhonest.1 f.trimmed rfl hok
      exact hbad ((MavFrame.checksumOk_congr table (hf.symm.trans hf')).mpr hok')
  · obtain ⟨pre, c, post, f, rfl, hf⟩ := exists_bad_byte hsigned
    obtain ⟨g, hunc, hg⟩ := (step_at table onMessage hidle s pre c).of_bad hf
    obtain ⟨checksum, -, hm⟩ := handleChar_uncopied onMessage hunc
    -- some stack holds a message that the received checksum is right for
    obtain ⟨m, e, hok, he⟩ := exists_unlucky_stack table g.len checksum
    refine ⟨onStack .zero pre ++ (c, m) :: onStack .zero post, by simp, fun hrun => ?_⟩
    have hhonest := hrun (onStack .zero pre) (c, m) (onStack .zero post) rfl _
      (congrArg Prod.fst (hm m))
    rw [hreveal, he, List.nil_append, List.map_append, map_fst_onStack] at hhonest
    obtain ⟨f', hf', -⟩ := hhonest.1 e rfl hok
    exact hf.not_complete f' hf'

/-- **The exact condition for `handle_char`.** -/
theorem handler_honest_iff {chan : MavlinkChannel} (hidle : chan.Idle) (s : σ)
    {reveal : ω → List UInt8} (hreveal : ∀ t msg, reveal (onMessage t msg).1 =
      mavlinkMsgToSendBuffer msg) (stream : List UInt8) :
    (∀ ins : List (UInt8 × MavlinkMessage), ins.map Prod.fst = stream →
      HonestRun table (handleCharMachine table onMessage) Prod.fst reveal [] (chan, s) ins) ↔
    KeepsErrors table stream := by
  constructor
  · intro h
    by_contra hbad
    obtain ⟨ins, hins, hrun⟩ := handler_dishonest hidle s hreveal hbad
    exact hrun (h ins hins)
  · rintro h ins rfl
    exact handler_honest hidle s hreveal h

end Handler

/-! ## The Decrypt loop -/

/-- The loop of `decrypt_to_msg` with the write it makes for each byte. -/
def decryptLoop (table : MavlinkMsgTable) :
    Machine (MavlinkChannel × MavlinkMessage) UInt8 (Option (List UInt8)) where
  step p c :=
    let r := mavlinkFrameCharBuffer table p.1 c p.2
    (if r.1 ≠ .incomplete then some (mavlinkMsgToSendBuffer r.2.1) else none, (r.2.2, r.2.1))

theorem parseChars_eq_writes (table : MavlinkMsgTable) (p : MavlinkChannel × MavlinkMessage)
    (cs : List UInt8) :
    (parseChars (mavlinkParseChar table) p cs).1 =
      ((decryptLoop table).answers p cs).reduceOption.flatten := by
  induction cs generalizing p with
  | nil => rfl
  | cons c cs ih =>
      have hstate : (parseChar (mavlinkParseChar table) p c).2 = ((decryptLoop table).step p c).2 :=
        parseChar_state _ p c
      have hwrite : (parseChar (mavlinkParseChar table) p c).1 =
          ((decryptLoop table).step p c).1.getD [] := by
        simp only [parseChar, mavlinkParseChar, decryptLoop]
        split <;> simp_all
      show (parseChar (mavlinkParseChar table) p c).1 ++
        (parseChars (mavlinkParseChar table) (parseChar (mavlinkParseChar table) p c).2 cs).1 = _
      rw [Machine.answers_cons, hstate, hwrite]
      cases hstep : ((decryptLoop table).step p c).1 with
      | none => exact ih _
      | some write => exact congrArg (write ++ ·) (ih _)

theorem decryptLoop_chan (table : MavlinkMsgTable) (p : MavlinkChannel × MavlinkMessage)
    (cs : List UInt8) :
    ((decryptLoop table).exec p cs).1 = (parserMachine table).exec p.1 cs := by
  induction cs generalizing p with
  | nil => rfl
  | cons c cs ih => exact ih _

theorem decryptLoop_honest {table : MavlinkMsgTable} {chan : MavlinkChannel}
    {before cs : List UInt8} (htracks : Tracks table chan (arriving before))
    (h : KeepsErrors table (before ++ cs)) (m : MavlinkMessage) :
    HonestRun table (decryptLoop table) id id before (chan, m) cs := by
  rintro pre c post rfl o ho
  set t := (decryptLoop table).exec (chan, m) pre with ht
  have hnow : Tracks table t.1 (arriving (before ++ pre)) := by
    rw [ht, decryptLoop_chan]
    exact tracks_append htracks pre
  have hpre : before ++ (pre ++ [c]) <+: before ++ (pre ++ c :: post) := ⟨post, by simp⟩
  have heffect := (tracks_step hnow c).2
  rw [← arriving_snoc, List.append_assoc] at heffect
  rw [List.map_id]
  rcases heffect with ⟨f, hf, hrep⟩ | ⟨f, hbad, -⟩ | ⟨-, -, hquiet⟩
  · obtain ⟨msg, hsend, hm⟩ := caller_reported (hrep f hf)
    simp only [decryptLoop, (hm t.2).1, (hm t.2).2, ne_eq, not_false_eq_true, if_true, hsend] at ho
    rw [← Option.some.inj ho]
    exact honest_forward h hpre hf
  · exact absurd hbad (h.1 _ hpre f)
  · simp only [decryptLoop, (caller_quiet hquiet t.2).1, ne_eq, not_true_eq_false, if_false] at ho
    cases ho

/-- Every write of a run of comm-crypto-relay's Decrypt is honest. -/
def HonestDecrypt (G : Gcm κ) (table : MavlinkMsgTable) (k : GecSymKey κ) (chan : MavlinkChannel)
    (ins : List (CipherTextFrame × MavlinkMessage)) : Prop :=
  ∀ pre frame m post, ins = pre ++ (frame, m) :: post →
    let t := (decryptToMsgMachine G table).exec (k, chan) pre
    let serial := ((decryptToMsgMachine G table).step t (frame, m)).1.serial
    match acceptedBlock G k frame with
    | none => serial = []
    | some block =>
        serial = ((decryptLoop table).answers (t.2, m) block.toList).reduceOption.flatten ∧
        HonestRun table (decryptLoop table) id id
          (blockBytes (acceptedBlocks G k (pre.map Prod.fst))) (t.2, m) block.toList

theorem decrypt_honest (G : Gcm κ) {table : MavlinkMsgTable} (k : GecSymKey κ)
    {chan : MavlinkChannel} (hidle : chan.Idle) {ins : List (CipherTextFrame × MavlinkMessage)}
    (hframes : ∀ frame ∈ ins.map Prod.fst, HasHeader frame)
    (h : KeepsErrors table (blockBytes (acceptedBlocks G k (ins.map Prod.fst)))) :
    HonestDecrypt G table k chan ins := by
  rintro pre frame m post rfl
  intro t serial
  rw [List.map_append, List.map_cons] at hframes h
  obtain ⟨hkey, hchan⟩ := decryptToMsgMachine_run G table (pre.map Prod.fst)
    (fun f hf => hframes f (List.mem_append_left _ hf)) (s := (k, chan))
    (show SameChannel k k from ⟨rfl, rfl⟩) rfl
  obtain ⟨k', -, hstep⟩ := decryptToMsgMachine_step G table (s := t) hkey
    (hframes frame (List.mem_append_right _ List.mem_cons_self))
  have hserial : serial = _ := congrArg (fun r => r.1.serial) (hstep m)
  cases hb : acceptedBlock G k frame with
  | none =>
      rw [hb] at hserial
      exact hserial
  | some block =>
      rw [hb] at hserial
      refine ⟨hserial.trans (parseChars_eq_writes table _ _), decryptLoop_honest ?_ ?_ m⟩
      · rw [hchan]
        exact tracks_run table hidle _
      · have hsplit : acceptedBlocks G k (pre.map Prod.fst ++ frame :: post.map Prod.fst) =
            acceptedBlocks G k (pre.map Prod.fst) ++ block ::
              acceptedBlocks G k (post.map Prod.fst) := by simp [acceptedBlocks, hb]
        apply h.mono
        rw [hsplit, blockBytes_append, blockBytes_cons, ← List.append_assoc]
        exact List.prefix_append _ _

/-- **When corruption is not laundered.** On every stream and for every stack
content, what Telemetry_TX writes and what the Encrypt relay queues is honest
exactly when no signed frame arrives with a wrong checksum and no unsigned one
with a wrong checksum that is right for the trimmed frame. The same condition
on the decrypted stream is enough for the writes of `decrypt_to_msg`. -/
theorem errors_kept_exactly (G : Gcm κ) (table : MavlinkMsgTable) {chan : MavlinkChannel}
    (hidle : chan.Idle) (enc : EncryptState κ) (k : GecSymKey κ) (stream line : List UInt8) :
    ((∀ ins : List (UInt8 × MavlinkMessage), ins.map Prod.fst = stream →
        HonestRun table (telemetryTxMachine table) Prod.fst id [] (chan, ()) ins) ↔
      KeepsErrors table stream) ∧
    ((∀ ins : List (UInt8 × MavlinkMessage), ins.map Prod.fst = stream →
        HonestRun table (relayEncryptMachine G table) Prod.fst EncryptEmit.queued [] (chan, enc)
          ins) ↔ KeepsErrors table stream) ∧
    (KeepsErrors table (blockBytes (acceptedBlocks G k (readFrames line))) →
      ∀ ins : List (CipherTextFrame × MavlinkMessage), ins.map Prod.fst = readFrames line →
        HonestDecrypt G table k chan ins) := by
  refine ⟨handler_honest_iff hidle () (fun _ _ => rfl) stream,
    handler_honest_iff hidle enc (fun _ _ => rfl) stream, ?_⟩
  rintro h ins hins
  rw [← hins] at h
  exact decrypt_honest G k hidle (hins ▸ readFrames_hasHeader line) h

/-- The signed frame with checksum 0 is written with the checksum that is
right for it, even on a stack of zeros. -/
theorem signed_frame_laundered :
    ¬HonestRun (fun _ => none) (telemetryTxMachine fun _ => none) Prod.fst id [] (.init, ())
      (onStack .zero badSignedFrame.bytes) := by
  intro h
  have hsplit : onStack MavlinkMessage.zero badSignedFrame.bytes =
    onStack .zero (badSignedFrame.bytes.take 24) ++ (0, .zero) :: [] := rfl
  have harr : arriving (badSignedFrame.bytes.take 24 ++ [0]) = badSignedFrame.bytes := by decide
  have hrep := (step_at (fun _ => none) writeMessage idle_init ()
    (badSignedFrame.bytes.take 24) 0).of_bytes harr
  obtain ⟨msg, hsend, hm⟩ := handleChar_reported writeMessage hrep
  have hhonest := h _ _ _ hsplit _ (congrArg Prod.fst (hm .zero))
  rw [List.nil_append, List.map_append, map_fst_onStack] at hhonest
  obtain ⟨f, hf, hok⟩ := hhonest.1 (badSignedFrame.forward fun _ => none) hsend (by decide)
  have hwrong : ¬badSignedFrame.ChecksumOk fun _ => none := by decide
  exact hwrong ((MavFrame.checksumOk_congr _ (harr.symm.trans hf)).mpr hok)

theorem errors_kept_exactly_init :
    MavlinkChannel.init.Idle ∧
    ((∀ ins : List (UInt8 × MavlinkMessage), ins.map Prod.fst = badSignedFrame.bytes →
        HonestRun (fun _ => none) (telemetryTxMachine fun _ => none) Prod.fst id [] (.init, ())
          ins) ↔ KeepsErrors (fun _ => none) badSignedFrame.bytes) :=
  ⟨idle_init, (errors_kept_exactly onceGcm (fun _ => none) idle_init
    { symkey := gecInitSymKeyConfAuth onceGcm (zeros 24), queue := .init }
    (gecInitSymKeyConfAuth onceGcm (zeros 24)) badSignedFrame.bytes []).1⟩

end GecRelay
