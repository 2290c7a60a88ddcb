import GecRelay.Relay.StackContent

/-!
# The two Decrypt components

comm-crypto-relay's Decrypt parses the block of an accepted frame at once.
key-exchange's queues it and drains the queue with
`for (i = 0; i < queue.size; i++)`, which takes half of it; the rest waits for
the next frame. So after `n` frames it has parsed all but a backlog whose
length is known. The first accepted frame makes that 32 bytes, and a message
that ends in them is forwarded only after later frames; the two have written
the same bytes exactly when nothing ends in the backlog. The ground station's
`receive` drains with `while (!queue_empty(&queue))`.
-/

namespace GecRelay

open Foundation

variable {κ σ : Type}

def serialBytes (log : List DecryptTrace) : List UInt8 := log.flatMap DecryptTrace.serial

/-- The bytes left in key-exchange's queue after some frames, from `b` bytes
before. -/
def backlog (G : Gcm κ) (k : GecSymKey κ) : ℕ → List CipherTextFrame → ℕ
  | b, [] => b
  | b, frame :: frames =>
      backlog G k ((b + (blockBytes (acceptedBlock G k frame).toList).length) / 2) frames

/-- No frame ends with `b`, and no wrong checksum of a signed frame. -/
def NothingEnds (table : MavlinkMsgTable) (b : List UInt8) : Prop :=
  (∀ f : MavFrame, b ≠ f.bytes) ∧ ∀ f, ¬BadSigned table f b

/-- Nothing ends in the last `b` bytes. -/
def QuietTail (table : MavlinkMsgTable) (stream : List UInt8) (b : ℕ) : Prop :=
  ∀ pre, pre <+: stream → stream.length < pre.length + b → NothingEnds table (arriving pre)

/-! ## What is written -/

theorem parseChars_append (parse : MavlinkParser σ) (p : σ) (xs ys : List UInt8) :
    (parseChars parse p (xs ++ ys)).1 = (parseChars parse p xs).1 ++
        (parseChars parse (parseChars parse p xs).2 ys).1 ∧
    (parseChars parse p (xs ++ ys)).2 = (parseChars parse (parseChars parse p xs).2 ys).2 := by
  induction xs generalizing p with
  | nil => exact ⟨rfl, rfl⟩
  | cons x xs ih =>
      obtain ⟨hserial, hstate⟩ := ih (parseChar parse p x).2
      simp only [List.cons_append, parseChars, hserial, hstate, List.append_assoc, and_self]

theorem drainQueue_parses (parse : MavlinkParser σ) (i : ℕ) (q : QueueT) (p : σ) :
    let d := drainQueue parse i q p
    d.1.serial = (parseChars parse p d.1.handed).1 ∧
    d.2.2 = (parseChars parse p d.1.handed).2 := by
  induction i, q, p using drainQueue.induct parse with
  | case1 i q p hlt d r ih =>
      rw [drainQueue, if_pos hlt]
      exact ⟨congrArg (r.1 ++ ·) ih.1, ih.2⟩
  | case2 i q p hge =>
      rw [drainQueue, if_neg hge]
      exact ⟨rfl, rfl⟩

/-- The loop leaves half of the queue. -/
theorem drainQueue_size (parse : MavlinkParser σ) (i : ℕ) (q : QueueT) (p : σ)
    (h : i ≤ q.size + 1) : (drainQueue parse i q p).2.1.size = (q.size + i) / 2 := by
  induction i, q, p using drainQueue.induct parse with
  | case1 i q p hlt d r ih =>
      have hsize : d.2.2.size = q.size - 1 := size_dequeue q 0
      rw [drainQueue, if_pos hlt]
      show (drainQueue parse (i + 1) d.2.2 r.2).2.1.size = _
      rw [ih (by omega), hsize]
      congr 1
      omega
  | case2 i q p hge =>
      rw [drainQueue, if_neg hge]
      show q.size = _
      omega

theorem keyExchangeDecrypt_step_parses (G : Gcm κ) (parse : MavlinkParser σ) {k₀ : GecSymKey κ}
    {s : QueuedDecrypt κ σ} (hs : SameChannel s.symkey k₀) (hsize : s.queue.size ≤ 63)
    (frame : CipherTextFrame) :
    let r := (keyExchangeDecryptMachine G parse).step s frame
    r.1.serial = (parseChars parse s.parser r.1.handed).1 ∧
    r.2.parser = (parseChars parse s.parser r.1.handed).2 ∧
    r.2.queue.size =
      (s.queue.size + (blockBytes (acceptedBlock G k₀ frame).toList).length) / 2 := by
  intro r
  obtain ⟨hserial, hparser⟩ := drainQueue_parses parse 0
    (if (gecDecrypt G s.symkey frame.ciphertext).ret ≠ .success then s.queue
      else (s.queue.enqueueAll (gecDecrypt G s.symkey frame.ciphertext).pt.toList).2) s.parser
  refine ⟨hserial, hparser, ?_⟩
  show (drainQueue parse 0 _ s.parser).2.1.size = _
  rw [drainQueue_size parse 0 _ s.parser (Nat.zero_le _), Nat.add_zero]
  congr 1
  rcases gecDecrypt_acceptedBlock G hs frame with ⟨-, ⟨b, hb, hret, hpt⟩ | ⟨hb, hret⟩⟩
  · rw [if_neg (not_not_intro hret), hpt, hb]
    obtain ⟨hcontent, -⟩ := QueueT.enqueueAll_content b.toList (q := s.queue)
      (by rw [List.Vector.toList_length, maxQueueSize]; omega)
    rw [← QueueT.length_content, hcontent, List.length_append, QueueT.length_content]
    simp
  · rw [if_pos hret, hb]
    rfl

/-- key-exchange's Decrypt has parsed what it took from the queue, and its
queue holds the backlog. -/
theorem keyExchangeDecrypt_parses (G : Gcm κ) (parse : MavlinkParser σ) {k₀ : GecSymKey κ}
    (frames : List CipherTextFrame) {s : QueuedDecrypt κ σ} (hs : SameChannel s.symkey k₀)
    (hsize : s.queue.size ≤ 63) :
    let M := keyExchangeDecryptMachine G parse
    serialBytes (M.answers s frames) =
      (parseChars parse s.parser (handedBytes (M.answers s frames))).1 ∧
    (M.exec s frames).queue.size = backlog G k₀ s.queue.size frames := by
  intro M
  induction frames generalizing s with
  | nil => exact ⟨rfl, rfl⟩
  | cons frame frames ih =>
      obtain ⟨-, hkey, hleft⟩ := keyExchangeDecrypt_step G parse hs hsize frame
      obtain ⟨hserial, hparser, hbacklog⟩ := keyExchangeDecrypt_step_parses G parse hs hsize frame
      obtain ⟨hrest, hend⟩ := ih hkey hleft
      constructor
      · have hcat := (parseChars_append parse s.parser (M.step s frame).1.handed
          (handedBytes (M.answers (M.step s frame).2 frames))).1
        rw [← hserial, ← hparser, ← hrest] at hcat
        exact hcat.symm
      · rw [Machine.exec_cons, hend, hbacklog]
        rfl

/-- Started with an empty queue, it has parsed all but the backlog. -/
theorem keyExchangeDecrypt_started (G : Gcm κ) (table : MavlinkMsgTable) (k : GecSymKey κ)
    (chan : MavlinkChannel) (m : MavlinkMessage) (frames : List CipherTextFrame) :
    ∃ parsed left : List UInt8,
      handedBytes ((keyExchangeDecryptMachine G (mavlinkParseChar table)).answers
        { symkey := k, queue := .init, parser := (chan, m) } frames) = parsed ∧
      parsed ++ left = blockBytes (acceptedBlocks G k frames) ∧
      left.length = backlog G k 0 frames ∧
      serialBytes ((keyExchangeDecryptMachine G (mavlinkParseChar table)).answers
        { symkey := k, queue := .init, parser := (chan, m) } frames) =
          (parseChars (mavlinkParseChar table) (chan, m) parsed).1 := by
  have hsame : SameChannel k k := ⟨rfl, rfl⟩
  obtain ⟨hhanded, -⟩ := keyExchangeDecrypt_handed G (mavlinkParseChar table) frames
    (s := { symkey := k, queue := .init, parser := (chan, m) }) hsame (Nat.zero_le 63)
  obtain ⟨hserial, hsize⟩ := keyExchangeDecrypt_parses G (mavlinkParseChar table) frames
    (s := { symkey := k, queue := .init, parser := (chan, m) }) hsame (Nat.zero_le 63)
  rw [QueueT.content_init, List.nil_append] at hhanded
  exact ⟨_, _, rfl, hhanded, (QueueT.length_content _).trans hsize, hserial⟩

/-- The relay hands over everything, whatever is on its stack. -/
theorem relayDecrypt_handed_stack (G : Gcm κ) (table : MavlinkMsgTable) {k₀ : GecSymKey κ}
    (frames : List CipherTextFrame) (hframes : ∀ frame ∈ frames, HasHeader frame)
    {s : GecSymKey κ × MavlinkChannel} (hk : SameChannel s.1 k₀)
    {ins : List (CipherTextFrame × MavlinkMessage)} (hin : ins.map Prod.fst = frames) :
    handedBytes ((decryptToMsgMachine G table).answers s ins) =
      blockBytes (acceptedBlocks G k₀ frames) := by
  induction frames generalizing s ins with
  | nil =>
      rw [List.map_eq_nil_iff] at hin
      subst hin
      rfl
  | cons frame frames ih =>
      obtain ⟨⟨fr, m⟩, rest, rfl, rfl, hrest⟩ := List.map_eq_cons_iff.mp hin
      obtain ⟨k, hk', hstep⟩ := decryptToMsgMachine_step G table hk (hframes fr List.mem_cons_self)
      have htail : ∀ f ∈ frames, HasHeader f := fun f hf => hframes f (List.mem_cons_of_mem fr hf)
      rw [Machine.answers_cons, hstep m, acceptedBlocks_cons]
      rcases acceptedBlock G k₀ fr with _ | b
      · exact ih htail (s := (k, s.2)) hk' hrest
      · have hblock : blockBytes (some b).toList = b.toList := by simp
        have hlater := ih htail (s := (k, (parserMachine table).exec s.2 b.toList)) hk' hrest
        rw [hblock, ← hlater]
        rfl

/-- It writes what the parser does, if its blocks do not show the stack. -/
theorem relayDecrypt_parses (G : Gcm κ) (table : MavlinkMsgTable) {k₀ : GecSymKey κ}
    {done : List (Bytes 64)} (frames : List CipherTextFrame)
    (hframes : ∀ frame ∈ frames, HasHeader frame) {s : GecSymKey κ × MavlinkChannel}
    (hk : SameChannel s.1 k₀) (h : Tracks table s.2 (arriving (blockBytes done)))
    (hcopied : BlocksCopiedFirst table done (acceptedBlocks G k₀ frames))
    {ins : List (CipherTextFrame × MavlinkMessage)} (hin : ins.map Prod.fst = frames)
    (m : MavlinkMessage) :
    serialBytes ((decryptToMsgMachine G table).answers s ins) =
      (parseChars (mavlinkParseChar table) (s.2, m)
        (blockBytes (acceptedBlocks G k₀ frames))).1 := by
  induction frames generalizing done s ins m with
  | nil =>
      rw [List.map_eq_nil_iff] at hin
      subst hin
      rfl
  | cons frame frames ih =>
      obtain ⟨⟨fr, m'⟩, rest, rfl, rfl, hrest⟩ := List.map_eq_cons_iff.mp hin
      obtain ⟨k, hk', hstep⟩ := decryptToMsgMachine_step G table hk (hframes fr List.mem_cons_self)
      have htail : ∀ f ∈ frames, HasHeader f := fun f hf => hframes f (List.mem_cons_of_mem fr hf)
      rw [Machine.answers_cons, hstep m', acceptedBlocks_cons]
      rw [acceptedBlocks, List.filterMap_cons] at hcopied
      cases hb : acceptedBlock G k₀ fr with
      | none =>
          rw [hb] at hcopied
          exact ih htail (s := (k, s.2)) hk' h hcopied hrest m
      | some b =>
          rw [hb] at hcopied
          -- the block does not show the stack, so any stack will do for it
          obtain ⟨hfirst, hmore⟩ := blocksCopiedFirst_cons hcopied
          have hblock : blockBytes (some b).toList = b.toList := by simp
          have hlater := ih htail (s := (k, (parserMachine table).exec s.2 b.toList)) hk'
            (tracks_block h b) hmore hrest
            (parseChars (mavlinkParseChar table) (s.2, m) b.toList).2.2
          have hstate : ((parserMachine table).exec s.2 b.toList,
              (parseChars (mavlinkParseChar table) (s.2, m) b.toList).2.2) =
              (parseChars (mavlinkParseChar table) (s.2, m) b.toList).2 := by
            exact congrArg (·, _) (parseChars_chan (s.2, m) b.toList).symm
          rw [hblock, (parseChars_append _ _ _ _).1, parseChars_copiedFirst h hfirst m m']
          simp only [hstate] at hlater
          exact congrArg (_ ++ ·) hlater

/-! ## The backlog -/

theorem sendBuffer_ne_nil (msg : MavlinkMessage) : mavlinkMsgToSendBuffer msg ≠ [] := by
  intro h
  have := (length_mavlinkMsgToSendBuffer msg).1
  rw [h] at this
  exact absurd this (by decide)

theorem forall_prefix_cons {P : List UInt8 → Prop} {c : UInt8} {cs : List UInt8} :
    (∀ pre, pre <+: c :: cs → pre ≠ [] → P pre) ↔
      P [c] ∧ ∀ pre, pre <+: cs → pre ≠ [] → P (c :: pre) := by
  constructor
  · intro h
    exact ⟨h [c] ⟨cs, rfl⟩ (List.cons_ne_nil c []), fun pre hpre _ =>
      h (c :: pre) (List.cons_prefix_cons.mpr ⟨rfl, hpre⟩) (List.cons_ne_nil c pre)⟩
  · rintro ⟨hone, hmore⟩ pre hpre hne
    obtain ⟨x, pre, rfl⟩ := List.exists_cons_of_ne_nil hne
    obtain ⟨rfl, hpre'⟩ := List.cons_prefix_cons.mp hpre
    by_cases hnil : pre = []
    · rw [hnil]
      exact hone
    · exact hmore pre hpre' hnil

/-- Nothing is written for bytes in which nothing ends. -/
theorem parseChars_eq_nil_iff {table : MavlinkMsgTable} {chan : MavlinkChannel}
    {done cs : List UInt8} (h : Tracks table chan (arriving done)) (m : MavlinkMessage) :
    (parseChars (mavlinkParseChar table) (chan, m) cs).1 = [] ↔
      ∀ pre, pre <+: cs → pre ≠ [] → NothingEnds table (arriving (done ++ pre)) := by
  induction cs generalizing chan done m with
  | nil => simp [parseChars]
  | cons c cs ih =>
      obtain ⟨htracks, heffect⟩ := tracks_step h c
      rw [← arriving_snoc] at htracks heffect
      rw [forall_prefix_cons]
      simp only [parseChars, List.append_eq_nil_iff]
      rcases heffect with ⟨f, hf, hrep⟩ | ⟨f, hbad, hunc⟩ | ⟨hno, hgood, hquiet⟩
      · obtain ⟨msg, hmsg⟩ := parseChar_reported (hrep f hf)
        rw [hmsg m]
        refine ⟨fun hnil => ?_, fun hq => absurd hf (hq.1.1 f)⟩
        obtain ⟨before, x, hsnoc⟩ := (f.forward table).exists_bytes_snoc
        simp [hsnoc] at hnil
      · obtain ⟨checksum, -, hmsg⟩ := parseChar_uncopied hunc
        rw [hmsg m]
        exact ⟨fun hnil => absurd hnil.1 (sendBuffer_ne_nil _), fun hq => absurd hbad (hq.1.2 f)⟩
      · obtain ⟨len, hlen⟩ := parseChar_quiet hquiet m
        rw [hlen]
        simp only [true_and, ih htracks, List.append_assoc, List.singleton_append]
        exact ⟨fun hq => ⟨⟨hno, hgood⟩, hq⟩, fun hq => hq.2⟩

theorem quietTail_iff {table : MavlinkMsgTable} {parsed left : List UInt8} :
    QuietTail table (parsed ++ left) left.length ↔
      ∀ pre, pre <+: left → pre ≠ [] → NothingEnds table (arriving (parsed ++ pre)) := by
  constructor
  · intro h pre hpre hne
    apply h (parsed ++ pre) ((List.prefix_append_right_inj parsed).mpr hpre)
    have := List.length_pos_iff.mpr hne
    simp only [List.length_append]
    omega
  · intro h pre hpre hlen
    rw [List.length_append] at hlen
    obtain ⟨p, rfl⟩ : ∃ p, pre = parsed ++ p := by
      obtain ⟨r, hr⟩ := hpre
      rcases List.append_eq_append_iff.mp hr with ⟨a, ha, -⟩ | ⟨a, ha, -⟩
      · have hshort := congrArg List.length ha
        rw [List.length_append] at hshort
        omega
      · exact ⟨a, ha⟩
    refine h p ((List.prefix_append_right_inj parsed).mp hpre) ?_
    rintro rfl
    simp at hlen

/-! ## Agreement -/

/-- After every frame the two components have written the same bytes, whatever
is on their stacks. `m` is the `msg` of key-exchange's `run`, which lives as
long as the component. -/
def SerialsAgree (G : Gcm κ) (table : MavlinkMsgTable) (k : GecSymKey κ) (chan : MavlinkChannel)
    (frames : List CipherTextFrame) : Prop :=
  ∀ (ins : List (CipherTextFrame × MavlinkMessage)) (m : MavlinkMessage) (n : ℕ),
    ins.map Prod.fst = frames →
    serialBytes ((decryptToMsgMachine G table).answers (k, chan) (ins.take n)) =
      serialBytes ((keyExchangeDecryptMachine G (mavlinkParseChar table)).answers
        { symkey := k, queue := .init, parser := (chan, m) } (frames.take n))

/-- What holds of the two components once they have processed the same frames:
all that was decrypted is parsed in both, both have written the same, and it
is all that the parser has to write for the bytes decrypted. -/
structure InStep (table : MavlinkMsgTable) (chan : MavlinkChannel) (m : MavlinkMessage)
    (decrypted : List UInt8) (relay keyExchange : List DecryptTrace) : Prop where
  parsed : handedBytes relay = decrypted ∧ handedBytes keyExchange = decrypted
  serial : serialBytes relay = serialBytes keyExchange
  forwarded : serialBytes keyExchange =
    (parseChars (mavlinkParseChar table) (chan, m) decrypted).1

/-- **The two components agree**: they are in step after every frame, whatever
is on their stacks. -/
def DecryptsAgree (G : Gcm κ) (table : MavlinkMsgTable) (k : GecSymKey κ) (chan : MavlinkChannel)
    (frames : List CipherTextFrame) : Prop :=
  ∀ (ins : List (CipherTextFrame × MavlinkMessage)) (m : MavlinkMessage) (n : ℕ),
    ins.map Prod.fst = frames →
    InStep table chan m (blockBytes (acceptedBlocks G k (frames.take n)))
      ((decryptToMsgMachine G table).answers (k, chan) (ins.take n))
      ((keyExchangeDecryptMachine G (mavlinkParseChar table)).answers
        { symkey := k, queue := .init, parser := (chan, m) } (frames.take n))

theorem DecryptsAgree.serials {G : Gcm κ} {table : MavlinkMsgTable} {k : GecSymKey κ}
    {chan : MavlinkChannel} {frames : List CipherTextFrame}
    (h : DecryptsAgree G table k chan frames) : SerialsAgree G table k chan frames :=
  fun ins m n hins => (h ins m n hins).serial

theorem BlocksCopiedFirst.mono {table : MavlinkMsgTable} {done blocks blocks' : List (Bytes 64)}
    (h : BlocksCopiedFirst table done blocks') (hpre : blocks <+: blocks') :
    BlocksCopiedFirst table done blocks := by
  intro mid block rest hblocks
  obtain ⟨more, rfl⟩ := hpre
  exact h mid block (rest ++ more) (by rw [hblocks]; simp)

/-- After a number of frames. -/
theorem serial_eq_iff (G : Gcm κ) {table : MavlinkMsgTable} (k : GecSymKey κ)
    {chan : MavlinkChannel} (hidle : chan.Idle) {frames : List CipherTextFrame}
    (hframes : ∀ frame ∈ frames, HasHeader frame)
    (hcopied : BlocksCopiedFirst table [] (acceptedBlocks G k frames))
    {ins : List (CipherTextFrame × MavlinkMessage)} (hin : ins.map Prod.fst = frames)
    (m : MavlinkMessage) :
    serialBytes ((decryptToMsgMachine G table).answers (k, chan) ins) =
      serialBytes ((keyExchangeDecryptMachine G (mavlinkParseChar table)).answers
        { symkey := k, queue := .init, parser := (chan, m) } frames) ↔
    QuietTail table (blockBytes (acceptedBlocks G k frames)) (backlog G k 0 frames) := by
  obtain ⟨parsed, left, -, hall, hleft, hserial⟩ :=
    keyExchangeDecrypt_started G table k chan m frames
  have hstart : Tracks table chan (arriving (blockBytes [])) := tracks_run table hidle []
  have hrelay := relayDecrypt_parses G table frames hframes (s := (k, chan)) ⟨rfl, rfl⟩ hstart
    hcopied hin m
  -- the relay's bytes are those of `parsed`, and what `left` gives behind them
  rw [hrelay, hserial, ← hall, (parseChars_append _ _ _ _).1, List.append_right_eq_self, ← hleft,
    quietTail_iff]
  have htracks := tracks_run table hidle parsed
  rw [← parseChars_chan (chan, m)] at htracks
  exact parseChars_eq_nil_iff htracks _

/-- A block that shows the stack makes the relay differ from itself, so not
both its runs can be what key-exchange writes. -/
theorem SerialsAgree.copiedFirst {G : Gcm κ} {table : MavlinkMsgTable} {k : GecSymKey κ}
    {chan : MavlinkChannel} (hidle : chan.Idle) {frames : List CipherTextFrame}
    (hframes : ∀ frame ∈ frames, HasHeader frame) (h : SerialsAgree G table k chan frames) :
    BlocksCopiedFirst table [] (acceptedBlocks G k frames) := by
  by_contra hbad
  obtain ⟨pre, fr, post, rfl, hshow⟩ := exists_shown_stack G table k hidle hframes hbad
  have hwrites : ∀ m : MavlinkMessage,
      serialBytes ((decryptToMsgMachine G table).answers (k, chan)
        (onStack .zero pre ++ [(fr, m)])) =
      serialBytes ((keyExchangeDecryptMachine G (mavlinkParseChar table)).answers
        { symkey := k, queue := .init, parser := (chan, .zero) }
        ((pre ++ fr :: post).take (pre.length + 1))) := by
    intro m
    have hm := h (onStack .zero pre ++ (fr, m) :: onStack .zero post) .zero (pre.length + 1)
      (by simp)
    rw [← hm]
    congr 2
    simp [List.take_append, onStack]
  have heq := (hwrites .zero).trans (hwrites otherMagic).symm
  simp only [Machine.answers_append, Machine.answers_cons, Machine.answers_nil, serialBytes,
    List.flatMap_append, List.append_cancel_left_eq, List.flatMap_cons, List.flatMap_nil,
    List.append_nil] at heq
  have hmagic := congrArg List.head? heq
  rw [hshow, hshow] at hmagic
  exact absurd (Option.some.inj hmagic) (show (0 : UInt8) ≠ 1 by decide)

theorem acceptedBlocks_take (G : Gcm κ) (k : GecSymKey κ) (frames : List CipherTextFrame) (n : ℕ) :
    acceptedBlocks G k (frames.take n) <+: acceptedBlocks G k frames :=
  (List.take_prefix n frames).filterMap (acceptedBlock G k)

theorem SerialsAgree.quietTail {G : Gcm κ} {table : MavlinkMsgTable} {k : GecSymKey κ}
    {chan : MavlinkChannel} (hidle : chan.Idle) {frames : List CipherTextFrame}
    (hframes : ∀ frame ∈ frames, HasHeader frame) (h : SerialsAgree G table k chan frames)
    (n : ℕ) :
    QuietTail table (blockBytes (acceptedBlocks G k (frames.take n)))
      (backlog G k 0 (frames.take n)) := by
  have hcopied := (h.copiedFirst hidle hframes).mono (acceptedBlocks_take G k frames n)
  have hn : ∀ frame ∈ frames.take n, HasHeader frame :=
    fun frame hf => hframes frame (List.mem_of_mem_take hf)
  have hins : ((onStack .zero frames).take n).map Prod.fst = frames.take n := by
    rw [List.map_take, map_fst_onStack]
  exact (serial_eq_iff G k hidle hn hcopied hins .zero).mp
    (h (onStack .zero frames) .zero n (map_fst_onStack .zero frames))

theorem serials_agree_iff (G : Gcm κ) (table : MavlinkMsgTable) (k : GecSymKey κ)
    {chan : MavlinkChannel} (hidle : chan.Idle) {frames : List CipherTextFrame}
    (hframes : ∀ frame ∈ frames, HasHeader frame) :
    SerialsAgree G table k chan frames ↔
      (∀ n, QuietTail table (blockBytes (acceptedBlocks G k (frames.take n)))
        (backlog G k 0 (frames.take n))) ∧
      BlocksCopiedFirst table [] (acceptedBlocks G k frames) := by
  constructor
  · intro h
    exact ⟨h.quietTail hidle hframes, h.copiedFirst hidle hframes⟩
  · rintro ⟨hquiet, hcopied⟩ ins m n hins
    have hn : ∀ frame ∈ frames.take n, HasHeader frame :=
      fun frame hf => hframes frame (List.mem_of_mem_take hf)
    refine (serial_eq_iff G k hidle hn (hcopied.mono (acceptedBlocks_take G k frames n)) ?_ m).mpr
      (hquiet n)
    rw [List.map_take, hins]

/-- The first frame that is accepted leaves half of its block in the queue. -/
theorem acceptedBlocks_eq_nil_of_backlog (G : Gcm κ) (k : GecSymKey κ)
    {frames : List CipherTextFrame} (h : ∀ n, backlog G k 0 (frames.take n) = 0) :
    acceptedBlocks G k frames = [] := by
  induction frames with
  | nil => rfl
  | cons frame frames ih =>
      have hfirst := h 1
      simp only [List.take_succ_cons, List.take_zero, backlog, Nat.zero_add] at hfirst
      rw [acceptedBlocks, List.filterMap_cons]
      cases hb : acceptedBlock G k frame with
      | some b => simp [hb] at hfirst
      | none =>
          refine ih fun n => ?_
          have hnext := h (n + 1)
          rw [List.take_succ_cons, backlog, hb] at hnext
          exact hnext

theorem DecryptsAgree.backlog_eq_zero {G : Gcm κ} {table : MavlinkMsgTable} {k : GecSymKey κ}
    {chan : MavlinkChannel} {frames : List CipherTextFrame}
    (h : DecryptsAgree G table k chan frames) (n : ℕ) : backlog G k 0 (frames.take n) = 0 := by
  have hstep := (h (onStack .zero frames) .zero n (map_fst_onStack .zero frames)).parsed.2
  obtain ⟨parsed, left, hparsed, hall, hleft, -⟩ :=
    keyExchangeDecrypt_started G table k chan .zero (frames.take n)
  rw [← hparsed, hstep, List.append_right_eq_self] at hall
  rw [← hleft, hall]
  rfl

/-- Nothing was decrypted, so there is nothing to be late with. -/
theorem inStep_of_rejected (G : Gcm κ) (table : MavlinkMsgTable) (k : GecSymKey κ)
    {chan : MavlinkChannel} (hidle : chan.Idle) {frames : List CipherTextFrame}
    (hframes : ∀ frame ∈ frames, HasHeader frame) (hnone : acceptedBlocks G k frames = [])
    {ins : List (CipherTextFrame × MavlinkMessage)} (hin : ins.map Prod.fst = frames)
    (m : MavlinkMessage) :
    InStep table chan m []
      ((decryptToMsgMachine G table).answers (k, chan) ins)
      ((keyExchangeDecryptMachine G (mavlinkParseChar table)).answers
        { symkey := k, queue := .init, parser := (chan, m) } frames) := by
  have hstart : Tracks table chan (arriving (blockBytes [])) := tracks_run table hidle []
  have hcopied : BlocksCopiedFirst table [] (acceptedBlocks G k frames) := by
    intro mid block rest hblocks
    rw [hnone] at hblocks
    exact absurd hblocks (by simp)
  have hrelay := relayDecrypt_handed_stack G table frames hframes (s := (k, chan)) ⟨rfl, rfl⟩ hin
  have hwritten := relayDecrypt_parses G table frames hframes (s := (k, chan)) ⟨rfl, rfl⟩ hstart
    hcopied hin m
  obtain ⟨parsed, left, hparsed, hall, -, hserial⟩ :=
    keyExchangeDecrypt_started G table k chan m frames
  rw [hnone] at hrelay hwritten hall
  obtain ⟨rfl, -⟩ := List.append_eq_nil_iff.mp hall
  exact ⟨⟨hrelay, hparsed⟩, hwritten.trans hserial.symm, hserial⟩

/-- **When the two Decrypt components agree.** For every sequence of frames:
they are in step after each frame exactly when none of the frames is accepted,
for the first accepted one leaves half of its block in key-exchange's queue.
What they write is the same after each frame exactly when nothing ends in what
is left in the queue, and no block shows the relay's stack. -/
theorem decrypts_agree_exactly (G : Gcm κ) (table : MavlinkMsgTable) (k : GecSymKey κ)
    {chan : MavlinkChannel} (hidle : chan.Idle) {frames : List CipherTextFrame}
    (hframes : ∀ frame ∈ frames, HasHeader frame) :
    (DecryptsAgree G table k chan frames ↔ acceptedBlocks G k frames = []) ∧
    (SerialsAgree G table k chan frames ↔
      (∀ n, QuietTail table (blockBytes (acceptedBlocks G k (frames.take n)))
        (backlog G k 0 (frames.take n))) ∧
      BlocksCopiedFirst table [] (acceptedBlocks G k frames)) := by
  refine ⟨⟨fun h => acceptedBlocks_eq_nil_of_backlog G k h.backlog_eq_zero, ?_⟩,
    serials_agree_iff G table k hidle hframes⟩
  intro hnone ins m n hins
  have hn : ∀ frame ∈ frames.take n, HasHeader frame :=
    fun frame hf => hframes frame (List.mem_of_mem_take hf)
  have hbefore := acceptedBlocks_take G k frames n
  rw [hnone, List.prefix_nil] at hbefore
  rw [hbefore]
  refine inStep_of_rejected G table k hidle hn hbefore ?_ m
  rw [List.map_take, hins]

def lastCommand : MavFrame := .ofUnknown (.v1 0 1 1 76) [] MavFrame.empty_payload_le

theorem length_lastCommand : (List.replicate 56 0 ++ lastCommand.bytes).length = 64 := by decide

/-- A command at the end of a block. -/
def lastCommandBlock : Bytes 64 := ⟨List.replicate 56 0 ++ lastCommand.bytes, length_lastCommand⟩

def lastCommandFrame : CipherTextFrame where
  magic := gecCiphertextFrameMagic
  tag := gecCiphertextFrameTag
  ciphertext := frameOf (writeWord32Be 1) lastCommandBlock firstIv

theorem lastCommandFrame_hasHeader : ∀ frame ∈ [lastCommandFrame], HasHeader frame := by
  intro frame hf
  rw [List.mem_singleton.mp hf]
  exact ⟨rfl, rfl⟩

theorem lastCommandFrame_accepted :
    acceptedBlocks plainGcm (gecInitSymKeyConfAuth plainGcm (zeros 24)) [lastCommandFrame] =
      [lastCommandBlock] := by
  decide

theorem lastCommandFrame_backlog :
    backlog plainGcm (gecInitSymKeyConfAuth plainGcm (zeros 24)) 0 [lastCommandFrame] = 32 := by
  decide

/-- Zeros start no frame. -/
theorem arriving_zeros (n : ℕ) : (List.replicate n 0).foldl delimit [] = [] := by
  induction n with
  | zero => rfl
  | succ n ih =>
      rw [List.replicate_succ, List.foldl_cons]
      exact ih

theorem lastCommandBlock_arrives : arriving lastCommandBlock.toList = lastCommand.bytes := by
  show (List.replicate 56 0 ++ lastCommand.bytes).foldl delimit [] = lastCommand.bytes
  rw [List.foldl_append, arriving_zeros]
  decide

/-- The command waits in key-exchange's queue, in the last 32 bytes: the relay
has written it, key-exchange has not. -/
theorem last_command_delayed :
    ¬DecryptsAgree plainGcm (fun _ => none) (gecInitSymKeyConfAuth plainGcm (zeros 24)) .init
      [lastCommandFrame] ∧
    ¬SerialsAgree plainGcm (fun _ => none) (gecInitSymKeyConfAuth plainGcm (zeros 24)) .init
      [lastCommandFrame] := by
  refine and_iff_right_of_imp (mt DecryptsAgree.serials) |>.mpr fun h => ?_
  have hquiet := h.quietTail idle_init lastCommandFrame_hasHeader 1
  have hbytes : blockBytes [lastCommandBlock] = lastCommandBlock.toList := by simp
  rw [List.take_of_length_le (Nat.le_refl 1), lastCommandFrame_backlog, lastCommandFrame_accepted,
    hbytes] at hquiet
  exact (hquiet lastCommandBlock.toList List.prefix_rfl (Nat.lt_add_of_pos_right (by decide))).1
    lastCommand lastCommandBlock_arrives

/-- The same command with a tag that does not open. -/
def forgedCommandFrame : CipherTextFrame :=
  { lastCommandFrame with ciphertext := frameOf (writeWord32Be 1) lastCommandBlock (zeros 12) }

theorem decrypts_agree_exactly_last_command :
    let k := gecInitSymKeyConfAuth plainGcm (zeros 24)
    let frames := [forgedCommandFrame, lastCommandFrame]
    MavlinkChannel.init.Idle ∧ (∀ frame ∈ frames, HasHeader frame) ∧
    acceptedBlocks plainGcm k frames = [lastCommandBlock] ∧
    DecryptsAgree plainGcm (fun _ => none) k .init [forgedCommandFrame] ∧
    ¬DecryptsAgree plainGcm (fun _ => none) k .init frames := by
  intro k frames
  have hforged : ∀ frame ∈ [forgedCommandFrame], HasHeader frame := by
    intro frame hf
    rw [List.mem_singleton.mp hf]
    exact ⟨rfl, rfl⟩
  have hframes : ∀ frame ∈ frames, HasHeader frame := by
    intro frame hf
    rcases List.mem_cons.mp hf with rfl | hf
    · exact ⟨rfl, rfl⟩
    · exact lastCommandFrame_hasHeader frame hf
  have haccepted : acceptedBlocks plainGcm k frames = [lastCommandBlock] := by decide
  refine ⟨idle_init, hframes, haccepted, ?_, ?_⟩
  · exact (decrypts_agree_exactly plainGcm (fun _ => none) k idle_init hforged).1.mpr (by decide)
  · rw [(decrypts_agree_exactly plainGcm (fun _ => none) k idle_init hframes).1, haccepted]
    exact List.cons_ne_nil _ _

end GecRelay
