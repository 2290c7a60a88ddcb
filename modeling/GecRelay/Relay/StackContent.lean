import GecRelay.Relay.HandleChar
import GecRelay.Relay.Decrypt

/-!
# What the stack lets through

The local `mavlink_message_t` of the byte handlers is not initialised. The
parser copies a message into it when a frame is complete, but at the second
checksum byte of a signed frame with a wrong checksum it answers
`MAVLINK_FRAMING_BAD_CRC` without a copy, and the handlers serialise what the
stack held. So the output is a function of the stream exactly when no such
frame comes; in `decrypt_to_msg`, where one `msg` serves the 64 bytes of a
block, exactly when another frame ended before it in the same block.
-/

namespace GecRelay

open Foundation

variable {κ : Type}

/-- What a machine says depends on its inputs alone, not on the stack content
that comes with each. -/
def StackIndependent {σ ι ω : Type} (M : Machine σ (ι × MavlinkMessage) ω) (s : σ)
    (inputs : List ι) : Prop :=
  ∀ ins ins' : List (ι × MavlinkMessage), ins.map Prod.fst = inputs → ins'.map Prod.fst = inputs →
    M.answers s ins = M.answers s ins'

/-- No signed frame of the stream arrives with a wrong checksum. -/
def NoBadSigned (table : MavlinkMsgTable) (stream : List UInt8) : Prop :=
  ∀ pre, pre <+: stream → ∀ f, ¬BadSigned table f (arriving pre)

theorem head?_sendBuffer (msg : MavlinkMessage) :
    (mavlinkMsgToSendBuffer msg).head? = some msg.magic := by
  rw [mavlinkMsgToSendBuffer]
  split <;> rfl

/-! ## `handle_char` -/

section Handler

variable {σ ω : Type} {table : MavlinkMsgTable} {onMessage : σ → MavlinkMessage → ω × σ}

/-- A byte that does not end a wrong checksum does the same on any stack. -/
theorem handleChar_stack {s : MavlinkChannel × σ} {b : List UInt8} (h : Tracks table s.1 b)
    {c : UInt8} (hgood : ∀ f, ¬BadSigned table f (delimit b c)) (m m' : MavlinkMessage) :
    handleChar table onMessage s (c, m) = handleChar table onMessage s (c, m') := by
  rcases (tracks_step h c).2 with ⟨f, hf, hrep⟩ | ⟨f, hbad, -⟩ | ⟨-, -, hquiet⟩
  · obtain ⟨msg, -, hm⟩ := handleChar_reported onMessage (hrep f hf)
    rw [hm m, hm m']
  · exact absurd hbad (hgood f)
  · rw [handleChar_quiet onMessage (c, m) hquiet, handleChar_quiet onMessage (c, m') hquiet]

theorem answers_stack (done : List UInt8) {s : MavlinkChannel × σ}
    (h : Tracks table s.1 (arriving done)) {ins ins' : List (UInt8 × MavlinkMessage)}
    (hsame : ins.map Prod.fst = ins'.map Prod.fst)
    (hgood : ∀ pre, pre <+: ins.map Prod.fst → ∀ f, ¬BadSigned table f (arriving (done ++ pre))) :
    (handleCharMachine table onMessage).answers s ins =
      (handleCharMachine table onMessage).answers s ins' := by
  induction ins generalizing done s ins' with
  | nil =>
      rw [List.map_nil, eq_comm, List.map_eq_nil_iff] at hsame
      rw [hsame]
  | cons input ins ih =>
      rw [List.map_cons, eq_comm, List.map_eq_cons_iff] at hsame
      obtain ⟨input', ins'', rfl, hbyte, hrest⟩ := hsame
      obtain ⟨c, m⟩ := input
      obtain ⟨c', m'⟩ := input'
      obtain rfl : c' = c := hbyte
      have hnext : delimit (arriving done) c' = arriving (done ++ [c']) :=
        (arriving_snoc done c').symm
      have hstep : (handleCharMachine table onMessage).step s (c', m) =
          (handleCharMachine table onMessage).step s (c', m') :=
        handleChar_stack h (hnext ▸ hgood [c'] ⟨_, rfl⟩) m m'
      have hchan : ((handleCharMachine table onMessage).step s (c', m)).2.1 =
          (switchChar table s.1 c').advance := exec_chan onMessage s [(c', m)]
      rw [Machine.answers_cons, Machine.answers_cons, ← hstep]
      congr 1
      refine ih (done ++ [c']) ?_ hrest.symm fun pre hpre f => ?_
      · rw [hchan, ← hnext]
        exact (tracks_step h c').1
      · rw [List.append_assoc, List.singleton_append]
        exact hgood (c' :: pre) (List.cons_prefix_cons.mpr ⟨rfl, hpre⟩) f

/-- The byte that ends a wrong checksum, at its place in the stream. -/
theorem exists_bad_byte {stream : List UInt8} (hbad : ¬NoBadSigned table stream) :
    ∃ pre c post f, stream = pre ++ c :: post ∧ BadSigned table f (arriving (pre ++ [c])) := by
  simp only [NoBadSigned, not_forall, not_not] at hbad
  obtain ⟨p, ⟨post, rfl⟩, f, hf⟩ := hbad
  rcases List.eq_nil_or_concat p with rfl | ⟨pre, c, rfl⟩
  · have hlen := f.eight_le_length_upToChecksum
    rw [← hf.1] at hlen
    exact absurd hlen (by decide)
  · rw [List.concat_eq_append] at hf ⊢
    exact ⟨pre, c, post, f, by simp, hf⟩

/-- Two stacks with different magic bytes. -/
def otherMagic : MavlinkMessage := { MavlinkMessage.zero with magic := 1 }

def onStack {ι : Type} (m : MavlinkMessage) (xs : List ι) : List (ι × MavlinkMessage) :=
  xs.map fun x => (x, m)

@[simp] theorem map_fst_onStack {ι : Type} (m : MavlinkMessage) (xs : List ι) :
    (onStack m xs).map Prod.fst = xs := by
  rw [onStack, List.map_map]
  exact List.map_id xs

/-- A wrong checksum of a signed frame shows the magic byte of the stack. -/
theorem answers_differ {chan : MavlinkChannel} (hidle : chan.Idle) (s : σ)
    (reveal : ω → List UInt8) (hreveal : ∀ t msg, reveal (onMessage t msg).1 =
      mavlinkMsgToSendBuffer msg) {stream : List UInt8} (hbad : ¬NoBadSigned table stream) :
    ¬StackIndependent (handleCharMachine table onMessage) (chan, s) stream := by
  obtain ⟨pre, c, post, f, rfl, hf⟩ := exists_bad_byte hbad
  set t := (handleCharMachine table onMessage).exec (chan, s) (onStack .zero pre) with ht
  have htracks : Tracks table t.1 (arriving pre) := by
    rw [ht, exec_chan, map_fst_onStack]
    exact tracks_run table hidle pre
  have heffect := (tracks_step htracks c).2
  rw [← arriving_snoc] at heffect
  obtain ⟨g, hunc, -⟩ := heffect.of_bad hf
  obtain ⟨checksum, -, hm⟩ := handleChar_uncopied onMessage hunc
  intro hsame
  have heq := hsame (onStack .zero pre ++ (c, .zero) :: onStack .zero post)
    (onStack .zero pre ++ (c, otherMagic) :: onStack .zero post) (by simp) (by simp)
  rw [Machine.answers_append, Machine.answers_append, List.append_cancel_left_eq,
    Machine.answers_cons, Machine.answers_cons, List.cons.injEq] at heq
  have hstep : (handleChar table onMessage t (c, .zero)).1 =
    (handleChar table onMessage t (c, otherMagic)).1 := heq.1
  rw [hm, hm] at hstep
  have hbytes := congrArg reveal (Option.some.inj hstep)
  rw [hreveal, hreveal] at hbytes
  have hmagic := congrArg List.head? hbytes
  rw [head?_sendBuffer, head?_sendBuffer] at hmagic
  exact absurd (Option.some.inj hmagic) (show (0 : UInt8) ≠ 1 by decide)

/-- **The exact condition for `handle_char`.** -/
theorem stack_independent_iff {chan : MavlinkChannel} (hidle : chan.Idle) (s : σ)
    (reveal : ω → List UInt8) (hreveal : ∀ t msg, reveal (onMessage t msg).1 =
      mavlinkMsgToSendBuffer msg) (stream : List UInt8) :
    StackIndependent (handleCharMachine table onMessage) (chan, s) stream ↔
      NoBadSigned table stream := by
  constructor
  · intro h
    by_contra hbad
    exact answers_differ hidle s reveal hreveal hbad h
  · intro hgood ins ins' hins hins'
    refine answers_stack [] (tracks_run table hidle []) (hins.trans hins'.symm) ?_
    rw [hins]
    exact hgood

end Handler

/-! ## `decrypt_to_msg` -/

/-- `my_mavlink_parse_char` with the static buffers and the caller's `msg`. -/
def mavlinkParseChar (table : MavlinkMsgTable) : MavlinkParser (MavlinkChannel × MavlinkMessage) :=
  fun p c =>
    let r := mavlinkFrameCharBuffer table p.1 c p.2
    (if r.1 ≠ .incomplete then some r.2.1 else none, (r.2.2, r.2.1))

/-- comm-crypto-relay's Decrypt; an input is a frame and the content of the
local `msg` at the call. -/
def decryptToMsgMachine (G : Gcm κ) (table : MavlinkMsgTable) :
    Machine (GecSymKey κ × MavlinkChannel) (CipherTextFrame × MavlinkMessage) DecryptTrace where
  step s input :=
    let r := decryptToMsg G (mavlinkParseChar table)
      { symkey := s.1, parser := (s.2, input.2) } input.1
    (r.2.1, (r.2.2.symkey, r.2.2.parser.1))

/-- Every wrong checksum of a signed frame comes after the end of a frame in
the same block. `done` is what came before the block. -/
def CopiedFirst (table : MavlinkMsgTable) (done block : List UInt8) : Prop :=
  ∀ pre, pre <+: block → pre ≠ [] → (∃ f, BadSigned table f (arriving (done ++ pre))) →
    ∃ p, p <+: pre ∧ p ≠ [] ∧ ∃ g : MavFrame, arriving (done ++ p) = g.bytes

section Block

variable {table : MavlinkMsgTable}

theorem parseChar_state {σ : Type} (parse : MavlinkParser σ) (p : σ) (c : UInt8) :
    (parseChar parse p c).2 = (parse p c).2 := by
  rw [parseChar]
  rcases parse p c with ⟨_ | msg, p'⟩ <;> rfl

theorem parseChar_quiet {chan : MavlinkChannel} {c : UInt8}
    (h : (switchChar table chan c).Quiet) (m : MavlinkMessage) :
    ∃ len : UInt8, parseChar (mavlinkParseChar table) (chan, m) c =
      ([], ((switchChar table chan c).advance, { m with len := len })) := by
  obtain ⟨hret, len, hmsg⟩ := caller_quiet h m
  refine ⟨len, ?_⟩
  simp only [parseChar, mavlinkParseChar, hret, hmsg, ne_eq, not_true_eq_false, if_false]
  rfl

theorem parseChar_reported {chan : MavlinkChannel} {c : UInt8} {f : MavFrame}
    (h : Reported table f (switchChar table chan c)) :
    ∃ msg : MavlinkMessage, ∀ m : MavlinkMessage,
      parseChar (mavlinkParseChar table) (chan, m) c =
        ((f.forward table).bytes, ((switchChar table chan c).advance, msg)) := by
  obtain ⟨msg, hsend, hm⟩ := caller_reported h
  refine ⟨msg, fun m => ?_⟩
  simp only [parseChar, mavlinkParseChar, (hm m).1, (hm m).2, ne_eq, not_false_eq_true, if_true,
    hsend]
  rfl

theorem parseChar_uncopied {chan : MavlinkChannel} {c : UInt8} {f : MavFrame}
    (h : Uncopied table f (switchChar table chan c)) :
    ∃ checksum : UInt16, MavFrame.ckOf checksum = f.ck ∧ ∀ m : MavlinkMessage,
      let msg : MavlinkMessage := { m with len := f.len, checksum := checksum }
      parseChar (mavlinkParseChar table) (chan, m) c =
        (mavlinkMsgToSendBuffer msg, ((switchChar table chan c).advance, msg)) := by
  obtain ⟨checksum, hck, hm⟩ := caller_uncopied h
  refine ⟨checksum, hck, fun m => ?_⟩
  simp only [parseChar, mavlinkParseChar, (hm m).1, (hm m).2, ne_eq, reduceCtorEq,
    not_false_eq_true, if_true]
  rfl

theorem parseChars_chan (p : MavlinkChannel × MavlinkMessage) (cs : List UInt8) :
    (parseChars (mavlinkParseChar table) p cs).2.1 = (parserMachine table).exec p.1 cs := by
  induction cs generalizing p with
  | nil => rfl
  | cons c cs ih =>
      have hstep : (parseChar (mavlinkParseChar table) p c).2.1 =
          ((parserMachine table).step p.1 c).2 := by
        rw [parseChar_state]
        rfl
      simp only [parseChars, ih, hstep, Machine.exec_cons]

theorem CopiedFirst.tail {done cs : List UInt8} {c : UInt8}
    (h : CopiedFirst table done (c :: cs))
    (hno : ∀ g : MavFrame, arriving (done ++ [c]) ≠ g.bytes) :
    CopiedFirst table (done ++ [c]) cs := by
  intro pre hpre hne hbad
  rw [List.append_assoc, List.singleton_append] at hbad
  obtain ⟨p, hp, hpne, g, hg⟩ := h (c :: pre) (List.cons_prefix_cons.mpr ⟨rfl, hpre⟩)
    (List.cons_ne_nil c pre) hbad
  obtain ⟨x, p, rfl⟩ := List.exists_cons_of_ne_nil hpne
  obtain ⟨rfl, hp'⟩ := List.cons_prefix_cons.mp hp
  refine ⟨p, hp', ?_, g, ?_⟩
  · rintro rfl
    exact hno g hg
  · rw [List.append_assoc, List.singleton_append]
    exact hg

/-- **A block whose wrong checksums all come after a copy** does the same on
any stack. -/
theorem parseChars_copiedFirst {done cs : List UInt8} {chan : MavlinkChannel}
    (h : Tracks table chan (arriving done)) (hcopied : CopiedFirst table done cs)
    (m m' : MavlinkMessage) :
    (parseChars (mavlinkParseChar table) (chan, m) cs).1 =
      (parseChars (mavlinkParseChar table) (chan, m') cs).1 := by
  induction cs generalizing done chan m m' with
  | nil => rfl
  | cons c cs ih =>
      obtain ⟨htracks, heffect⟩ := tracks_step h c
      rw [← arriving_snoc] at htracks heffect
      simp only [parseChars]
      rcases heffect with ⟨f, hf, hrep⟩ | ⟨f, hbad, -⟩ | ⟨hno, -, hquiet⟩
      · obtain ⟨msg, hmsg⟩ := parseChar_reported (hrep f hf)
        rw [hmsg m, hmsg m']
      · obtain ⟨p, hp, hpne, g, hg⟩ := hcopied [c] ⟨cs, rfl⟩ (List.cons_ne_nil c []) ⟨f, hbad⟩
        have hone : p = [c] := by
          obtain ⟨x, p, rfl⟩ := List.exists_cons_of_ne_nil hpne
          obtain ⟨rfl, hp'⟩ := List.cons_prefix_cons.mp hp
          rw [List.prefix_nil.mp hp']
        rw [hone] at hg
        exact absurd hg (hbad.not_complete g)
      · obtain ⟨len, hlen⟩ := parseChar_quiet hquiet m
        obtain ⟨len', hlen'⟩ := parseChar_quiet hquiet m'
        rw [hlen, hlen']
        exact congrArg ([] ++ ·) (ih htracks (hcopied.tail hno) _ _)

/-- **Any other block** starts with the magic byte of the stack. -/
theorem parseChars_shows {done cs : List UInt8} {chan : MavlinkChannel}
    (h : Tracks table chan (arriving done)) (hbad : ¬CopiedFirst table done cs)
    (m : MavlinkMessage) :
    (parseChars (mavlinkParseChar table) (chan, m) cs).1.head? = some m.magic := by
  induction cs generalizing done chan m with
  | nil =>
      refine absurd (fun pre hpre hne => ?_) hbad
      exact absurd (List.prefix_nil.mp hpre) hne
  | cons c cs ih =>
      obtain ⟨htracks, heffect⟩ := tracks_step h c
      rw [← arriving_snoc] at htracks heffect
      simp only [parseChars]
      rcases heffect with ⟨f, hf, -⟩ | ⟨f, -, hunc⟩ | ⟨hno, hgood, hquiet⟩
      -- a frame that ends first would come before every wrong checksum
      · refine absurd (fun pre hpre hne hbad => ⟨[c], ?_, List.cons_ne_nil c [], f, hf⟩) hbad
        obtain ⟨x, pre, rfl⟩ := List.exists_cons_of_ne_nil hne
        obtain ⟨rfl, -⟩ := List.cons_prefix_cons.mp hpre
        exact ⟨pre, rfl⟩
      · obtain ⟨checksum, -, hmsg⟩ := parseChar_uncopied hunc
        rw [hmsg m, List.head?_append, head?_sendBuffer]
        rfl
      · obtain ⟨len, hlen⟩ := parseChar_quiet hquiet m
        rw [hlen]
        refine ih htracks (fun htail => hbad fun pre hpre hne hb => ?_) { m with len := len }
        obtain ⟨x, pre, rfl⟩ := List.exists_cons_of_ne_nil hne
        obtain ⟨rfl, hpre'⟩ := List.cons_prefix_cons.mp hpre
        have hne' : pre ≠ [] := by
          rintro rfl
          obtain ⟨f, hf⟩ := hb
          exact hgood f hf
        rw [← List.singleton_append, ← List.append_assoc] at hb
        obtain ⟨p, hp, -, g, hg⟩ := htail pre hpre' hne' hb
        refine ⟨x :: p, List.cons_prefix_cons.mpr ⟨rfl, hp⟩, List.cons_ne_nil x p, g, ?_⟩
        rwa [← List.singleton_append, ← List.append_assoc]

end Block

/-- One call of `decrypt_to_msg` on a frame with its header. -/
theorem decryptToMsgMachine_step (G : Gcm κ) (table : MavlinkMsgTable) {k₀ : GecSymKey κ}
    {s : GecSymKey κ × MavlinkChannel} (hk : SameChannel s.1 k₀) {frame : CipherTextFrame}
    (hframe : HasHeader frame) :
    ∃ k, SameChannel k k₀ ∧ ∀ m : MavlinkMessage,
      (decryptToMsgMachine G table).step s (frame, m) =
        match acceptedBlock G k₀ frame with
        | some b => (⟨b.toList, (parseChars (mavlinkParseChar table) (s.2, m) b.toList).1⟩,
            (k, (parserMachine table).exec s.2 b.toList))
        | none => (⟨[], []⟩, (k, s.2)) := by
  obtain ⟨hkey, hcases⟩ := gecDecrypt_acceptedBlock G hk frame
  refine ⟨_, hkey, fun m => ?_⟩
  rcases hcases with ⟨b, hb, hret, hpt⟩ | ⟨hb, hret⟩
  all_goals
    simp only [decryptToMsgMachine, decryptToMsg, hframe.1, hframe.2, ne_eq, not_true_eq_false,
      if_false, hb, hret, not_false_eq_true, if_true]
  rw [hpt, parseChars_chan]

theorem decryptToMsgMachine_run (G : Gcm κ) (table : MavlinkMsgTable) {k₀ : GecSymKey κ}
    (frames : List CipherTextFrame) (hframes : ∀ frame ∈ frames, HasHeader frame)
    {s : GecSymKey κ × MavlinkChannel} (hk : SameChannel s.1 k₀)
    {ins : List (CipherTextFrame × MavlinkMessage)} (hin : ins.map Prod.fst = frames) :
    let t := (decryptToMsgMachine G table).exec s ins
    SameChannel t.1 k₀ ∧
    t.2 = (parserMachine table).exec s.2 (blockBytes (acceptedBlocks G k₀ frames)) := by
  induction frames generalizing s ins with
  | nil =>
      rw [List.map_eq_nil_iff] at hin
      subst hin
      exact ⟨hk, rfl⟩
  | cons frame frames ih =>
      obtain ⟨⟨fr, m⟩, rest, rfl, rfl, hrest⟩ := List.map_eq_cons_iff.mp hin
      obtain ⟨k, hk', hstep⟩ := decryptToMsgMachine_step G table hk (hframes fr List.mem_cons_self)
      have htail : ∀ f ∈ frames, HasHeader f := fun f hf => hframes f (List.mem_cons_of_mem fr hf)
      rw [Machine.exec_cons, hstep m, acceptedBlocks_cons]
      rcases acceptedBlock G k₀ fr with _ | b
      · exact ih htail (s := (k, s.2)) hk' hrest
      · have hblock : blockBytes (some b).toList = b.toList := by simp
        rw [hblock, Machine.exec_append]
        exact ih htail (s := (k, (parserMachine table).exec s.2 b.toList)) hk' hrest

/-- The condition on a whole run, block after block, when the blocks `done` have
come already. -/
def BlocksCopiedFirst (table : MavlinkMsgTable) (done blocks : List (Bytes 64)) : Prop :=
  ∀ mid block rest, blocks = mid ++ block :: rest →
    CopiedFirst table (blockBytes (done ++ mid)) block.toList

theorem blocksCopiedFirst_cons {table : MavlinkMsgTable} {done blocks : List (Bytes 64)}
    {b : Bytes 64} (h : BlocksCopiedFirst table done (b :: blocks)) :
    CopiedFirst table (blockBytes done) b.toList ∧
    BlocksCopiedFirst table (done ++ [b]) blocks := by
  constructor
  · have hfirst := h [] b blocks rfl
    rwa [List.append_nil] at hfirst
  · intro mid block rest hmid
    have hlater := h (b :: mid) block rest (congrArg (b :: ·) hmid)
    rwa [List.append_assoc, List.singleton_append]

theorem tracks_block {table : MavlinkMsgTable} {chan : MavlinkChannel} {done : List (Bytes 64)}
    (h : Tracks table chan (arriving (blockBytes done))) (b : Bytes 64) :
    Tracks table ((parserMachine table).exec chan b.toList)
      (arriving (blockBytes (done ++ [b]))) := by
  rw [blockBytes_append, blockBytes_cons, blockBytes_nil, List.append_nil]
  exact tracks_append h b.toList

theorem decrypt_stack (G : Gcm κ) (table : MavlinkMsgTable) {k₀ : GecSymKey κ}
    {done : List (Bytes 64)} (frames : List CipherTextFrame)
    (hframes : ∀ frame ∈ frames, HasHeader frame) {s : GecSymKey κ × MavlinkChannel}
    (hk : SameChannel s.1 k₀) (h : Tracks table s.2 (arriving (blockBytes done)))
    (hcopied : BlocksCopiedFirst table done (acceptedBlocks G k₀ frames))
    {ins ins' : List (CipherTextFrame × MavlinkMessage)} (hin : ins.map Prod.fst = frames)
    (hin' : ins'.map Prod.fst = frames) :
    (decryptToMsgMachine G table).answers s ins = (decryptToMsgMachine G table).answers s ins' := by
  induction frames generalizing done s ins ins' with
  | nil =>
      rw [List.map_eq_nil_iff] at hin hin'
      rw [hin, hin']
  | cons frame frames ih =>
      obtain ⟨⟨fr, m⟩, rest, rfl, rfl, hrest⟩ := List.map_eq_cons_iff.mp hin
      obtain ⟨⟨fr', m'⟩, rest', rfl, rfl, hrest'⟩ := List.map_eq_cons_iff.mp hin'
      obtain ⟨k, hk', hstep⟩ := decryptToMsgMachine_step G table hk (hframes fr' List.mem_cons_self)
      have htail : ∀ f ∈ frames, HasHeader f := fun f hf => hframes f (List.mem_cons_of_mem fr' hf)
      rw [Machine.answers_cons, Machine.answers_cons, hstep m, hstep m']
      rw [acceptedBlocks, List.filterMap_cons] at hcopied
      cases hb : acceptedBlock G k₀ fr' with
      | none =>
          rw [hb] at hcopied
          exact congrArg _ (ih htail (s := (k, s.2)) hk' h hcopied hrest hrest')
      | some b =>
          rw [hb] at hcopied
          obtain ⟨hfirst, hmore⟩ := blocksCopiedFirst_cons hcopied
          simp only [parseChars_copiedFirst h hfirst m m']
          exact congrArg _ (ih htail (s := (k, (parserMachine table).exec s.2 b.toList)) hk'
            (tracks_block h b) hmore hrest hrest')

/-- Otherwise some call writes the magic byte of its stack first. -/
theorem exists_shown_stack (G : Gcm κ) (table : MavlinkMsgTable) (k : GecSymKey κ)
    {chan : MavlinkChannel} (hidle : chan.Idle) {frames : List CipherTextFrame}
    (hframes : ∀ frame ∈ frames, HasHeader frame)
    (hbad : ¬BlocksCopiedFirst table [] (acceptedBlocks G k frames)) :
    ∃ pre fr post, frames = pre ++ fr :: post ∧ ∀ m : MavlinkMessage,
      ((decryptToMsgMachine G table).step
        ((decryptToMsgMachine G table).exec (k, chan) (onStack .zero pre)) (fr, m)).1.serial.head? =
        some m.magic := by
  simp only [BlocksCopiedFirst, not_forall] at hbad
  obtain ⟨done, block, rest, hblocks, hbad⟩ := hbad
  rw [List.nil_append] at hbad
  -- the frame of that block, after those that were accepted or skipped before
  obtain ⟨pre, tail, rfl, hpre, htail⟩ := List.filterMap_eq_append_iff.mp hblocks
  obtain ⟨skipped, fr, post, rfl, hskipped, hblock, -⟩ := List.filterMap_eq_cons_iff.mp htail
  have hdone : acceptedBlocks G k (pre ++ skipped) = done := by
    rw [acceptedBlocks, List.filterMap_append, hpre, List.filterMap_eq_nil_iff.mpr hskipped,
      List.append_nil]
  rw [← List.append_assoc] at hframes
  obtain ⟨hkey, hchan⟩ := decryptToMsgMachine_run G table (pre ++ skipped)
    (fun f hf => hframes f (List.mem_append_left _ hf)) (s := (k, chan))
    (show SameChannel k k from ⟨rfl, rfl⟩) (map_fst_onStack .zero (pre ++ skipped))
  have htracks : Tracks table
      ((decryptToMsgMachine G table).exec (k, chan) (onStack .zero (pre ++ skipped))).2
      (arriving (blockBytes done)) := by
    rw [hchan, hdone]
    exact tracks_run table hidle (blockBytes done)
  obtain ⟨k', -, hstep⟩ := decryptToMsgMachine_step G table hkey
    (hframes fr (List.mem_append_right _ List.mem_cons_self))
  refine ⟨pre ++ skipped, fr, post, (List.append_assoc _ _ _).symm, fun m => ?_⟩
  rw [hstep m, hblock]
  exact parseChars_shows htracks hbad m

theorem decrypt_stack_differ (G : Gcm κ) (table : MavlinkMsgTable) (k : GecSymKey κ)
    {chan : MavlinkChannel} (hidle : chan.Idle) {frames : List CipherTextFrame}
    (hframes : ∀ frame ∈ frames, HasHeader frame)
    (hbad : ¬BlocksCopiedFirst table [] (acceptedBlocks G k frames)) :
    ¬StackIndependent (decryptToMsgMachine G table) (k, chan) frames := by
  obtain ⟨pre, fr, post, rfl, hshow⟩ := exists_shown_stack G table k hidle hframes hbad
  intro hsame
  have heq := hsame (onStack .zero pre ++ (fr, .zero) :: onStack .zero post)
    (onStack .zero pre ++ (fr, otherMagic) :: onStack .zero post) (by simp) (by simp)
  rw [Machine.answers_append, Machine.answers_append, List.append_cancel_left_eq,
    Machine.answers_cons, Machine.answers_cons, List.cons.injEq] at heq
  have hmagic := congrArg (fun d : DecryptTrace => d.serial.head?) heq.1
  exact absurd (Option.some.inj ((hshow .zero).symm.trans (hmagic.trans (hshow otherMagic))))
    (show (0 : UInt8) ≠ 1 by decide)

/-- **When only received data is forwarded.** On every stream, what either
Encrypt component's `handle_char` emits is independent of its stack exactly
when no signed frame arrives with a wrong checksum. On every telemetry line,
what `decrypt_to_msg` writes is independent of its stack exactly when in each
decrypted block every such checksum comes after the end of another frame. -/
theorem stack_independent_exactly (G : Gcm κ) (table : MavlinkMsgTable) {chan : MavlinkChannel}
    (hidle : chan.Idle) (enc : EncryptState κ) (k : GecSymKey κ) (stream line : List UInt8) :
    (StackIndependent (relayEncryptMachine G table) (chan, enc) stream ↔
      NoBadSigned table stream) ∧
    (StackIndependent (keyExchangeEncryptMachine G table) (chan, enc) stream ↔
      NoBadSigned table stream) ∧
    (StackIndependent (decryptToMsgMachine G table) (k, chan) (readFrames line) ↔
      BlocksCopiedFirst table [] (acceptedBlocks G k (readFrames line))) := by
  refine ⟨stack_independent_iff hidle enc EncryptEmit.queued (fun _ _ => rfl) stream,
    stack_independent_iff hidle enc EncryptEmit.queued (fun _ _ => rfl) stream, ?_⟩
  have hframes := readFrames_hasHeader line
  constructor
  · intro h
    by_contra hbad
    exact decrypt_stack_differ G table k hidle hframes hbad h
  · intro hcopied ins ins' hins hins'
    have hstart : Tracks table chan (arriving (blockBytes [])) := tracks_run table hidle []
    exact decrypt_stack G table (readFrames line) hframes (s := (k, chan))
      (show SameChannel k k from ⟨rfl, rfl⟩) hstart hcopied hins hins'

/-- A signed frame without payload, up to a checksum that is wrong. -/
def badSignedFrame : MavFrame where
  head := .v2 true 0 0 0 0 0 0 0
  payload := []
  ck := zeros 2
  signature := zeros 13
  payload_le := MavFrame.empty_payload_le

theorem badSignedFrame_bad :
    BadSigned (fun _ => none) badSignedFrame (arriving badSignedFrame.upToChecksum) :=
  ⟨by decide, rfl, by decide⟩

theorem encrypt_forwards_stack_content :
    ¬StackIndependent (relayEncryptMachine onceGcm fun _ => none)
      (.init, { symkey := gecInitSymKeyConfAuth onceGcm (zeros 24), queue := .init })
      badSignedFrame.upToChecksum :=
  answers_differ idle_init _ EncryptEmit.queued (fun _ _ => rfl)
    fun h => h _ List.prefix_rfl _ badSignedFrame_bad

theorem stack_independent_exactly_init :
    MavlinkChannel.init.Idle ∧
    (StackIndependent (relayEncryptMachine onceGcm fun _ => none)
        (.init, { symkey := gecInitSymKeyConfAuth onceGcm (zeros 24), queue := .init })
        badSignedFrame.bytes ↔
      NoBadSigned (fun _ => none) badSignedFrame.bytes) ∧
    (StackIndependent (decryptToMsgMachine onceGcm fun _ => none)
        (gecInitSymKeyConfAuth onceGcm (zeros 24), .init) (readFrames badSignedFrame.bytes) ↔
      BlocksCopiedFirst (fun _ => none) [] (acceptedBlocks onceGcm
        (gecInitSymKeyConfAuth onceGcm (zeros 24)) (readFrames badSignedFrame.bytes))) :=
  have h := stack_independent_exactly onceGcm (fun _ => none) idle_init
    { symkey := gecInitSymKeyConfAuth onceGcm (zeros 24), queue := .init }
    (gecInitSymKeyConfAuth onceGcm (zeros 24)) badSignedFrame.bytes badSignedFrame.bytes
  ⟨idle_init, h.1, h.2.2⟩

end GecRelay
