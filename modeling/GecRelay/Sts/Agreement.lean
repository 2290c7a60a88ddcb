import GecRelay.Sts.Protocol

/-!
# Honest runs

Two parties that hold each other's public keys run the four steps on the
messages produced. They agree on a key as often as they like
(`exchanges_agree`), and bad messages delivered to the initiator in between
change nothing: it derives its keys anew from every msg2. The responder keeps
its key-confirmation keys, and a rejected msg3 moves the counter of the one
that unmasks the next; `notPoisoned_iff` says when the genuine msg3 is still
accepted.
-/

namespace GecRelay

open Foundation

/-- X25519 commutes on the base point. -/
def Primitives.DhCommutes (P : Primitives) : Prop :=
  ∀ a b, P.curve25519Donna a (P.curve25519Donna b basepoint) =
    P.curve25519Donna b (P.curve25519Donna a basepoint)

/-- Ed25519 accepts its own signatures under the matching public key. -/
def Primitives.SigCorrect (P : Primitives) : Prop :=
  ∀ m sk, P.ed25519SignOpen m (P.ed25519Publickey sk)
    (P.ed25519Sign m sk (P.ed25519Publickey sk)) = 0

/-- Two contexts ready for an exchange, with each other's public keys. -/
structure Paired (P : Primitives) (A B : GecStsCtx) : Prop where
  readyA : A.protocolStage = .ready
  readyB : B.protocolStage = .ready
  signA : A.myPrivateKey.pub = P.ed25519Publickey A.myPrivateKey.priv
  signB : B.myPrivateKey.pub = P.ed25519Publickey B.myPrivateKey.priv
  peerA : A.theirPublicKey.pub = B.myPrivateKey.pub
  peerB : B.theirPublicKey.pub = A.myPrivateKey.pub

variable {P : Primitives} {A B : GecStsCtx}

theorem paired_initContext (P : Primitives) (memA memB : GecStsCtx) (skA skB : GecPrivkey)
    (seedA seedB : Bytes 32) :
    Paired P
      (initContext memA (generate P skA seedA).2 (generate P skA seedA).1 (generate P skB seedB).2)
      (initContext memB (generate P skB seedB).2 (generate P skB seedB).1
        (generate P skA seedA).2) :=
  ⟨rfl, rfl, rfl, rfl, rfl, rfl⟩

theorem secret_agree (hdh : P.DhCommutes) (rA rB : Bytes 32) :
    gecEcdh P (gecGenerateEphemeralKeypair P rB) rA =
      gecEcdh P (gecGenerateEphemeralKeypair P rA) rB :=
  hdh rA rB

theorem gecVerify_gecSign (hsig : P.SigCorrect) {k : GecPrivkey} {pk : GecPubkey}
    (hk : k.pub = P.ed25519Publickey k.priv) (hpk : pk.pub = k.pub) (msg : List UInt8) :
    gecVerify P pk msg (gecSign P k msg) = .success := by
  have hopen : P.ed25519SignOpen msg pk.pub (gecSign P k msg) = 0 := by
    rw [gecSign, hpk, hk]
    exact hsig msg k.priv
  rw [gecVerify, if_neg (not_not_intro hopen)]

/-! ## The messages of an honest session -/

def sharedSecret (P : Primitives) (rA rB : Bytes 32) : Bytes 32 :=
  gecEcdh P (gecGenerateEphemeralKeypair P rA) rB

def genuineMsg2 (P : Primitives) (B : GecStsCtx) (rA rB : Bytes 32) : Bytes 96 :=
  gecGenerateEphemeralKeypair P rB ++
    authData P (sharedSecret P rA rB) .responder B.myPrivateKey
      (gecGenerateEphemeralKeypair P rB) (gecGenerateEphemeralKeypair P rA)

def genuineMsg3 (P : Primitives) (A : GecStsCtx) (rA rB : Bytes 32) : Bytes 64 :=
  authData P (sharedSecret P rA rB) .initiator A.myPrivateKey
    (gecGenerateEphemeralKeypair P rA) (gecGenerateEphemeralKeypair P rB)

def initiated (P : Primitives) (A : GecStsCtx) (rA : Bytes 32) : GecStsCtx :=
  { A with
    myPrivateKeyEphemeral := rA
    myPublicKeyEphemeral := gecGenerateEphemeralKeypair P rA
    protocolStage := .message1Done
    party := .initiator }

theorem initiateSts_ready (h : A.protocolStage = .ready) (msg1 rA : Bytes 32) :
    initiateSts P msg1 A rA =
      { ret := 0, msg := gecGenerateEphemeralKeypair P rA, ctx := initiated P A rA } :=
  if_pos h

theorem respondSts_honest (h : B.protocolStage = .ready) (msg2 : Bytes 96) (rA rB : Bytes 32) :
    respondSts P (gecGenerateEphemeralKeypair P rA) msg2 B rB =
      { ret := 0
        msg := genuineMsg2 P B rA rB
        ctx := responded P B (gecGenerateEphemeralKeypair P rA) rB } :=
  respondSts_ready h _ msg2 rB

theorem slice_genuineMsg2 (P : Primitives) (B : GecStsCtx) (rA rB : Bytes 32) :
    slice (genuineMsg2 P B rA rB) 0 32 = gecGenerateEphemeralKeypair P rB ∧
    slice (genuineMsg2 P B rA rB) 32 64 =
      authData P (sharedSecret P rA rB) .responder B.myPrivateKey
        (gecGenerateEphemeralKeypair P rB) (gecGenerateEphemeralKeypair P rA) :=
  ⟨slice_append_left _ _ _, slice_append_right _ _ _⟩

theorem ackAccepts_genuine (hdh : P.DhCommutes) (hsig : P.SigCorrect) (h : Paired P A B)
    (rA rB : Bytes 32) : AckAccepts P (initiated P A rA) (genuineMsg2 P B rA rB) := by
  have hsecret : (initiated P A rA).secret P (gecGenerateEphemeralKeypair P rB) =
      sharedSecret P rA rB := secret_agree hdh rA rB
  have hparty : theirParty (initiated P A rA) = .responder := rfl
  rw [AckAccepts]
  simp only [(slice_genuineMsg2 P B rA rB).1, (slice_genuineMsg2 P B rA rB).2, hsecret, hparty,
    authData, unmaskSig_unmaskSig]
  exact gecVerify_gecSign hsig h.signB h.peerA _

theorem responseAckSts_honest (hdh : P.DhCommutes) (hsig : P.SigCorrect) (h : Paired P A B)
    (rA rB : Bytes 32) (msg3 : Bytes 64) (km : Bytes 48) :
    ∃ ctx, responseAckSts P (genuineMsg2 P B rA rB) msg3 (initiated P A rA) km =
      { ret := 0
        msg3 := genuineMsg3 P A rA rB
        ctx := resetCtx ctx
        keyMaterial := sessionKey P (sharedSecret P rA rB) } ∧
      ctx.myPrivateKey = A.myPrivateKey ∧ ctx.theirPublicKey = A.theirPublicKey := by
  have hsecret : (initiated P A rA).secret P (gecGenerateEphemeralKeypair P rB) =
      sharedSecret P rA rB := secret_agree hdh rA rB
  have hack := @responseAckSts_message1Done P (initiated P A rA) rfl (genuineMsg2 P B rA rB) msg3 km
  simp only [if_pos (ackAccepts_genuine hdh hsig h rA rB), (slice_genuineMsg2 P B rA rB).1,
    hsecret] at hack
  exact ⟨_, hack, rfl, rfl⟩

theorem finishAccepts_genuine (hsig : P.SigCorrect) (h : Paired P A B) (rA rB : Bytes 32) :
    FinishAccepts P (responded P B (gecGenerateEphemeralKeypair P rA) rB)
      (genuineMsg3 P A rA rB) := by
  show gecVerify P B.theirPublicKey _ (unmaskSig P (sessionKck P (sharedSecret P rA rB) .initiator)
    (genuineMsg3 P A rA rB)) = .success
  rw [genuineMsg3, authData, unmaskSig_unmaskSig]
  exact gecVerify_gecSign hsig h.signA h.peerB _

/-! ## Series of exchanges -/

structure ExchangeInput where
  rA : Bytes 32
  rB : Bytes 32
  msg1 : Bytes 32
  msg2 : Bytes 96
  msg3 : Bytes 64
  keyMaterialA : Bytes 48
  keyMaterialB : Bytes 48

structure ExchangeOutput where
  rets : List Int
  keyMaterialA : Bytes 48
  keyMaterialB : Bytes 48
  A : GecStsCtx
  B : GecStsCtx

def exchange (P : Primitives) (A B : GecStsCtx) (i : ExchangeInput) : ExchangeOutput :=
  let s1 := initiateSts P i.msg1 A i.rA
  let s2 := respondSts P s1.msg i.msg2 B i.rB
  let s3 := responseAckSts P s2.msg i.msg3 s1.ctx i.keyMaterialA
  let s4 := finishSts P s3.msg3 s2.ctx i.keyMaterialB
  { rets := [s1.ret, s2.ret, s3.ret, s4.ret]
    keyMaterialA := s3.keyMaterial
    keyMaterialB := s4.keyMaterial
    A := s3.ctx
    B := s4.ctx }

def exchangeMachine (P : Primitives) :
    Machine (GecStsCtx × GecStsCtx) ExchangeInput ExchangeOutput where
  step s i := (exchange P s.1 s.2 i, (exchange P s.1 s.2 i).A, (exchange P s.1 s.2 i).B)

/-- What both sides may rely on after an exchange. -/
structure Agreed (o : ExchangeOutput) : Prop where
  rets : o.rets = [0, 0, 0, 0]
  key : o.keyMaterialA = o.keyMaterialB
  channels : ∀ {κ : Type} (G : Gcm κ),
    gecKeyMaterialTo2Channels G o.keyMaterialA = gecKeyMaterialTo2Channels G o.keyMaterialB ∧
    (gecKeyMaterialTo2Channels G o.keyMaterialA).1.ctr = 0 ∧
    (gecKeyMaterialTo2Channels G o.keyMaterialA).2.ctr = 0
  readyA : o.A.protocolStage = .ready
  readyB : o.B.protocolStage = .ready

/-- **One exchange**: the parties agree and are paired again. -/
theorem exchange_agree (hdh : P.DhCommutes) (hsig : P.SigCorrect) (h : Paired P A B)
    (i : ExchangeInput) :
    Agreed (exchange P A B i) ∧ Paired P (exchange P A B i).A (exchange P A B i).B := by
  obtain ⟨ctx, hack, hpriv, htheirs⟩ :=
    responseAckSts_honest hdh hsig h i.rA i.rB i.msg3 i.keyMaterialA
  have hfinish := @finishSts_message2Done P
    (responded P B (gecGenerateEphemeralKeypair P i.rA) i.rB) rfl (sessionKck_live P _ _)
    (genuineMsg3 P A i.rA i.rB) i.keyMaterialB
  rw [if_pos (finishAccepts_genuine hsig h i.rA i.rB)] at hfinish
  simp only [exchange, initiateSts_ready h.readyA, respondSts_honest h.readyB, hack, hfinish]
  refine ⟨⟨rfl, rfl, fun G => ⟨rfl, rfl, rfl⟩, rfl, rfl⟩, rfl, rfl, ?_, h.signB, ?_, ?_⟩
  · show ctx.myPrivateKey.pub = P.ed25519Publickey ctx.myPrivateKey.priv
    rw [hpriv]
    exact h.signA
  · show ctx.theirPublicKey.pub = _
    rw [htheirs]
    exact h.peerA
  · show _ = ctx.myPrivateKey.pub
    rw [hpriv]
    exact h.peerB

/-- **Honest runs agree**, in every exchange of a series on the same two
contexts. -/
theorem exchanges_agree (hdh : P.DhCommutes) (hsig : P.SigCorrect) (memA memB : GecStsCtx)
    (skA skB : GecPrivkey) (seedA seedB : Bytes 32) (series : List ExchangeInput) :
    ∀ o ∈ (exchangeMachine P).answers
      (initContext memA (generate P skA seedA).2 (generate P skA seedA).1 (generate P skB seedB).2,
        initContext memB (generate P skB seedB).2 (generate P skB seedB).1
          (generate P skA seedA).2) series,
      Agreed o := by
  intro o ho
  have hstep : ∀ (s : GecStsCtx × GecStsCtx) (i : ExchangeInput), Paired P s.1 s.2 →
      Paired P ((exchangeMachine P).step s i).2.1 ((exchangeMachine P).step s i).2.2 :=
    fun s i hs => (exchange_agree hdh hsig hs i).2
  obtain ⟨s, hs, i, -, rfl⟩ := Machine.mem_answers hstep
    (paired_initContext P memA memB skA skB seedA seedB) ho
  exact (exchange_agree hdh hsig hs i).1

theorem xorPrimitives_dhCommutes : xorPrimitives.DhCommutes := fun a b =>
  mask_right_comm basepoint (by simp) (by simp)

theorem xorPrimitives_sigCorrect : xorPrimitives.SigCorrect := fun _ _ => if_pos rfl

def twoExchanges : List ExchangeInput :=
  [⟨zeros 32, basepoint, zeros 32, zeros 96, zeros 64, zeros 48, zeros 48⟩,
    ⟨basepoint, zeros 32, zeros 32, zeros 96, zeros 64, zeros 48, zeros 48⟩]

theorem exchanges_agree_xorPrimitives :
    xorPrimitives.DhCommutes ∧ xorPrimitives.SigCorrect ∧
    ∀ o ∈ (exchangeMachine xorPrimitives).answers
      (initContext zeroCtx (generate xorPrimitives ⟨zeros 32, zeros 32⟩ (zeros 32)).2
          (generate xorPrimitives ⟨zeros 32, zeros 32⟩ (zeros 32)).1
          (generate xorPrimitives ⟨zeros 32, zeros 32⟩ basepoint).2,
        initContext zeroCtx (generate xorPrimitives ⟨zeros 32, zeros 32⟩ basepoint).2
          (generate xorPrimitives ⟨zeros 32, zeros 32⟩ basepoint).1
          (generate xorPrimitives ⟨zeros 32, zeros 32⟩ (zeros 32)).2) twoExchanges,
      Agreed o :=
  ⟨xorPrimitives_dhCommutes, xorPrimitives_sigCorrect,
    exchanges_agree xorPrimitives_dhCommutes xorPrimitives_sigCorrect zeroCtx zeroCtx
      ⟨zeros 32, zeros 32⟩ ⟨zeros 32, zeros 32⟩ (zeros 32) basepoint twoExchanges⟩

/-! ## Rejected messages in between -/

/-- Deliveries of msg2 to an initiator. The output buffers decide neither the
return code nor the context. -/
def ackMachine (P : Primitives) : Machine GecStsCtx (Bytes 96) Int where
  step ctx msg2 :=
    let r := responseAckSts P msg2 (zeros 64) ctx (zeros 48)
    (r.ret, r.ctx)

def finishMachine (P : Primitives) : Machine GecStsCtx (Bytes 64) Int where
  step ctx msg3 :=
    let r := finishSts P msg3 ctx (zeros 48)
    (r.ret, r.ctx)

/-- **A rejected msg2 changes nothing for the next one**: every field it left
behind is derived anew. -/
theorem responseAckSts_after_rejected {ctx : GecStsCtx} (h : ctx.protocolStage = .message1Done)
    {bad : Bytes 96} (hbad : ((ackMachine P).step ctx bad).1 = -1) (msg2 : Bytes 96)
    (msg3 : Bytes 64) (km : Bytes 48) :
    ((ackMachine P).step ctx bad).2.protocolStage = .message1Done ∧
    responseAckSts P msg2 msg3 ((ackMachine P).step ctx bad).2 km =
      responseAckSts P msg2 msg3 ctx km := by
  by_cases hok : AckAccepts P ctx bad
  · simp [ackMachine, responseAckSts_message1Done h, if_pos hok] at hbad
  · have hstep : (ackMachine P).step ctx bad = (-1, { acking P ctx (slice bad 0 32) with
        theirKCK := usedKck (sessionKck P (ctx.secret P (slice bad 0 32)) (theirParty ctx)) }) := by
      simp only [ackMachine, responseAckSts_message1Done h, if_neg hok]
    have hstage : ((ackMachine P).step ctx bad).2.protocolStage = .message1Done := by
      rw [hstep]
      exact h
    have hderive : deriveFromMsg2 P msg2 ((ackMachine P).step ctx bad).2 =
        deriveFromMsg2 P msg2 ctx := by
      rw [hstep, deriveFromMsg2_eq, deriveFromMsg2_eq]
      rfl
    refine ⟨hstage, ?_⟩
    rw [responseAckSts, responseAckSts, if_pos hstage, if_pos h, hderive]

theorem responseAckSts_after_bads (bads : List (Bytes 96)) {ctx : GecStsCtx}
    (h : ctx.protocolStage = .message1Done) (hbads : ∀ r ∈ (ackMachine P).answers ctx bads, r = -1)
    (msg2 : Bytes 96) (msg3 : Bytes 64) (km : Bytes 48) :
    responseAckSts P msg2 msg3 ((ackMachine P).exec ctx bads) km =
      responseAckSts P msg2 msg3 ctx km := by
  induction bads generalizing ctx with
  | nil => rfl
  | cons bad bads ih =>
      obtain ⟨hstage, hsame⟩ := responseAckSts_after_rejected h
        (hbads _ List.mem_cons_self) msg2 msg3 km
      rw [Machine.exec_cons, ih hstage fun r hr => hbads r (List.mem_cons_of_mem _ hr), hsame]

theorem finishMachine_after_bads (bads : List (Bytes 64)) {ctx : GecStsCtx}
    (h : ctx.protocolStage = .message2Done) (hlive : LiveKck ctx.theirKCK)
    (hbads : ∀ r ∈ (finishMachine P).answers ctx bads, r = -1) :
    (finishMachine P).exec ctx bads =
      if bads = [] then ctx else { ctx with theirKCK := usedKck ctx.theirKCK } := by
  induction bads generalizing ctx with
  | nil => rfl
  | cons bad bads ih =>
      have hbad : (finishSts P bad ctx (zeros 48)).ret = -1 := hbads _ List.mem_cons_self
      have hok : ¬ FinishAccepts P ctx bad := by
        intro hok
        simp [finishSts_message2Done h hlive, if_pos hok] at hbad
      have hctx : ((finishMachine P).step ctx bad).2 =
          { ctx with theirKCK := usedKck ctx.theirKCK } := by
        simp only [finishMachine, finishSts_message2Done h hlive, if_neg hok]
      have hstage : ((finishMachine P).step ctx bad).2.protocolStage = .message2Done := by
        rw [hctx]
        exact h
      have hused : LiveKck ((finishMachine P).step ctx bad).2.theirKCK := by
        rw [hctx]
        exact hlive.used
      rw [Machine.exec_cons, ih hstage hused fun r hr => hbads r (List.mem_cons_of_mem _ hr),
        if_neg (List.cons_ne_nil bad bads), hctx]
      split <;> rfl

/-- A session of `A` and `B` in which `badsA` reach the initiator before the
genuine msg2 and `badsB` the responder before the genuine msg3. -/
structure StsSession where
  A : GecStsCtx
  B : GecStsCtx
  rA : Bytes 32
  rB : Bytes 32
  badsA : List (Bytes 96)
  badsB : List (Bytes 64)

namespace StsSession

variable (P) (t : StsSession)

def sent1 : StsSend 32 := initiateSts P (zeros 32) t.A t.rA

def sent2 : StsSend 96 := respondSts P (t.sent1 P).msg (zeros 96) t.B t.rB

def ack : StsAck :=
  responseAckSts P (t.sent2 P).msg (zeros 64) ((ackMachine P).exec (t.sent1 P).ctx t.badsA)
    (zeros 48)

def finish : StsFinish :=
  finishSts P (t.ack P).msg3 ((finishMachine P).exec (t.sent2 P).ctx t.badsB) (zeros 48)

def clean : StsSession := { t with badsA := [], badsB := [] }

def Rejected : Prop :=
  (∀ r ∈ (ackMachine P).answers (t.sent1 P).ctx t.badsA, r = -1) ∧
  ∀ r ∈ (finishMachine P).answers (t.sent2 P).ctx t.badsB, r = -1

/-- The rejected messages left no trace: both calls on the genuine messages
succeed, with the keys of the clean session. -/
def NotPoisoned : Prop :=
  ((t.ack P).ret = 0 ∧ (t.ack P).keyMaterial = (t.clean.ack P).keyMaterial) ∧
  ((t.finish P).ret = 0 ∧ (t.finish P).keyMaterial = (t.clean.finish P).keyMaterial)

/-- The initiator's signature, masked with the first keystream of its
key-confirmation key and unmasked with the second, is still valid. -/
def SecondPadAccepts : Prop :=
  let kck := sessionKck P (sharedSecret P t.rA t.rB) .initiator
  let text := (gecGenerateEphemeralKeypair P t.rA).toList ++
    (gecGenerateEphemeralKeypair P t.rB).toList
  gecVerify P t.B.theirPublicKey text
    (unmaskSig P (usedKck kck) (unmaskSig P kck (gecSign P t.A.myPrivateKey text))) = .success

variable {P} {t}

theorem sent1_eq (h : Paired P t.A t.B) :
    t.sent1 P = ⟨0, gecGenerateEphemeralKeypair P t.rA, initiated P t.A t.rA⟩ :=
  initiateSts_ready h.readyA (zeros 32) t.rA

theorem sent2_eq (h : Paired P t.A t.B) :
    t.sent2 P = ⟨0, genuineMsg2 P t.B t.rA t.rB,
      responded P t.B (gecGenerateEphemeralKeypair P t.rA) t.rB⟩ := by
  rw [sent2, sent1_eq h]
  exact respondSts_honest h.readyB (zeros 96) t.rA t.rB

theorem ack_eq_clean (h : Paired P t.A t.B) (hbads : t.Rejected P) :
    t.ack P = t.clean.ack P := by
  have hstage : (t.sent1 P).ctx.protocolStage = .message1Done := by
    rw [sent1_eq h]
    rfl
  exact responseAckSts_after_bads t.badsA hstage hbads.1 (t.sent2 P).msg (zeros 64) (zeros 48)

theorem clean_ack (hdh : P.DhCommutes) (hsig : P.SigCorrect) (h : Paired P t.A t.B) :
    (t.clean.ack P).ret = 0 ∧ (t.clean.ack P).msg3 = genuineMsg3 P t.A t.rA t.rB := by
  obtain ⟨ctx, hack, -, -⟩ := responseAckSts_honest hdh hsig h t.rA t.rB (zeros 64) (zeros 48)
  have hclean : t.clean.ack P =
      responseAckSts P (t.sent2 P).msg (zeros 64) (t.sent1 P).ctx (zeros 48) := rfl
  rw [hclean, sent1_eq h, sent2_eq h, hack]
  exact ⟨rfl, rfl⟩

def waiting (P : Primitives) (t : StsSession) : GecStsCtx :=
  let kck := sessionKck P (sharedSecret P t.rA t.rB) .initiator
  { responded P t.B (gecGenerateEphemeralKeypair P t.rA) t.rB with
    theirKCK := if t.badsB = [] then kck else usedKck kck }

theorem finish_eq (hdh : P.DhCommutes) (hsig : P.SigCorrect) (h : Paired P t.A t.B)
    (hbads : t.Rejected P) :
    t.finish P = finishSts P (genuineMsg3 P t.A t.rA t.rB) (t.waiting P) (zeros 48) := by
  have hctx : (t.sent2 P).ctx = responded P t.B (gecGenerateEphemeralKeypair P t.rA) t.rB := by
    rw [sent2_eq h]
  have hstage : (t.sent2 P).ctx.protocolStage = .message2Done := by
    rw [hctx]
    rfl
  have hlive : LiveKck (t.sent2 P).ctx.theirKCK := by
    rw [hctx]
    exact sessionKck_live P _ _
  have hwait : (finishMachine P).exec (t.sent2 P).ctx t.badsB = t.waiting P := by
    rw [finishMachine_after_bads t.badsB hstage hlive hbads.2, hctx, waiting]
    split <;> rfl
  rw [finish, hwait, ack_eq_clean h hbads, (clean_ack hdh hsig h).2]

theorem waiting_live (P : Primitives) (t : StsSession) : LiveKck (t.waiting P).theirKCK := by
  show LiveKck (if t.badsB = [] then _ else _)
  split
  · exact sessionKck_live P _ _
  · exact (sessionKck_live P _ _).used

theorem finishAccepts_waiting_iff (hsig : P.SigCorrect) (h : Paired P t.A t.B) :
    FinishAccepts P (t.waiting P) (genuineMsg3 P t.A t.rA t.rB) ↔
      t.badsB = [] ∨ t.SecondPadAccepts P := by
  by_cases hnil : t.badsB = []
  · have hfresh := finishAccepts_genuine hsig h t.rA t.rB
    rw [waiting, if_pos hnil]
    constructor
    · intro _
      exact Or.inl hnil
    · intro _
      exact hfresh
  · rw [waiting, if_neg hnil]
    constructor
    · exact Or.inr
    · intro hor
      exact hor.resolve_left hnil

theorem finish_ret (hdh : P.DhCommutes) (hsig : P.SigCorrect) (h : Paired P t.A t.B)
    (hbads : t.Rejected P) :
    ((t.finish P).ret = 0 ↔ t.badsB = [] ∨ t.SecondPadAccepts P) ∧
    ((t.finish P).ret = 0 →
      (t.finish P).keyMaterial = sessionKey P (sharedSecret P t.rA t.rB)) := by
  rw [finish_eq hdh hsig h hbads, finishSts_message2Done rfl (waiting_live P t),
    ← finishAccepts_waiting_iff hsig h]
  split
  · next hok =>
      refine ⟨?_, fun _ => rfl⟩
      constructor
      · intro _
        exact hok
      · intro _
        rfl
  · next hno =>
      refine ⟨?_, fun h => by simp at h⟩
      constructor
      · intro h
        simp at h
      · intro hok
        exact absurd hok hno

end StsSession

/-- **When rejected messages are harmless**: exactly when none of them was a
msg3, but for a signature that both keystreams leave valid. -/
theorem notPoisoned_iff (hdh : P.DhCommutes) (hsig : P.SigCorrect) (t : StsSession)
    (hpaired : Paired P t.A t.B) (hbads : t.Rejected P) :
    t.NotPoisoned P ↔ t.badsB = [] ∨ t.SecondPadAccepts P := by
  have hack := t.ack_eq_clean hpaired hbads
  have hfinish := t.finish_ret hdh hsig hpaired hbads
  have hclean : t.clean.Rejected P := ⟨by simp [StsSession.clean], by
    simp [StsSession.clean]⟩
  have hkey := t.clean.finish_ret hdh hsig hpaired hclean
  constructor
  · rintro ⟨-, hret, -⟩
    exact hfinish.1.mp hret
  · intro hcond
    have hret := hfinish.1.mpr hcond
    refine ⟨⟨?_, ?_⟩, hret, ?_⟩
    · rw [hack]
      exact (StsSession.clean_ack hdh hsig hpaired).1
    · rw [hack]
    · rw [hfinish.2 hret, hkey.2 (hkey.1.mpr (Or.inl rfl))]
      rfl

def disturbedSession : StsSession where
  A := initContext zeroCtx (generate xorPrimitives ⟨zeros 32, zeros 32⟩ (zeros 32)).2
    (generate xorPrimitives ⟨zeros 32, zeros 32⟩ (zeros 32)).1
    (generate xorPrimitives ⟨zeros 32, zeros 32⟩ basepoint).2
  B := initContext zeroCtx (generate xorPrimitives ⟨zeros 32, zeros 32⟩ basepoint).2
    (generate xorPrimitives ⟨zeros 32, zeros 32⟩ basepoint).1
    (generate xorPrimitives ⟨zeros 32, zeros 32⟩ (zeros 32)).2
  rA := zeros 32
  rB := basepoint
  badsA := [zeros 96]
  badsB := [zeros 64]

theorem disturbedSession_paired : Paired xorPrimitives disturbedSession.A disturbedSession.B :=
  paired_initContext xorPrimitives zeroCtx zeroCtx ⟨zeros 32, zeros 32⟩ ⟨zeros 32, zeros 32⟩
    (zeros 32) basepoint

theorem disturbedSession_rejected : disturbedSession.Rejected xorPrimitives := by
  unfold StsSession.Rejected
  decide +kernel

theorem notPoisoned_iff_disturbedSession :
    disturbedSession.Rejected xorPrimitives ∧
    (disturbedSession.NotPoisoned xorPrimitives ↔
      disturbedSession.badsB = [] ∨ disturbedSession.SecondPadAccepts xorPrimitives) :=
  ⟨disturbedSession_rejected,
    notPoisoned_iff xorPrimitives_dhCommutes xorPrimitives_sigCorrect disturbedSession
      disturbedSession_paired disturbedSession_rejected⟩

/-- One bad msg3 and the genuine one is refused. -/
theorem rejected_message_poisons :
    ¬ ∀ P : Primitives, P.DhCommutes → P.SigCorrect → ∀ t : StsSession,
      Paired P t.A t.B → t.Rejected P → t.NotPoisoned P := by
  intro hnever
  have hfine := hnever xorPrimitives xorPrimitives_dhCommutes xorPrimitives_sigCorrect
    disturbedSession disturbedSession_paired disturbedSession_rejected
  have hret : (disturbedSession.finish xorPrimitives).ret = -1 := by decide +kernel
  rw [StsSession.NotPoisoned, hret] at hfine
  exact absurd hfine.2.1 (by decide)

end GecRelay
