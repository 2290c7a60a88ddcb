import GecRelay.Sts.Protocol

/-!
# Only a verified partner yields a key

A context is driven by any sequence of calls with any message bytes. Two of
the calls can hand out a key, and they do so only after a signature of the
current partner over the two ephemeral keys of the session. What carries the
argument is `StsInv`: the stage fixes the role, the live ephemeral pair is the
one of the last accepted `initiate_sts` or `respond_sts`, and a responder's
stored keys are those of its own secret. An initiator's stored keys are not
mentioned, because a rejected msg2 leaves keys of the wrong secret behind and
the next msg2 replaces them before they are used.
-/

namespace GecRelay

open Foundation

inductive StsCall
  | resetPartner (theirPublicKey : GecPubkey)
  | resetCtx
  | initiateSts (msg1 randomData : Bytes 32)
  | respondSts (msg1 : Bytes 32) (msg2 : Bytes 96) (randomData : Bytes 32)
  | responseAckSts (msg2 : Bytes 96) (msg3 : Bytes 64) (keyMaterial : Bytes 48)
  | finishSts (msg3 : Bytes 64) (keyMaterial : Bytes 48)

/-- A context and the randomness of its live session: that of the last
successful `initiate_sts` or `respond_sts` since the last reset. -/
structure StsRun where
  ctx : GecStsCtx
  live : Option (Bytes 32)

/-- A call on a context; the resets answer zero. `response_ack_sts` and
`finish_sts` reset the context when they succeed. -/
def stsMachine (P : Primitives) : Machine StsRun StsCall Int where
  step s
    | .resetPartner theirPublicKey =>
        (0, { ctx := GecRelay.resetPartner s.ctx theirPublicKey, live := none })
    | .resetCtx => (0, { ctx := GecRelay.resetCtx s.ctx, live := none })
    | .initiateSts msg1 randomData =>
        let r := GecRelay.initiateSts P msg1 s.ctx randomData
        (r.ret, { ctx := r.ctx, live := if r.ret = 0 then some randomData else s.live })
    | .respondSts msg1 msg2 randomData =>
        let r := GecRelay.respondSts P msg1 msg2 s.ctx randomData
        (r.ret, { ctx := r.ctx, live := if r.ret = 0 then some randomData else s.live })
    | .responseAckSts msg2 msg3 keyMaterial =>
        let r := GecRelay.responseAckSts P msg2 msg3 s.ctx keyMaterial
        (r.ret, { ctx := r.ctx, live := if r.ret = 0 then none else s.live })
    | .finishSts msg3 keyMaterial =>
        let r := GecRelay.finishSts P msg3 s.ctx keyMaterial
        (r.ret, { ctx := r.ctx, live := if r.ret = 0 then none else s.live })

/-! ## The invariant -/

variable {P : Primitives}

structure LiveSession (P : Primitives) (s : StsRun) (party : Party) (randomData : Bytes 32) :
    Prop where
  live : s.live = some randomData
  party : s.ctx.party = party
  priv : s.ctx.myPrivateKeyEphemeral = randomData
  pub : s.ctx.myPublicKeyEphemeral = gecGenerateEphemeralKeypair P randomData

structure ResponderKeys (P : Primitives) (ctx : GecStsCtx) : Prop where
  theirKCK : ∃ k, k = sessionKck P (ctx.secret P ctx.theirPublicKeyEphemeral) .initiator ∧
    (ctx.theirKCK = k ∨ ctx.theirKCK = usedKck k)
  clientKeyMaterial : ctx.clientKeyMaterial =
    sessionKey P (ctx.secret P ctx.theirPublicKeyEphemeral)

def StsInv (P : Primitives) (s : StsRun) : Prop :=
  match s.ctx.protocolStage with
  | .invalid => False
  | .ready => True
  | .message1Done => ∃ randomData, LiveSession P s .initiator randomData
  | .message2Done =>
      ∃ randomData, LiveSession P s .responder randomData ∧ ResponderKeys P s.ctx

theorem StsInv.of_ready {s : StsRun} (h : s.ctx.protocolStage = .ready) : StsInv P s := by
  rw [StsInv, h]
  trivial

theorem StsInv.of_message1Done {s : StsRun} {randomData : Bytes 32}
    (h : s.ctx.protocolStage = .message1Done) (hs : LiveSession P s .initiator randomData) :
    StsInv P s := by
  rw [StsInv, h]
  exact ⟨randomData, hs⟩

theorem StsInv.of_message2Done {s : StsRun} {randomData : Bytes 32}
    (h : s.ctx.protocolStage = .message2Done) (hs : LiveSession P s .responder randomData)
    (hk : ResponderKeys P s.ctx) : StsInv P s := by
  rw [StsInv, h]
  exact ⟨randomData, hs, hk⟩

theorem StsInv.initiating {s : StsRun} (hs : StsInv P s)
    (h : s.ctx.protocolStage = .message1Done) :
    ∃ randomData, LiveSession P s .initiator randomData := by
  rwa [StsInv, h] at hs

theorem StsInv.responding {s : StsRun} (hs : StsInv P s)
    (h : s.ctx.protocolStage = .message2Done) :
    ∃ randomData, LiveSession P s .responder randomData ∧ ResponderKeys P s.ctx := by
  rwa [StsInv, h] at hs

theorem ResponderKeys.liveKck {ctx : GecStsCtx} (h : ResponderKeys P ctx) :
    LiveKck ctx.theirKCK := by
  rcases h.theirKCK with ⟨k, rfl, hk | hk⟩
  · rw [hk]
    exact sessionKck_live P _ _
  · rw [hk]
    exact (sessionKck_live P _ _).used

theorem ResponderKeys.rejected {ctx : GecStsCtx} (h : ResponderKeys P ctx) :
    ResponderKeys P { ctx with theirKCK := usedKck ctx.theirKCK } := by
  obtain ⟨k, hk, hctx⟩ := h.theirKCK
  refine ⟨⟨k, hk, Or.inr ?_⟩, h.clientKeyMaterial⟩
  rcases hctx with hctx | hctx <;> simp [hctx]

theorem responseAckSts_other {ctx : GecStsCtx} (h : ctx.protocolStage ≠ .message1Done)
    (msg2 : Bytes 96) (msg3 : Bytes 64) (km : Bytes 48) :
    responseAckSts P msg2 msg3 ctx km =
      { ret := -1, msg3 := msg3, ctx := ctx, keyMaterial := km } :=
  if_neg h

theorem finishSts_other {ctx : GecStsCtx} (h : ctx.protocolStage ≠ .message2Done)
    (msg3 : Bytes 64) (km : Bytes 48) :
    finishSts P msg3 ctx km = { ret := -1, ctx := ctx, keyMaterial := km } :=
  if_neg h

/-- **Every call keeps the invariant.** -/
theorem stsMachine_inv (s : StsRun) (call : StsCall) (hs : StsInv P s) :
    StsInv P ((stsMachine P).step s call).2 := by
  cases call with
  | resetPartner theirPublicKey => exact StsInv.of_ready rfl
  | resetCtx => exact StsInv.of_ready rfl
  | initiateSts msg1 randomData =>
      by_cases h : s.ctx.protocolStage = .ready
      · simp only [stsMachine, initiateSts, if_pos h]
        exact StsInv.of_message1Done rfl ⟨rfl, rfl, rfl, rfl⟩
      · simp only [stsMachine, initiateSts, if_neg h]
        exact hs
  | respondSts msg1 msg2 randomData =>
      by_cases h : s.ctx.protocolStage = .ready
      · simp only [stsMachine, respondSts_ready h]
        exact StsInv.of_message2Done rfl ⟨rfl, rfl, rfl, rfl⟩ ⟨⟨_, rfl, Or.inl rfl⟩, rfl⟩
      · simp only [stsMachine, respondSts, if_neg h]
        exact hs
  | responseAckSts msg2 msg3 km =>
      by_cases h : s.ctx.protocolStage = .message1Done
      · obtain ⟨randomData, hlive⟩ := hs.initiating h
        by_cases hok : AckAccepts P s.ctx msg2
        · simp only [stsMachine, responseAckSts_message1Done h, if_pos hok]
          exact StsInv.of_ready rfl
        -- the derived keys are replaced, the ephemeral pair stays
        · simp only [stsMachine, responseAckSts_message1Done h, if_neg hok]
          exact StsInv.of_message1Done h ⟨hlive.live, hlive.party, hlive.priv, hlive.pub⟩
      · simp only [stsMachine, responseAckSts_other h]
        exact hs
  | finishSts msg3 km =>
      by_cases h : s.ctx.protocolStage = .message2Done
      · obtain ⟨randomData, hlive, hkeys⟩ := hs.responding h
        by_cases hok : FinishAccepts P s.ctx msg3
        · simp only [stsMachine, finishSts_message2Done h hkeys.liveKck, if_pos hok]
          exact StsInv.of_ready rfl
        · simp only [stsMachine, finishSts_message2Done h hkeys.liveKck, if_neg hok]
          exact StsInv.of_message2Done h ⟨hlive.live, hlive.party, hlive.priv, hlive.pub⟩
            hkeys.rejected
      · simp only [stsMachine, finishSts_other h]
        exact hs

/-! ## Handing out a key -/

def StsAck.released (r : StsAck) : StsFinish :=
  { ret := r.ret, ctx := r.ctx, keyMaterial := r.keyMaterial }

/-- The rule for a call that can hand out a key, as a function of the key
buffer. `c` is the context with which the call checks the signature field
`auth`, and `peer` the party byte of the sender. -/
structure KeyRule (P : Primitives) (s : StsRun) (c : GecStsCtx) (peer : Party) (auth : Bytes 64)
    (call : Bytes 48 → StsFinish) : Prop where
  writes_iff : ∀ km, (call km).ret = 0 ↔ ∃ key, ∀ buf, (call buf).keyMaterial = key
  rejected : ∀ km, (call km).ret ≠ 0 → (call km).ret = -1 ∧ (call km).keyMaterial = km
  ready : ∀ km, (call km).ret = 0 → (call km).ctx.protocolStage = .ready
  pair : ∀ km, (call km).ret = 0 → s.live = some c.myPrivateKeyEphemeral ∧
    c.myPublicKeyEphemeral = gecGenerateEphemeralKeypair P c.myPrivateKeyEphemeral
  /-- The peer's key-confirmation key is derived from the session's secret. -/
  kck : ∀ km, (call km).ret = 0 →
    (kdf P (zeros 24) (c.secret P c.theirPublicKeyEphemeral) peer.byte).map (gecInitSymKeyConf P) =
      some { c.theirKCK with ctr := 0 }
  verified : ∀ km, (call km).ret = 0 →
    gecVerify P s.ctx.theirPublicKey
      (c.theirPublicKeyEphemeral.toList ++ c.myPublicKeyEphemeral.toList)
      (gecDecryptConf P c.theirKCK auth (zeros 64)).2.1 = .success
  key : ∀ km, (call km).ret = 0 →
    kdf P km (c.secret P c.theirPublicKeyEphemeral) Party.client.byte =
      some (call km).keyMaterial

variable {s : StsRun} {c : GecStsCtx} {peer : Party} {auth : Bytes 64}
  {call : Bytes 48 → StsFinish}

theorem KeyRule.of_reject {ctx : GecStsCtx}
    (hcall : ∀ km, call km = { ret := -1, ctx := ctx, keyMaterial := km }) :
    KeyRule P s c peer auth call := by
  have hret : ∀ km, (call km).ret ≠ 0 := by
    intro km
    simp [hcall km]
  refine ⟨?_, ?_, ?_, ?_, ?_, ?_, ?_⟩
  · intro km
    constructor
    · intro h
      exact absurd h (hret km)
    -- a buffer that comes back as it went in cannot have one fixed value
    · rintro ⟨key, hkey⟩
      have hne : zeros 48 ≠ overwrite (zeros 48) 0 [1] := by decide
      have hzero := hkey (zeros 48)
      have hone := hkey (overwrite (zeros 48) 0 [1])
      rw [hcall] at hzero hone
      exact absurd (hzero.trans hone.symm) hne
  · intro km _
    simp [hcall km]
  all_goals
    intro km h
    exact absurd h (hret km)

theorem KeyRule.of_accept {ctx : GecStsCtx}
    (hcall : ∀ km, call km =
      { ret := 0, ctx := ctx, keyMaterial := sessionKey P (c.secret P c.theirPublicKeyEphemeral) })
    (hready : ctx.protocolStage = .ready)
    (hlive : s.live = some c.myPrivateKeyEphemeral)
    (hpub : c.myPublicKeyEphemeral = gecGenerateEphemeralKeypair P c.myPrivateKeyEphemeral)
    (hkck : { c.theirKCK with ctr := 0 } =
      sessionKck P (c.secret P c.theirPublicKeyEphemeral) peer)
    (hctr : LiveKck c.theirKCK)
    (hsig : gecVerify P s.ctx.theirPublicKey (signedContents c) (unmaskSig P c.theirKCK auth) =
      .success) :
    KeyRule P s c peer auth call where
  writes_iff km := by
    constructor
    · intro _
      exact ⟨_, fun buf => by rw [hcall]⟩
    · intro _
      rw [hcall]
  rejected km h := absurd (by rw [hcall]) h
  ready km _ := by rw [hcall]; exact hready
  pair _ _ := ⟨hlive, hpub⟩
  kck _ _ := by rw [kdf_kck, hkck]
  verified _ _ := by
    rw [gecDecryptConf, gecEncryptConf_live P hctr]
    exact hsig
  key km _ := by rw [kdf_client, hcall]

theorem responseAckSts_keyRule (hs : StsInv P s) (msg2 : Bytes 96) (msg3 : Bytes 64) :
    KeyRule P s (deriveFromMsg2 P msg2 s.ctx) .responder (slice msg2 32 64)
      fun km => (responseAckSts P msg2 msg3 s.ctx km).released := by
  by_cases h : s.ctx.protocolStage = .message1Done
  · obtain ⟨randomData, hlive⟩ := hs.initiating h
    have hpeer : theirParty s.ctx = .responder := by
      rw [theirParty, hlive.party]
      rfl
    by_cases hok : AckAccepts P s.ctx msg2
    · have hcall : ∀ km, (responseAckSts P msg2 msg3 s.ctx km).released = _ := fun km => by
        rw [responseAckSts_message1Done h, if_pos hok, StsAck.released]
      rw [deriveFromMsg2_eq]
      refine KeyRule.of_accept hcall rfl (hlive.live.trans (congrArg some hlive.priv.symm))
        (hlive.pub.trans (congrArg _ hlive.priv.symm)) ?_ (sessionKck_live P _ _) hok
      rw [← hpeer]
      rfl
    · apply KeyRule.of_reject
      intro km
      rw [responseAckSts_message1Done h, if_neg hok]
      rfl
  · apply KeyRule.of_reject
    intro km
    rw [responseAckSts_other h]
    rfl

theorem finishSts_keyRule (hs : StsInv P s) (msg3 : Bytes 64) :
    KeyRule P s s.ctx .initiator msg3 fun km => finishSts P msg3 s.ctx km := by
  by_cases h : s.ctx.protocolStage = .message2Done
  · obtain ⟨randomData, hlive, hkeys⟩ := hs.responding h
    by_cases hok : FinishAccepts P s.ctx msg3
    · have hcall : ∀ km, finishSts P msg3 s.ctx km = _ := fun km => by
        rw [finishSts_message2Done h hkeys.liveKck, if_pos hok, hkeys.clientKeyMaterial]
      refine KeyRule.of_accept hcall rfl (hlive.live.trans (congrArg some hlive.priv.symm))
        (hlive.pub.trans (congrArg _ hlive.priv.symm)) ?_ hkeys.liveKck hok
      rcases hkeys.theirKCK with ⟨k, rfl, hk | hk⟩
      · rw [hk]
        rfl
      · rw [hk]
        rfl
    · apply KeyRule.of_reject
      intro km
      rw [finishSts_message2Done h hkeys.liveKck, if_neg hok]
  · apply KeyRule.of_reject
    intro km
    exact finishSts_other h msg3 km

/-- **Only a verified partner yields a key.** From `init_context` on, after any
calls with any bytes, both calls that can hand out a key obey `KeyRule`. -/
theorem key_only_from_verified_partner (P : Primitives) (memory : GecStsCtx)
    (myPublicKey : GecPubkey) (myPrivateKey : GecPrivkey) (theirPublicKey : GecPubkey)
    (calls : List StsCall) :
    let s := (stsMachine P).exec
      { ctx := initContext memory myPublicKey myPrivateKey theirPublicKey, live := none } calls
    (∀ msg2 msg3, KeyRule P s (deriveFromMsg2 P msg2 s.ctx) .responder (slice msg2 32 64)
      fun km => (responseAckSts P msg2 msg3 s.ctx km).released) ∧
    ∀ msg3, KeyRule P s s.ctx .initiator msg3 fun km => finishSts P msg3 s.ctx km := by
  intro s
  have hs : StsInv P s := Machine.exec_inv stsMachine_inv (StsInv.of_ready rfl) calls
  exact ⟨responseAckSts_keyRule hs, finishSts_keyRule hs⟩

end GecRelay
