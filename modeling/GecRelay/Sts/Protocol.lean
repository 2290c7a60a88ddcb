import GecRelay.Sts.Context
import GecRelay.Foundation.Machine

/-!
# The four message steps of STS

    A -> B   msg1 = pubA_e
    B -> A   msg2 = pubB_e | E(sign_B(pubB_e, pubA_e))
    A -> B   msg3 = E(sign_A(pubA_e, pubB_e))

`initiate_sts` and `response_ack_sts` are the steps of A, `respond_sts` and
`finish_sts` those of B. Output buffers are arguments and results, so that a
call that does not write one hands it back. A rejected message is not a no-op:
`response_ack_sts` has by then taken over the peer's ephemeral key and derived
new keys, and `finish_sts` has moved the counter of the peer's
key-confirmation key.
-/

namespace GecRelay

open Foundation

structure StsSend (n : ℕ) where
  ret : Int
  msg : Bytes n
  ctx : GecStsCtx

structure StsAck where
  ret : Int
  msg3 : Bytes 64
  ctx : GecStsCtx
  keyMaterial : Bytes 48

structure StsFinish where
  ret : Int
  ctx : GecStsCtx
  keyMaterial : Bytes 48

def initiateSts (P : Primitives) (msg1 : Bytes 32) (ctx : GecStsCtx) (randomData : Bytes 32) :
    StsSend 32 :=
  if ctx.protocolStage = .ready then
    let myPublicKeyEphemeral := gecGenerateEphemeralKeypair P randomData
    { ret := 0
      msg := myPublicKeyEphemeral
      ctx := { ctx with
        myPrivateKeyEphemeral := randomData
        myPublicKeyEphemeral := myPublicKeyEphemeral
        protocolStage := .message1Done
        party := .initiator } }
  else { ret := -1, msg := msg1, ctx := ctx }

/-- `unsigned_data`: our ephemeral key, then the peer's. -/
def unsignedData (ctx : GecStsCtx) : List UInt8 :=
  ctx.myPublicKeyEphemeral.toList ++ ctx.theirPublicKeyEphemeral.toList

def respondSts (P : Primitives) (msg1 : Bytes 32) (msg2 : Bytes 96) (ctx : GecStsCtx)
    (randomData : Bytes 32) : StsSend 96 :=
  if ctx.protocolStage = .ready then
    let ctx := { ctx with
      party := .responder
      myPrivateKeyEphemeral := randomData
      myPublicKeyEphemeral := gecGenerateEphemeralKeypair P randomData
      theirPublicKeyEphemeral := msg1 }
    let z := gecEcdh P ctx.theirPublicKeyEphemeral ctx.myPrivateKeyEphemeral
    let ctx := deriveKeyMaterials P ctx z
    let msg2 := overwrite msg2 0 ctx.myPublicKeyEphemeral.toList
    let sig := gecSign P ctx.myPrivateKey (unsignedData ctx)
    let (_, ct, myKCK) := gecEncryptConf P ctx.myKCK sig (slice msg2 32 64)
    { ret := 0
      msg := overwrite msg2 32 ct.toList
      ctx := { ctx with myKCK := myKCK, protocolStage := .message2Done } }
  else { ret := -1, msg := msg2, ctx := ctx }

/-- The first part of `response_ack_sts`: take over the peer's ephemeral key
and derive the keys. -/
def deriveFromMsg2 (P : Primitives) (msg2 : Bytes 96) (ctx : GecStsCtx) : GecStsCtx :=
  let ctx := { ctx with theirPublicKeyEphemeral := slice msg2 0 32 }
  let z := gecEcdh P ctx.theirPublicKeyEphemeral ctx.myPrivateKeyEphemeral
  deriveKeyMaterials P ctx z

/-- The last part of `response_ack_sts`: sign, hand out the key, reset. -/
def acceptMsg2 (P : Primitives) (msg3 : Bytes 64) (ctx : GecStsCtx) : StsAck :=
  let sig := gecSign P ctx.myPrivateKey (unsignedData ctx)
  let (_, ct, myKCK) := gecEncryptConf P ctx.myKCK sig msg3
  { ret := 0
    msg3 := ct
    ctx := resetCtx { ctx with myKCK := myKCK }
    keyMaterial := ctx.clientKeyMaterial }

def responseAckSts (P : Primitives) (msg2 : Bytes 96) (msg3 : Bytes 64) (ctx : GecStsCtx)
    (keyMaterial : Bytes 48) : StsAck :=
  if ctx.protocolStage = .message1Done then
    let (sigResult, ctx) := verify P (deriveFromMsg2 P msg2 ctx) (slice msg2 32 64)
    if sigResult ≠ .success then
      { ret := -1, msg3 := msg3, ctx := ctx, keyMaterial := keyMaterial }
    else acceptMsg2 P msg3 ctx
  else { ret := -1, msg3 := msg3, ctx := ctx, keyMaterial := keyMaterial }

def finishSts (P : Primitives) (msg3 : Bytes 64) (ctx : GecStsCtx) (keyMaterial : Bytes 48) :
    StsFinish :=
  if ctx.protocolStage = .message2Done then
    let (sigResult, ctx) := verify P ctx msg3
    if sigResult ≠ .success then { ret := -1, ctx := ctx, keyMaterial := keyMaterial }
    else { ret := 0, ctx := resetCtx ctx, keyMaterial := ctx.clientKeyMaterial }
  else { ret := -1, ctx := ctx, keyMaterial := keyMaterial }

/-! ## What each step does

One equation for each branch that runs, with the derived keys written as
functions of the shared secret. -/

variable (P : Primitives)

def GecStsCtx.secret (ctx : GecStsCtx) (theirs : Bytes 32) : Bytes 32 :=
  gecEcdh P theirs ctx.myPrivateKeyEphemeral

def responded (ctx : GecStsCtx) (msg1 randomData : Bytes 32) : GecStsCtx :=
  let z := gecEcdh P msg1 randomData
  { ctx with
    party := .responder
    myPrivateKeyEphemeral := randomData
    myPublicKeyEphemeral := gecGenerateEphemeralKeypair P randomData
    theirPublicKeyEphemeral := msg1
    myKCK := usedKck (sessionKck P z .responder)
    theirKCK := sessionKck P z .initiator
    clientKeyMaterial := sessionKey P z
    protocolStage := .message2Done }

/-- The message a party authenticates itself with under secret `z`. -/
def authData (z : Bytes 32) (party : Party) (k : GecPrivkey) (mine theirs : Bytes 32) : Bytes 64 :=
  unmaskSig P (sessionKck P z party) (gecSign P k (mine.toList ++ theirs.toList))

def acking (ctx : GecStsCtx) (theirs : Bytes 32) : GecStsCtx :=
  { ctx with
    theirPublicKeyEphemeral := theirs
    myKCK := sessionKck P (ctx.secret P theirs) ctx.party
    theirKCK := sessionKck P (ctx.secret P theirs) (theirParty ctx)
    clientKeyMaterial := sessionKey P (ctx.secret P theirs) }

variable {P}

theorem overwrite_msg2 (buf : Bytes 96) (pub : Bytes 32) (ct : Bytes 64) :
    overwrite (overwrite buf 0 pub.toList) 32 ct.toList = pub ++ ct := by
  apply vec_ext
  rw [List.Vector.toList_append]
  have hold : ((overwrite buf 0 pub.toList).toList.drop (32 + ct.toList.length)) = [] :=
    List.drop_eq_nil_of_le (by simp)
  have hnew : (overwrite buf 0 pub.toList).toList.take 32 = pub.toList := by
    simp
  rw [toList_overwrite, hold, hnew, List.append_nil, List.take_of_length_le (by simp)]

theorem respondSts_ready {ctx : GecStsCtx} (h : ctx.protocolStage = .ready)
    (msg1 : Bytes 32) (msg2 : Bytes 96) (randomData : Bytes 32) :
    respondSts P msg1 msg2 ctx randomData =
      { ret := 0
        msg := gecGenerateEphemeralKeypair P randomData ++
          authData P (gecEcdh P msg1 randomData) .responder ctx.myPrivateKey
            (gecGenerateEphemeralKeypair P randomData) msg1
        ctx := responded P ctx msg1 randomData } := by
  rw [respondSts, if_pos h]
  simp only [deriveKeyMaterials_eq, overwrite_msg2, gecEncryptConf_live P (sessionKck_live P _ _)]
  rfl

def AckAccepts (P : Primitives) (ctx : GecStsCtx) (msg2 : Bytes 96) : Prop :=
  let theirs := slice msg2 0 32
  gecVerify P ctx.theirPublicKey (theirs.toList ++ ctx.myPublicKeyEphemeral.toList)
    (unmaskSig P (sessionKck P (ctx.secret P theirs) (theirParty ctx)) (slice msg2 32 64)) =
      .success

instance (ctx : GecStsCtx) (msg2 : Bytes 96) : Decidable (AckAccepts P ctx msg2) :=
  inferInstanceAs (Decidable (_ = _))

def FinishAccepts (P : Primitives) (ctx : GecStsCtx) (msg3 : Bytes 64) : Prop :=
  gecVerify P ctx.theirPublicKey (signedContents ctx) (unmaskSig P ctx.theirKCK msg3) = .success

instance (ctx : GecStsCtx) (msg3 : Bytes 64) : Decidable (FinishAccepts P ctx msg3) :=
  inferInstanceAs (Decidable (_ = _))

theorem deriveFromMsg2_eq (ctx : GecStsCtx) (msg2 : Bytes 96) :
    deriveFromMsg2 P msg2 ctx = acking P ctx (slice msg2 0 32) :=
  deriveKeyMaterials_eq P _ _

theorem acceptMsg2_eq {ctx : GecStsCtx} (h : LiveKck ctx.myKCK) (msg3 : Bytes 64) :
    acceptMsg2 P msg3 ctx =
      { ret := 0
        msg3 := unmaskSig P ctx.myKCK (gecSign P ctx.myPrivateKey (unsignedData ctx))
        ctx := resetCtx { ctx with myKCK := usedKck ctx.myKCK }
        keyMaterial := ctx.clientKeyMaterial } := by
  rw [acceptMsg2, gecEncryptConf_live P h]

/-- **`response_ack_sts` on a message of the right stage.** -/
theorem responseAckSts_message1Done {ctx : GecStsCtx} (h : ctx.protocolStage = .message1Done)
    (msg2 : Bytes 96) (msg3 : Bytes 64) (keyMaterial : Bytes 48) :
    let theirs : Bytes 32 := slice msg2 0 32
    let z := ctx.secret P theirs
    responseAckSts P msg2 msg3 ctx keyMaterial =
      if AckAccepts P ctx msg2 then
        { ret := 0
          msg3 := authData P z ctx.party ctx.myPrivateKey ctx.myPublicKeyEphemeral theirs
          ctx := resetCtx { acking P ctx theirs with
            myKCK := usedKck (sessionKck P z ctx.party)
            theirKCK := usedKck (sessionKck P z (theirParty ctx)) }
          keyMaterial := sessionKey P z }
      else
        { ret := -1
          msg3 := msg3
          ctx := { acking P ctx theirs with
            theirKCK := usedKck (sessionKck P z (theirParty ctx)) }
          keyMaterial := keyMaterial } := by
  intro theirs z
  have hlive : LiveKck (acking P ctx theirs).theirKCK := sessionKck_live P z (theirParty ctx)
  rw [responseAckSts, if_pos h, deriveFromMsg2_eq, verify_eq P hlive]
  by_cases hok : AckAccepts P ctx msg2
  · rw [if_pos hok]
    exact (if_neg (not_not_intro hok)).trans (acceptMsg2_eq (sessionKck_live P z ctx.party) msg3)
  · rw [if_neg hok]
    exact if_pos hok

theorem finishSts_message2Done {ctx : GecStsCtx} (h : ctx.protocolStage = .message2Done)
    (hlive : LiveKck ctx.theirKCK) (msg3 : Bytes 64) (keyMaterial : Bytes 48) :
    finishSts P msg3 ctx keyMaterial =
      if FinishAccepts P ctx msg3 then
        { ret := 0
          ctx := resetCtx { ctx with theirKCK := usedKck ctx.theirKCK }
          keyMaterial := ctx.clientKeyMaterial }
      else
        { ret := -1
          ctx := { ctx with theirKCK := usedKck ctx.theirKCK }
          keyMaterial := keyMaterial } := by
  rw [finishSts, if_pos h, verify_eq P hlive]
  by_cases hok : FinishAccepts P ctx msg3
  · rw [if_pos hok]
    exact if_neg (not_not_intro hok)
  · rw [if_neg hok]
    exact if_pos hok

end GecRelay
