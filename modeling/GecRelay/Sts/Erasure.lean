import GecRelay.Sts.Safety

/-!
# What a reset leaves behind

`reset_ctx` and `clear_ctx` clear `GEC_RAW_KEY_LEN` bytes of each
key-confirmation key, the length of the raw key it was made from: the first
six words of its key schedule. The other 38 words, `inf`, the salt and the
counter stay. `clear_ctx` clears `PRIVATEKEY_LEN` bytes of the private key,
which leaves its public half. So two sessions are alike after a reset exactly
when neither derived keys, or both did and left the same behind.
-/

namespace GecRelay

open Foundation

variable {P : Primitives}

def clearCtx (ctx : GecStsCtx) : GecStsCtx :=
  { ctx with
    theirKCK := zeroKck ctx.theirKCK
    myKCK := zeroKck ctx.myKCK
    clientKeyMaterial := zeros 48
    myPrivateKeyEphemeral := zeros 32
    myPublicKeyEphemeral := zeros 32
    theirPublicKeyEphemeral := zeros 32
    theirPublicKey := ⟨zeros 32⟩
    myPublicKey := ⟨zeros 32⟩
    -- `PRIVATEKEY_LEN` bytes of a structure that also holds the public half
    myPrivateKey := { ctx.myPrivateKey with priv := zeros 32 }
    protocolStage := .invalid
    party := .invalidParty }

/-- What `memset(&kck, 0, GEC_RAW_KEY_LEN)` leaves of a key. -/
structure KckLeftover where
  words : List UInt32
  inf : Bytes 4
  salt : Bytes 8
  ctr : UInt64

def GecSymKeyConf.leftover (k : GecSymKeyConf) : KckLeftover where
  words := k.cctx.ks.toList.drop 6
  inf := k.cctx.inf
  salt := k.salt
  ctr := k.ctr

def SameLeftover (c d : GecStsCtx) : Prop :=
  c.myKCK.leftover = d.myKCK.leftover ∧ c.theirKCK.leftover = d.theirKCK.leftover

theorem zeroKck_inj {k k' : GecSymKeyConf} :
    zeroKck k = zeroKck k' ↔ k.leftover = k'.leftover := by
  obtain ⟨⟨ks, inf⟩, salt, ctr⟩ := k
  obtain ⟨⟨ks', inf'⟩, salt', ctr'⟩ := k'
  have hwords : overwrite ks 0 (List.replicate 6 0) = overwrite ks' 0 (List.replicate 6 0) ↔
      ks.toList.drop 6 = ks'.toList.drop 6 := by
    constructor
    · intro h
      simpa using congrArg (fun v => v.toList.drop 6) h
    · intro h
      apply vec_ext
      rw [toList_overwrite, toList_overwrite]
      simpa using h
  simp only [zeroKck, GecSymKeyConf.leftover, GecSymKeyConf.mk.injEq, AesEncryptCtx.mk.injEq,
    KckLeftover.mk.injEq, hwords, and_assoc]

theorem resetCtx_eq_iff {c d : GecStsCtx} (hpub : c.myPublicKey = d.myPublicKey)
    (hpriv : c.myPrivateKey = d.myPrivateKey) (htheir : c.theirPublicKey = d.theirPublicKey) :
    resetCtx c = resetCtx d ↔ SameLeftover c d := by
  rw [SameLeftover, ← zeroKck_inj, ← zeroKck_inj]
  simp [resetCtx, hpub, hpriv, htheir]

theorem clearCtx_eq_iff (c d : GecStsCtx) :
    clearCtx c = clearCtx d ↔ SameLeftover c d ∧ c.myPrivateKey.pub = d.myPrivateKey.pub := by
  rw [SameLeftover, ← zeroKck_inj, ← zeroKck_inj]
  simp [clearCtx]
  tauto

/-! ## Which runs leave something -/

/-- The call derives keys: `respond_sts` does in every session it enters,
`response_ack_sts` on every msg2, genuine or not. -/
def DerivesKeys (ctx : GecStsCtx) : StsCall → Prop
  | .respondSts .. => ctx.protocolStage = .ready
  | .responseAckSts .. => ctx.protocolStage = .message1Done
  | _ => False

def RunDerivesKeys (P : Primitives) (s : StsRun) : List StsCall → Prop
  | [] => False
  | call :: calls =>
      DerivesKeys s.ctx call ∨ RunDerivesKeys P ((stsMachine P).step s call).2 calls

/-- No key was ever in the context. -/
def NoKcks (ctx : GecStsCtx) : Prop :=
  ctx.myKCK = zeroCtx.myKCK ∧ ctx.theirKCK = zeroCtx.theirKCK

def KeyedKcks (ctx : GecStsCtx) : Prop := Keyed ctx.myKCK.cctx ∧ Keyed ctx.theirKCK.cctx

theorem NoKcks.resetCtx {ctx : GecStsCtx} (h : NoKcks ctx) : NoKcks (resetCtx ctx) := by
  constructor
  · show zeroKck ctx.myKCK = _
    rw [h.1]
    decide
  · show zeroKck ctx.theirKCK = _
    rw [h.2]
    decide

theorem NoKcks.not_keyed {ctx : GecStsCtx} (h : NoKcks ctx) : ¬Keyed ctx.theirKCK.cctx := by
  rw [h.2]
  show zeros 4 ≠ keyedInf
  decide

theorem NoKcks.not_message2Done {s : StsRun} (hs : StsInv P s) (h : NoKcks s.ctx) :
    s.ctx.protocolStage ≠ .message2Done := by
  intro hstage
  obtain ⟨randomData, -, hkeys⟩ := hs.responding hstage
  exact h.not_keyed hkeys.liveKck.1

theorem step_noKcks {s : StsRun} (hs : StsInv P s) (h : NoKcks s.ctx) {call : StsCall}
    (hcall : ¬DerivesKeys s.ctx call) : NoKcks ((stsMachine P).step s call).2.ctx := by
  cases call with
  | resetPartner theirPublicKey =>
      have hpartner : NoKcks { s.ctx with theirPublicKey } := h
      exact hpartner.resetCtx
  | resetCtx => exact h.resetCtx
  | initiateSts msg1 randomData =>
      by_cases hstage : s.ctx.protocolStage = .ready
      · simp only [stsMachine, initiateSts, if_pos hstage]
        exact h
      · simp only [stsMachine, initiateSts, if_neg hstage]
        exact h
  | respondSts msg1 msg2 randomData =>
      simp only [stsMachine, respondSts, if_neg (show ¬s.ctx.protocolStage = .ready from hcall)]
      exact h
  | responseAckSts msg2 msg3 km =>
      simp only [stsMachine, responseAckSts_other hcall]
      exact h
  | finishSts msg3 km =>
      simp only [stsMachine, finishSts_other (h.not_message2Done hs)]
      exact h

theorem step_keyedKcks {s : StsRun} (hs : StsInv P s) {call : StsCall}
    (h : KeyedKcks s.ctx ∨ DerivesKeys s.ctx call) :
    KeyedKcks ((stsMachine P).step s call).2.ctx := by
  cases call with
  | resetPartner theirPublicKey => exact h.elim id False.elim
  | resetCtx => exact h.elim id False.elim
  | initiateSts msg1 randomData =>
      have hkeyed := h.elim id False.elim
      by_cases hstage : s.ctx.protocolStage = .ready
      · simp only [stsMachine, initiateSts, if_pos hstage]
        exact hkeyed
      · simp only [stsMachine, initiateSts, if_neg hstage]
        exact hkeyed
  | respondSts msg1 msg2 randomData =>
      by_cases hstage : s.ctx.protocolStage = .ready
      · simp only [stsMachine, respondSts_ready hstage]
        exact ⟨rfl, rfl⟩
      · simp only [stsMachine, respondSts, if_neg hstage]
        exact h.resolve_right hstage
  | responseAckSts msg2 msg3 km =>
      by_cases hstage : s.ctx.protocolStage = .message1Done
      -- the keys are derived before msg2 is checked
      · by_cases hok : AckAccepts P s.ctx msg2
        · simp only [stsMachine, responseAckSts_message1Done hstage, if_pos hok]
          exact ⟨rfl, rfl⟩
        · simp only [stsMachine, responseAckSts_message1Done hstage, if_neg hok]
          exact ⟨rfl, rfl⟩
      · simp only [stsMachine, responseAckSts_other hstage]
        exact h.resolve_right hstage
  | finishSts msg3 km =>
      have hkeyed := h.elim id False.elim
      by_cases hstage : s.ctx.protocolStage = .message2Done
      · obtain ⟨randomData, -, hkeys⟩ := hs.responding hstage
        by_cases hok : FinishAccepts P s.ctx msg3
        · simp only [stsMachine, finishSts_message2Done hstage hkeys.liveKck, if_pos hok]
          exact hkeyed
        · simp only [stsMachine, finishSts_message2Done hstage hkeys.liveKck, if_neg hok]
          exact hkeyed
      · simp only [stsMachine, finishSts_other hstage]
        exact hkeyed

/-- **Over a run**: a key was derived or the context holds none. -/
theorem exec_kcks {s : StsRun} (hs : StsInv P s) (calls : List StsCall) :
    (NoKcks s.ctx → ¬RunDerivesKeys P s calls → NoKcks ((stsMachine P).exec s calls).ctx) ∧
    (KeyedKcks s.ctx ∨ RunDerivesKeys P s calls →
      KeyedKcks ((stsMachine P).exec s calls).ctx) := by
  induction calls generalizing s with
  | nil => exact ⟨fun h _ => h, fun h => h.elim id False.elim⟩
  | cons call calls ih =>
      obtain ⟨hno, hkeyed⟩ := ih (stsMachine_inv s call hs)
      constructor
      · intro h hcalls
        rw [RunDerivesKeys, not_or] at hcalls
        exact hno (step_noKcks hs h hcalls.1) hcalls.2
      · rintro (h | h | h)
        · exact hkeyed (Or.inl (step_keyedKcks hs (Or.inl h)))
        · exact hkeyed (Or.inl (step_keyedKcks hs (Or.inr h)))
        · exact hkeyed (Or.inr h)

/-! ## Two sessions -/

/-- A zeroed context with its long-term keys, and the calls made on it. -/
structure StsHistory where
  myPublicKey : GecPubkey
  myPrivateKey : GecPrivkey
  theirPublicKey : GecPubkey
  calls : List StsCall

namespace StsHistory

def start (h : StsHistory) : StsRun where
  ctx := initContext zeroCtx h.myPublicKey h.myPrivateKey h.theirPublicKey
  live := none

def ctx (P : Primitives) (h : StsHistory) : GecStsCtx := ((stsMachine P).exec h.start h.calls).ctx

def Derives (P : Primitives) (h : StsHistory) : Prop := RunDerivesKeys P h.start h.calls

theorem kcks (h : StsHistory) :
    (¬h.Derives P → NoKcks (h.ctx P)) ∧ (h.Derives P → KeyedKcks (h.ctx P)) := by
  have hrun := exec_kcks (P := P) (s := h.start) (StsInv.of_ready rfl) h.calls
  exact ⟨hrun.1 ⟨rfl, rfl⟩, fun hd => hrun.2 (Or.inr hd)⟩

/-- If only one session derived keys, `inf` tells. -/
theorem not_sameLeftover {h₁ h₂ : StsHistory} (hd : h₁.Derives P) (hn : ¬h₂.Derives P) :
    ¬SameLeftover (h₁.ctx P) (h₂.ctx P) := by
  rintro ⟨-, htheir⟩
  have hkeyed := (h₁.kcks.2 hd).2
  rw [Keyed, show (h₁.ctx P).theirKCK.cctx.inf = (h₂.ctx P).theirKCK.cctx.inf from
    congrArg KckLeftover.inf htheir] at hkeyed
  exact (h₂.kcks.1 hn).not_keyed hkeyed

theorem sameLeftover_iff (h₁ h₂ : StsHistory) :
    SameLeftover (h₁.ctx P) (h₂.ctx P) ↔
      (¬h₁.Derives P ∧ ¬h₂.Derives P) ∨
      (h₁.Derives P ∧ h₂.Derives P ∧ SameLeftover (h₁.ctx P) (h₂.ctx P)) := by
  by_cases hd₁ : h₁.Derives P
  · by_cases hd₂ : h₂.Derives P
    · simp [hd₁, hd₂]
    · simp [hd₁, hd₂, not_sameLeftover hd₁ hd₂]
  · by_cases hd₂ : h₂.Derives P
    · have hne : ¬SameLeftover (h₁.ctx P) (h₂.ctx P) := fun hsame =>
        not_sameLeftover hd₂ hd₁ ⟨hsame.1.symm, hsame.2.symm⟩
      simp [hd₁, hd₂, hne]
    · obtain ⟨hmy₁, htheir₁⟩ := h₁.kcks.1 hd₁
      obtain ⟨hmy₂, htheir₂⟩ := h₂.kcks.1 hd₂
      simp [hd₁, hd₂, SameLeftover, hmy₁, hmy₂, htheir₁, htheir₂]

end StsHistory

/-- **When no session secret survives.** For any two histories of calls after
which the long-term keys are the same, `reset_ctx` makes the contexts equal
exactly when neither history derived keys, or both did and their
key-confirmation keys agree beyond the first 24 bytes. `clear_ctx` makes two
contexts equal exactly when their key-confirmation keys agree there and the
public halves of their private keys do. -/
theorem erased_exactly (h₁ h₂ : StsHistory)
    (hpub : (h₁.ctx P).myPublicKey = (h₂.ctx P).myPublicKey)
    (hpriv : (h₁.ctx P).myPrivateKey = (h₂.ctx P).myPrivateKey)
    (htheir : (h₁.ctx P).theirPublicKey = (h₂.ctx P).theirPublicKey) :
    (resetCtx (h₁.ctx P) = resetCtx (h₂.ctx P) ↔
      (¬h₁.Derives P ∧ ¬h₂.Derives P) ∨
      (h₁.Derives P ∧ h₂.Derives P ∧ SameLeftover (h₁.ctx P) (h₂.ctx P))) ∧
    ∀ c d : GecStsCtx, clearCtx c = clearCtx d ↔
      SameLeftover c d ∧ c.myPrivateKey.pub = d.myPrivateKey.pub :=
  ⟨(resetCtx_eq_iff hpub hpriv htheir).trans (h₁.sameLeftover_iff h₂), clearCtx_eq_iff⟩

/-- A context that has answered one msg1. -/
def answered : StsHistory where
  myPublicKey := ⟨zeros 32⟩
  myPrivateKey := ⟨zeros 32, zeros 32⟩
  theirPublicKey := ⟨zeros 32⟩
  calls := [.respondSts (zeros 32) (zeros 96) (zeros 32)]

def untouched : StsHistory := { answered with calls := [] }

theorem answered_longTerm :
    (answered.ctx P).myPublicKey = (untouched.ctx P).myPublicKey ∧
    (answered.ctx P).myPrivateKey = (untouched.ctx P).myPrivateKey ∧
    (answered.ctx P).theirPublicKey = (untouched.ctx P).theirPublicKey := by
  have hctx : answered.ctx P = responded P answered.start.ctx (zeros 32) (zeros 32) :=
    congrArg StsSend.ctx (respondSts_ready rfl (zeros 32) (zeros 96) (zeros 32))
  rw [hctx]
  exact ⟨rfl, rfl, rfl⟩

/-- The session survives the reset, and the public half of the private key
survives the clearing. -/
theorem session_survives_reset :
    resetCtx (answered.ctx xorPrimitives) ≠ resetCtx (untouched.ctx xorPrimitives) ∧
    clearCtx { zeroCtx with myPrivateKey := ⟨zeros 32, basepoint⟩ } ≠ clearCtx zeroCtx := by
  constructor
  · obtain ⟨hpub, hpriv, htheir⟩ := answered_longTerm (P := xorPrimitives)
    rw [Ne, resetCtx_eq_iff hpub hpriv htheir]
    exact StsHistory.not_sameLeftover (Or.inl rfl) id
  · rw [Ne, clearCtx_eq_iff]
    rintro ⟨-, hpub⟩
    exact absurd hpub (by decide)

theorem erased_exactly_answered :
    ((answered.ctx xorPrimitives).myPublicKey = (untouched.ctx xorPrimitives).myPublicKey ∧
      (answered.ctx xorPrimitives).myPrivateKey = (untouched.ctx xorPrimitives).myPrivateKey ∧
      (answered.ctx xorPrimitives).theirPublicKey = (untouched.ctx xorPrimitives).theirPublicKey) ∧
    (resetCtx (answered.ctx xorPrimitives) = resetCtx (untouched.ctx xorPrimitives) ↔
      (¬answered.Derives xorPrimitives ∧ ¬untouched.Derives xorPrimitives) ∨
      (answered.Derives xorPrimitives ∧ untouched.Derives xorPrimitives ∧
        SameLeftover (answered.ctx xorPrimitives) (untouched.ctx xorPrimitives))) :=
  ⟨answered_longTerm, (erased_exactly answered untouched answered_longTerm.1 answered_longTerm.2.1
    answered_longTerm.2.2).1⟩

end GecRelay
