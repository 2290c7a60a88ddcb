import GecRelay.Gec.Channel
import GecRelay.Foundation.Aead
import GecRelay.Foundation.Machine

/-!
# Whole runs of a channel key

A sender is a channel key under successive calls of `gec_encrypt`, a receiver
one under successive calls of `gec_decrypt`; both are machines, so each result
is one step lemma and one rule.

* `gecEncrypt_nonces`: a sender never repeats an IV and never wraps.
* `channel_roundtrip`: a receiver returns the sent block for every genuine
  frame, whatever came before it, and a rejected frame leaves it alone.
  `channel_complete`: below the rollover no block is refused.
* `noReplay_iff`: a receiver accepts a genuine frame every time it is
  delivered, so the replay guarantee holds of exactly those runs in which the
  line itself delivers no stale frame.
-/

namespace GecRelay

open Foundation

variable {κ : Type}

/-! ## The sender -/

/-- A call of `gec_encrypt`: the GCM functions as they behave in this call, the
plaintext, and what the output buffer holds before. -/
structure EncryptCall (κ : Type) where
  gcm : Gcm κ
  pt : Bytes 64
  ct : Bytes 80

def sender : Machine (GecSymKey κ) (EncryptCall κ) (EncryptCall κ × EncryptResult κ) where
  step k c := ((c, gecEncrypt c.gcm k c.pt c.ct), (gecEncrypt c.gcm k c.pt c.ct).key)

theorem counterField_toList {c : UInt64} (h : c.toNat < 2 ^ 32) :
    (writeWord32Be c.toUInt32).toList = bigEndian 4 c.toNat := by
  rw [writeWord32Be_toList, UInt64.toNat_toUInt32, Nat.mod_eq_of_lt h]

@[simp] theorem slice_frameIv_counter (c : Bytes 4) (s : Bytes 8) :
    slice (frameIv c s) 0 4 = c := slice_append_left c s _

def CounterBounded (k : GecSymKey κ) : Prop := k.ctr.toNat ≤ rolloverLimit

theorem counterBounded_step (k : GecSymKey κ) (c : EncryptCall κ) (h : CounterBounded k) :
    CounterBounded (sender.step k c).2 := by
  rcases gecEncrypt_cases c.gcm k c.pt c.ct with ⟨_, he⟩ |
    ⟨hlt, k', _, _, _, _, _, hctr, _, _, ⟨_, he⟩ | ⟨_, he⟩⟩
  · simpa only [sender, he] using h
  all_goals
    simp only [sender, he, CounterBounded, hctr]
    exact hlt

/-- The counter moves by one when an IV is handed out, and that IV starts with
the new counter; otherwise nothing moves. -/
theorem sender_iv (k : GecSymKey κ) (c : EncryptCall κ) :
    ((sender.step k c).1.2.iv = none ∧ (sender.step k c).2 = k) ∨
    ∃ iv, (sender.step k c).1.2.iv = some iv ∧
      (sender.step k c).2.ctr.toNat = k.ctr.toNat + 1 ∧
      (slice iv 0 4).toList = bigEndian 4 (k.ctr.toNat + 1) := by
  rcases gecEncrypt_cases c.gcm k c.pt c.ct with ⟨_, he⟩ |
    ⟨hlt, k', iv, _, _, _, _, hctr, hiv, _, hres⟩
  · exact Or.inl (by simp only [sender, he, and_self])
  · have hfield : (slice iv 0 4).toList = bigEndian 4 (k.ctr.toNat + 1) := by
      rw [rolloverLimit] at hlt
      rw [hiv, slice_frameIv_counter, counterField_toList (by omega), hctr]
    refine Or.inr ⟨iv, ?_, ?_, hfield⟩ <;>
      rcases hres with ⟨_, he⟩ | ⟨_, he⟩ <;> simp only [sender, he, hctr]

theorem sender_ctr (k : GecSymKey κ) (calls : List (EncryptCall κ)) :
    (sender.exec k calls).ctr.toNat =
      k.ctr.toNat + ((sender.answers k calls).filterMap fun e => e.2.iv).length := by
  induction calls generalizing k with
  | nil => rfl
  | cons c calls ih =>
      rw [Machine.exec_cons, ih, Machine.answers]
      rcases sender_iv k c with ⟨hiv, hk⟩ | ⟨iv, hiv, hk, _⟩
      · simp only [List.filterMap_cons, hiv, hk]
      · simp only [List.filterMap_cons, hiv, hk, List.length_cons]
        omega

theorem sender_ivs_nodup (k : GecSymKey κ) (h : CounterBounded k)
    (calls : List (EncryptCall κ)) :
    ((sender.answers k calls).filterMap fun e => e.2.iv).Nodup := by
  rw [List.Nodup, List.pairwise_filterMap]
  -- an IV leaves a counter behind that is at least the one it was made from
  refine Machine.answers_pairwise
    (J := fun e s => ∀ iv, e.2.iv = some iv →
      ∃ j ≤ s.ctr.toNat, (slice iv 0 4).toList = bigEndian 4 j)
    counterBounded_step ?_ ?_ ?_ h calls
  · intro s c hs iv hiv
    rcases sender_iv s c with ⟨hnone, _⟩ | ⟨iv', hsome, hctr, hfield⟩
    · rw [hnone] at hiv
      cases hiv
    · obtain rfl : iv' = iv := Option.some.inj (hsome.symm.trans hiv)
      exact ⟨_, hctr.ge, hfield⟩
  · intro e s c hs hJ iv hiv
    obtain ⟨j, hj, hfield⟩ := hJ iv hiv
    refine ⟨j, hj.trans ?_, hfield⟩
    rcases sender_iv s c with ⟨_, hk⟩ | ⟨_, _, hctr, _⟩
    · rw [hk]
    · omega
  · intro e s c hs hJ iv hiv iv' hiv' heq
    obtain ⟨j, hj, hfield⟩ := hJ iv hiv
    rcases sender_iv s c with ⟨hnone, _⟩ | ⟨iv'', hsome, _, hfield'⟩
    · rw [hnone] at hiv'
      cases hiv'
    · obtain rfl : iv'' = iv' := Option.some.inj (hsome.symm.trans hiv')
      have hbound : s.ctr.toNat ≤ rolloverLimit := hs
      rw [rolloverLimit] at hbound
      rw [heq, hfield'] at hfield
      have := bigEndian_injective (w := 4) (by omega) (by omega) hfield
      omega

theorem sender_rollover_absorbing (k : GecSymKey κ) (calls : List (EncryptCall κ)) :
    (sender.answers k calls).Pairwise (fun e e' => e.2.ret = .counterRollover →
      e'.2.ret = .counterRollover ∧ e'.2.key = e.2.key ∧ e'.2.ct = e'.1.ct) := by
  have refuse : ∀ (s : GecSymKey κ) (c : EncryptCall κ), rolloverLimit ≤ s.ctr.toNat →
      gecEncrypt c.gcm s c.pt c.ct =
        { ret := .counterRollover, key := s, ct := c.ct, iv := none } := by
    intro s c hs
    rcases gecEncrypt_cases c.gcm s c.pt c.ct with ⟨_, he⟩ | ⟨hlt, _⟩
    · exact he
    · omega
  refine Machine.answers_pairwise (I := fun _ => True)
    (J := fun e s => e.2.ret = .counterRollover → s = e.2.key ∧ rolloverLimit ≤ s.ctr.toNat)
    (fun _ _ _ => trivial) ?_ ?_ ?_ trivial calls
  · intro s c _ hret
    rcases gecEncrypt_cases c.gcm s c.pt c.ct with ⟨hlim, he⟩ |
      ⟨_, _, _, _, _, _, _, _, _, _, ⟨_, he⟩ | ⟨_, he⟩⟩
    · simp only [sender, he]
      exact ⟨trivial, hlim⟩
    all_goals
      simp only [sender, he] at hret
      cases hret
  · intro e s c _ hJ hret
    obtain ⟨hs, hlim⟩ := hJ hret
    simp only [sender, refuse s c hlim]
    exact ⟨hs, hlim⟩
  · intro e s c _ hJ hret
    obtain ⟨hs, hlim⟩ := hJ hret
    simp only [sender, refuse s c hlim]
    exact ⟨trivial, hs, trivial⟩

theorem sender_counterField {k : GecSymKey κ} (hk : CounterBounded k)
    {calls : List (EncryptCall κ)} {e : EncryptCall κ × EncryptResult κ}
    (he : e ∈ sender.answers k calls) (hret : e.2.ret = .success) :
    (slice e.2.ct 0 4).toList = bigEndian 4 e.2.key.ctr.toNat ∧
    ∃ iv, e.2.iv = some iv ∧ slice iv 0 4 = slice e.2.ct 0 4 := by
  obtain ⟨s, hs, c, _, rfl⟩ := Machine.mem_answers counterBounded_step hk he
  obtain ⟨counter, body, tag, hcounter, hiv, hct, _⟩ := gecEncrypt_success hret
  have hbound : (gecEncrypt c.gcm s c.pt c.ct).key.ctr.toNat ≤ rolloverLimit :=
    counterBounded_step s c hs
  refine ⟨?_, _, hiv, ?_⟩
  · show (slice (gecEncrypt c.gcm s c.pt c.ct).ct 0 4).toList = _
    rw [rolloverLimit] at hbound
    rw [hct, slice_frameOf_counter, hcounter, counterField_toList (by omega)]
    rfl
  · show _ = slice (gecEncrypt c.gcm s c.pt c.ct).ct 0 4
    rw [hct, slice_frameOf_counter, slice_frameIv_counter]

/-- **Nonce uniqueness.** Under a fresh key, over any calls with any plaintexts
and any outcome of GCM: the IVs handed to GCM are pairwise distinct; the
counter field of a produced frame is the big-endian encoding of `k->ctr` after
the call and the counter part of the IV; `k->ctr` counts the IVs, below
`2 ^ 32`; and after one `counterRollover` every later call answers it with key
and output buffer unchanged. -/
theorem gecEncrypt_nonces (G : Gcm κ) (rawkey : Bytes 24) (calls : List (EncryptCall κ)) :
    let k := gecInitSymKeyConfAuth G rawkey
    let log := sender.answers k calls
    (log.filterMap fun e => e.2.iv).Nodup ∧
    (∀ e ∈ log, e.2.ret = .success →
      (slice e.2.ct 0 4).toList = bigEndian 4 e.2.key.ctr.toNat ∧
      ∃ iv, e.2.iv = some iv ∧ slice iv 0 4 = slice e.2.ct 0 4) ∧
    ((sender.exec k calls).ctr.toNat = (log.filterMap fun e => e.2.iv).length ∧
      (sender.exec k calls).ctr.toNat < 2 ^ 32) ∧
    log.Pairwise (fun e e' => e.2.ret = .counterRollover →
      e'.2.ret = .counterRollover ∧ e'.2.key = e.2.key ∧ e'.2.ct = e'.1.ct) := by
  intro k log
  have hk : CounterBounded k := Nat.zero_le _
  refine ⟨sender_ivs_nodup k hk calls, ?_, ⟨?_, ?_⟩, ?_⟩
  · intro e he hret
    exact sender_counterField hk he hret
  · rw [sender_ctr k calls]
    exact Nat.zero_add _
  · have hbound : (sender.exec k calls).ctr.toNat ≤ rolloverLimit :=
      Machine.exec_inv counterBounded_step hk calls
    rw [rolloverLimit] at hbound
    omega
  · exact sender_rollover_absorbing k calls

/-! ## The receiver -/

/-- Two keys of one channel: same cipher key and salt, whatever the counters. -/
def SameChannel (k k' : GecSymKey κ) : Prop := k.gctx = k'.gctx ∧ k.salt = k'.salt

structure Delivery (κ : Type) where
  ct : Bytes 80
  before : GecSymKey κ
  res : DecryptResult κ

def receiver (G : Gcm κ) : Machine (GecSymKey κ) (Bytes 80) (Delivery κ) where
  step k ct := (⟨ct, k, gecDecrypt G k ct⟩, (gecDecrypt G k ct).key)

theorem sameChannel_sender_step (k₀ k : GecSymKey κ) (c : EncryptCall κ)
    (h : SameChannel k k₀) : SameChannel (sender.step k c).2 k₀ := by
  rcases gecEncrypt_cases c.gcm k c.pt c.ct with ⟨_, he⟩ |
    ⟨_, k', _, _, _, _, rfl, _, _, _, ⟨_, he⟩ | ⟨_, he⟩⟩ <;>
  simpa only [sender, he, SameChannel] using h

theorem sameChannel_receiver_step (G : Gcm κ) (k₀ k : GecSymKey κ) (ct : Bytes 80)
    (h : SameChannel k k₀) : SameChannel ((receiver G).step k ct).2 k₀ := by
  rcases gecDecrypt_cases G k ct with ⟨_, he⟩ | ⟨_, he⟩ <;>
  simpa only [receiver, he, SameChannel] using h

theorem gcmOpen_congr (G : Gcm κ) {k k' : GecSymKey κ} (h : SameChannel k k') (ct : Bytes 80) :
    gcmOpen G k ct = gcmOpen G k' ct := by
  rw [gcmOpen, gcmOpen, wireIv, wireIv, h.1, h.2]

def Gcm.aead (G : Gcm κ) : Aead κ (Bytes 12) (Bytes 64) (Bytes 12) where
  enc := G.gcmEncryptMessage
  dec := G.gcmDecryptMessage

theorem gcmOpen_frameOf (G : Gcm κ) (k : GecSymKey κ) (c : Bytes 4) (b : Bytes 64)
    (t : Bytes 12) :
    gcmOpen G k (frameOf c b t) = G.gcmDecryptMessage k.gctx (frameIv c k.salt) b t := by
  rw [gcmOpen, wireIv, slice_frameOf_counter, slice_frameOf_body, slice_frameOf_tag]

theorem gcmOpen_gecEncrypt {G : Gcm κ} (hG : G.aead.Sound) {k k' : GecSymKey κ}
    (hch : SameChannel k k') {pt : Bytes 64} {buf : Bytes 80}
    (h : (gecEncrypt G k' pt buf).ret = .success) :
    gcmOpen G k (gecEncrypt G k' pt buf).ct = (returnGood, pt) := by
  obtain ⟨counter, body, tag, _, _, hct, henc⟩ := gecEncrypt_success h
  rw [hct, gcmOpen_frameOf, hch.1, hch.2]
  exact hG _ _ _ _ _ henc

def encryptCalls (G : Gcm κ) (blocks : List (Bytes 64)) : List (EncryptCall κ) :=
  blocks.map fun pt => { gcm := G, pt := pt, ct := zeros 80 }

theorem mem_sender_log {G : Gcm κ} {k₀ : GecSymKey κ} {blocks : List (Bytes 64)}
    {e : EncryptCall κ × EncryptResult κ}
    (he : e ∈ sender.answers k₀ (encryptCalls G blocks)) :
    ∃ k, SameChannel k k₀ ∧ e.2 = gecEncrypt G k e.1.pt e.1.ct := by
  obtain ⟨k, hk, c, hc, rfl⟩ :=
    Machine.mem_answers (sameChannel_sender_step k₀) ⟨rfl, rfl⟩ he
  obtain ⟨pt, _, rfl⟩ := List.mem_map.mp hc
  exact ⟨k, hk, rfl⟩

/-- Below the limit, with a GCM that does not fail, `gec_encrypt` succeeds and
its frame opens to the block. -/
theorem gecEncrypt_sealed {G : Gcm κ} (hS : G.aead.Sound) (hT : G.aead.Total)
    {k k₀ : GecSymKey κ} (hk : SameChannel k k₀) (hlt : k.ctr.toNat < rolloverLimit)
    (pt : Bytes 64) (ct : Bytes 80) :
    (gecEncrypt G k pt ct).ret = .success ∧
    (gecEncrypt G k pt ct).key.ctr.toNat = k.ctr.toNat + 1 ∧
    SameChannel (gecEncrypt G k pt ct).key k₀ ∧
    gcmOpen G k₀ (gecEncrypt G k pt ct).ct = (returnGood, pt) := by
  have hret : (gecEncrypt G k pt ct).ret = .success ∧
      (gecEncrypt G k pt ct).key.ctr.toNat = k.ctr.toNat + 1 := by
    rcases gecEncrypt_cases G k pt ct with ⟨hle, _⟩ |
      ⟨_, k', iv, gcmRet, body, tag, _, hctr, _, hg, ⟨_, he⟩ | ⟨hne, _⟩⟩
    · omega
    · rw [he]
      exact ⟨rfl, hctr⟩
    · have hgood := hT k.gctx iv pt
      rw [show G.aead.enc k.gctx iv pt = (gcmRet, body, tag) from hg] at hgood
      exact absurd hgood hne
  refine ⟨hret.1, hret.2, sameChannel_sender_step k₀ k ⟨G, pt, ct⟩ hk, ?_⟩
  exact gcmOpen_gecEncrypt hS ⟨hk.1.symm, hk.2.symm⟩ hret.1

/-- A ciphertext that opens comes back, and the channel stays. -/
theorem gecDecrypt_of_open {G : Gcm κ} {k k₀ : GecSymKey κ} (hk : SameChannel k k₀)
    {ct : Bytes 80} {pt : Bytes 64} (h : gcmOpen G k₀ ct = (returnGood, pt)) :
    (gecDecrypt G k ct).ret = .success ∧ (gecDecrypt G k ct).pt = pt ∧
    SameChannel (gecDecrypt G k ct).key k₀ := by
  refine ⟨?_, ?_, sameChannel_receiver_step G k₀ k ct hk⟩
  all_goals
    rw [← gcmOpen_congr G hk] at h
    rcases gecDecrypt_cases G k ct with ⟨_, hdec⟩ | ⟨hne, _⟩
    · simp only [hdec, h]
    · exact absurd (by rw [h]) hne

/-- **Channel round trip.** A sender encrypts blocks in order; a receiver with
the same raw key is given any ciphertexts. Each one the sender produced is
answered with success and its block; each one that fails authentication is
answered `decryptAuthFailed`, with a zero block and the key unchanged. -/
theorem channel_roundtrip (G : Gcm κ) (hG : G.aead.Sound) (rawkey : Bytes 24)
    (blocks : List (Bytes 64)) (deliveries : List (Bytes 80)) :
    let k := gecInitSymKeyConfAuth G rawkey
    ∀ d ∈ (receiver G).answers k deliveries,
      (∀ e ∈ sender.answers k (encryptCalls G blocks), e.2.ret = .success → e.2.ct = d.ct →
        d.res.ret = .success ∧ d.res.pt = e.1.pt) ∧
      ((gcmOpen G k d.ct).1 ≠ returnGood →
        d.res = { ret := .decryptAuthFailed, key := d.before, pt := zeros 64 }) := by
  intro k d hd
  obtain ⟨s, hs, ct, _, rfl⟩ :=
    Machine.mem_answers (sameChannel_receiver_step G k) ⟨rfl, rfl⟩ hd
  constructor
  · intro e he hret hct
    obtain ⟨k', hk', heq⟩ := mem_sender_log he
    rw [heq] at hret hct
    have hopen : gcmOpen G k ct = (returnGood, e.1.pt) := by
      rw [← show _ = ct from hct]
      exact gcmOpen_gecEncrypt hG ⟨hk'.1.symm, hk'.2.symm⟩ hret
    obtain ⟨hsuccess, hpt, -⟩ := gecDecrypt_of_open hs hopen
    exact ⟨hsuccess, hpt⟩
  · intro hfail
    have hfail' : (gcmOpen G s ct).1 ≠ returnGood := by
      rw [gcmOpen_congr G hs]
      exact hfail
    rcases gecDecrypt_cases G s ct with ⟨hok, _⟩ | ⟨_, hdec⟩
    · exact absurd hok hfail'
    · simp only [receiver, hdec]

/-- A GCM that leaves the text as it is and uses the IV as tag. -/
def plainGcm : Gcm Unit where
  gcmInitAndKey _ := ()
  gcmEncryptMessage _ iv msg := (returnGood, msg, iv)
  gcmDecryptMessage _ iv msg tag := (if tag = iv then returnGood else -1, msg)

theorem plainGcm_sound : plainGcm.aead.Sound := by
  intro k iv m c t h
  obtain ⟨rfl, rfl⟩ : m = c ∧ iv = t := by simpa [Gcm.aead, plainGcm, returnGood] using h
  simp [Gcm.aead, plainGcm, returnGood]

theorem plainGcm_total : plainGcm.aead.Total := fun _ _ _ => rfl

def onesBlock : Bytes 64 := List.Vector.replicate 64 1

/-- Two blocks that arrive in the other order, and a forgery between them. -/
theorem channel_roundtrip_plainGcm :
    plainGcm.aead.Sound ∧
    let k := gecInitSymKeyConfAuth plainGcm (zeros 24)
    let first := frameOf (writeWord32Be 1) (zeros 64) (frameIv (writeWord32Be 1) (zeros 8))
    let second := frameOf (writeWord32Be 2) onesBlock (frameIv (writeWord32Be 2) (zeros 8))
    let forged := frameOf (writeWord32Be 1) onesBlock (zeros 12)
    let sent := sender.answers k (encryptCalls plainGcm [zeros 64, onesBlock])
    let got := (receiver plainGcm).answers k [second, forged, first]
    sent.map (fun e => (e.2.ret, e.2.ct)) = [(.success, first), (.success, second)] ∧
    got.map (fun d => (d.res.ret, d.res.pt)) =
      [(.success, onesBlock), (.decryptAuthFailed, zeros 64), (.success, zeros 64)] ∧
    ∀ d ∈ got,
      (∀ e ∈ sent, e.2.ret = .success → e.2.ct = d.ct →
        d.res.ret = .success ∧ d.res.pt = e.1.pt) ∧
      ((gcmOpen plainGcm k d.ct).1 ≠ returnGood →
        d.res = { ret := .decryptAuthFailed, key := d.before, pt := zeros 64 }) :=
  ⟨plainGcm_sound, by decide, by decide,
    channel_roundtrip plainGcm plainGcm_sound (zeros 24) [zeros 64, onesBlock] _⟩

/-- **Before the rollover nothing is refused.** With a GCM that does not fail,
every block below the limit is encrypted, and the frames come back as the
blocks. -/
theorem channel_complete {G : Gcm κ} (hS : G.aead.Sound) (hT : G.aead.Total)
    {k₀ k r : GecSymKey κ} (hk : SameChannel k k₀) (hr : SameChannel r k₀)
    (blocks : List (Bytes 64)) (hroom : k.ctr.toNat + blocks.length ≤ rolloverLimit) :
    let sent := sender.answers k (encryptCalls G blocks)
    (∀ e ∈ sent, e.2.ret = .success) ∧
    ((receiver G).answers r (sent.map fun e => e.2.ct)).map (fun d => (d.res.ret, d.res.pt)) =
      blocks.map fun block => (.success, block) := by
  induction blocks generalizing k r with
  | nil => exact ⟨fun e he => absurd he List.not_mem_nil, rfl⟩
  | cons block blocks ih =>
      rw [List.length_cons] at hroom
      obtain ⟨hret, hctr, hkey, hopen⟩ :=
        gecEncrypt_sealed hS hT hk (by omega) block (zeros 80)
      obtain ⟨hsuccess, hpt, hkey'⟩ := gecDecrypt_of_open hr hopen
      obtain ⟨hall, hback⟩ := ih hkey hkey' (by rw [hctr]; omega)
      refine ⟨List.forall_mem_cons.mpr ⟨hret, hall⟩, ?_⟩
      rw [List.map_cons, ← hback]
      exact congrArg (· :: _) (Prod.ext hsuccess hpt)

/-! ## Replay -/

/-- The ciphertexts `gec_encrypt` produced under a raw key, where `sessions`
are the block sequences that holders of the key encrypted from a fresh key. -/
def Genuine (G : Gcm κ) (rawkey : Bytes 24) (sessions : Set (List (Bytes 64)))
    (ct : Bytes 80) : Prop :=
  ∃ blocks ∈ sessions,
    ∃ e ∈ sender.answers (gecInitSymKeyConfAuth G rawkey) (encryptCalls G blocks),
      e.2.ret = .success ∧ e.2.ct = ct

/-- The IVs and blocks that GCM encrypted in these sessions. -/
def sealLog (G : Gcm κ) (rawkey : Bytes 24) (sessions : Set (List (Bytes 64))) :
    Set (Bytes 12 × Bytes 64) :=
  { p | ∃ blocks ∈ sessions,
      ∃ e ∈ sender.answers (gecInitSymKeyConfAuth G rawkey) (encryptCalls G blocks),
        e.2.ret = .success ∧ e.2.iv = some p.1 ∧ e.1.pt = p.2 }

/-- GCM is ideal for the cipher key of `rawkey`: it accepts exactly what the
sessions produced. -/
def IdealFor (G : Gcm κ) (rawkey : Bytes 24) (sessions : Set (List (Bytes 64))) : Prop :=
  G.aead.Ideal (G.gcmInitAndKey (slice rawkey 0 16)) (sealLog G rawkey sessions)

theorem gcmOpen_iff_genuine {G : Gcm κ} {rawkey : Bytes 24} {sessions : Set (List (Bytes 64))}
    (hI : IdealFor G rawkey sessions) {k : GecSymKey κ}
    (hk : SameChannel k (gecInitSymKeyConfAuth G rawkey)) (ct : Bytes 80) :
    (gcmOpen G k ct).1 = returnGood ↔ Genuine G rawkey sessions ct := by
  have hopen : gcmOpen G k ct = G.aead.dec (G.gcmInitAndKey (slice rawkey 0 16)) (wireIv k ct)
      (slice ct 4 64) (slice ct 68 12) := by
    rw [gcmOpen, hk.1]
    rfl
  rw [hopen]
  refine (hI _ _ _).trans ?_
  constructor
  · rintro ⟨m, ⟨blocks, hblocks, e, he, hret, hiv, rfl⟩, henc⟩
    refine ⟨blocks, hblocks, e, he, hret, ?_⟩
    obtain ⟨k', hk', heq⟩ := mem_sender_log he
    rw [heq] at hret hiv ⊢
    obtain ⟨counter, body, tag, _, hiv', hct, henc'⟩ := gecEncrypt_success hret
    -- the logged IV is the one rebuilt from the wire, so counter, body and tag agree
    have hsame : frameIv counter k'.salt = wireIv k ct := Option.some.inj (hiv'.symm.trans hiv)
    have hcounter : counter = slice ct 0 4 := by
      rw [← slice_frameIv_counter counter k'.salt, hsame, wireIv, slice_frameIv_counter]
    rw [hsame, hk'.1] at henc'
    have hparts : (returnGood, body, tag) = ((0 : Int), slice ct 4 64, slice ct 68 12) :=
      henc'.symm.trans henc
    obtain ⟨-, rfl, rfl⟩ : _ ∧ body = slice ct 4 64 ∧ tag = slice ct 68 12 := by
      simpa using hparts
    rw [hct, hcounter, frameOf_slices]
  · rintro ⟨blocks, hblocks, e, he, hret, hct⟩
    obtain ⟨k', hk', heq⟩ := mem_sender_log he
    have hret' := hret
    rw [heq] at hret' hct
    obtain ⟨counter, body, tag, _, hiv, hct', henc⟩ := gecEncrypt_success hret'
    have hwire : wireIv k ct = frameIv counter k'.salt := by
      rw [← hct, hct', wireIv, slice_frameOf_counter, hk.2, hk'.2]
    refine ⟨e.1.pt, ⟨blocks, hblocks, e, he, hret, ?_, rfl⟩, ?_⟩
    · rw [heq, hiv, hwire]
    · rw [hwire, ← hct, hct', slice_frameOf_body, slice_frameOf_tag]
      rw [hk'.1] at henc
      exact henc

def frameCounter (ct : Bytes 80) : ℕ := ofBigEndian (slice ct 0 4).toList

/-- The replay guarantee of a run: no genuine ciphertext is accepted twice, the
counters of the accepted ones strictly increase, and a frame whose counter is
not above that of an accepted one is answered `duplicateCounter` and leaves
the key unchanged. -/
def NoReplay (genuine : Bytes 80 → Prop) (log : List (Delivery κ)) : Prop :=
  (log.Pairwise fun d d' => genuine d.ct → d.ct = d'.ct →
    ¬ (d.res.ret = .success ∧ d'.res.ret = .success)) ∧
  ((log.filter fun d => d.res.ret = .success).Pairwise fun d d' =>
    frameCounter d.ct < frameCounter d'.ct) ∧
  (log.Pairwise fun d d' => d.res.ret = .success → frameCounter d'.ct ≤ frameCounter d.ct →
    d'.res.ret = .duplicateCounter ∧ d'.res.key = d'.before)

theorem map_ct_receiver (G : Gcm κ) (k : GecSymKey κ) (deliveries : List (Bytes 80)) :
    ((receiver G).answers k deliveries).map (fun d => d.ct) = deliveries := by
  induction deliveries generalizing k with
  | nil => rfl
  | cons ct deliveries ih =>
      rw [Machine.answers, List.map_cons, ih]
      rfl

theorem receiver_accepts {G : Gcm κ} {rawkey : Bytes 24} {sessions : Set (List (Bytes 64))}
    (hI : IdealFor G rawkey sessions) {deliveries : List (Bytes 80)} {d : Delivery κ}
    (hd : d ∈ (receiver G).answers (gecInitSymKeyConfAuth G rawkey) deliveries) :
    (d.res.ret = .success ↔ Genuine G rawkey sessions d.ct) ∧
      d.res.ret ≠ .duplicateCounter := by
  obtain ⟨k, hk, ct, _, rfl⟩ :=
    Machine.mem_answers (sameChannel_receiver_step G _) ⟨rfl, rfl⟩ hd
  have hgen := gcmOpen_iff_genuine hI hk ct
  rcases gecDecrypt_cases G k ct with ⟨hok, he⟩ | ⟨hno, he⟩
  · simp only [receiver, he]
    refine ⟨?_, by decide⟩
    constructor
    · intro _
      exact hgen.mp hok
    · intro _
      trivial
  · simp only [receiver, he]
    refine ⟨?_, by decide⟩
    constructor
    · intro h
      cases h
    · intro h
      exact absurd (hgen.mpr h) hno

/-- **When the replay guarantee holds.** The check that would enforce it is
commented out, so it holds of a run exactly when the line delivers, after each
genuine frame, only frames with a larger counter. -/
theorem noReplay_iff (G : Gcm κ) (rawkey : Bytes 24) (sessions : Set (List (Bytes 64)))
    (hI : IdealFor G rawkey sessions) (deliveries : List (Bytes 80)) :
    NoReplay (Genuine G rawkey sessions)
        ((receiver G).answers (gecInitSymKeyConfAuth G rawkey) deliveries) ↔
      deliveries.Pairwise fun ct ct' =>
        Genuine G rawkey sessions ct → frameCounter ct < frameCounter ct' := by
  have hcts := map_ct_receiver G (gecInitSymKeyConfAuth G rawkey) deliveries
  have haccept : ∀ d ∈ (receiver G).answers (gecInitSymKeyConfAuth G rawkey) deliveries,
      (d.res.ret = .success ↔ Genuine G rawkey sessions d.ct) ∧
        d.res.ret ≠ .duplicateCounter := fun _ hd => receiver_accepts hI hd
  generalize (receiver G).answers (gecInitSymKeyConfAuth G rawkey) deliveries = log
    at hcts haccept ⊢
  rw [← hcts, List.pairwise_map]
  constructor
  · rintro ⟨-, -, hold⟩
    refine hold.imp_of_mem ?_
    intro d d' hd hd' hdup hgen
    by_contra hle
    exact (haccept d' hd').2 (hdup ((haccept d hd).1.mpr hgen) (not_lt.mp hle)).1
  · intro hinc
    refine ⟨hinc.imp ?_, ?_, hinc.imp_of_mem ?_⟩
    · intro d d' hlt hgen heq
      exact absurd (hlt hgen) (by rw [heq]; exact lt_irrefl _)
    · rw [List.pairwise_filter]
      refine hinc.imp_of_mem ?_
      intro d d' hd _ hlt hok _
      exact hlt ((haccept d hd).1.mp (by simpa using hok))
    · intro d d' hd _ hlt hok hle
      exact absurd (hlt ((haccept d hd).1.mp hok)) (not_lt.mpr hle)

def firstIv : Bytes 12 := frameIv (writeWord32Be 1) (zeros 8)

def firstFrame : Bytes 80 := frameOf (writeWord32Be 1) (zeros 64) firstIv

/-- `plainGcm` after one block was encrypted: it opens that block only. -/
def onceGcm : Gcm Unit where
  gcmInitAndKey _ := ()
  gcmEncryptMessage _ iv msg := (returnGood, msg, iv)
  gcmDecryptMessage _ iv msg tag :=
    (if iv = firstIv ∧ msg = zeros 64 ∧ tag = iv then returnGood else -1, msg)

theorem onceGcm_log :
    sender.answers (gecInitSymKeyConfAuth onceGcm (zeros 24)) (encryptCalls onceGcm [zeros 64]) =
      [({ gcm := onceGcm, pt := zeros 64, ct := zeros 80 },
        { ret := .success, key := { gctx := (), salt := zeros 8, ctr := 1 },
          ct := firstFrame, iv := some firstIv })] := rfl

theorem onceGcm_ideal : IdealFor onceGcm (zeros 24) {[zeros 64]} := by
  intro iv c t
  simp only [sealLog, Set.mem_singleton_iff, exists_eq_left, onceGcm_log, List.mem_singleton,
    true_and, Set.mem_ofPred_eq, Option.some.injEq]
  simp only [Gcm.aead, onceGcm, returnGood]
  constructor
  · intro h
    split at h
    · rename_i hcond
      obtain ⟨rfl, rfl, rfl⟩ := hcond
      exact ⟨zeros 64, ⟨rfl, rfl⟩, rfl⟩
    · cases h
  · rintro ⟨m, ⟨rfl, rfl⟩, h⟩
    obtain ⟨rfl, rfl⟩ : zeros 64 = c ∧ firstIv = t := by simpa using h
    simp

theorem replay_accepted :
    IdealFor onceGcm (zeros 24) {[zeros 64]} ∧
    ¬ NoReplay (Genuine onceGcm (zeros 24) {[zeros 64]})
      ((receiver onceGcm).answers (gecInitSymKeyConfAuth onceGcm (zeros 24))
        [firstFrame, firstFrame]) := by
  refine ⟨onceGcm_ideal, ?_⟩
  rintro ⟨honce, -, -⟩
  have hgen : Genuine onceGcm (zeros 24) {[zeros 64]} firstFrame :=
    ⟨[zeros 64], rfl, _, by rw [onceGcm_log]; exact List.mem_singleton.mpr rfl, rfl, rfl⟩
  have hpair := (List.pairwise_cons.mp honce).1 _ (List.mem_singleton.mpr rfl)
  exact hpair hgen rfl ⟨by decide, by decide⟩

theorem noReplay_iff_onceGcm :
    IdealFor onceGcm (zeros 24) {[zeros 64]} ∧
    (NoReplay (Genuine onceGcm (zeros 24) {[zeros 64]})
        ((receiver onceGcm).answers (gecInitSymKeyConfAuth onceGcm (zeros 24))
          [zeros 80, firstFrame]) ↔
      [zeros 80, firstFrame].Pairwise fun ct ct' =>
        Genuine onceGcm (zeros 24) {[zeros 64]} ct → frameCounter ct < frameCounter ct') :=
  ⟨onceGcm_ideal, noReplay_iff onceGcm (zeros 24) {[zeros 64]} onceGcm_ideal _⟩

end GecRelay
