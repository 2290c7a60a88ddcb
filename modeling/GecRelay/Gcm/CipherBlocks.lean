import GecRelay.Gcm.Messages

/-!
# The blocks AES sees

A message enciphers its initial counter block for the tag and one further
counter block for every sixteen bytes of text; keying enciphers the zero block.
An IV of twelve bytes is the front of the initial counter block, any other one
is hashed (`startBlock_hashed`). With distinct IVs of twelve bytes no block is
enciphered twice under one key (`cipherBlocks_nodup`), and a GEC channel hands
out such IVs over its whole life (`channel_blocks_distinct`).
-/

namespace GecRelay

open Foundation

/-! ## The initial counter block -/

theorem ivBlocks_eq (mul : GfT → GfT) (x : GfT) (iv : List UInt8) :
    ivBlocks mul x iv = hashBlocks mul x (blocksOf iv) := by
  fun_induction ivBlocks mul x iv with
  | case1 x iv hlong ih =>
      have hne : iv ≠ [] := by
        rintro rfl
        simp at hlong
      rw [ih, blocksOf_of_ne_nil hne, xorAt_zero]
      rfl
  | case2 x => rw [blocksOf_nil]; rfl
  | case3 x iv hshort hne =>
      have hdrop : iv.drop 16 = [] := List.drop_eq_nil_of_le (by omega)
      have htake : iv.take 16 = iv := List.take_of_length_le (by omega)
      rw [blocksOf_of_ne_nil hne, hdrop, htake, blocksOf_nil, xorAt_zero]
      rfl

/-- The loop stops when nothing is left of the number; the bytes above are
zero in its numeral too. -/
theorem gfByte_ivLength (n i : ℕ) (hi : i ≤ 16) (x : GfT) {j : ℕ} (hj : j < 16) :
    gfByte (ivLength i n x) j =
      if j < i then gfByte x j ^^^ UInt8.ofNat (n / 256 ^ (i - 1 - j)) else gfByte x j := by
  induction i generalizing n x with
  | zero => rw [ivLength, if_neg (Nat.not_lt_zero j)]
  | succ i ih =>
      rw [ivLength]
      by_cases hzero : n = 0
      · rw [if_pos hzero, hzero, Nat.zero_div]
        split <;> simp
      · rw [if_neg hzero, ih _ (by omega), gfByte_xorAt _ _ _ hj]
        by_cases heq : j = i
        · subst heq
          have hpow : j + 1 - 1 - j = 0 := by omega
          rw [if_neg (Nat.lt_irrefl j), if_pos (Nat.le_refl j), if_pos (Nat.lt_succ_self j), hpow,
            pow_zero, Nat.div_one, Nat.sub_self]
          rfl
        · by_cases hlt : j < i
          · have hexp : i + 1 - 1 - j = i - 1 - j + 1 := by omega
            rw [if_pos hlt, if_neg (by omega), if_pos (by omega), Nat.div_div_eq_div_mul, hexp,
              pow_succ']
          · rw [if_neg hlt, if_pos (by omega), if_neg (by omega),
              List.getD_eq_default _ _ (by rw [List.length_singleton]; omega), UInt8.xor_zero]

theorem ivLength_eq {len : ℕ} (hlen : len < 2 ^ 61) (x : GfT) :
    ivLength 16 (8 * len) x = xorBlock x (lengthBlock 0 len) := by
  apply gf_ext
  intro j hj
  rw [gfByte_ivLength _ _ le_rfl _ hj, if_pos hj, gfByte_xorBlock _ _ hj, lengthBlock,
    gfByte_xorAt _ _ _ hj, if_pos (Nat.zero_le j), Nat.sub_zero, gfByte_zeros, UInt8.zero_xor]
  congr 1
  by_cases hlow : j < 8
  · -- the number does not reach the bytes of the other length
    have hfront : (256 : ℕ) ^ (16 - 1 - j) = 256 ^ 8 * 256 ^ (7 - j) := by
      rw [← pow_add]
      congr 1
      omega
    have hzero : 8 * len / 256 ^ (16 - 1 - j) = 0 := by
      rw [hfront, ← Nat.div_div_eq_div_mul, Nat.div_eq_of_lt (show 8 * len < 256 ^ 8 by omega),
        Nat.zero_div]
    rw [List.getD_append _ _ _ _ (by rw [length_bigEndian]; exact hlow), getD_bigEndian _ _ hlow,
      hzero, Nat.mul_zero, Nat.zero_div]
  · rw [List.getD_append_right _ _ _ _ (by rw [length_bigEndian]; omega), length_bigEndian,
      getD_bigEndian _ _ (by omega)]
    congr 2
    congr 1
    omega

/-- **An IV of any other length** is hashed: its blocks, then its length. The
32-bit count of its bits limits it to less than `2 ^ 29` bytes. -/
theorem startBlock_hashed (E : GfT → GfT) {iv : List UInt8} (hne : iv.length ≠ 12)
    (hlen : iv.length < 2 ^ 29) :
    startBlock E iv =
      hashBlocks (fun a => gfMulTMD a (E (zeros 16))) (zeros 16)
        (blocksOf iv ++ [lengthBlock 0 iv.length]) := by
  have hall : iv.take (iv.length % 2 ^ 32) = iv := List.take_of_length_le (by omega)
  have hbits : 8 * iv.length % 2 ^ 32 = 8 * iv.length := Nat.mod_eq_of_lt (by omega)
  rw [startBlock, ivCounter, if_neg hne, hall, hbits, ivBlocks_eq]
  show gfMulTMD (ivLength 16 (8 * iv.length) _) _ = _
  rw [ivLength_eq (by omega), hashBlocks, hashBlocks, List.foldl_append]
  rfl

theorem startBlock_hashed_twentyBytes :
    let E := cipher flipPrimitives (zeros 16)
    let iv : List UInt8 := List.replicate 20 7
    startBlock E iv = hashBlocks (fun a => gfMulTMD a (E (zeros 16))) (zeros 16)
        (blocksOf iv ++ [lengthBlock 0 20]) ∧
      (startBlock E iv).toList =
        [111, 106, 240, 140, 254, 167, 110, 103, 255, 23, 110, 103, 255, 23, 110, 85] := by
  intro E iv
  have hvalue : (startBlock E iv).toList =
      [111, 106, 240, 140, 254, 167, 110, 103, 255, 23, 110, 103, 255, 23, 110, 85] := by
    decide +kernel
  exact ⟨startBlock_hashed E (by decide) (by decide), hvalue⟩

theorem gfByte_startBlock (E : GfT → GfT) {iv : List UInt8} (hiv : iv.length = 12) {i : ℕ}
    (hi : i < 16) :
    gfByte (startBlock E iv) i = if i < 12 then iv.getD i 0 else if i = 15 then 1 else 0 := by
  have hlist : (startBlock E iv).toList = iv ++ [0, 0, 0, 1] := by
    have hinner : (overwrite (zeros 16) 0 iv).toList = iv ++ [0, 0, 0, 0] := by
      have hall : iv.take (16 - 0) = iv := List.take_of_length_le (by omega)
      rw [toList_overwrite, hall, hiv, List.take_zero]
      rfl
    rw [startBlock, ivCounter, if_pos hiv, toList_overwrite, hinner,
      List.take_append, List.drop_append, hiv, List.take_of_length_le (by omega),
      List.drop_eq_nil_of_le (by rw [List.length_singleton]; omega)]
    simp
  unfold gfByte
  rw [hlist]
  by_cases hlow : i < 12
  · rw [if_pos hlow, List.getD_append _ _ _ _ (by omega)]
  · rw [if_neg hlow, List.getD_append_right _ _ _ _ (by omega), hiv]
    obtain rfl | rfl | rfl | rfl : i = 12 ∨ i = 13 ∨ i = 14 ∨ i = 15 := by omega
    all_goals rfl

theorem ctrValue_startBlock (E : GfT → GfT) {iv : List UInt8} (hiv : iv.length = 12) :
    ctrValue 4 (startBlock E iv) = 1 := by
  simp only [ctrValue]
  rw [gfByte_startBlock E hiv (by decide), gfByte_startBlock E hiv (by decide),
    gfByte_startBlock E hiv (by decide), gfByte_startBlock E hiv (by decide)]
  simp

/-! ## Never twice -/

/-- The counter blocks of a message with `len` bytes of text, the one of the
tag first. -/
def cipherBlocks (c : GfT) (len : ℕ) : List GfT :=
  (List.range ((len + 15) / 16 + 1)).map fun k => incCtr^[k] c

theorem mem_cipherBlocks {c b : GfT} {len : ℕ} :
    b ∈ cipherBlocks c len ↔ ∃ k ≤ (len + 15) / 16, incCtr^[k] c = b := by
  unfold cipherBlocks
  rw [List.mem_map]
  simp only [List.mem_range, Nat.lt_succ_iff]

theorem cipherBlocks_nodup_one (c : GfT) {len : ℕ} (hlen : len + 15 < 2 ^ 32) :
    (cipherBlocks c len).Nodup := by
  refine List.Nodup.map_on ?_ List.nodup_range
  intro j hj k hk heq
  rw [List.mem_range] at hj hk
  exact iterate_incCtr_injective c (by omega) (by omega) heq

/-- The first twelve bytes of a counter block are the IV. -/
theorem cipherBlocks_iv (E : GfT → GfT) {iv iv' : List UInt8} (hiv : iv.length = 12)
    (hiv' : iv'.length = 12) {len len' : ℕ} {b : GfT} (h : b ∈ cipherBlocks (startBlock E iv) len)
    (h' : b ∈ cipherBlocks (startBlock E iv') len') : iv = iv' := by
  obtain ⟨j, -, rfl⟩ := mem_cipherBlocks.mp h
  obtain ⟨k, -, heq⟩ := mem_cipherBlocks.mp h'
  apply List.ext_getElem (hiv.trans hiv'.symm)
  intro i h₁ h₂
  have hi : i < 12 := by omega
  have hbyte := congrArg (fun x => gfByte x i) heq
  simp only [gfByte_iterate _ _ hi, gfByte_startBlock E hiv (show i < 16 by omega),
    gfByte_startBlock E hiv' (show i < 16 by omega), if_pos hi] at hbyte
  rw [List.getD_eq_getElem _ _ h₁, List.getD_eq_getElem _ _ h₂] at hbyte
  exact hbyte.symm

theorem zeros_not_mem_cipherBlocks (E : GfT → GfT) {iv : List UInt8} (hiv : iv.length = 12)
    {len : ℕ} (hlen : len + 15 < 2 ^ 32) : zeros 16 ∉ cipherBlocks (startBlock E iv) len := by
  intro h
  obtain ⟨k, hk, heq⟩ := mem_cipherBlocks.mp h
  have hval := congrArg (ctrValue 4) heq
  have hzero : ctrValue 4 (zeros 16) = 0 := by
    simp only [ctrValue, gfByte_zeros]
    rfl
  rw [ctrValue_iterate, ctrValue_startBlock E hiv, hzero] at hval
  omega

theorem cipherBlocks_nodup (E : GfT → GfT) (texts : List (List UInt8 × ℕ))
    (hiv : ∀ t ∈ texts, t.1.length = 12) (hlen : ∀ t ∈ texts, t.2 + 15 < 2 ^ 32)
    (hdistinct : (texts.map Prod.fst).Nodup) :
    (zeros 16 :: texts.flatMap fun t => cipherBlocks (startBlock E t.1) t.2).Nodup := by
  rw [List.nodup_cons, List.mem_flatMap]
  constructor
  · rintro ⟨t, ht, hmem⟩
    exact zeros_not_mem_cipherBlocks E (hiv t ht) (hlen t ht) hmem
  · refine List.nodup_flatMap.mpr ⟨fun t ht => cipherBlocks_nodup_one _ (hlen t ht), ?_⟩
    have hpair : texts.Pairwise fun t t' => t.1 ≠ t'.1 := List.pairwise_map.mp hdistinct
    refine hpair.imp_of_mem ?_
    intro t t' ht ht' hne b hb hb'
    exact hne (cipherBlocks_iv E (hiv t ht) (hiv t' ht') hb hb')

/-! ## Nowhere else -/

/-- The IV of a message and the length of its text. -/
def GcmMessage.text : GcmMessage → List UInt8 × ℕ
  | .enc _ iv _ msg _ => (iv, msg.length)
  | .dec _ iv _ ct _ => (iv, ct.length)

def GcmMessage.blocks (E : GfT → GfT) (m : GcmMessage) : List GfT :=
  cipherBlocks (startBlock E m.text.1) m.text.2

section Congr

variable {E E' : GfT → GfT}

theorem gctr_congr {c : GfT} {len : ℕ} (h : ∀ b ∈ cipherBlocks c len, E b = E' b)
    {ds : List UInt8} (hlen : ds.length = len) :
    addStream (gctrByte E c) 0 ds = addStream (gctrByte E' c) 0 ds := by
  refine addStream_congr fun p hp => ?_
  unfold gctrByte
  rw [h _ (mem_cipherBlocks.mpr ⟨(0 + p) / 16 + 1, by omega, rfl⟩)]

variable (hzero : E (zeros 16) = E' (zeros 16))

include hzero

theorem startBlock_congr (iv : List UInt8) : startBlock E iv = startBlock E' iv := by
  rw [startBlock, startBlock, hzero]

theorem gcmTag_congr {c : GfT} (hc : E c = E' c) (t : GcmText) (tagLen : ℕ) :
    gcmTag E c t tagLen = gcmTag E' c t tagLen := by
  rw [gcmTag, gcmTag, hzero, hc]

/-- Ciphers that agree on the zero block and the blocks of a message give it
the same answer. -/
theorem messageAnswer_congr {m : GcmMessage} (h : ∀ b ∈ m.blocks E, E b = E' b) :
    messageAnswer E m = messageAnswer E' m := by
  have hfirst : E (startBlock E m.text.1) = E' (startBlock E m.text.1) :=
    h _ (mem_cipherBlocks.mpr ⟨0, Nat.zero_le _, rfl⟩)
  cases m with
  | enc al iv hdr msg tagLen =>
      have hct : addStream (gctrByte E (startBlock E iv)) 0 msg =
          addStream (gctrByte E' (startBlock E iv)) 0 msg := gctr_congr h rfl
      have htag : ∀ t n, gcmTag E (startBlock E iv) t n = gcmTag E' (startBlock E iv) t n :=
        gcmTag_congr hzero hfirst
      simp only [messageAnswer, ← startBlock_congr hzero, hct, htag]
  | dec al iv hdr ct tag =>
      have hct : addStream (gctrByte E (startBlock E iv)) 0 ct =
          addStream (gctrByte E' (startBlock E iv)) 0 ct := gctr_congr h rfl
      have htag : ∀ t n, gcmTag E (startBlock E iv) t n = gcmTag E' (startBlock E iv) t n :=
        gcmTag_congr hzero hfirst
      simp only [messageAnswer, ← startBlock_congr hzero, hct, htag]

end Congr

/-- **AES sees no block twice.** For any messages on one keyed context whose
IVs have twelve bytes and are distinct: the zero block of the key and the
counter blocks of all the messages are pairwise distinct, and AES matters at
these blocks only, since any AES that agrees on them gives every message the
same answer. -/
theorem driver_blocks_distinct (P : Primitives) (key : Bytes 16) (msgs : List GcmMessage)
    (hfits : ∀ m ∈ msgs, m.Fits) (hiv : ∀ m ∈ msgs, m.text.1.length = 12)
    (hdistinct : (msgs.map fun m => m.text.1).Nodup) :
    let blocks := zeros 16 :: msgs.flatMap (GcmMessage.blocks (cipher P key))
    blocks.Nodup ∧
      ∀ (P' : Primitives) (key' : Bytes 16) (ctx ctx' : GcmCtx),
        (∀ b ∈ blocks, cipher P key b = cipher P' key' b) →
        (gcmMessageMachine P').answers (gcmInitAndKey P' key' ctx') msgs =
          (gcmMessageMachine P).answers (gcmInitAndKey P key ctx) msgs := by
  intro blocks
  constructor
  · have hlen : ∀ m ∈ msgs, m.text.2 + 15 < 2 ^ 32 := by
      intro m hm
      have h := hfits m hm
      cases m with
      | enc al iv hdr msg tagLen => exact Nat.lt_of_succ_lt h.2.1
      | dec al iv hdr ct tag => exact Nat.lt_of_succ_lt h.2.1
    have h := cipherBlocks_nodup (cipher P key) (msgs.map GcmMessage.text)
      (by simpa using hiv) (by simpa using hlen) (by simpa [Function.comp_def] using hdistinct)
    rwa [List.flatMap_map] at h
  · intro P' key' ctx ctx' hagree
    rw [answers_of_keyed (gcmInitAndKey_keyed P' key' ctx') hfits,
      answers_of_keyed (gcmInitAndKey_keyed P key ctx) hfits]
    refine (List.map_congr_left fun m hm => ?_).symm
    refine messageAnswer_congr (hagree _ List.mem_cons_self) fun b hb => ?_
    exact hagree b (List.mem_cons_of_mem _ (List.mem_flatMap.mpr ⟨m, hm, hb⟩))

/-- Two messages of several blocks under neighbouring IVs. -/
def neighbours : List GcmMessage :=
  [.enc ⟨true, true, true⟩ (zeros 12).toList [1] (List.replicate 40 1) 12,
    .dec ⟨true, true, true⟩ (bigEndian 12 1) [] (List.replicate 33 2) (zeros 12).toList]

theorem driver_blocks_distinct_neighbours :
    ((∀ m ∈ neighbours, m.Fits) ∧ (∀ m ∈ neighbours, m.text.1.length = 12) ∧
      (neighbours.map fun m => m.text.1).Nodup) ∧
    (zeros 16 ::
      neighbours.flatMap (GcmMessage.blocks (cipher flipPrimitives (zeros 16)))).Nodup := by
  have hfits : ∀ m ∈ neighbours, m.Fits := by
    simp [neighbours, GcmMessage.Fits]
  have hiv : ∀ m ∈ neighbours, m.text.1.length = 12 := by
    intro m hm
    obtain rfl | rfl : m = _ ∨ m = _ := by simpa [neighbours] using hm
    · rfl
    · rfl
  have hdistinct : (neighbours.map fun m => m.text.1).Nodup := by decide
  exact ⟨⟨hfits, hiv, hdistinct⟩,
    (driver_blocks_distinct flipPrimitives (zeros 16) neighbours hfits hiv hdistinct).1⟩

/-- **Over the life of a GEC channel key** AES sees no block twice: whatever
is encrypted over the driver, the counter blocks of all the messages that
`gec_encrypt` hands to GCM are pairwise distinct, and none is the zero block the
key's table comes from. -/
theorem channel_blocks_distinct (P : Primitives) (al al' : Aligned) (mem : GcmCtx)
    (rawkey : Bytes 24) (texts : List (Bytes 64)) :
    let G := driverGcm P al al' mem
    let E := cipher P (slice rawkey 0 16)
    let log := sender.answers (gecInitSymKeyConfAuth G rawkey) (encryptCalls G texts)
    (zeros 16 :: (log.filterMap fun e => e.2.iv).flatMap fun iv =>
      cipherBlocks (startBlock E iv.toList) 64).Nodup := by
  intro G E log
  have hivs : (log.filterMap fun e => e.2.iv).Nodup := sender_ivs_nodup _ (Nat.zero_le _) _
  set ivs := log.filterMap fun e => e.2.iv
  have hlen : ∀ t ∈ ivs.map (fun iv => (iv.toList, 64)), t.1.length = 12 ∧ t.2 + 15 < 2 ^ 32 := by
    intro t ht
    obtain ⟨iv, -, rfl⟩ := List.mem_map.mp ht
    exact ⟨List.Vector.toList_length iv, show 64 + 15 < 2 ^ 32 by decide⟩
  have hdistinct : ((ivs.map fun iv => (iv.toList, 64)).map Prod.fst).Nodup := by
    rw [List.map_map]
    exact hivs.map fun iv iv' heq => vec_ext heq
  have h := cipherBlocks_nodup E _ (fun t ht => (hlen t ht).1) (fun t ht => (hlen t ht).2)
    hdistinct
  rwa [List.flatMap_map] at h

end GecRelay
