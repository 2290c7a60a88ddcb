import GecRelay.Gcm.Messages
import GecRelay.Foundation.BinaryField
import GecRelay.Foundation.PolyHash
import Mathlib.Data.FinEnum
import Mathlib.Data.Finite.Vector
import Mathlib.SetTheory.Cardinal.Finite

/-!
# Forgeries

The polynomial of the driver is irreducible, so the elements its buffers stand
for form a field and the hash of GCM is a polynomial hash over it. The last
block holds the lengths of header and text, which makes the padding unambiguous:
different messages have different polynomials (`messagePoly_inj`). A forged
message that passes `gcm_decrypt_message` therefore confines the hash key to a
small set, which depends on what was sent and forged alone (`forgery_pins_key`).
-/

namespace GecRelay

open Foundation Polynomial

/-! ## The field -/

theorem bitPoly_reduction :
    bitPoly 128 (0x87 : ℕ).testBit = (X ^ 7 + X ^ 2 + X + 1 : (ZMod 2)[X]) := by
  ext k
  rw [coeff_bitPoly, coeff_add, coeff_add, coeff_add, coeff_X_pow, coeff_X_pow, coeff_X, coeff_one]
  by_cases hk : k < 8
  · interval_cases k <;> decide
  · have hbit : (0x87 : ℕ).testBit k = false :=
      Nat.testBit_lt_two_pow (lt_of_lt_of_le (show 0x87 < 2 ^ 8 by decide)
        (Nat.pow_le_pow_right (by decide) (by omega)))
    have hne : k ≠ 7 ∧ k ≠ 2 ∧ 1 ≠ k ∧ k ≠ 0 := by omega
    rw [hbit, if_neg hne.1, if_neg hne.2.1, if_neg hne.2.2.1, if_neg hne.2.2.2]
    simp [bitCoeff]

theorem gcmPoly_eq_binaryModulus : gcmPoly = binaryModulus 128 0x87 := by
  rw [gcmPoly_eq, binaryModulus, bitPoly_reduction]

theorem gcmPoly_irreducible : Irreducible gcmPoly := by
  rw [gcmPoly_eq_binaryModulus]
  exact binaryModulus_irreducible (k := 6) (v := 0x9e4af928ddbc838a41a8cafd2c95b018) rfl
    (by decide +kernel) (by decide +kernel)

theorem isDomain_gfRing : IsDomain GfRing := AdjoinRoot.isDomain_of_prime gcmPoly_irreducible.prime

theorem gfElem_xorBlock_sub (x y : GfT) : gfElem (xorBlock x y) = gfElem x - gfElem y := by
  rw [gfElem_xorBlock, eq_sub_iff_add_eq, add_assoc, add_self_quotient, add_zero]

/-! ## Messages as polynomials -/

/-- The blocks that are hashed for a message. -/
def messageBlocks (hdr txt : List UInt8) : List GfT :=
  blocksOf hdr ++ blocksOf txt ++ [lengthBlock hdr.length txt.length]

def numBlocks (hdr txt : List UInt8) : ℕ := (hdr.length + 15) / 16 + (txt.length + 15) / 16 + 1

theorem length_messageBlocks (hdr txt : List UInt8) :
    (messageBlocks hdr txt).length = numBlocks hdr txt := by
  unfold messageBlocks numBlocks
  rw [List.length_append, List.length_append, length_blocksOf, length_blocksOf]
  rfl

theorem xorAt_zeros_inj {as bs : List UInt8} (hlen : as.length = bs.length) (hle : as.length ≤ 16)
    (h : xorAt (zeros 16) 0 as = xorAt (zeros 16) 0 bs) : as = bs := by
  apply List.ext_getElem hlen
  intro i ha hb
  have hi : i < 16 := by omega
  have hbyte := congrArg (fun x => gfByte x i) h
  simp only [gfByte_xorAt _ _ _ hi, Nat.zero_le, if_true, gfByte_zeros, UInt8.zero_xor,
    Nat.sub_zero] at hbyte
  rwa [List.getD_eq_getElem _ _ ha, List.getD_eq_getElem _ _ hb] at hbyte

theorem blocksOf_inj {ds es : List UInt8} (hlen : ds.length = es.length)
    (h : blocksOf ds = blocksOf es) : ds = es := by
  fun_induction blocksOf ds generalizing es with
  | case1 => exact (List.length_eq_zero_iff.mp hlen.symm).symm
  | case2 ds hne ih =>
      have hpos := List.length_pos_iff.mpr hne
      have hne' : es ≠ [] := List.length_pos_iff.mp (by omega)
      rw [blocksOf_of_ne_nil hne', List.cons.injEq] at h
      have htake : ds.take 16 = es.take 16 :=
        xorAt_zeros_inj (by rw [List.length_take, List.length_take, hlen])
          (List.length_take_le 16 ds) h.1
      have hdrop : ds.drop 16 = es.drop 16 :=
        ih (by rw [List.length_drop, List.length_drop, hlen]) h.2
      rw [← List.take_append_drop 16 ds, htake, hdrop, List.take_append_drop]

theorem lengthBlock_inj {a b a' b' : ℕ} (ha : a < 2 ^ 61) (hb : b < 2 ^ 61) (ha' : a' < 2 ^ 61)
    (hb' : b' < 2 ^ 61) (h : lengthBlock a b = lengthBlock a' b') : a = a' ∧ b = b' := by
  have hlists := xorAt_zeros_inj (by simp) (by simp) h
  obtain ⟨hfront, hback⟩ := List.append_inj hlists (by simp)
  have hbig : ∀ {n : ℕ}, n < 2 ^ 61 → 8 * n < 256 ^ 8 := by
    intro n hn
    omega
  have h₁ := bigEndian_injective (hbig ha) (hbig ha') hfront
  have h₂ := bigEndian_injective (hbig hb) (hbig hb') hback
  omega

noncomputable def messagePoly (hdr txt : List UInt8) : GfRing[X] :=
  hashPoly ((messageBlocks hdr txt).map gfElem)

/-- **Different messages have different polynomials.** -/
theorem messagePoly_inj {hdr txt hdr' txt' : List UInt8} (hhdr : hdr.length < 2 ^ 61)
    (htxt : txt.length < 2 ^ 61) (hhdr' : hdr'.length < 2 ^ 61) (htxt' : txt'.length < 2 ^ 61)
    (h : messagePoly hdr txt = messagePoly hdr' txt') : hdr = hdr' ∧ txt = txt' := by
  -- the constant block says how the others are cut
  have hlast : lengthBlock hdr.length txt.length = lengthBlock hdr'.length txt'.length := by
    apply gfElem_injective
    simp only [messagePoly, messageBlocks, List.map_append, List.map_singleton] at h
    exact hashPoly_last h
  obtain ⟨hhlen, htlen⟩ := lengthBlock_inj hhdr htxt hhdr' htxt' hlast
  have hblocks : messageBlocks hdr txt = messageBlocks hdr' txt' := by
    apply List.map_injective_iff.mpr gfElem_injective
    refine hashPoly_inj ?_ h
    rw [List.length_map, List.length_map, length_messageBlocks, length_messageBlocks, numBlocks,
      numBlocks, hhlen, htlen]
  obtain ⟨hfront, -⟩ := List.append_inj' hblocks rfl
  obtain ⟨h₁, h₂⟩ := List.append_inj hfront (by rw [length_blocksOf, length_blocksOf, hhlen])
  exact ⟨blocksOf_inj hhlen h₁, blocksOf_inj htlen h₂⟩

theorem gfElem_ghash (h : GfT) (hdr txt : List UInt8) :
    gfElem (ghash h hdr txt) = horner (gfElem h) 0 ((messageBlocks hdr txt).map gfElem) := by
  unfold ghash
  rw [gfElem_hashBlocks (fun a => gfElem_gfMulTMD a h), gfElem_zeros]
  rfl

/-! ## Few keys -/

/-- The blocks that `n` bytes of a tag cannot tell from each other. -/
def shown (n : ℕ) (d : ℕ → UInt8) : Set GfT := {x | ∀ i < n, gfByte x i = d i}

theorem ncard_shown {n : ℕ} (hn : n ≤ 16) (d : ℕ → UInt8) :
    (shown n d).ncard ≤ 256 ^ (16 - n) := by
  set rest : GfT → Fin (16 - n) → UInt8 := fun x i => gfByte x (n + i)
  have hinj : Set.InjOn rest (shown n d) := by
    intro x hx y hy hxy
    apply gf_ext
    intro i hi
    by_cases hlow : i < n
    · rw [hx i hlow, hy i hlow]
    · have h := congrFun hxy ⟨i - n, by omega⟩
      have hsum : n + (i - n) = i := by omega
      show gfByte x i = gfByte y i
      rw [← hsum]
      exact h
  have hbytes : Nat.card UInt8 = 256 := (Nat.card_congr FinEnum.equiv).trans (Nat.card_fin 256)
  have hcard : Nat.card (Fin (16 - n) → UInt8) = 256 ^ (16 - n) := by
    rw [Nat.card_fun, hbytes, Nat.card_fin]
  calc (shown n d).ncard
      ≤ (Set.univ : Set (Fin (16 - n) → UInt8)).ncard :=
        Set.ncard_le_ncard_of_injOn rest (fun _ _ => Set.mem_univ _) hinj
    _ = 256 ^ (16 - n) := by rw [Set.ncard_univ, hcard]

section Keys

variable (hdr txt hdr' txt' : List UInt8) (hhdr : hdr.length < 2 ^ 61) (htxt : txt.length < 2 ^ 61)
  (hhdr' : hdr'.length < 2 ^ 61) (htxt' : txt'.length < 2 ^ 61) (hne : (hdr, txt) ≠ (hdr', txt'))

include hhdr htxt hhdr' htxt' hne

theorem ghash_collisions (d : GfT) :
    {h | xorBlock (ghash h hdr txt) (ghash h hdr' txt') = d}.ncard ≤
      max (numBlocks hdr txt) (numBlocks hdr' txt') := by
  have := isDomain_gfRing
  have hpoly : messagePoly hdr txt ≠ messagePoly hdr' txt' := by
    intro heq
    obtain ⟨h₁, h₂⟩ := messagePoly_inj hhdr htxt hhdr' htxt' heq
    exact hne (by rw [h₁, h₂])
  have hfew := horner_collisions hpoly (gfElem d)
  rw [List.length_map, List.length_map, length_messageBlocks, length_messageBlocks] at hfew
  have himage : gfElem '' {h | xorBlock (ghash h hdr txt) (ghash h hdr' txt') = d} ⊆
      {h | horner h 0 ((messageBlocks hdr txt).map gfElem) -
        horner h 0 ((messageBlocks hdr' txt').map gfElem) = gfElem d} := by
    rintro _ ⟨h, hh, rfl⟩
    show _ - _ = _
    rw [← gfElem_ghash, ← gfElem_ghash, ← gfElem_xorBlock_sub, hh]
  have hle := (Set.encard_le_encard himage).trans hfew
  rw [gfElem_injective.encard_image] at hle
  have hfin : {h | xorBlock (ghash h hdr txt) (ghash h hdr' txt') = d}.Finite := Set.toFinite _
  rw [← hfin.cast_ncard_eq] at hle
  exact_mod_cast hle

theorem ghash_collisions_shown {n : ℕ} (hn : n ≤ 16) (d : ℕ → UInt8) :
    {h | xorBlock (ghash h hdr txt) (ghash h hdr' txt') ∈ shown n d}.ncard ≤
      256 ^ (16 - n) * max (numBlocks hdr txt) (numBlocks hdr' txt') := by
  classical
  set keys := {h | xorBlock (ghash h hdr txt) (ghash h hdr' txt') ∈ shown n d}
  have hkeys : keys.Finite := Set.toFinite _
  have hshown : (shown n d).Finite := Set.toFinite _
  have hfibre : ∀ x ∈ hshown.toFinset,
      (hkeys.toFinset.filter fun h => xorBlock (ghash h hdr txt) (ghash h hdr' txt') = x).card ≤
        max (numBlocks hdr txt) (numBlocks hdr' txt') := by
    intro x _
    refine le_trans ?_ (ghash_collisions hdr txt hdr' txt' hhdr htxt hhdr' htxt' hne x)
    rw [← Set.ncard_coe_finset]
    refine Set.ncard_le_ncard (fun h hh => ?_) (Set.toFinite _)
    exact (Finset.mem_filter.mp hh).2
  have hmaps : ∀ h ∈ hkeys.toFinset,
      xorBlock (ghash h hdr txt) (ghash h hdr' txt') ∈ hshown.toFinset := by
    intro h hh
    exact hshown.mem_toFinset.mpr (hkeys.mem_toFinset.mp hh)
  have hcount := Finset.card_le_mul_card_image_of_maps_to hmaps _ hfibre
  rw [← Set.ncard_eq_toFinset_card keys hkeys, ← Set.ncard_eq_toFinset_card _ hshown,
    Nat.mul_comm] at hcount
  exact hcount.trans (Nat.mul_le_mul_right _ (ncard_shown hn d))

end Keys

/-! ## Forgeries -/

/-- Two bytes under one pad: the second is right when the pair shows the
difference. -/
theorem xor_beside {a b e t : UInt8} (ht : t = a ^^^ e) (x : UInt8) :
    x = b ^^^ e ↔ a ^^^ b = t ^^^ x := by
  subst ht
  constructor
  · rintro rfl
    rw [UInt8.xor_comm b e, UInt8.xor_assoc a e, ← UInt8.xor_assoc e e b, UInt8.xor_self,
      UInt8.zero_xor]
  · intro h
    calc x = (a ^^^ e) ^^^ ((a ^^^ e) ^^^ x) := by
          rw [← UInt8.xor_assoc, UInt8.xor_self, UInt8.zero_xor]
      _ = (e ^^^ a) ^^^ (a ^^^ b) := by rw [← h, UInt8.xor_comm a e]
      _ = e ^^^ b := by rw [UInt8.xor_assoc, ← UInt8.xor_assoc a a b, UInt8.xor_self, UInt8.zero_xor]
      _ = b ^^^ e := UInt8.xor_comm e b

theorem getD_gcmTag (E : GfT → GfT) (c : GfT) (t : GcmText) {n i : ℕ} (hi : i < n) (hn : n ≤ 16) :
    (gcmTag E c t n).getD i 0 =
      gfByte (ghash (E (zeros 16)) t.hdr t.txt) i ^^^ gfByte (E c) i := by
  have hlist := length_gcmTag E c t hn
  have hvec : ∀ x : GfT, i < x.toList.length := fun x => by
    rw [List.Vector.toList_length]
    omega
  unfold gfByte
  rw [List.getD_eq_getElem _ _ (by omega), List.getD_eq_getElem _ _ (hvec _),
    List.getD_eq_getElem _ _ (hvec _)]
  simp only [gcmTag, xorBytes, List.getElem_zipWith, List.getElem_take]

/-- Beside a tag under the same counter block, a second one is right exactly
when the two show the difference of the hashes. -/
theorem tag_iff_shown {E : GfT → GfT} {c : GfT} (t t' : GcmText) {tag tag' : List UInt8}
    (hle : tag.length ≤ 16) (hlen : tag'.length = tag.length)
    (htag : tag = gcmTag E c t tag.length) :
    tag' = gcmTag E c t' tag'.length ↔
      xorBlock (ghash (E (zeros 16)) t.hdr t.txt) (ghash (E (zeros 16)) t'.hdr t'.txt) ∈
        shown tag.length fun i => tag.getD i 0 ^^^ tag'.getD i 0 := by
  have hbyte : ∀ i < tag.length, tag'.getD i 0 = (gcmTag E c t' tag'.length).getD i 0 ↔
      gfByte (xorBlock (ghash (E (zeros 16)) t.hdr t.txt) (ghash (E (zeros 16)) t'.hdr t'.txt)) i =
        tag.getD i 0 ^^^ tag'.getD i 0 := by
    intro i hi
    have ht := getD_gcmTag E c t hi hle
    rw [← htag] at ht
    rw [getD_gcmTag E c t' (show i < tag'.length by omega) (by omega),
      gfByte_xorBlock _ _ (by omega)]
    exact xor_beside ht _
  have hlist : (gcmTag E c t' tag'.length).length = tag'.length := length_gcmTag E c t' (by omega)
  constructor
  · intro htag' i hi
    exact (hbyte i hi).mp (by rw [← htag'])
  · intro hshown
    apply List.ext_getElem hlist.symm
    intro i h₁ h₂
    have hi : i < tag.length := by omega
    rw [← List.getD_eq_getElem _ 0 h₁, ← List.getD_eq_getElem _ 0 h₂]
    exact (hbyte i hi).mpr (hshown i hi)

/-- **A forgery pins the hash key.** Beside a message that was sent with a tag
of up to sixteen bytes, any other message under the same IV, with any tag of
that length, is accepted for a fixed set of hash keys only: the set is known
from what was sent and what was forged, whatever the cipher and its key, and it
has at most as many keys as the longer message has blocks, times what the tag
leaves out. -/
theorem forgery_pins_key (iv hdr ct tag hdr' ct' tag' : List UInt8) (hle : tag.length ≤ 16)
    (hlen : tag'.length = tag.length) (hhdr : hdr.length + 16 < 2 ^ 32)
    (hct : ct.length + 16 < 2 ^ 32) (hhdr' : hdr'.length + 16 < 2 ^ 32)
    (hct' : ct'.length + 16 < 2 ^ 32) (hne : (hdr, ct) ≠ (hdr', ct')) :
    ∃ keys : Set GfT,
      keys.ncard ≤ 256 ^ (16 - tag.length) * max (numBlocks hdr ct) (numBlocks hdr' ct') ∧
      ∀ (P : Primitives) (key : Bytes 16) (ctx ctx' : GcmCtx) (al al' : Aligned)
        (msg : List UInt8),
        let sent := gcmEncryptMessage P al iv hdr msg tag.length (gcmInitAndKey P key ctx)
        msg.length = ct.length → sent.2.1 = ct → sent.2.2.1 = tag →
        ((gcmDecryptMessage P al' iv hdr' ct' tag' (gcmInitAndKey P key ctx')).1 = returnGood ↔
          (gcmInitAndKey P key ctx').ghashH ∈ keys) := by
  refine ⟨_, ghash_collisions_shown hdr ct hdr' ct' (by omega) (by omega) (by omega) (by omega)
    hne hle
    fun i => tag.getD i 0 ^^^ tag'.getD i 0, ?_⟩
  intro P key ctx ctx' al al' msg sent hmsg hsent htag
  set E := cipher P key with hE
  set c := startBlock E iv with hc
  have hanswer := (gcmEncryptMessage_keyed (gcmInitAndKey_keyed P key ctx) al iv hdr msg
    tag.length hhdr (by omega)).1
  have hbuf : ct = addStream (gctrByte E c) 0 msg := hsent.symm.trans (congrArg (·.2.1) hanswer)
  have hgiven : tag = gcmTag E c ⟨hdr, ct⟩ tag.length := by
    have h := htag.symm.trans (congrArg (·.2.2) hanswer)
    rw [hbuf]
    exact h
  have hreceived := (gcmDecryptMessage_keyed (gcmInitAndKey_keyed P key ctx') al' iv hdr' ct' tag'
    hhdr' hct').1
  have hcode : (gcmDecryptMessage P al' iv hdr' ct' tag' (gcmInitAndKey P key ctx')).1 =
      if tag' = gcmTag E c ⟨hdr', ct'⟩ tag'.length then returnGood else returnError :=
    congrArg (·.1) hreceived
  have hkey : (gcmInitAndKey P key ctx').ghashH = E (zeros 16) :=
    (gcmInitAndKey_keyed P key ctx').ghashH
  have hiff := tag_iff_shown ⟨hdr, ct⟩ ⟨hdr', ct'⟩ hle hlen hgiven
  rw [hcode, hkey, Set.mem_ofPred_eq]
  refine Iff.trans ?_ hiff
  constructor
  · intro hgood
    by_contra hbad
    rw [if_neg hbad] at hgood
    exact absurd hgood (by decide)
  · intro hright
    rw [if_pos hright]

/-- The tag of the byte 6 without a header. -/
def sixTag : List UInt8 := [12, 55, 231, 247, 247, 247, 247, 247, 247, 247, 247, 247]

theorem forgery_pins_key_oneBit :
    let al : Aligned := ⟨true, true, true⟩
    let ctx := gcmInitAndKey flipPrimitives (zeros 16) blankCtx
    let sent := gcmEncryptMessage flipPrimitives al (zeros 12).toList [] [6] 12 ctx
    sent.2.1 = [85] ∧ sent.2.2.1 = sixTag ∧
    ∃ keys : Set GfT, keys.ncard ≤ 256 ^ 4 * 2 ∧
      ((gcmDecryptMessage flipPrimitives al (zeros 12).toList [] [84] sixTag ctx).1 =
        returnGood ↔ ctx.ghashH ∈ keys) := by
  intro al ctx sent
  have hanswer := (gcmEncryptMessage_keyed (gcmInitAndKey_keyed flipPrimitives (zeros 16) blankCtx)
    al (zeros 12).toList [] [6] 12 (by decide) (by decide)).1
  have hvalue : messageAnswer (cipher flipPrimitives (zeros 16))
      (.enc al (zeros 12).toList [] [6] 12) = (returnGood, [85], sixTag) := by
    decide +kernel
  have hct : sent.2.1 = [85] := congrArg (·.2.1) (hanswer.trans hvalue)
  have htag : sent.2.2.1 = sixTag := congrArg (·.2.2) (hanswer.trans hvalue)
  have hblocks : 256 ^ (16 - sixTag.length) * max (numBlocks [] [85]) (numBlocks [] [84]) =
      256 ^ 4 * 2 := by
    decide +kernel
  obtain ⟨keys, hfew, hkeys⟩ := forgery_pins_key (zeros 12).toList [] [85] sixTag [] [84]
    sixTag (by decide) rfl (by decide) (by decide) (by decide) (by decide) (by decide)
  rw [hblocks] at hfew
  exact ⟨hct, htag, keys, hfew, hkeys flipPrimitives (zeros 16) blankCtx blankCtx al al [6] rfl hct
    htag⟩

end GecRelay
