import GecRelay.Gcm.Driver
import GecRelay.Foundation.Stream

/-!
# The loops of the driver agree

Each of the loops over a unit boundary, units and whole blocks does what the
last loop, byte by byte, would do with the same bytes: neither the address of a
buffer nor the way a text is cut into calls changes a hash or a ciphertext
(`authBuffer_eq_authTail`, `cryptBuffer_eq_crypt`). In terms of the text so far
the hash is `lazyHash` (`authTail_lazyHash`) and the ciphertext the sum with
the stream `gctrByte` (`crypt_addStream`).
-/

namespace GecRelay

open Foundation

/-! ## Adding into a buffer -/

theorem gfByte_xorAt (x : GfT) (pos : ℕ) (ds : List UInt8) {i : ℕ} (hi : i < 16) :
    gfByte (xorAt x pos ds) i =
      if pos ≤ i then gfByte x i ^^^ ds.getD (i - pos) 0 else gfByte x i :=
  gfByte_gfOf _ hi

@[simp] theorem xorAt_nil (x : GfT) (pos : ℕ) : xorAt x pos [] = x := by
  apply gf_ext
  intro i hi
  rw [gfByte_xorAt x pos [] hi]
  split <;> simp

theorem xorAt_append (x : GfT) (pos : ℕ) (ds es : List UInt8) :
    xorAt (xorAt x pos ds) (pos + ds.length) es = xorAt x pos (ds ++ es) := by
  apply gf_ext
  intro i hi
  rw [gfByte_xorAt _ _ _ hi, gfByte_xorAt _ _ _ hi, gfByte_xorAt _ _ _ hi]
  by_cases hpos : pos ≤ i
  · rw [if_pos hpos, if_pos hpos]
    by_cases hend : pos + ds.length ≤ i
    · rw [if_pos hend, List.getD_eq_default ds 0 (by omega), UInt8.xor_zero,
        List.getD_append_right _ _ _ _ (by omega)]
      congr 2
      omega
    · rw [if_neg hend, List.getD_append _ _ _ _ (by omega)]
  · rw [if_neg hpos, if_neg hpos, if_neg (by omega)]

/-! ## Authentication -/

section Auth

variable {mul : GfT → GfT}

/-- A piece that stays within the block. -/
theorem authTail_within {b : ℕ} (ds rest : List UInt8) (hb : b + ds.length ≤ 16) (g : GfT) :
    authTail mul g b (ds ++ rest) = authTail mul (xorAt g b ds) (b + ds.length) rest := by
  induction ds generalizing g b with
  | nil => simp
  | cons d ds ih =>
      rw [List.length_cons] at hb
      have hb16 : b ≠ 16 := by omega
      rw [List.cons_append, authTail, if_neg hb16, ih (by omega)]
      have hsplit := xorAt_append g b [d] ds
      rw [List.length_singleton, List.singleton_append] at hsplit
      rw [hsplit, List.length_cons, Nat.add_assoc, Nat.add_comm 1]

/-- The multiplication waits for the next byte. -/
theorem authTail_full {ds : List UInt8} (hne : ds ≠ []) (g : GfT) :
    authTail mul g 16 ds = authTail mul (mul g) 0 ds := by
  cases ds with
  | nil => exact absurd rfl hne
  | cons d ds =>
      rw [authTail, if_pos rfl, authTail, if_neg (by decide)]

theorem authBytes_tail {c : ℕ → Bool} (hc : ∀ b, c b = true → b ≠ 16) (g : GfT) (b : ℕ)
    (ds : List UInt8) :
    authTail mul (authBytes c g b ds).1 (authBytes c g b ds).2.1 (authBytes c g b ds).2.2 =
      authTail mul g b ds := by
  induction ds generalizing g b with
  | nil => rfl
  | cons d ds ih =>
      rw [authBytes]
      by_cases h : c b = true
      · rw [if_pos h, ih, authTail, if_neg (hc b h)]
      · rw [if_neg h]

theorem authBytes_exit {c : ℕ → Bool} (hc : ∀ b ≤ 16, c b = true → b < 16) (g : GfT) {b : ℕ}
    (hb : b ≤ 16) (ds : List UInt8) :
    (authBytes c g b ds).2.1 ≤ 16 ∧
      ((authBytes c g b ds).2.2 = [] ∨ c (authBytes c g b ds).2.1 = false) := by
  induction ds generalizing g b with
  | nil => exact ⟨hb, Or.inl rfl⟩
  | cons d ds ih =>
      rw [authBytes]
      by_cases h : c b = true
      · rw [if_pos h]
        exact ih _ (hc b hb h)
      · rw [if_neg h]
        exact ⟨hb, Or.inr (by simpa using h)⟩

theorem authUnits_tail (g : GfT) (b : ℕ) (ds : List UInt8) :
    authTail mul (authUnits g b ds).1 (authUnits g b ds).2.1 (authUnits g b ds).2.2 =
      authTail mul g b ds := by
  fun_induction authUnits g b ds with
  | case1 g b d₀ d₁ d₂ d₃ ds hle ih =>
      rw [ih]
      exact (authTail_within [d₀, d₁, d₂, d₃] ds (by simpa using hle) g).symm
  | case2 => rfl
  | case3 => rfl

theorem authUnits_exit (g : GfT) {b : ℕ} (hb : b ≤ 16) (ds : List UInt8)
    (hstart : ds = [] ∨ b % 4 = 0) :
    (authUnits g b ds).2.2.length < 4 ∨ (authUnits g b ds).2.1 = 16 := by
  fun_induction authUnits g b ds with
  | case1 g b d₀ d₁ d₂ d₃ ds hle ih =>
      refine ih (by omega) (Or.inr ?_)
      have hmod : b % 4 = 0 := by simpa using hstart
      omega
  | case2 g b d₀ d₁ d₂ d₃ ds hgt =>
      have hmod : b % 4 = 0 := by simpa using hstart
      have h16 : b = 16 := by omega
      exact Or.inr h16
  | case3 g b ds hshort =>
      left
      rcases ds with _ | ⟨d₀, _ | ⟨d₁, _ | ⟨d₂, _ | ⟨d₃, ds⟩⟩⟩⟩
      · simp
      · simp
      · simp
      · simp
      · exact absurd rfl (hshort d₀ d₁ d₂ d₃ ds)

theorem authBlocks_tail (g : GfT) {b : ℕ} (ds : List UInt8) (hb : ds.length < 16 ∨ b = 16) :
    authTail mul (authBlocks mul g ds).1 b (authBlocks mul g ds).2 = authTail mul g b ds := by
  fun_induction authBlocks mul g ds with
  | case1 g ds hle ih =>
      obtain rfl : b = 16 := by omega
      have hlen : (ds.take 16).length = 16 := by simpa using hle
      have hne : ds.take 16 ++ ds.drop 16 ≠ [] := by
        intro h
        rw [List.take_append_drop] at h
        simp [h] at hle
      rw [ih (Or.inr rfl)]
      conv_rhs => rw [← List.take_append_drop 16 ds]
      rw [authTail_full hne, authTail_within _ _ (by omega), hlen]
  | case2 => rfl

/-- Where the next byte goes: sixteen at a block boundary that was reached, so
that the multiplication is still due. -/
def lazyPos (n : ℕ) : ℕ := if n ≠ 0 ∧ n % 16 = 0 then 16 else n % 16

theorem authLoops_eq_authTail (aligned : Bool) (g : GfT) {b : ℕ} (hb : b ≤ 16)
    (data : List UInt8) : authLoops mul aligned g b data = authTail mul g b data := by
  cases aligned with
  | false =>
      set r := authBytes (fun b => decide (b < 16)) g b data with hr
      have hfill : authTail mul r.1 r.2.1 r.2.2 = authTail mul g b data :=
        authBytes_tail (fun b h => by simp at h; omega) g b data
      obtain ⟨hle, hexit⟩ : r.2.1 ≤ 16 ∧ (r.2.2 = [] ∨ decide (r.2.1 < 16) = false) :=
        authBytes_exit (fun b _ h => by simpa using h) g hb data
      show authTail mul (authBlocks mul r.1 r.2.2).1 r.2.1 (authBlocks mul r.1 r.2.2).2 = _
      rw [← hfill]
      refine authBlocks_tail _ _ ?_
      rcases hexit with hrest | hstop
      · left
        rw [hrest]
        decide
      · right
        have hge : ¬ r.2.1 < 16 := of_decide_eq_false hstop
        omega
  | true =>
      set r := authBytes (fun b => decide (b % 4 ≠ 0)) g b data with hr
      have hfill : authTail mul r.1 r.2.1 r.2.2 = authTail mul g b data :=
        authBytes_tail (fun b h => by simp at h; omega) g b data
      obtain ⟨hle, hexit⟩ : r.2.1 ≤ 16 ∧ (r.2.2 = [] ∨ decide (r.2.1 % 4 ≠ 0) = false) :=
        authBytes_exit (fun b hb h => by simp at h; omega) g hb data
      set u := authUnits r.1 r.2.1 r.2.2 with hu
      show authTail mul (authBlocks mul u.1 u.2.2).1 u.2.1 (authBlocks mul u.1 u.2.2).2 = _
      rw [← hfill, ← authUnits_tail r.1, ← hu]
      refine authBlocks_tail _ _ ?_
      have hunits := authUnits_exit r.1 hle r.2.2
        (hexit.imp_right fun hstop => by simpa using hstop)
      exact hunits.imp_left fun hshort => hshort.trans (by decide)

/-- **The address does not matter**: both loop nests leave what the loop byte
by byte leaves. -/
theorem authBuffer_eq_authTail (aligned : Bool) (ghv : GfT) (cnt : UInt32) (data : List UInt8) :
    authBuffer mul aligned ghv cnt data = authTail mul ghv (lazyPos cnt.toNat) data := by
  unfold authBuffer
  by_cases hnil : data = []
  · subst hnil
    rw [if_pos rfl, authTail]
  have hcnt : cnt ≠ 0 ↔ cnt.toNat ≠ 0 := by
    rw [ne_eq, ne_eq, ← UInt32.toNat_inj]
    rfl
  have hb : cnt.toNat % 16 ≤ 16 := by omega
  rw [if_neg hnil, authLoops_eq_authTail aligned _ hb]
  unfold lazyPos
  by_cases hfull : cnt.toNat ≠ 0 ∧ cnt.toNat % 16 = 0
  · rw [if_pos hfull, if_pos ⟨hcnt.mpr hfull.1, hfull.2⟩, hfull.2, authTail_full hnil]
  · rw [if_neg hfull, if_neg fun h => hfull ⟨hcnt.mp h.1, h.2⟩]

theorem lazyPos_succ (n : ℕ) :
    lazyPos (n + 1) = if lazyPos n = 16 then 1 else lazyPos n + 1 := by
  have hmod : n % 16 < 16 := Nat.mod_lt n (by decide)
  by_cases hlast : n % 16 = 15
  · have hn : ¬ (n ≠ 0 ∧ n % 16 = 0) := by omega
    have hnext : n + 1 ≠ 0 ∧ (n + 1) % 16 = 0 := by omega
    rw [lazyPos, if_pos hnext, lazyPos, if_neg hn, hlast]
    rfl
  · have hnext : ¬ (n + 1 ≠ 0 ∧ (n + 1) % 16 = 0) := by omega
    rw [lazyPos, if_neg hnext]
    unfold lazyPos
    by_cases hn : n ≠ 0 ∧ n % 16 = 0
    · rw [if_pos hn, if_pos rfl]
      omega
    · rw [if_neg hn, if_neg (by omega)]
      omega

/-- **Pieces of a text**: the state after a piece is where the next one
goes on. -/
theorem authTail_append (n : ℕ) (g : GfT) (ds es : List UInt8) :
    authTail mul g (lazyPos n) (ds ++ es) =
      authTail mul (authTail mul g (lazyPos n) ds) (lazyPos (n + ds.length)) es := by
  induction ds generalizing n g with
  | nil => rfl
  | cons d ds ih =>
      have hlen : n + (d :: ds).length = n + 1 + ds.length := by
        rw [List.length_cons]
        omega
      rw [hlen, List.cons_append]
      by_cases hfull : lazyPos n = 16
      · have hnext := ih (n + 1) (xorAt (mul g) 0 [d])
        rw [lazyPos_succ, if_pos hfull] at hnext
        rw [authTail, if_pos hfull, authTail, if_pos hfull]
        exact hnext
      · have hnext := ih (n + 1) (xorAt g (lazyPos n) [d])
        rw [lazyPos_succ, if_neg hfull] at hnext
        rw [authTail, if_neg hfull, authTail, if_neg hfull]
        exact hnext

/-- The hash of a text with the multiplication of its last block still due. -/
def lazyHash (mul : GfT → GfT) (ds : List UInt8) : GfT := authTail mul (zeros 16) 0 ds

theorem lazyHash_append (ds es : List UInt8) :
    lazyHash mul (ds ++ es) = authTail mul (lazyHash mul ds) (lazyPos ds.length) es := by
  have h : authTail mul (zeros 16) (lazyPos 0) (ds ++ es) =
      authTail mul (lazyHash mul ds) (lazyPos (0 + ds.length)) es :=
    authTail_append 0 (zeros 16) ds es
  rwa [Nat.zero_add] at h

end Auth

/-! ## Encryption -/

section Crypt

variable {E : GfT → GfT}

/-- What a call leaves behind of the last loop: the bytes written, the counter
and the enciphered counter. The next call takes its position from the count. -/
def crypt (E : GfT → GfT) (s : Pad) (ds : List UInt8) : List UInt8 × GfT × GfT :=
  ((cryptTail E s ds).1, (cryptTail E s ds).2.ctr, (cryptTail E s ds).2.enc)

def prepend (out : List UInt8) (r : List UInt8 × GfT × GfT) : List UInt8 × GfT × GfT :=
  (out ++ r.1, r.2)

@[simp] theorem prepend_nil (r : List UInt8 × GfT × GfT) : prepend [] r = r := rfl

theorem prepend_prepend (o o' : List UInt8) (r : List UInt8 × GfT × GfT) :
    prepend o (prepend o' r) = prepend (o ++ o') r := by
  unfold prepend
  rw [List.append_assoc]

theorem crypt_inside {s : Pad} (hpos : s.pos ≠ 0) (hlt : s.pos ≠ 16) (d : UInt8)
    (ds : List UInt8) :
    crypt E s (d :: ds) =
      prepend [d ^^^ gfByte s.enc s.pos] (crypt E { s with pos := s.pos + 1 } ds) := by
  have hnew : ¬ (s.pos = 16 ∨ s.pos = 0) := by tauto
  unfold crypt
  simp only [cryptTail, if_neg hnew]
  rfl

theorem crypt_boundary {s : Pad} (hpos : s.pos = 16 ∨ s.pos = 0) (d : UInt8)
    (ds : List UInt8) :
    crypt E s (d :: ds) =
      prepend [d ^^^ gfByte (E (incCtr s.ctr)) 0]
        (crypt E ⟨incCtr s.ctr, E (incCtr s.ctr), 1⟩ ds) := by
  unfold crypt
  simp only [cryptTail, if_pos hpos]
  rfl

/-- A piece that stays within the block. -/
theorem crypt_within {s : Pad} (hpos : s.pos ≠ 0) (ds rest : List UInt8)
    (hlen : s.pos + ds.length ≤ 16) :
    crypt E s (ds ++ rest) =
      prepend (addStream (gfByte s.enc) s.pos ds)
        (crypt E { s with pos := s.pos + ds.length } rest) := by
  induction ds generalizing s with
  | nil => simp [addStream]
  | cons d ds ih =>
      rw [List.length_cons] at hlen
      have hnext := ih (s := { s with pos := s.pos + 1 }) (Nat.succ_ne_zero s.pos)
        (by show s.pos + 1 + ds.length ≤ 16; omega)
      rw [List.cons_append, crypt_inside hpos (by omega), hnext, prepend_prepend,
        List.length_cons]
      simp only [addStream, List.singleton_append]
      rw [Nat.add_assoc, Nat.add_comm 1]

/-- A whole block from a block boundary. -/
theorem crypt_block {s : Pad} (hpos : s.pos = 16 ∨ s.pos = 0) {blk : List UInt8}
    (hblk : blk.length = 16) (rest : List UInt8) :
    crypt E s (blk ++ rest) =
      prepend (xorBytes blk (E (incCtr s.ctr)).toList)
        (crypt E ⟨incCtr s.ctr, E (incCtr s.ctr), 16⟩ rest) := by
  obtain _ | ⟨d, ds⟩ := blk
  · simp at hblk
  rw [List.length_cons] at hblk
  have hds : 1 + ds.length = 16 := by omega
  rw [List.cons_append, crypt_boundary hpos,
    crypt_within (s := ⟨incCtr s.ctr, E (incCtr s.ctr), 1⟩) Nat.one_ne_zero ds rest hds.le,
    prepend_prepend, hds]
  congr 1
  have hstream : addStream (gfByte (E (incCtr s.ctr))) 0 (d :: ds) =
      xorBytes (d :: ds) (E (incCtr s.ctr)).toList := by
    refine addStream_eq_xorBytes ?_ fun i _ => ?_
    · rw [List.Vector.toList_length, List.length_cons]
      omega
    · rw [Nat.zero_add]
      rfl
  exact hstream

theorem crypt_pos {s s' : Pad} (hctr : s.ctr = s'.ctr) (henc : s.enc = s'.enc)
    (hpos : s.pos = 16 ∨ s.pos = 0) (hpos' : s'.pos = 16 ∨ s'.pos = 0) (ds : List UInt8) :
    crypt E s ds = crypt E s' ds := by
  cases ds with
  | nil => simp [crypt, cryptTail, hctr, henc]
  | cons d ds => rw [crypt_boundary hpos, crypt_boundary hpos', hctr]

theorem cryptBytes_crypt {c : ℕ → Bool} (hc : ∀ b, c b = true → b ≠ 16) {s : Pad}
    (hpos : s.pos ≠ 0) (ds : List UInt8) :
    crypt E s ds =
      prepend (cryptBytes c s ds).1 (crypt E (cryptBytes c s ds).2.1 (cryptBytes c s ds).2.2) := by
  induction ds generalizing s with
  | nil => rfl
  | cons d ds ih =>
      by_cases h : c s.pos = true
      · have hnext := ih (s := { s with pos := s.pos + 1 }) (Nat.succ_ne_zero s.pos)
        rw [crypt_inside hpos (hc _ h), hnext, prepend_prepend]
        simp only [cryptBytes, if_pos h]
        rfl
      · simp only [cryptBytes, if_neg h]
        rfl

theorem cryptBytes_exit {c : ℕ → Bool} (hc : ∀ b ≤ 16, c b = true → b < 16) {s : Pad}
    (hpos : s.pos ≠ 0) (hs : s.pos ≤ 16) (ds : List UInt8) :
    (cryptBytes c s ds).2.1.pos ≠ 0 ∧ (cryptBytes c s ds).2.1.pos ≤ 16 ∧
      ((cryptBytes c s ds).2.2 = [] ∨ c (cryptBytes c s ds).2.1.pos = false) := by
  induction ds generalizing s with
  | nil => exact ⟨hpos, hs, Or.inl rfl⟩
  | cons d ds ih =>
      by_cases h : c s.pos = true
      · simp only [cryptBytes, if_pos h]
        exact ih (s := { s with pos := s.pos + 1 }) (Nat.succ_ne_zero s.pos) (hc _ hs h)
      · simp only [cryptBytes, if_neg h]
        exact ⟨hpos, hs, Or.inr (by simpa using h)⟩

theorem cryptUnits_crypt {s : Pad} (hpos : s.pos ≠ 0) (ds : List UInt8) :
    crypt E s ds =
      prepend (cryptUnits s ds).1 (crypt E (cryptUnits s ds).2.1 (cryptUnits s ds).2.2) := by
  fun_induction cryptUnits s ds with
  | case1 s d₀ d₁ d₂ d₃ ds hle out s' rest heq ih =>
      have hfour := crypt_within (E := E) hpos [d₀, d₁, d₂, d₃] ds (by simpa using hle)
      have hnext := ih (Nat.succ_ne_zero _)
      rw [heq] at hnext
      rw [show d₀ :: d₁ :: d₂ :: d₃ :: ds = [d₀, d₁, d₂, d₃] ++ ds from rfl, hfour]
      exact (congrArg _ hnext).trans (prepend_prepend _ _ _)
  | case2 => rfl
  | case3 => rfl

theorem cryptUnits_exit {s : Pad} (hpos : s.pos ≠ 0) (hs : s.pos ≤ 16) (ds : List UInt8)
    (hstart : ds = [] ∨ s.pos % 4 = 0) :
    (cryptUnits s ds).2.2.length < 4 ∨ (cryptUnits s ds).2.1.pos = 16 := by
  fun_induction cryptUnits s ds with
  | case1 s d₀ d₁ d₂ d₃ ds hle out s' rest heq ih =>
      have hmod : s.pos % 4 = 0 := by simpa using hstart
      have hnext := ih (Nat.succ_ne_zero _) (by show s.pos + 4 ≤ 16; omega)
        (Or.inr (by show (s.pos + 4) % 4 = 0; omega))
      rwa [heq] at hnext
  | case2 s d₀ d₁ d₂ d₃ ds hgt =>
      have hmod : s.pos % 4 = 0 := by simpa using hstart
      have h16 : s.pos = 16 := by omega
      exact Or.inr h16
  | case3 s ds hshort =>
      left
      rcases ds with _ | ⟨d₀, _ | ⟨d₁, _ | ⟨d₂, _ | ⟨d₃, ds⟩⟩⟩⟩
      · simp
      · simp
      · simp
      · simp
      · exact absurd rfl (hshort d₀ d₁ d₂ d₃ ds)

theorem cryptBlocks_crypt {s : Pad} (ds : List UInt8)
    (hs : ds.length < 16 ∨ s.pos = 16 ∨ s.pos = 0) :
    crypt E s ds =
      prepend (cryptBlocks E s ds).1
        (crypt E (cryptBlocks E s ds).2.1 (cryptBlocks E s ds).2.2) := by
  fun_induction cryptBlocks E s ds with
  | case1 s ds hle s₁ out s' rest heq ih =>
      have hpos : s.pos = 16 ∨ s.pos = 0 := by omega
      have hlen : (ds.take 16).length = 16 := by simpa using hle
      have hnext := ih (Or.inr hpos)
      rw [heq] at hnext
      conv_lhs => rw [← List.take_append_drop 16 ds]
      rw [crypt_block hpos hlen]
      have hsame : crypt E ⟨incCtr s.ctr, E (incCtr s.ctr), 16⟩ (ds.drop 16) =
          crypt E s₁ (ds.drop 16) := by
        apply crypt_pos
        · rfl
        · rfl
        · exact Or.inl rfl
        · exact hpos
      rw [hsame, hnext]
      exact prepend_prepend _ _ _
  | case2 => rfl

/-- **The address does not matter** for encryption either. -/
theorem cryptBuffer_eq_crypt (aligned : Bool) (s : Pad) (hs : s.pos ≤ 16) (data : List UInt8) :
    ((cryptBuffer E aligned s data).1, (cryptBuffer E aligned s data).2.ctr,
      (cryptBuffer E aligned s data).2.enc) = crypt E s data := by
  have hfinish : ∀ (out : List UInt8) (s' : Pad) (rest : List UInt8),
      (rest.length < 16 ∨ s'.pos = 16 ∨ s'.pos = 0) →
      crypt E s data = prepend out (crypt E s' rest) →
      crypt E s data = prepend (out ++ (cryptBlocks E s' rest).1)
        (crypt E (cryptBlocks E s' rest).2.1 (cryptBlocks E s' rest).2.2) := by
    intro out s' rest hend heq
    rw [heq, cryptBlocks_crypt rest hend, prepend_prepend]
  by_cases hzero : s.pos = 0
  · have h := hfinish [] s data (Or.inr (Or.inr hzero)) rfl
    rw [h]
    unfold cryptBuffer
    simp only [if_pos hzero]
    rfl
  cases aligned with
  | false =>
      set r := cryptBytes (fun b => decide (b < 16)) s data with hr
      have hbytes : crypt E s data = prepend r.1 (crypt E r.2.1 r.2.2) :=
        cryptBytes_crypt (fun b h => by simp at h; omega) hzero data
      obtain ⟨-, hle, hexit⟩ : r.2.1.pos ≠ 0 ∧ r.2.1.pos ≤ 16 ∧
          (r.2.2 = [] ∨ decide (r.2.1.pos < 16) = false) :=
        cryptBytes_exit (fun b _ h => by simpa using h) hzero hs data
      have hend : r.2.2.length < 16 ∨ r.2.1.pos = 16 ∨ r.2.1.pos = 0 := by
        rcases hexit with hrest | hstop
        · left
          rw [hrest]
          decide
        · have hge : ¬ r.2.1.pos < 16 := of_decide_eq_false hstop
          omega
      rw [hfinish _ _ _ hend hbytes]
      unfold cryptBuffer
      simp only [if_neg hzero]
      rfl
  | true =>
      set r := cryptBytes (fun b => decide (b % 4 ≠ 0)) s data with hr
      have hbytes : crypt E s data = prepend r.1 (crypt E r.2.1 r.2.2) :=
        cryptBytes_crypt (fun b h => by simp at h; omega) hzero data
      obtain ⟨hne, hle, hexit⟩ : r.2.1.pos ≠ 0 ∧ r.2.1.pos ≤ 16 ∧
          (r.2.2 = [] ∨ decide (r.2.1.pos % 4 ≠ 0) = false) :=
        cryptBytes_exit (fun b hb h => by simp at h; omega) hzero hs data
      set u := cryptUnits r.2.1 r.2.2 with hu
      have hunits : crypt E s data = prepend (r.1 ++ u.1) (crypt E u.2.1 u.2.2) := by
        rw [hbytes, cryptUnits_crypt hne, prepend_prepend]
      have hend : u.2.2.length < 16 ∨ u.2.1.pos = 16 ∨ u.2.1.pos = 0 := by
        have hexit' := cryptUnits_exit hne hle r.2.2
          (hexit.imp_right fun hstop => by simpa using hstop)
        rcases hexit' with hshort | hfull
        · exact Or.inl (hshort.trans (by decide))
        · exact Or.inr (Or.inl hfull)
      rw [hfinish _ _ _ hend hunits]
      unfold cryptBuffer
      simp only [if_neg hzero]
      rfl

/-- Byte `p` of the pad whose counter starts from `c`: the blocks are
enciphered from the first increment on. -/
def gctrByte (E : GfT → GfT) (c : GfT) (p : ℕ) : UInt8 :=
  gfByte (E (incCtr^[p / 16 + 1] c)) (p % 16)

/-- The pad after `n` bytes. -/
structure PadAt (E : GfT → GfT) (c : GfT) (n : ℕ) (s : Pad) : Prop where
  ctr : s.ctr = incCtr^[(n + 15) / 16] c
  enc : n % 16 ≠ 0 → s.enc = E s.ctr
  pos : s.pos % 16 = n % 16
  le : s.pos ≤ 16

/-- The step: one byte of the text takes one byte of the pad. -/
theorem crypt_step {c : GfT} {n : ℕ} {s : Pad} (h : PadAt E c n s) (d : UInt8) :
    ∃ s', PadAt E c (n + 1) s' ∧
      ∀ ds, crypt E s (d :: ds) = prepend [d ^^^ gctrByte E c n] (crypt E s' ds) := by
  have hpos := h.pos
  have hle := h.le
  by_cases hnew : n % 16 = 0
  · have hcnt : (n + 15) / 16 = n / 16 := by omega
    have hctr : incCtr s.ctr = incCtr^[n / 16 + 1] c := by
      rw [h.ctr, hcnt, Function.iterate_succ_apply']
    have hsucc : (n + 1 + 15) / 16 = n / 16 + 1 := by omega
    refine ⟨⟨incCtr s.ctr, E (incCtr s.ctr), 1⟩, ⟨?_, fun _ => rfl, ?_, ?_⟩, fun ds => ?_⟩
    · rw [hsucc]
      exact hctr
    · show 1 % 16 = (n + 1) % 16
      omega
    · show 1 ≤ 16
      decide
    · rw [crypt_boundary (by omega), gctrByte, ← hctr, hnew]
  · have henc := h.enc hnew
    have hcnt : (n + 15) / 16 = n / 16 + 1 := by omega
    refine ⟨{ s with pos := s.pos + 1 }, ⟨?_, fun _ => henc, ?_, ?_⟩, fun ds => ?_⟩
    · have hsucc : (n + 1 + 15) / 16 = n / 16 + 1 := by omega
      rw [hsucc, ← hcnt]
      exact h.ctr
    · show (s.pos + 1) % 16 = (n + 1) % 16
      omega
    · show s.pos + 1 ≤ 16
      omega
    · have hat : s.pos = n % 16 := by omega
      rw [crypt_inside (by omega) (by omega), gctrByte, ← hcnt, ← h.ctr, ← henc, hat]

/-- **Encryption adds the pad**, from wherever the text before ended. -/
theorem crypt_addStream {c : GfT} {n : ℕ} {s : Pad} (h : PadAt E c n s) (ds : List UInt8) :
    (crypt E s ds).1 = addStream (gctrByte E c) n ds ∧
      PadAt E c (n + ds.length)
        ⟨(crypt E s ds).2.1, (crypt E s ds).2.2, (n + ds.length) % 16⟩ := by
  induction ds generalizing n s with
  | nil =>
      refine ⟨rfl, h.ctr, h.enc, ?_, ?_⟩
      · show n % 16 % 16 = n % 16
        omega
      · show n % 16 ≤ 16
        omega
  | cons d ds ih =>
      obtain ⟨s', hs', hstep⟩ := crypt_step h d
      obtain ⟨hout, hpad⟩ := ih hs'
      have hlen : n + (d :: ds).length = n + 1 + ds.length := by
        rw [List.length_cons]
        omega
      rw [hstep ds, hlen]
      refine ⟨?_, hpad⟩
      rw [addStream, ← hout]
      rfl

end Crypt

end GecRelay
