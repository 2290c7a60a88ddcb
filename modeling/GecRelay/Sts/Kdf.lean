import GecRelay.Gec.Confirm

/-!
# The key derivation of STS

`kdf` of `gec-ke.c` expands a secret block by block: block `i` is the hash of
`i` as two big-endian bytes, the secret and the party byte. The count has 16
bits, the number of rounds 32, and the count of remaining bytes underflows
behind the last block; up to 65535 blocks none of it shows.
-/

namespace GecRelay

open Foundation

/-- `hash_input`: `PUT16be` of the count, the secret and the party byte. -/
def kdfInput (count : UInt16) (secret : Bytes 32) (partyByte : UInt8) : List UInt8 :=
  [((count >>> 8) &&& 0xFF).toUInt8, (count &&& 0xFF).toUInt8] ++ secret.toList ++ [partyByte]

def kdfReps (resultSize : UInt32) : UInt32 := (resultSize + 64 - 1) / 64

/-- The loop `for(count=0; count < nrReps; count++)`. The count has 16 bits
and the bound 32: within `2 ^ 16` rounds it reaches the bound or never. -/
def kdfLoop {n : ℕ} (P : Primitives) (nrReps : UInt32) (secret : Bytes 32) (partyByte : UInt8) :
    ℕ → UInt16 → UInt32 → Bytes n → Option (Bytes n)
  | 0, _, _, _ => none
  | fuel + 1, count, bytesRemaining, result =>
      if count.toUInt32 < nrReps then
        let tmp := P.ed25519Hash (kdfInput count secret partyByte)
        let result' :=
          if 64 < bytesRemaining then overwrite result (count.toNat * 64) tmp.toList
          else overwrite result (count.toNat * 64) (tmp.toList.take bytesRemaining.toNat)
        kdfLoop P nrReps secret partyByte fuel (count + 1) (bytesRemaining - 64) result'
      else some result

/-- `kdf`; `none` when the loop does not end. -/
def kdf {n : ℕ} (P : Primitives) (result : Bytes n) (secret : Bytes 32) (partyByte : UInt8) :
    Option (Bytes n) :=
  kdfLoop P (kdfReps (UInt32.ofNat n)) secret partyByte (2 ^ 16 + 1) 0 (UInt32.ofNat n) result

/-- `kdf` with a buffer that may be longer than `result_size`. -/
def kdfSized {n : ℕ} (P : Primitives) (resultSize : UInt32) (buffer : Bytes n) (secret : Bytes 32)
    (partyByte : UInt8) : Option (Bytes n) :=
  kdfLoop P (kdfReps resultSize) secret partyByte (2 ^ 16 + 1) 0 resultSize buffer

/-! ## The stream of blocks -/

section Stream

variable (P : Primitives) (secret : Bytes 32) (partyByte : UInt8)

def kdfBlock (i : ℕ) : Bytes 64 := P.ed25519Hash (bigEndian 2 i ++ secret.toList ++ [partyByte])

def kdfStream (m : ℕ) : List UInt8 :=
  (List.range m).flatMap fun i => (kdfBlock P secret partyByte i).toList

theorem kdfStream_succ (m : ℕ) :
    kdfStream P secret partyByte (m + 1) =
      kdfStream P secret partyByte m ++ (kdfBlock P secret partyByte m).toList := by
  unfold kdfStream
  rw [List.range_succ, List.flatMap_append, List.flatMap_singleton]

@[simp] theorem length_kdfStream (m : ℕ) : (kdfStream P secret partyByte m).length = 64 * m := by
  induction m with
  | zero => rfl
  | succ m ih =>
      rw [kdfStream_succ, List.length_append, ih, List.Vector.toList_length]
      omega

theorem kdfStream_prefix {m m' : ℕ} (h : m ≤ m') :
    kdfStream P secret partyByte m <+: kdfStream P secret partyByte m' := by
  induction h with
  | refl => exact List.prefix_rfl
  | step _ ih => exact ih.trans ⟨_, (kdfStream_succ P secret partyByte _).symm⟩

/-- Byte `j` of block `i`. -/
theorem kdfStream_get {m i : ℕ} (h : i < m) (j : Fin 64) :
    (kdfStream P secret partyByte m)[64 * i + j]? =
      some ((kdfBlock P secret partyByte i).get j) := by
  obtain ⟨rest, hrest⟩ := kdfStream_prefix P secret partyByte (Nat.succ_le_of_lt h)
  have hj := j.isLt
  have hlen := length_kdfStream P secret partyByte i
  rw [← hrest, Nat.succ_eq_add_one, kdfStream_succ, List.append_assoc,
    List.getElem?_append_right (by omega), hlen, Nat.add_sub_cancel_left,
    List.getElem?_append_left (by simp)]
  exact List.getElem?_eq_getElem (by simp)

theorem kdfInput_eq (count : UInt16) :
    kdfInput count secret partyByte =
      bigEndian 2 count.toNat ++ secret.toList ++ [partyByte] := by
  have hlow (c : UInt16) : (c &&& 0xFF).toUInt8 = UInt8.ofNat (c.toNat % 256) := by
    apply UInt8.toNat_inj.mp
    simp only [UInt16.toNat_toUInt8, UInt16.toNat_and, UInt8.toNat_ofNat']
    rw [show (0xFF : UInt16).toNat = 2 ^ 8 - 1 from rfl, Nat.and_two_pow_sub_one_eq_mod]
  have hshift : (count >>> 8).toNat = count.toNat / 256 := by
    simp [Nat.shiftRight_eq_div_pow]
  rw [kdfInput, hlow, hlow, hshift]
  rfl

end Stream

/-! ## The rounds -/

section Rounds

variable {P : Primitives} {secret : Bytes 32} {partyByte : UInt8} {n size : ℕ} {buffer : Bytes n}

/-- After `i` rounds the result begins with `i` blocks of the stream, cut off
at `size`, and is the old buffer behind them. -/
structure KdfRound (P : Primitives) (secret : Bytes 32) (partyByte : UInt8) (buffer : Bytes n)
    (size i : ℕ) (bytesRemaining : UInt32) (result : Bytes n) : Prop where
  remaining : 64 * i < size → bytesRemaining.toNat + 64 * i = size
  written : result.toList = (kdfStream P secret partyByte i).take size ++
    buffer.toList.drop (min (64 * i) size)

/-- Both branches of a round write what remains of the block. -/
theorem kdf_branches (result : Bytes n) (off : ℕ) (bytesRemaining : UInt32) (block : Bytes 64) :
    (if 64 < bytesRemaining then overwrite result off block.toList
      else overwrite result off (block.toList.take bytesRemaining.toNat)) =
      overwrite result off (block.toList.take bytesRemaining.toNat) := by
  split
  · next hfull =>
      have hle : 64 < bytesRemaining.toNat := UInt32.lt_iff_toNat_lt.mp hfull
      rw [List.take_of_length_le (by rw [block.toList_length]; omega)]
  · rfl

theorem KdfRound.step {i : ℕ} {bytesRemaining : UInt32} {result : Bytes n}
    (h : KdfRound P secret partyByte buffer size i bytesRemaining result) (hlt : 64 * i < size)
    (hfit : size ≤ n) :
    KdfRound P secret partyByte buffer size (i + 1) (bytesRemaining - 64)
      (overwrite result (i * 64)
        ((kdfBlock P secret partyByte i).toList.take bytesRemaining.toNat)) := by
  have hremaining := h.remaining hlt
  set w := kdfStream P secret partyByte i with hw
  set block := kdfBlock P secret partyByte i
  set r := bytesRemaining.toNat
  have hwlen : w.length = 64 * i := length_kdfStream P secret partyByte i
  have hwritten : result.toList = w ++ buffer.toList.drop (64 * i) := by
    rw [h.written, ← hw, List.take_of_length_le (by omega), Nat.min_eq_left hlt.le]
  constructor
  · intro hmore
    have hle : (64 : UInt32) ≤ bytesRemaining := by
      rw [UInt32.le_iff_toNat_le]
      show 64 ≤ r
      omega
    rw [UInt32.toNat_sub_of_le _ _ hle]
    show r - 64 + 64 * (i + 1) = size
    omega
  · have hsrc : (block.toList.take r).length = min r 64 := by
      rw [List.length_take, block.toList_length]
    have hfront : (w ++ block.toList).take size = w ++ block.toList.take r := by
      rw [List.take_append, hwlen, List.take_of_length_le (by omega), ← hremaining,
        Nat.add_sub_cancel]
    have hbehind : i * 64 + min r 64 = w.length + min r 64 := by omega
    have hnext : 64 * i + min r 64 = min (64 * (i + 1)) size := by omega
    rw [kdfStream_succ, toList_overwrite, hwritten, hfront, hsrc, hbehind,
      List.drop_length_add_append, List.drop_drop, hnext, Nat.mul_comm i 64,
      List.take_left' hwlen, List.take_of_length_le (by omega)]

theorem kdfLoop_rounds (nrReps : UInt32) (hmax : nrReps.toNat ≤ 65535) (hfit : size ≤ n)
    (hreps : ∀ i, i < nrReps.toNat → 64 * i < size) (d fuel : ℕ) {count : UInt16}
    {bytesRemaining : UInt32} {result : Bytes n} (hcount : count.toNat + d = nrReps.toNat)
    (h : KdfRound P secret partyByte buffer size count.toNat bytesRemaining result) :
    ∃ bytesRemaining' result',
      kdfLoop P nrReps secret partyByte (d + 1 + fuel) count bytesRemaining result =
        some result' ∧
      KdfRound P secret partyByte buffer size nrReps.toNat bytesRemaining' result' := by
  induction d generalizing count bytesRemaining result with
  | zero =>
      have hge : ¬count.toUInt32 < nrReps := by
        rw [UInt32.lt_iff_toNat_lt, UInt16.toNat_toUInt32]
        omega
      refine ⟨bytesRemaining, result, ?_, ?_⟩
      · rw [Nat.add_comm, ← Nat.add_assoc, kdfLoop, if_neg hge]
      · rwa [← hcount]
  | succ d ih =>
      have hlt : count.toUInt32 < nrReps := by
        rw [UInt32.lt_iff_toNat_lt, UInt16.toNat_toUInt32]
        omega
      have hsucc : (count + 1).toNat = count.toNat + 1 := by
        rw [UInt16.toNat_add]
        exact Nat.mod_eq_of_lt (by show count.toNat + 1 < _; omega)
      have hround := h.step (hreps count.toNat (by omega)) hfit
      rw [← hsucc] at hround
      obtain ⟨remaining', result', hloop, hend⟩ := ih (by omega) hround
      refine ⟨remaining', result', ?_, hend⟩
      rw [show d + 1 + 1 + fuel = d + 1 + fuel + 1 by omega, kdfLoop, if_pos hlt]
      simp only [kdf_branches, kdfInput_eq]
      exact hloop

end Rounds

/-! ## The whole derivation -/

theorem kdfReps_toNat {resultSize : UInt32} (hpos : 1 ≤ resultSize.toNat)
    (hmax : resultSize.toNat ≤ 65535 * 64) :
    (kdfReps resultSize).toNat = (resultSize.toNat + 63) / 64 := by
  have h64 : (resultSize + 64).toNat = resultSize.toNat + 64 := by
    rw [UInt32.toNat_add]
    exact Nat.mod_eq_of_lt (by show resultSize.toNat + 64 < _; omega)
  have hone : (1 : UInt32) ≤ resultSize + 64 := by
    rw [UInt32.le_iff_toNat_le, h64]
    show 1 ≤ resultSize.toNat + 64
    omega
  rw [kdfReps, UInt32.toNat_div, UInt32.toNat_sub_of_le _ _ hone, h64]
  rfl

/-- **The result of `kdf`**: the stream up to `result_size`, and the old buffer
behind it. -/
theorem kdfSized_eq (P : Primitives) (secret : Bytes 32) (partyByte : UInt8) {resultSize : UInt32}
    (hpos : 1 ≤ resultSize.toNat) (hmax : resultSize.toNat ≤ 65535 * 64) {n : ℕ}
    (hfit : resultSize.toNat ≤ n) (buffer : Bytes n) :
    ∃ result, kdfSized P resultSize buffer secret partyByte = some result ∧
      result.toList =
        (kdfStream P secret partyByte ((resultSize.toNat + 63) / 64)).take resultSize.toNat ++
          buffer.toList.drop resultSize.toNat := by
  have hreps := kdfReps_toNat hpos hmax
  have hstart : KdfRound P secret partyByte buffer resultSize.toNat (0 : UInt16).toNat resultSize
      buffer := by
    refine ⟨fun _ => rfl, ?_⟩
    show buffer.toList = (kdfStream P secret partyByte 0).take _ ++ buffer.toList.drop (min 0 _)
    rw [Nat.zero_min, show kdfStream P secret partyByte 0 = [] from rfl, List.take_nil]
    rfl
  obtain ⟨_, result, hloop, hend⟩ := kdfLoop_rounds (kdfReps resultSize) (by omega) hfit
    (fun i hi => by omega) (kdfReps resultSize).toNat (65536 - (kdfReps resultSize).toNat)
    (Nat.zero_add _) hstart
  refine ⟨result, ?_, ?_⟩
  · rw [kdfSized, ← hloop]
    congr 1
    omega
  · rw [hend.written, hreps, Nat.min_eq_right (by omega)]

/-- **Key derivation expands the secret.** With a buffer of any length that
holds `result_size` bytes: `kdf` ends, byte `64 * i + j` is byte `j` of the hash
of block `i`, the buffer behind `result_size` is untouched, and a shorter
result is the front of this one. -/
theorem kdf_expands (P : Primitives) (secret : Bytes 32) (partyByte : UInt8) {resultSize : UInt32}
    (hpos : 1 ≤ resultSize.toNat) (hmax : resultSize.toNat ≤ 65535 * 64) {n : ℕ}
    (hfit : resultSize.toNat ≤ n) (buffer : Bytes n) :
    ∃ result, kdfSized P resultSize buffer secret partyByte = some result ∧
      (∀ (i : ℕ) (j : Fin 64), 64 * i + j < resultSize.toNat →
        result.toList[64 * i + j]? =
          some ((P.ed25519Hash (bigEndian 2 i ++ secret.toList ++ [partyByte])).get j)) ∧
      result.toList.drop resultSize.toNat = buffer.toList.drop resultSize.toNat ∧
      ∀ (shorter : UInt32) (m : ℕ) (buffer' : Bytes m), 1 ≤ shorter.toNat →
        shorter.toNat ≤ resultSize.toNat → shorter.toNat ≤ m →
        ∃ result', kdfSized P shorter buffer' secret partyByte = some result' ∧
          result'.toList.take shorter.toNat = result.toList.take shorter.toNat := by
  obtain ⟨result, hresult, hbytes⟩ := kdfSized_eq P secret partyByte hpos hmax hfit buffer
  set stream := kdfStream P secret partyByte ((resultSize.toNat + 63) / 64) with hstream
  have hlen : stream.length = 64 * ((resultSize.toNat + 63) / 64) :=
    length_kdfStream P secret partyByte _
  have hfront : (stream.take resultSize.toNat).length = resultSize.toNat :=
    List.length_take_of_le (by omega)
  refine ⟨result, hresult, ?_, ?_, ?_⟩
  · intro i j hij
    rw [hbytes, List.getElem?_append_left (by rw [hfront]; exact hij),
      List.getElem?_take_of_lt hij]
    exact kdfStream_get P secret partyByte (by omega) j
  · rw [hbytes, List.drop_left' hfront]
  · intro shorter m buffer' hpos' hle hfit'
    obtain ⟨result', hresult', hbytes'⟩ :=
      kdfSized_eq P secret partyByte hpos' (hle.trans hmax) hfit' buffer'
    refine ⟨result', hresult', ?_⟩
    -- both begin with the stream of the shorter one
    obtain ⟨rest, hrest⟩ := kdfStream_prefix P secret partyByte
      (show (shorter.toNat + 63) / 64 ≤ (resultSize.toNat + 63) / 64 by omega)
    set stream' := kdfStream P secret partyByte ((shorter.toNat + 63) / 64)
    have hlen' : stream'.length = 64 * ((shorter.toNat + 63) / 64) :=
      length_kdfStream P secret partyByte _
    have hcut : shorter.toNat ≤ stream'.length := by omega
    rw [hbytes', hbytes, List.take_left' (List.length_take_of_le hcut),
      List.take_append_of_le_length (by rw [hfront]; exact hle), List.take_take,
      Nat.min_eq_left hle, hstream, ← hrest, List.take_append_of_le_length hcut]

theorem kdf_expands_threeBlocks :
    ∃ result, kdfSized xorPrimitives 130 (zeros 200) (zeros 32) 1 = some result ∧
      result.toList[64 * 2 + 1]? =
        some ((xorPrimitives.ed25519Hash (bigEndian 2 2 ++ (zeros 32).toList ++ [1])).get 1) ∧
      result.toList.drop 130 = (zeros 200).toList.drop 130 := by
  obtain ⟨result, hresult, hbytes, hbehind, -⟩ :=
    kdf_expands xorPrimitives (zeros 32) 1 (show 1 ≤ (130 : UInt32).toNat by decide) (by decide)
      (show (130 : UInt32).toNat ≤ 200 by decide) (zeros 200)
  exact ⟨result, hresult, hbytes 2 1 (by decide), hbehind⟩

/-- **One block of `kdf`**: up to the length of a hash, the result is the front
of one hash, whatever the buffer held. -/
theorem kdf_block (P : Primitives) {n : ℕ} (hpos : 0 < n) (hn : n ≤ 64) (result : Bytes n)
    (secret : Bytes 32) (partyByte : UInt8) :
    kdf P result secret partyByte =
      some (slice (P.ed25519Hash (kdfInput 0 secret partyByte)) 0 n
        (Nat.ble_eq_true_of_le (by omega))) := by
  have hsize : (UInt32.ofNat n).toNat = n := by
    rw [UInt32.toNat_ofNat']
    exact Nat.mod_eq_of_lt (by omega)
  obtain ⟨result', hresult, hbytes⟩ := kdfSized_eq P secret partyByte
    (show 1 ≤ (UInt32.ofNat n).toNat by omega) (by omega) (show (UInt32.ofNat n).toNat ≤ n by omega)
    result
  have hone : (n + 63) / 64 = 1 := by omega
  have hstream : kdfStream P secret partyByte 1 = (kdfBlock P secret partyByte 0).toList :=
    kdfStream_succ P secret partyByte 0
  rw [hsize, hone, hstream, List.drop_eq_nil_of_le (by simp), List.append_nil] at hbytes
  refine hresult.trans (congrArg some (vec_ext ?_))
  rw [hbytes, toList_slice, kdfInput_eq]
  rfl

theorem kdf_isSome (P : Primitives) {n : ℕ} (hpos : 0 < n) (hn : n ≤ 64) (result : Bytes n)
    (secret : Bytes 32) (partyByte : UInt8) : (kdf P result secret partyByte).isSome := by
  rw [kdf_block P hpos hn]
  rfl

end GecRelay
