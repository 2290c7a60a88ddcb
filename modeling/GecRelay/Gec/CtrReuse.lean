import GecRelay.Gec.Confirm
import GecRelay.Foundation.Machine
import GecRelay.Foundation.ShiftRegister

/-!
# Keystream reuse in the confidentiality-only mode

`_read_word32_be` shifts once too often. So `_gec_ctr_inc_func` does not count:
it drops the first byte of the counter word and appends `01`, and the read-back
at the end of `gec_encrypt_conf` drops the first byte and appends `00`. The
counter block shows the last four of these operations and nothing else
(`regBlock`), the rollover guard never fires, and a keystream byte comes again
as soon as the last four operations do.
-/

namespace GecRelay

open Foundation

/-! ## The counter word is a shift register -/

def opByte (op : Bool) : UInt8 := if op then 1 else 0

/-- A counter block from the content of the register, latest operation first. -/
def windowBlock (w : List Bool) : Bytes 16 := overwrite (zeros 16) 0 (w.reverse.map opByte)

/-- The counter block after some operations, `true` for an increment and `false`
for the end of a call. -/
def regBlock (ops : List Bool) : Bytes 16 := windowBlock (register false 4 ops)

def windowCtr (w : List Bool) : UInt64 :=
  w.foldr (fun op n => 256 * n + (opByte op).toUInt64) 0

def regCtr (ops : List Bool) : UInt64 := windowCtr (register false 4 ops)

theorem exists_window (ops : List Bool) : ∃ a b c d, register false 4 ops = [a, b, c, d] ∧
    ∀ op, register false 4 (op :: ops) = [op, a, b, c] := by
  obtain ⟨a, b, c, d, h⟩ := List.length_eq_four.mp (length_register false 4 ops)
  refine ⟨a, b, c, d, h, fun op => ?_⟩
  rw [register_cons, ← register_take false (show 3 ≤ 4 by decide), h]
  rfl

theorem gecCtrIncFunc_regBlock (ops : List Bool) :
    gecCtrIncFunc (regBlock ops) = regBlock (true :: ops) := by
  obtain ⟨a, b, c, d, h, hnext⟩ := exists_window ops
  rw [regBlock, regBlock, h, hnext]
  clear h hnext
  revert a b c d
  decide

theorem readBack_regBlock (ops : List Bool) :
    (readWord32Be (slice (regBlock ops) 0 4)).toUInt64 = regCtr (false :: ops) := by
  obtain ⟨a, b, c, d, h, hnext⟩ := exists_window ops
  rw [regBlock, regCtr, h, hnext]
  clear h hnext
  revert a b c d
  decide

theorem ctrBuf_regCtr (ops : List Bool) : ctrBuf (regCtr ops) = regBlock ops := by
  obtain ⟨a, b, c, d, h, -⟩ := exists_window ops
  rw [regBlock, regCtr, h]
  clear h
  revert a b c d
  decide

theorem regCtr_le (ops : List Bool) : (regCtr ops).toNat ≤ 0x01010101 := by
  obtain ⟨a, b, c, d, h, -⟩ := exists_window ops
  rw [regCtr, h]
  clear h
  revert a b c d
  decide

theorem iterate_regBlock (j : ℕ) (ops : List Bool) :
    gecCtrIncFunc^[j] (regBlock ops) = regBlock (List.replicate j true ++ ops) := by
  induction j with
  | zero => rfl
  | succ j ih => rw [Function.iterate_succ_apply', ih, gecCtrIncFunc_regBlock]; rfl

theorem opByte_injective : Function.Injective opByte := by
  intro a b
  revert a b
  decide

theorem regBlock_inj {ops ops' : List Bool} :
    regBlock ops = regBlock ops' ↔ register false 4 ops = register false 4 ops' := by
  have hbytes : ∀ o, (regBlock o).toList.take 4 = (register false 4 o).reverse.map opByte := by
    intro o
    simp [regBlock, windowBlock]
  constructor
  · intro h
    have hlist := hbytes ops
    rw [h, hbytes] at hlist
    exact (List.reverse_injective (List.map_injective_iff.mpr opByte_injective hlist)).symm
  · intro h
    rw [regBlock, regBlock, h]

/-! ## Runs of calls -/

/-- A call of `gec_encrypt_conf`: a text and an output buffer of `len` bytes,
a `size_t`. -/
structure ConfCall where
  len : ℕ
  len_lt : len < 2 ^ 64
  pt : Bytes len
  ct : Bytes len

structure ConfAnswer where
  before : GecSymKeyConf
  call : ConfCall
  ret : GecStatus
  out : Bytes call.len
  after : GecSymKeyConf

def confMachine (P : Primitives) : Machine GecSymKeyConf ConfCall ConfAnswer where
  step k call :=
    let r := gecEncryptConf P k call.pt call.ct
    ({ before := k, call := call, ret := r.1, out := r.2.1, after := r.2.2 }, r.2.2)

/-- The counter blocks and offsets that mask the bytes of a call. -/
def ConfAnswer.pairs (a : ConfAnswer) : List (Bytes 16 × ℕ) :=
  let bPos := a.before.cctx.bPos
  ctrPairs gecCtrIncFunc bPos (ctrBuf a.before.ctr) (maskedLen bPos a.call.len)

/-- What was written is the text masked with the keystream bytes of `pairs`. -/
def ConfAnswer.Masked (P : Primitives) (a : ConfAnswer) : Prop :=
  a.out = overwrite a.call.ct 0
    (xorBytes a.call.pt.toList (a.pairs.map (padByte P a.before.cctx)))

/-- The 32-bit counter does not reach for the blocks of `len` more bytes: the
guard of `gec_encrypt_conf` with `/` for its `%`. -/
def CannotSupply (k : GecSymKeyConf) (len : ℕ) : Prop :=
  2 ^ 32 - 1 ≤ k.ctr.toNat + (len + 16 - 1) / 16

/-- **No keystream byte is used twice**, and a call the counter cannot supply
is refused. -/
def NeverReused (P : Primitives) (rawkey : Bytes 24) (calls : List ConfCall) : Prop :=
  let log := (confMachine P).answers (gecInitSymKeyConf P rawkey) calls
  ((∀ a ∈ log, a.ret = .success) → (log.flatMap ConfAnswer.pairs).Nodup) ∧
  ∀ a ∈ log, CannotSupply a.before a.call.len → a.ret = .counterRollover ∧ a.after = a.before

/-- Where a call starts: the operations so far, the position in the block, and
the length of its text. -/
structure CtrStart where
  ops : List Bool
  bPos : ℕ
  len : ℕ

namespace CtrStart

/-- The end of the stretch a call masks, from position `bPos` on. -/
def stop (s : CtrStart) : ℕ := s.bPos + maskedLen s.bPos s.len

def nextOps (s : CtrStart) : List Bool :=
  false :: (List.replicate (ctrIncs s.bPos s.len) true ++ s.ops)

def pairs (s : CtrStart) : List (Bytes 16 × ℕ) :=
  ctrPairs gecCtrIncFunc s.bPos (regBlock s.ops) (maskedLen s.bPos s.len)

/-- Both calls mask position `x`, counted from the start of the block they
start in, with the last operations being the same. -/
def Collide (s t : CtrStart) : Prop :=
  ∃ x, s.bPos ≤ x ∧ x < s.stop ∧ t.bPos ≤ x ∧ x < t.stop ∧
    register false (4 - x / 16) s.ops = register false (4 - x / 16) t.ops

/-- What holds wherever a call starts. -/
structure Sound (s : CtrStart) : Prop where
  bPos_le : s.bPos ≤ 16
  saved : s.ops.head? ≠ some true

end CtrStart

/-- Where the calls of a run start, from their lengths. -/
def ctrStarts (ops : List Bool) (bPos : ℕ) : List ℕ → List CtrStart
  | [] => []
  | len :: lens =>
      let s : CtrStart := ⟨ops, bPos, len⟩
      s :: ctrStarts s.nextOps (ctrPos bPos len) lens

/-- **The runs without reuse**: no call masks beyond the fifth block, and no
two calls collide. -/
def NoCollision (starts : List CtrStart) : Prop :=
  (∀ s ∈ starts, s.stop ≤ 80) ∧ starts.Pairwise fun s t => ¬s.Collide t

/-! ## One call -/

/-- The key where a call starts. -/
structure ConfAt (s : CtrStart) (k : GecSymKeyConf) : Prop extends s.Sound where
  ctr_eq : k.ctr = regCtr s.ops
  inf_eq : k.cctx.inf = keyedInf.set 2 (UInt8.ofNat s.bPos)

theorem ConfAt.bPos_eq {s : CtrStart} {k : GecSymKeyConf} (h : ConfAt s k) :
    k.cctx.bPos = s.bPos := by
  have := h.bPos_le
  rw [AesEncryptCtx.bPos, h.inf_eq, List.Vector.get_set_same, UInt8.toNat_ofNat']
  omega

theorem ctrPos_le {bPos len : ℕ} (h : bPos ≤ 16) : ctrPos bPos len ≤ 16 := by
  rw [ctrPos]
  by_cases hcross : ctrCrosses bPos len
  · rw [if_pos hcross]
    omega
  · rw [if_neg hcross]
    by_cases hzero : bPos = 0
    · rw [hzero, ctrHead, if_pos rfl]
      omega
    · -- the text ends in the block, so the loop has nothing to do
      have hend : len % 2 ^ 32 = ctrHead bPos len := by
        by_contra hne
        exact hcross ⟨hzero, hne⟩
      have hrest : ctrRest bPos len = 0 := by rw [ctrRest, hend, Nat.sub_self, ite_self]
      rw [hrest, ctrHead, if_neg hzero]
      omega

/-- The guard never fires. -/
theorem guard_regCtr (ops : List Bool) (n : ℕ) :
    ¬uint32Max - UInt64.ofNat ((n + 16 - 1) % 16) ≤ regCtr ops := by
  have hmod : (n + 16 - 1) % 16 < 16 := Nat.mod_lt _ (by decide)
  have hctr := regCtr_le ops
  rw [UInt64.le_iff_toNat_le, UInt64.toNat_sub_of_le]
  · rw [UInt64.toNat_ofNat', Nat.mod_eq_of_lt (by omega),
      show uint32Max.toNat = 2 ^ 32 - 1 from rfl]
    omega
  · rw [UInt64.le_iff_toNat_le, UInt64.toNat_ofNat', Nat.mod_eq_of_lt (by omega),
      show uint32Max.toNat = 2 ^ 32 - 1 from rfl]
    omega

/-- **One call**: it succeeds, masks with the pairs of its start, and leaves
the key where the next call starts. -/
theorem gecEncryptConf_at (P : Primitives) {s : CtrStart} {k : GecSymKeyConf} (h : ConfAt s k)
    (pt ct : Bytes s.len) :
    ∃ k', gecEncryptConf P k pt ct =
        (.success, overwrite ct 0 (xorBytes pt.toList (s.pairs.map (padByte P k.cctx))), k') ∧
      ∀ len, ConfAt ⟨s.nextOps, ctrPos s.bPos s.len, len⟩ k' := by
  have hkey : aesKeyed k.cctx := by
    left
    rw [h.inf_eq, List.Vector.get_set_of_ne (by decide)]
    rfl
  have hmasks := aesCtrCrypt_masks P hkey h.bPos_eq h.bPos_le gecCtrIncFunc pt.toList (ctrBuf k.ctr)
  rw [List.Vector.toList_length] at hmasks
  have hguard := guard_regCtr s.ops s.len
  rw [← h.ctr_eq] at hguard
  rw [gecEncryptConf, if_neg hguard, hmasks, h.ctr_eq, ctrBuf_regCtr]
  refine ⟨_, rfl, fun len => ?_⟩
  -- the read-back is one more operation on the register
  constructor
  · exact ⟨ctrPos_le h.bPos_le, by simp [CtrStart.nextOps]⟩
  · simp only [iterate_regBlock, readBack_regBlock]
    rfl
  · show k.cctx.inf.set 2 _ = keyedInf.set 2 _
    rw [h.inf_eq]
    apply vec_ext
    simp

/-! ## Whole runs -/

/-- What a call used and what it needed. -/
def ConfAnswer.use (a : ConfAnswer) : List (Bytes 16 × ℕ) × UInt64 × ℕ :=
  (a.pairs, a.before.ctr, a.call.len)

def CtrStart.use (s : CtrStart) : List (Bytes 16 × ℕ) × UInt64 × ℕ :=
  (s.pairs, regCtr s.ops, s.len)

/-- **A run**: every call succeeds and masks, where `ctrStarts` says. -/
theorem answers_ctrStarts (P : Primitives) (calls : List ConfCall) {ops : List Bool} {bPos : ℕ}
    {k : GecSymKeyConf} (h : ∀ len, ConfAt ⟨ops, bPos, len⟩ k) :
    let log := (confMachine P).answers k calls
    (∀ a ∈ log, a.ret = .success ∧ a.Masked P) ∧
    log.map ConfAnswer.use = (ctrStarts ops bPos (calls.map ConfCall.len)).map CtrStart.use := by
  induction calls generalizing ops bPos k with
  | nil => exact ⟨by simp, rfl⟩
  | cons call calls ih =>
      have hat := h call.len
      obtain ⟨k', hcall, hnext⟩ := gecEncryptConf_at P hat call.pt call.ct
      obtain ⟨hgood, huse⟩ := ih hnext
      have hpairs : ∀ ret out after,
          ConfAnswer.pairs ⟨k, call, ret, out, after⟩ = CtrStart.pairs ⟨ops, bPos, call.len⟩ := by
        intro ret out after
        simp only [ConfAnswer.pairs, CtrStart.pairs, hat.bPos_eq, hat.ctr_eq, ctrBuf_regCtr]
      have hstep : (confMachine P).step k call = (⟨k, call, .success, overwrite call.ct 0 (xorBytes
          call.pt.toList ((CtrStart.pairs ⟨ops, bPos, call.len⟩).map (padByte P k.cctx))), k'⟩,
          k') := by
        simp only [confMachine, hcall]
      rw [Machine.answers_cons, hstep]
      constructor
      · rw [List.forall_mem_cons]
        refine ⟨⟨rfl, ?_⟩, hgood⟩
        rw [ConfAnswer.Masked, hpairs]
      · rw [List.map_cons, huse, List.map_cons, ctrStarts, List.map_cons, ConfAnswer.use, hpairs,
          CtrStart.use, hat.ctr_eq]

theorem ctrStarts_sound {ops : List Bool} {bPos : ℕ} (hpos : bPos ≤ 16)
    (hops : ops.head? ≠ some true) (lens : List ℕ) : ∀ s ∈ ctrStarts ops bPos lens, s.Sound := by
  induction lens generalizing ops bPos with
  | nil => simp [ctrStarts]
  | cons len lens ih =>
      rw [ctrStarts, List.forall_mem_cons]
      exact ⟨⟨hpos, hops⟩, ih (ctrPos_le hpos) (by simp [CtrStart.nextOps])⟩

/-! ## Reuse -/

theorem CtrStart.mem_pairs {s : CtrStart} {p : Bytes 16 × ℕ} :
    p ∈ s.pairs ↔ ∃ x, s.bPos ≤ x ∧ x < s.stop ∧
      (regBlock (List.replicate (x / 16) true ++ s.ops), x % 16) = p := by
  simp only [pairs, ctrPairs, iterate_regBlock, List.mem_map, List.mem_range, stop]
  constructor
  · rintro ⟨q, hq, rfl⟩
    exact ⟨s.bPos + q, by omega, by omega, rfl⟩
  · rintro ⟨x, hle, hlt, rfl⟩
    exact ⟨x - s.bPos, by omega, by rw [Nat.add_sub_cancel' hle]⟩

/-- Two positions within the first five blocks use the same keystream byte
exactly when they are the same position after the same operations. -/
theorem pair_eq_iff {s t : CtrStart} (hs : s.Sound) (ht : t.Sound) {x y : ℕ} (hx : x < 80)
    (hy : y < 80) :
    (regBlock (List.replicate (x / 16) true ++ s.ops), x % 16) =
        (regBlock (List.replicate (y / 16) true ++ t.ops), y % 16) ↔
      x = y ∧ register false (4 - x / 16) s.ops = register false (4 - x / 16) t.ops := by
  rw [Prod.mk.injEq, regBlock_inj, register_run_eq_iff (by decide) hs.saved ht.saved (by omega)
    (by omega)]
  constructor
  · rintro ⟨⟨hdiv, hreg⟩, hmod⟩
    exact ⟨by omega, hreg⟩
  · rintro ⟨rfl, hreg⟩
    exact ⟨⟨rfl, hreg⟩, rfl⟩

theorem CtrStart.nodup_pairs_iff {s : CtrStart} (hs : s.Sound) : s.pairs.Nodup ↔ s.stop ≤ 80 := by
  have hpos := hs.bPos_le
  rw [pairs, ctrPairs, List.nodup_map_iff_inj_on List.nodup_range]
  simp only [List.mem_range, iterate_regBlock, stop]
  constructor
  · -- the fifth and the sixth block are the same block of four increments
    intro hinj
    by_contra hlong
    have hsame := hinj (64 - s.bPos) (by omega) (80 - s.bPos) (by omega) (by
      rw [Nat.add_sub_cancel' (by omega), Nat.add_sub_cancel' (by omega), Prod.mk.injEq,
        regBlock_inj, register_full (by decide), register_full (by decide)]
      exact ⟨rfl, rfl⟩)
    omega
  · intro hshort q hq q' hq' heq
    have := ((pair_eq_iff hs hs (by omega) (by omega)).mp heq).1
    omega

theorem CtrStart.disjoint_pairs_iff {s t : CtrStart} (hs : s.Sound) (ht : t.Sound)
    (hs80 : s.stop ≤ 80) (ht80 : t.stop ≤ 80) : s.pairs.Disjoint t.pairs ↔ ¬s.Collide t := by
  constructor
  · rintro hdisj ⟨x, hsx, hxs, htx, hxt, hreg⟩
    refine hdisj (mem_pairs.mpr ⟨x, hsx, hxs, rfl⟩) (mem_pairs.mpr ⟨x, htx, hxt, ?_⟩)
    exact ((pair_eq_iff hs ht (by omega) (by omega)).mpr ⟨rfl, hreg⟩).symm
  · intro hno p hps hpt
    obtain ⟨x, hsx, hxs, rfl⟩ := mem_pairs.mp hps
    obtain ⟨y, hty, hyt, heq⟩ := mem_pairs.mp hpt
    obtain ⟨rfl, hreg⟩ := (pair_eq_iff hs ht (by omega) (by omega)).mp heq.symm
    exact hno ⟨x, hsx, hxs, hty, hyt, hreg⟩

/-- **Reuse over a run.** -/
theorem nodup_starts_iff {starts : List CtrStart} (h : ∀ s ∈ starts, s.Sound) :
    (starts.flatMap CtrStart.pairs).Nodup ↔ NoCollision starts := by
  rw [List.nodup_flatMap, NoCollision]
  have hone : (∀ s ∈ starts, s.pairs.Nodup) ↔ ∀ s ∈ starts, s.stop ≤ 80 :=
    forall₂_congr fun s hs => CtrStart.nodup_pairs_iff (h s hs)
  rw [hone, and_congr_right_iff]
  intro hshort
  exact List.Pairwise.iff_of_mem fun {s t} hs ht => CtrStart.disjoint_pairs_iff (h s hs) (h t ht)
    (hshort s hs) (hshort t ht)

/-- The counter word reaches for the blocks of the call. -/
def CtrStart.Supplied (s : CtrStart) : Prop :=
  (regCtr s.ops).toNat + (s.len + 16 - 1) / 16 < 2 ^ 32 - 1

theorem confAt_init (P : Primitives) (rawkey : Bytes 24) (len : ℕ) :
    ConfAt ⟨[], 0, len⟩ (gecInitSymKeyConf P rawkey) where
  bPos_le := Nat.zero_le 16
  saved := by simp
  ctr_eq := by
    show (0 : UInt64) = regCtr []
    decide
  inf_eq := by
    show keyedInf = keyedInf.set 2 0
    decide

/-- The second half: the guard never fires, so no call may need it. -/
theorem refused_iff (P : Primitives) (rawkey : Bytes 24) (calls : List ConfCall) :
    (∀ a ∈ (confMachine P).answers (gecInitSymKeyConf P rawkey) calls,
        CannotSupply a.before a.call.len → a.ret = .counterRollover ∧ a.after = a.before) ↔
      ∀ s ∈ ctrStarts [] 0 (calls.map ConfCall.len), s.Supplied := by
  obtain ⟨hgood, huse⟩ := answers_ctrStarts P calls (confAt_init P rawkey)
  have hnever : (∀ a ∈ (confMachine P).answers (gecInitSymKeyConf P rawkey) calls,
        CannotSupply a.before a.call.len → a.ret = .counterRollover ∧ a.after = a.before) ↔
      ∀ u ∈ ((confMachine P).answers (gecInitSymKeyConf P rawkey) calls).map ConfAnswer.use,
        u.2.1.toNat + (u.2.2 + 16 - 1) / 16 < 2 ^ 32 - 1 := by
    rw [List.forall_mem_map]
    refine forall₂_congr fun a ha => ?_
    constructor
    · intro h
      by_contra hnot
      have hret := (h (not_lt.mp hnot)).1
      rw [(hgood a ha).1] at hret
      cases hret
    · intro h hcannot
      exact absurd h (not_lt.mpr hcannot)
  rw [hnever, huse, List.forall_mem_map]
  rfl

theorem neverReused_iff (P : Primitives) (rawkey : Bytes 24) (calls : List ConfCall) :
    NeverReused P rawkey calls ↔
      NoCollision (ctrStarts [] 0 (calls.map ConfCall.len)) ∧
      ∀ s ∈ ctrStarts [] 0 (calls.map ConfCall.len), s.Supplied := by
  obtain ⟨hgood, huse⟩ := answers_ctrStarts P calls (confAt_init P rawkey)
  have hpairs : ((confMachine P).answers (gecInitSymKeyConf P rawkey) calls).flatMap
      ConfAnswer.pairs = (ctrStarts [] 0 (calls.map ConfCall.len)).flatMap CtrStart.pairs := by
    have h := congrArg (List.flatMap Prod.fst) huse
    rwa [List.flatMap_map, List.flatMap_map] at h
  have hsound := ctrStarts_sound (Nat.zero_le 16) (show ([] : List Bool).head? ≠ some true by simp)
    (calls.map ConfCall.len)
  rw [NeverReused, refused_iff, ← nodup_starts_iff hsound, ← hpairs]
  refine and_congr_left fun _ => ?_
  exact ⟨fun h => h fun a ha => (hgood a ha).1, fun h _ => h⟩

/-- **When the keystream is never reused.** From a fresh key, for every AES and
every list of calls with texts of any length: every call succeeds and masks
its text with the keystream bytes of its pairs. No pair comes twice, and
calls the counter cannot supply are refused, exactly when no call masks beyond
the fifth block from the one it starts in, no two calls collide, and the
counter can supply every call. -/
theorem never_reused_exactly (P : Primitives) (rawkey : Bytes 24) (calls : List ConfCall) :
    (∀ a ∈ (confMachine P).answers (gecInitSymKeyConf P rawkey) calls,
      a.ret = .success ∧ a.Masked P) ∧
    (NeverReused P rawkey calls ↔
      NoCollision (ctrStarts [] 0 (calls.map ConfCall.len)) ∧
      ∀ s ∈ ctrStarts [] 0 (calls.map ConfCall.len), s.Supplied) :=
  ⟨(answers_ctrStarts P calls (confAt_init P rawkey)).1, neverReused_iff P rawkey calls⟩

def sixBlocks : ConfCall where
  len := 96
  len_lt := Nat.le_of_ble_eq_true rfl
  pt := zeros 96
  ct := zeros 96

/-- One text of six blocks masks the last two alike. -/
theorem sixth_block_reused : ¬NeverReused xorPrimitives (zeros 24) [sixBlocks] := by
  intro h
  have hstop := ((neverReused_iff xorPrimitives (zeros 24) [sixBlocks]).mp h).1.1 ⟨[], 0, 96⟩
    List.mem_cons_self
  exact absurd hstop (by decide)

end GecRelay
