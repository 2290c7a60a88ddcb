import GecRelay.Mavlink.Parser
import Mathlib.Data.List.DropRight

/-!
# MAVLink frames on the wire

What a frame is, apart from any parser: its header, payload, checksum and
signature as bytes, which bytes the checksum covers, and how a stream of bytes
falls into frames. `delimit` follows a stream with the bytes of the frame that
is arriving; it reads nothing but the start marker, the length and the flags.

A frame can only have the incompatibility flag for a signature: a stream with
any other flag there is given up after its third byte.
-/

namespace GecRelay

open Foundation

/-- The header from the byte after the length on. -/
inductive FrameHead
  | v1 (seq sysid compid msgid : UInt8)
  | v2 (signed : Bool) (compatFlags seq sysid compid msgid0 msgid1 msgid2 : UInt8)
deriving DecidableEq

namespace FrameHead

def magic : FrameHead → UInt8
  | v1 .. => mavlinkStxMavlink1
  | v2 .. => mavlinkStx

def signed : FrameHead → Bool
  | v1 .. => false
  | v2 signed .. => signed

def incompatFlags : FrameHead → UInt8
  | v1 .. => 0
  | v2 signed .. => if signed then mavlinkIflagSigned else 0

def compatFlags : FrameHead → UInt8
  | v1 .. => 0
  | v2 _ compatFlags .. => compatFlags

def seq : FrameHead → UInt8
  | v1 seq .. => seq
  | v2 _ _ seq .. => seq

def sysid : FrameHead → UInt8
  | v1 _ sysid .. => sysid
  | v2 _ _ _ sysid .. => sysid

def compid : FrameHead → UInt8
  | v1 _ _ compid _ => compid
  | v2 _ _ _ _ compid .. => compid

def msgid : FrameHead → BitVec 24
  | v1 _ _ _ msgid => msgid.toBitVec.setWidth 24
  | v2 _ _ _ _ _ msgid0 msgid1 msgid2 =>
      msgid0.toBitVec.setWidth 24 ||| (msgid1.toBitVec.setWidth 24 <<< 8) |||
        (msgid2.toBitVec.setWidth 24 <<< 16)

def fields : FrameHead → List UInt8
  | v1 seq sysid compid msgid => [seq, sysid, compid, msgid]
  | v2 signed compatFlags seq sysid compid msgid0 msgid1 msgid2 =>
      [if signed then mavlinkIflagSigned else 0, compatFlags, seq, sysid, compid,
        msgid0, msgid1, msgid2]

theorem signed_iff (head : FrameHead) :
    head.signed = true ↔ head.incompatFlags &&& mavlinkIflagSigned ≠ 0 := by
  cases head with
  | v1 => simp [signed, incompatFlags]
  | v2 s => cases s <;> simp [signed, incompatFlags, mavlinkIflagSigned]

end FrameHead

/-- A frame. The signature is on the wire only if the header says so. -/
structure MavFrame where
  head : FrameHead
  payload : List UInt8
  ck : Bytes 2
  signature : Bytes 13
  payload_le : payload.length ≤ 255
deriving DecidableEq

namespace MavFrame

def len (f : MavFrame) : UInt8 := UInt8.ofNat f.payload.length

/-- What the checksum covers, besides the extra byte of the message table. -/
def checked (f : MavFrame) : List UInt8 := f.len :: (f.head.fields ++ f.payload)

def upToChecksum (f : MavFrame) : List UInt8 := f.head.magic :: (f.checked ++ f.ck.toList)

def trailer (f : MavFrame) : List UInt8 := if f.head.signed then f.signature.toList else []

def bytes (f : MavFrame) : List UInt8 := f.upToChecksum ++ f.trailer

def crc (table : MavlinkMsgTable) (f : MavFrame) : UInt16 :=
  crcAccumulateBuffer crcInit (f.checked ++ [crcExtra table f.head.msgid])

def ChecksumOk (table : MavlinkMsgTable) (f : MavFrame) : Prop :=
  f.ck.toList = checksumBytes (f.crc table)

instance (table : MavlinkMsgTable) (f : MavFrame) : Decidable (f.ChecksumOk table) :=
  inferInstanceAs (Decidable (_ = _))

theorem len_toNat (f : MavFrame) : f.len.toNat = f.payload.length := by
  rw [len, UInt8.toNat_ofNat']
  exact Nat.mod_eq_of_lt (Nat.lt_succ_of_le f.payload_le)

end MavFrame

/-- Drop trailing zeros, but keep the first byte. -/
def trimZeros : List UInt8 → List UInt8
  | [] => []
  | x :: xs => x :: xs.rdropWhile (· == 0)

theorem length_trimZeros_le (xs : List UInt8) : (trimZeros xs).length ≤ xs.length := by
  cases xs with
  | nil => exact Nat.le_refl 0
  | cons x xs => exact Nat.succ_le_succ (List.rdropWhile_prefix _ xs).length_le

/-- A payload that has nothing to trim. -/
def Trimmed (payload : List UInt8) : Prop :=
  payload.length ≤ 1 ∨ payload.getLast? ≠ some 0

theorem trimZeros_of_trimmed {xs : List UInt8} (h : Trimmed xs) : trimZeros xs = xs := by
  cases xs with
  | nil => rfl
  | cons x xs =>
      rcases List.eq_nil_or_concat xs with rfl | ⟨ys, y, rfl⟩
      · rfl
      · have hy : y ≠ 0 := by
          rcases h with h | h
          · simp at h
          · rintro rfl
            apply h
            rw [List.concat_eq_append, ← List.cons_append, List.getLast?_concat]
        rw [trimZeros, List.concat_eq_append, List.rdropWhile_concat_neg _ _ _ (by simpa using hy)]

namespace MavFrame

/-- The frame with the payload trimmed, as version 2 sends it. -/
def trimmed (f : MavFrame) : MavFrame :=
  match f.head with
  | .v1 .. => f
  | .v2 .. => { f with
      payload := trimZeros f.payload
      payload_le := (length_trimZeros_le _).trans f.payload_le }

def ckOf (checksum : UInt16) : Bytes 2 := ⟨checksumBytes checksum, rfl⟩

@[simp] theorem toList_ckOf (checksum : UInt16) :
    (ckOf checksum).toList = checksumBytes checksum := rfl

/-- **What the relay makes of a frame.** The payload is trimmed; the checksum
is the one that arrived, or for a signed frame the one the parser computed. -/
def forward (table : MavlinkMsgTable) (f : MavFrame) : MavFrame :=
  if f.head.signed then { f.trimmed with ck := ckOf (f.crc table) } else f.trimmed

end MavFrame

/-- The frame of a message that is not in the table, with the right checksum. -/
def MavFrame.ofUnknown (head : FrameHead) (payload : List UInt8) (h : payload.length ≤ 255) :
    MavFrame :=
  let f : MavFrame :=
    { head := head, payload := payload, ck := zeros 2, signature := zeros 13, payload_le := h }
  { f with ck := ckOf (f.crc fun _ => none) }

theorem MavFrame.empty_payload_le : ([] : List UInt8).length ≤ 255 := Nat.zero_le 255

def heartbeat (seq : UInt8) : MavFrame := .ofUnknown (.v1 seq 1 1 0) [] MavFrame.empty_payload_le

/-! ## Delimiting a stream -/

def byteAt (b : List UInt8) (i : ℕ) : UInt8 := b.getD i 0

def IsStart (c : UInt8) : Prop := c = mavlinkStx ∨ c = mavlinkStxMavlink1

instance (c : UInt8) : Decidable (IsStart c) := inferInstanceAs (Decidable (_ ∨ _))

/-- The length of the frame that starts with `b`, once `b` holds the length
and the flags. -/
def frameLen (b : List UInt8) : ℕ :=
  if byteAt b 0 = mavlinkStxMavlink1 then 8 + (byteAt b 1).toNat
  else 12 + (byteAt b 1).toNat + if byteAt b 2 &&& mavlinkIflagSigned ≠ 0 then 13 else 0

/-- A version 2 header with a flag that is not known. -/
def Refused (b : List UInt8) : Prop :=
  b.length = 3 ∧ byteAt b 0 = mavlinkStx ∧ byteAt b 2 &&& ~~~mavlinkIflagMask ≠ 0

instance (b : List UInt8) : Decidable (Refused b) := inferInstanceAs (Decidable (_ ∧ _ ∧ _))

/-- The stream has reached the end of what started with `b`. -/
def Done (b : List UInt8) : Prop := b.length = frameLen b ∨ Refused b

instance (b : List UInt8) : Decidable (Done b) := inferInstanceAs (Decidable (_ ∨ _))

/-- The bytes of the frame that is arriving, after one more byte. A frame that
is complete stays until then. -/
def delimit (b : List UInt8) (c : UInt8) : List UInt8 :=
  if b = [] ∨ Done b then (if IsStart c then [c] else []) else b ++ [c]

def arriving (stream : List UInt8) : List UInt8 := stream.foldl delimit []

@[simp] theorem arriving_snoc (stream : List UInt8) (c : UInt8) :
    arriving (stream ++ [c]) = delimit (arriving stream) c := by
  rw [arriving, List.foldl_append]
  rfl

theorem delimit_start {b : List UInt8} (h : b = [] ∨ Done b) (c : UInt8) :
    delimit b c = if IsStart c then [c] else [] := if_pos h

theorem delimit_grow {b : List UInt8} (h : ¬(b = [] ∨ Done b)) (c : UInt8) :
    delimit b c = b ++ [c] := if_neg h

/-! ## Frames as byte strings -/

theorem byteAt_append {b : List UInt8} {i : ℕ} (h : i < b.length) (r : List UInt8) :
    byteAt (b ++ r) i = byteAt b i := by
  rw [byteAt, byteAt, List.getD_eq_getElem?_getD, List.getElem?_append_left h,
    List.getD_eq_getElem?_getD]

theorem frameLen_append {b : List UInt8} (h : 3 ≤ b.length) (r : List UInt8) :
    frameLen (b ++ r) = frameLen b := by
  rw [frameLen, frameLen, byteAt_append (by omega), byteAt_append (by omega),
    byteAt_append (by omega)]

theorem eight_le_frameLen (b : List UInt8) : 8 ≤ frameLen b := by
  rw [frameLen]
  split <;> omega

theorem knownFlags (x : BitVec 8) : x &&& ~~~1#8 = 0#8 → x = 0#8 ∨ x = 1#8 := by
  revert x
  decide

theorem incompatFlags_known {x : UInt8} (h : x &&& ~~~mavlinkIflagMask = 0) :
    x = 0 ∨ x = mavlinkIflagSigned := by
  have hbits := knownFlags x.toBitVec (by simpa [← UInt8.toBitVec_inj, mavlinkIflagMask] using h)
  simpa [← UInt8.toBitVec_inj, mavlinkIflagSigned] using hbits

namespace MavFrame

theorem length_upToChecksum (f : MavFrame) :
    f.upToChecksum.length = f.head.fields.length + f.payload.length + 4 := by
  simp [upToChecksum, checked]
  omega

theorem eight_le_length_upToChecksum (f : MavFrame) : 8 ≤ f.upToChecksum.length := by
  rw [length_upToChecksum]
  cases f.head <;> simp only [FrameHead.fields, List.length_cons, List.length_nil] <;> omega

theorem length_bytes (f : MavFrame) :
    f.bytes.length = f.head.fields.length + f.payload.length + 4 +
      if f.head.signed then 13 else 0 := by
  rw [bytes, List.length_append, length_upToChecksum, trailer]
  split <;> simp

theorem bytes_eq_cons (f : MavFrame) :
    f.bytes = f.head.magic :: f.len ::
      (f.head.fields ++ (f.payload ++ (f.ck.toList ++ f.trailer))) := by
  simp [bytes, upToChecksum, checked]

theorem exists_bytes_snoc (f : MavFrame) : ∃ before c, f.bytes = before ++ [c] := by
  rcases List.eq_nil_or_concat f.bytes with h | h
  · rw [bytes_eq_cons] at h
    cases h
  · simpa using h

theorem frameLen_bytes (f : MavFrame) : frameLen f.bytes = f.bytes.length := by
  rw [length_bytes, bytes_eq_cons, frameLen]
  rcases hf : f.head with _ | ⟨signed⟩
  · simp [byteAt, FrameHead.magic, FrameHead.fields, FrameHead.signed, len_toNat]
    omega
  · cases signed <;>
      simp [byteAt, FrameHead.magic, FrameHead.fields, FrameHead.signed, len_toNat, mavlinkStx,
        mavlinkStxMavlink1, mavlinkIflagSigned] <;> omega

theorem isStart_magic (head : FrameHead) : IsStart head.magic := by
  cases head with
  | v1 => exact Or.inr rfl
  | v2 => exact Or.inl rfl

theorem flags_known (f : MavFrame) (h : byteAt f.bytes 0 = mavlinkStx) :
    byteAt f.bytes 2 &&& ~~~mavlinkIflagMask = 0 := by
  rw [bytes_eq_cons] at h ⊢
  rcases hf : f.head with _ | ⟨signed⟩
  · simp [hf, byteAt, FrameHead.magic, mavlinkStx, mavlinkStxMavlink1] at h
  · cases signed <;> simp [byteAt, FrameHead.fields, mavlinkIflagMask, mavlinkIflagSigned]

theorem not_refused {f : MavFrame} {b rest : List UInt8} (h : f.bytes = b ++ rest) :
    ¬Refused b := by
  rintro ⟨hlen, hmagic, hflags⟩
  rw [← byteAt_append (r := rest) (by omega), ← h] at hmagic hflags
  exact hflags (f.flags_known hmagic)

/-- A prefix of a frame is done only when it is the whole frame. -/
theorem done_iff {f : MavFrame} {b rest : List UInt8} (h : f.bytes = b ++ rest) :
    Done b ↔ rest = [] := by
  have hlen := congrArg List.length h
  rw [← frameLen_bytes, List.length_append] at hlen
  constructor
  · rintro (hb | hb)
    · have := eight_le_frameLen b
      rw [h, frameLen_append (by omega)] at hlen
      exact List.eq_nil_of_length_eq_zero (by omega)
    · exact absurd hb (not_refused h)
  · rintro rfl
    rw [List.append_nil] at h
    exact Or.inl (by rw [← h, frameLen_bytes])

theorem bytes_inj_of_append {f g : MavFrame} {r r' : List UInt8}
    (h : f.upToChecksum ++ r = g.upToChecksum ++ r') :
    f.head = g.head ∧ f.payload = g.payload ∧ f.ck = g.ck ∧ r = r' := by
  have hlen : f.len = g.len → f.payload.length = g.payload.length := by
    intro he
    rw [← len_toNat, ← len_toNat, he]
  rcases hf : f.head with _ | ⟨sf⟩ <;> rcases hg : g.head with _ | ⟨sg⟩
  · simp only [upToChecksum, checked, hf, hg, FrameHead.magic, FrameHead.fields, List.cons_append,
      List.nil_append, List.cons.injEq, true_and, List.append_assoc] at h
    obtain ⟨hl, rfl, rfl, rfl, rfl, hrest⟩ := h
    obtain ⟨hp, hrest⟩ := List.append_inj hrest (hlen hl)
    obtain ⟨hck, hr⟩ := List.append_inj hrest (by simp)
    exact ⟨rfl, hp, vec_ext hck, hr⟩
  · simp [upToChecksum, hf, hg, FrameHead.magic, mavlinkStx, mavlinkStxMavlink1] at h
  · simp [upToChecksum, hf, hg, FrameHead.magic, mavlinkStx, mavlinkStxMavlink1] at h
  · simp only [upToChecksum, checked, hf, hg, FrameHead.magic, FrameHead.fields, List.cons_append,
      List.nil_append, List.cons.injEq, true_and, List.append_assoc] at h
    obtain ⟨hl, hs, rfl, rfl, rfl, rfl, rfl, rfl, rfl, hrest⟩ := h
    obtain ⟨hp, hrest⟩ := List.append_inj hrest (hlen hl)
    obtain ⟨hck, hr⟩ := List.append_inj hrest (by simp)
    have hsigned : sf = sg := by
      revert hs
      cases sf <;> cases sg <;> decide
    exact ⟨by rw [hsigned], hp, vec_ext hck, hr⟩

theorem checksumOk_congr {f g : MavFrame} {r r' : List UInt8} (table : MavlinkMsgTable)
    (h : f.upToChecksum ++ r = g.upToChecksum ++ r') :
    f.ChecksumOk table ↔ g.ChecksumOk table := by
  obtain ⟨hhead, hpayload, hck, -⟩ := bytes_inj_of_append h
  rw [ChecksumOk, ChecksumOk, crc, crc, checked, checked, len, len, hhead, hpayload, hck]

theorem exists_bytes_eq (head : FrameHead) (len : UInt8) {rest : List UInt8}
    (h : len.toNat + 2 + (if head.signed then 13 else 0) ≤ rest.length) :
    ∃ f : MavFrame, f.bytes = head.magic :: len ::
      (head.fields ++ rest.take (len.toNat + 2 + if head.signed then 13 else 0)) := by
  have hbound := len.toNat_lt
  have hpay : (rest.take len.toNat).length = len.toNat := by
    rw [List.length_take]
    omega
  obtain ⟨ck, hck⟩ : ∃ ck : Bytes 2, ck.toList = (rest.drop len.toNat).take 2 :=
    ⟨⟨(rest.drop len.toNat).take 2, by simp; omega⟩, rfl⟩
  obtain ⟨signature, hsig⟩ : ∃ signature : Bytes 13,
      (if head.signed then signature.toList else []) =
        (rest.drop (len.toNat + 2)).take (if head.signed then 13 else 0) := by
    split at h
    · next hs =>
        refine ⟨⟨(rest.drop (len.toNat + 2)).take 13, by simp; omega⟩, ?_⟩
        rw [if_pos hs, if_pos hs]
        rfl
    · next hs => exact ⟨zeros 13, by simp [hs]⟩
  refine ⟨⟨head, rest.take len.toNat, ck, signature, by omega⟩, ?_⟩
  rw [bytes_eq_cons, MavFrame.len, List.take_add, List.take_add, ← hck, ← hsig]
  simp only [hpay, UInt8.ofNat_toNat, trailer, List.append_assoc]

/-- A long enough string with a start marker and known flags starts with a
frame. -/
theorem exists_bytes_eq_take {l : List UInt8} (hstart : IsStart (byteAt l 0))
    (hflags : byteAt l 0 = mavlinkStx → byteAt l 2 &&& ~~~mavlinkIflagMask = 0)
    (hlen : frameLen l ≤ l.length) : ∃ f : MavFrame, f.bytes = l.take (frameLen l) := by
  have height := eight_le_frameLen l
  rcases hstart with hm | hm
  · have hv2 : 12 ≤ l.length := by
      rw [frameLen, hm, if_neg (by decide)] at hlen
      omega
    match l, hv2 with
    | m :: len :: x :: cf :: seq :: sysid :: compid :: m0 :: m1 :: m2 :: rest, _ =>
        have hhead : ∃ signed : Bool, x = if signed then mavlinkIflagSigned else 0 := by
          rcases incompatFlags_known (hflags hm) with rfl | rfl
          · exact ⟨false, rfl⟩
          · exact ⟨true, rfl⟩
        obtain ⟨signed, rfl⟩ := hhead
        have hframe : frameLen (m :: len :: (if signed then mavlinkIflagSigned else 0) :: cf ::
            seq :: sysid :: compid :: m0 :: m1 :: m2 :: rest) =
            10 + (len.toNat + 2 + if signed then 13 else 0) := by
          rw [frameLen, hm, if_neg (by decide)]
          cases signed <;> simp [byteAt, mavlinkIflagSigned] <;> omega
        rw [hframe] at hlen ⊢
        have hroom : len.toNat + 2 + (if signed then 13 else 0) ≤ rest.length := by
          simp only [List.length_cons] at hlen
          omega
        obtain ⟨f, hf⟩ := exists_bytes_eq (.v2 signed cf seq sysid compid m0 m1 m2) len hroom
        refine ⟨f, hf.trans ?_⟩
        rw [Nat.add_comm 10, show m = mavlinkStx from hm]
        simp only [List.take_succ_cons]
        rfl
  · -- version 1 has no flags and no signature
    match l, height.trans hlen with
    | m :: len :: seq :: sysid :: compid :: msgid :: rest, _ =>
        have hframe : frameLen (m :: len :: seq :: sysid :: compid :: msgid :: rest) =
            6 + (len.toNat + 2) := by
          rw [frameLen, if_pos hm]
          simp [byteAt]
          omega
        rw [hframe] at hlen ⊢
        have hroom : len.toNat + 2 ≤ rest.length := by
          simp only [List.length_cons] at hlen
          omega
        obtain ⟨f, hf⟩ := exists_bytes_eq (.v1 seq sysid compid msgid) len hroom
        refine ⟨f, hf.trans ?_⟩
        rw [Nat.add_comm 6, show m = mavlinkStxMavlink1 from hm]
        simp only [List.take_succ_cons]
        rfl

end MavFrame

/-! ## What can be arriving -/

/-- `b` is the start of a frame. -/
def StartsFrame (b : List UInt8) : Prop :=
  b ≠ [] ∧ ∃ (f : MavFrame) (rest : List UInt8), f.bytes = b ++ rest

/-- The bytes past the end of `b` read as zero. -/
theorem byteAt_append_zeros (b : List UInt8) (n i : ℕ) :
    byteAt (b ++ List.replicate n 0) i = byteAt b i := by
  rw [byteAt, byteAt, List.getD_eq_getElem?_getD, List.getD_eq_getElem?_getD, List.getElem?_append]
  split
  · rfl
  · next h =>
      rw [List.getElem?_eq_none (Nat.le_of_not_lt h), List.getElem?_replicate]
      split <;> rfl

theorem frameLen_le (b : List UInt8) : frameLen b ≤ mavlinkMaxFrameLen := by
  have hlen := (byteAt b 1).toNat_lt
  rw [frameLen, mavlinkMaxFrameLen]
  split
  · omega
  · split <;> omega

theorem startsFrame_of_flags {b : List UInt8} (hb : b ≠ []) (hstart : IsStart (byteAt b 0))
    (hflags : byteAt b 0 = mavlinkStx → byteAt b 2 &&& ~~~mavlinkIflagMask = 0)
    (hlen : b.length ≤ frameLen b) : StartsFrame b := by
  refine ⟨hb, ?_⟩
  have hpad : frameLen (b ++ List.replicate mavlinkMaxFrameLen 0) = frameLen b := by
    rw [frameLen, frameLen, byteAt_append_zeros, byteAt_append_zeros, byteAt_append_zeros]
  have hmax := frameLen_le b
  obtain ⟨f, hf⟩ := MavFrame.exists_bytes_eq_take (l := b ++ List.replicate mavlinkMaxFrameLen 0)
    (by rwa [byteAt_append_zeros]) (by rwa [byteAt_append_zeros, byteAt_append_zeros])
    (by rw [hpad, List.length_append, List.length_replicate]; omega)
  rw [hpad, List.take_append, List.take_of_length_le hlen] at hf
  exact ⟨f, _, hf⟩

theorem startsFrame_singleton {c : UInt8} (h : IsStart c) : StartsFrame [c] :=
  startsFrame_of_flags (List.cons_ne_nil c []) h (fun _ => by simp [byteAt])
    ((by decide : 1 ≤ 8).trans (eight_le_frameLen _))

/-- One more byte of a frame that is not complete. -/
theorem startsFrame_snoc {b : List UInt8} (hb : StartsFrame b) (hdone : ¬Done b) (c : UInt8) :
    StartsFrame (b ++ [c]) ∨ Refused (b ++ [c]) := by
  obtain ⟨hne, f, rest, hf⟩ := hb
  have hpos : 0 < b.length := List.length_pos_iff.mpr hne
  have hmagic : byteAt b 0 = f.head.magic := by
    rw [← byteAt_append hpos rest, ← hf, MavFrame.bytes_eq_cons]
    rfl
  by_cases hrefused : Refused (b ++ [c])
  · exact Or.inr hrefused
  left
  apply startsFrame_of_flags (by simp)
  · rw [byteAt_append hpos, hmagic]
    exact MavFrame.isStart_magic f.head
  · intro hstx
    by_contra hflags
    -- the flags are the third byte: to come, this one, or one of `b`
    rcases Nat.lt_trichotomy b.length 2 with h2 | h2 | h2
    · apply hflags
      rw [byteAt, List.getD_eq_getElem?_getD, List.getElem?_eq_none (by simp; omega)]
      decide
    · exact hrefused ⟨by simp [h2], hstx, hflags⟩
    · rw [byteAt_append hpos, ← byteAt_append hpos rest, ← hf] at hstx
      rw [byteAt_append h2, ← byteAt_append h2 rest, ← hf] at hflags
      exact hflags (f.flags_known hstx)
  · rw [List.length_append, List.length_singleton]
    rcases Nat.lt_or_ge b.length 3 with h3 | h3
    · have := eight_le_frameLen (b ++ [c])
      omega
    · have hlen := congrArg List.length hf
      rw [← MavFrame.frameLen_bytes, hf, frameLen_append h3, List.length_append] at hlen
      have hrest : rest ≠ [] := fun h => hdone ((MavFrame.done_iff hf).mpr h)
      have := List.length_pos_iff.mpr hrest
      rw [frameLen_append h3]
      omega

end GecRelay
