import GecRelay.Mavlink.Serialise

/-!
# Reaching a checksum

Two bytes of the checked part of a frame are enough to give it any checksum,
whatever follows them. A byte of input is mixed with the low byte of the
checksum and then spread over both bytes; the high byte of the spread byte
determines it (`highByte_unspread`), so a step can be undone and any two
states are two bytes apart.
-/

namespace GecRelay

open Foundation

def lowByte (x : UInt16) : UInt8 := (x &&& 0xFF).toUInt8

def highByte (x : UInt16) : UInt8 := (x >>> 8).toUInt8

theorem toNat_lowByte (x : UInt16) : (lowByte x).toNat = x.toNat % 256 := by
  rw [lowByte, UInt16.toNat_toUInt8, UInt16.toNat_and]
  show (x.toNat &&& (2 ^ 8 - 1)) % 2 ^ 8 = _
  rw [Nat.and_two_pow_sub_one_eq_mod, Nat.mod_mod]

theorem toNat_shiftRight_eight (x : UInt16) : (x >>> 8).toNat = x.toNat / 256 := by
  rw [UInt16.toNat_shiftRight]
  exact Nat.shiftRight_eq_div_pow _ 8

theorem toNat_highByte (x : UInt16) : (highByte x).toNat = x.toNat / 256 := by
  have h := x.toNat_lt
  rw [highByte, UInt16.toNat_toUInt8, toNat_shiftRight_eight]
  omega

theorem bytes_ext {x y : UInt16} (hl : lowByte x = lowByte y) (hh : highByte x = highByte y) :
    x = y := by
  apply UInt16.toNat_inj.mp
  have hl := congrArg UInt8.toNat hl
  have hh := congrArg UInt8.toNat hh
  rw [toNat_lowByte, toNat_lowByte] at hl
  rw [toNat_highByte, toNat_highByte] at hh
  omega

theorem checksumBytes_inj {x y : UInt16} (h : checksumBytes x = checksumBytes y) : x = y := by
  rw [checksumBytes, checksumBytes, List.cons.injEq, List.cons.injEq] at h
  exact bytes_ext h.1 h.2.1

theorem lowByte_xor (x y : UInt16) : lowByte (x ^^^ y) = lowByte x ^^^ lowByte y := by
  apply UInt8.toNat_inj.mp
  rw [UInt8.toNat_xor, toNat_lowByte, toNat_lowByte, toNat_lowByte, UInt16.toNat_xor]
  exact Nat.xor_mod_two_pow (n := 8)

theorem highByte_xor (x y : UInt16) : highByte (x ^^^ y) = highByte x ^^^ highByte y := by
  apply UInt8.toNat_inj.mp
  have hshift := Nat.shiftRight_xor_distrib (a := x.toNat) (b := y.toNat) (i := 8)
  rw [UInt8.toNat_xor, toNat_highByte, toNat_highByte, toNat_highByte, UInt16.toNat_xor]
  simpa [Nat.shiftRight_eq_div_pow] using hshift

theorem highByte_shiftRight (x : UInt16) : highByte (x >>> 8) = 0 := by
  apply UInt8.toNat_inj.mp
  have h := x.toNat_lt
  rw [toNat_highByte, toNat_shiftRight_eight]
  exact Nat.div_eq_of_lt (show x.toNat / 256 < 256 by omega)

theorem lowByte_shiftRight (x : UInt16) : lowByte (x >>> 8) = highByte x := by
  apply UInt8.toNat_inj.mp
  have h := x.toNat_lt
  rw [toNat_highByte, toNat_lowByte, toNat_shiftRight_eight]
  omega

/-! ## One step -/

/-- The second half of `crc_accumulate`, from the mixed byte. -/
def crcSpread (tmp : UInt8) : UInt16 :=
  let tmp := tmp ^^^ (tmp <<< 4)
  (tmp.toUInt16 <<< 8) ^^^ (tmp.toUInt16 <<< 3) ^^^ (tmp.toUInt16 >>> 4)

theorem crcAccumulate_eq (data : UInt8) (crc : UInt16) :
    crcAccumulate data crc = (crc >>> 8) ^^^ crcSpread (data ^^^ lowByte crc) := by
  simp only [crcAccumulate, crcSpread, lowByte, UInt16.xor_assoc]

theorem lowByte_crcAccumulate (data : UInt8) (crc : UInt16) :
    lowByte (crcAccumulate data crc) =
      highByte crc ^^^ lowByte (crcSpread (data ^^^ lowByte crc)) := by
  rw [crcAccumulate_eq, lowByte_xor, lowByte_shiftRight]

theorem highByte_crcAccumulate (data : UInt8) (crc : UInt16) :
    highByte (crcAccumulate data crc) = highByte (crcSpread (data ^^^ lowByte crc)) := by
  rw [crcAccumulate_eq, highByte_xor, highByte_shiftRight, UInt8.zero_xor]

def unspread (v : UInt8) : UInt8 :=
  let u := v ^^^ (v >>> 5)
  u ^^^ (u <<< 4)

theorem highByte_unspread (v : UInt8) : highByte (crcSpread (unspread v)) = v := by
  have hall : ∀ x : BitVec 8, highByte (crcSpread (unspread ⟨x⟩)) = ⟨x⟩ := by decide
  exact hall v.toBitVec

theorem xor_xor_cancel (x y : UInt8) : (x ^^^ y) ^^^ y = x := by
  rw [UInt8.xor_assoc, UInt8.xor_self, UInt8.xor_zero]

/-- A step that mixes to the right byte from the right high byte. -/
theorem crcAccumulate_of {data : UInt8} {crc target : UInt16}
    (hmix : data ^^^ lowByte crc = unspread (highByte target))
    (hhigh : highByte crc = lowByte target ^^^ lowByte (crcSpread (unspread (highByte target)))) :
    crcAccumulate data crc = target := by
  apply bytes_ext
  · rw [lowByte_crcAccumulate, hmix, hhigh, xor_xor_cancel]
  · rw [highByte_crcAccumulate, hmix, highByte_unspread]

theorem exists_crcAccumulate_eq (data : UInt8) (target : UInt16) :
    ∃ crc, crcAccumulate data crc = target := by
  set low := unspread (highByte target) ^^^ data with hlow
  set high := lowByte target ^^^ lowByte (crcSpread (unspread (highByte target)))
  have hbytes := checksumBytes_or low high
  rw [checksumBytes, List.cons.injEq, List.cons.injEq] at hbytes
  refine ⟨low.toUInt16 ||| high.toUInt16 <<< 8, crcAccumulate_of ?_ hbytes.2.1⟩
  rw [show lowByte _ = low from hbytes.1, hlow, UInt8.xor_comm data, xor_xor_cancel]

theorem exists_two_bytes (crc target : UInt16) :
    ∃ x y, crcAccumulate y (crcAccumulate x crc) = target := by
  set high := lowByte target ^^^ lowByte (crcSpread (unspread (highByte target))) with hhigh
  set x := unspread high ^^^ lowByte crc with hx
  refine ⟨x, unspread (highByte target) ^^^ lowByte (crcAccumulate x crc), crcAccumulate_of ?_ ?_⟩
  · rw [xor_xor_cancel]
  · rw [highByte_crcAccumulate, hx, xor_xor_cancel, highByte_unspread]

/-- **Two bytes are enough**, whatever is checked before and after them. -/
theorem exists_crc_eq (crc target : UInt16) (suffix : List UInt8) :
    ∃ x y, crcAccumulateBuffer crc (x :: y :: suffix) = target := by
  have hback : ∃ mid, crcAccumulateBuffer mid suffix = target := by
    induction suffix with
    | nil => exact ⟨target, rfl⟩
    | cons c suffix ih =>
        obtain ⟨next, hnext⟩ := ih
        obtain ⟨mid, hmid⟩ := exists_crcAccumulate_eq c next
        exact ⟨mid, by rw [← hnext, ← hmid]; rfl⟩
  obtain ⟨mid, hmid⟩ := hback
  obtain ⟨x, y, hxy⟩ := exists_two_bytes crc mid
  exact ⟨x, y, by rw [← hmid, ← hxy]; rfl⟩

end GecRelay
