import GecRelay.Foundation.Stuffing
import GecRelay.Gec.Primitives
import Mathlib.Data.List.GetD

/-!
# The hxstream link of comm-smaccm

`frame_datalink_encode_monitor` writes a ciphertext of 96 bytes between two
bytes `126`, behind the tag `0` and with `126` and `124` escaped.
`frame_datalink_decode_monitor` reads a line byte by byte with the state machine
`decodeSM`, collects up to 195 bytes of a frame in `buf` and pushes the first 96
of them when the frame ends.

The decoder keeps no more than the bytes since the last `126` (`Follows`), so it
pushes exactly the frames of the line that are well formed (`decoder_exact`),
and what the encoder wrote for a ciphertext gets it through, whatever noise is
on the line before and after it (`frames_get_through`).
-/

namespace GecRelay

open Foundation

/-! ## Decoding -/

structure HxstreamState where
  offset : Int32
  fstate : UInt8
  ftag : UInt8
  tagSeen : Bool

/-- `decodeSM`: the byte returned and the state. -/
def decodeSM (s : HxstreamState) (c : UInt8) : UInt8 × HxstreamState :=
  if c = 126 then (0, { s with offset := 0, tagSeen := false, fstate := 1 })
  else if s.fstate = 1 then (0, { s with ftag := c, tagSeen := true, fstate := 2 })
  else if s.fstate = 2 then
    if c = 124 then (0, { s with fstate := 3 }) else (c, { s with offset := s.offset + 1 })
  else if s.fstate = 3 then (c ^^^ 32, { s with fstate := 2, offset := s.offset + 1 })
  else (0, s)

structure HxDecoder where
  hxDecoder : HxstreamState
  buf : Bytes 195
  overrun : Bool

/-- The statics as the program starts. -/
def HxDecoder.init : HxDecoder where
  hxDecoder := { offset := 0, fstate := 2, ftag := 0, tagSeen := false }
  buf := zeros 195
  overrun := false

/-- `buf[n_deref2 % 195] = n_r4` or the overrun. -/
def HxDecoder.collect (d : HxDecoder) (offset : Int32) (r : UInt8) : HxDecoder :=
  if offset < 195 then { d with buf := overwrite d.buf (offset % 195).toNatClampNeg [r] }
  else { d with overrun := true }

/-- `callback_decoder_serial_in`: what is given to `callback_push`, if
anything, and the state. -/
def callbackDecoderSerialIn (d : HxDecoder) (c : UInt8) : Option (Bytes 96) × HxDecoder :=
  let old := d.hxDecoder
  let (r, hx) := decodeSM old c
  let d := { d with hxDecoder := hx }
  if old.fstate = 2 ∧ hx.fstate = 1 ∧ old.tagSeen then
    (if hx.ftag = 0 ∧ !d.overrun then some (slice d.buf 0 96) else none, d)
  else if old.fstate = 1 then
    (none, if hx.ftag = 0 then { d with overrun := false, buf := zeros 195 } else d)
  else if old.fstate = 2 ∨ old.fstate = 3 then
    (none, if hx.ftag = 0 then d.collect old.offset r else d)
  else (none, d)

def hxDecoderMachine : Machine HxDecoder UInt8 (Option (Bytes 96)) where
  step := callbackDecoderSerialIn

/-! ## Well-formed frames -/

def hxFlip (c : UInt8) : UInt8 := c ^^^ 32

/-- The text of a frame, and whether it ends inside an escape. -/
def hxUnstuff (cs : List UInt8) : List UInt8 × Bool := unstuff 124 hxFlip cs

/-- **The frames that are pushed**: tag `0`, no escape left open, at most 195
bytes. The first 96 of them count, and zeros stand for missing ones. -/
def acceptFrame : List UInt8 → Option (Bytes 96)
  | [] => none
  | tag :: cs =>
      let u := hxUnstuff cs
      if tag = 0 ∧ !u.2 ∧ u.1.length ≤ 195 then some (overwrite (zeros 96) 0 u.1) else none

/-- What the line says: the frames between delimiters. -/
def hxLine : Machine (Segment UInt8) UInt8 (Option (Bytes 96)) := segmentMachine 126 acceptFrame

/-! ## The decoder follows the line -/

/-- Behind the tag: the state and the offset after `cs`. -/
structure InText (hx : HxstreamState) (cs : List UInt8) : Prop where
  fstate : hx.fstate = if (hxUnstuff cs).2 then 3 else 2
  offset : hx.offset = Int32.ofNat (hxUnstuff cs).1.length

/-- `buf` and `overrun` after `cs`. An escape at the end of the buffer is an
overrun already. -/
structure Collected (d : HxDecoder) (cs : List UInt8) : Prop where
  buf : d.buf.toList = ((hxUnstuff cs).1 ++ List.replicate 195 0).take 195
  overrun : d.overrun = decide (195 < (hxUnstuff cs).1.length + (hxUnstuff cs).2.toNat)

/-- **The decoder and the bytes since the last delimiter.** -/
def Follows (d : HxDecoder) (s : Segment UInt8) : Prop :=
  match s.opened, s.body with
  | false, cs => InText d.hxDecoder cs ∧ d.hxDecoder.tagSeen = false
  | true, [] =>
      d.hxDecoder.fstate = 1 ∧ d.hxDecoder.offset = 0 ∧ d.hxDecoder.tagSeen = false
  | true, tag :: cs =>
      InText d.hxDecoder cs ∧ d.hxDecoder.tagSeen = true ∧ d.hxDecoder.ftag = tag ∧
        (tag = 0 → Collected d cs)

theorem ofNat_add_one (n : ℕ) : Int32.ofNat n + 1 = Int32.ofNat (n + 1) :=
  (Int32.ofNat_add n 1).symm

theorem ofNat_lt_195 {n : ℕ} (hn : n < 2 ^ 31) : Int32.ofNat n < 195 ↔ n < 195 := by
  rw [Int32.lt_iff_toInt_lt, Int32.toInt_ofNat_of_lt hn]
  show (n : ℤ) < 195 ↔ n < 195
  omega

theorem index_of_lt {n : ℕ} (hn : n < 195) : (Int32.ofNat n % 195).toNatClampNeg = n := by
  have hint : (Int32.ofNat n % 195).toInt = n := by
    rw [Int32.toInt_mod, Int32.toInt_ofNat_of_lt (by omega)]
    have hlt : (n : ℤ) < 195 := by omega
    exact Int.tmod_eq_of_lt (Int.natCast_nonneg n) hlt
  show (Int32.ofNat n % 195).toInt.toNat = n
  rw [hint, Int.toNat_natCast]

/-- What a byte behind the tag does: it belongs to the text, or it opens an
escape. -/
inductive TextByte (cs : List UInt8) (c r : UInt8) : Prop
  | data (h : hxUnstuff (cs ++ [c]) = ((hxUnstuff cs).1 ++ [r], false))
  | escape (h : hxUnstuff (cs ++ [c]) = ((hxUnstuff cs).1, true)) (hr : r = 0)
      (hopen : (hxUnstuff cs).2 = false)

theorem InText.step {hx : HxstreamState} {cs : List UInt8} (h : InText hx cs) {c : UInt8}
    (hc : c ≠ 126) :
    InText (decodeSM hx c).2 (cs ++ [c]) ∧ TextByte cs c (decodeSM hx c).1 ∧
      (decodeSM hx c).2.ftag = hx.ftag ∧ (decodeSM hx c).2.tagSeen = hx.tagSeen := by
  have hsnoc : hxUnstuff (cs ++ [c]) = unstuffStep 124 hxFlip (hxUnstuff cs) c :=
    unstuff_snoc cs c
  have hfstate := h.fstate
  have hoffset := h.offset
  cases hopen : (hxUnstuff cs).2 with
  | true =>
      have hnext : hxUnstuff (cs ++ [c]) = ((hxUnstuff cs).1 ++ [hxFlip c], false) := by
        rw [hsnoc, unstuffStep, if_pos hopen]
      rw [hopen, if_pos rfl] at hfstate
      have hstep : decodeSM hx c = (hxFlip c, { hx with fstate := 2, offset := hx.offset + 1 }) := by
        rw [decodeSM, if_neg hc, hfstate]
        rfl
      rw [hstep]
      refine ⟨⟨?_, ?_⟩, .data hnext, rfl, rfl⟩
      · rw [hnext]
        rfl
      · show hx.offset + 1 = _
        rw [hnext, hoffset, ofNat_add_one, List.length_append]
        rfl
  | false =>
      rw [hopen] at hfstate
      by_cases hesc : c = 124
      · have hnext : hxUnstuff (cs ++ [c]) = ((hxUnstuff cs).1, true) := by
          rw [hsnoc, unstuffStep, hopen, if_neg Bool.false_ne_true, if_pos hesc]
        have hstep : decodeSM hx c = (0, { hx with fstate := 3 }) := by
          rw [decodeSM, if_neg hc, hfstate, if_neg (by decide), if_pos (by decide), if_pos hesc]
        rw [hstep]
        refine ⟨⟨?_, ?_⟩, .escape hnext rfl hopen, rfl, rfl⟩
        · rw [hnext]
          rfl
        · rw [hnext]
          exact hoffset
      · have hnext : hxUnstuff (cs ++ [c]) = ((hxUnstuff cs).1 ++ [c], false) := by
          rw [hsnoc, unstuffStep, hopen, if_neg Bool.false_ne_true, if_neg hesc]
        have hstep : decodeSM hx c = (c, { hx with offset := hx.offset + 1 }) := by
          rw [decodeSM, if_neg hc, hfstate, if_neg (by decide), if_pos (by decide), if_neg hesc]
        rw [hstep]
        refine ⟨⟨?_, ?_⟩, .data hnext, rfl, rfl⟩
        · show hx.fstate = _
          rw [hnext, hfstate]
        · show hx.offset + 1 = _
          rw [hnext, hoffset, ofNat_add_one, List.length_append]
          rfl

/-- Bytes and zeros behind them, as far as a buffer reaches. -/
theorem take_padded {n : ℕ} {xs : List UInt8} (hle : xs.length ≤ n) :
    (xs ++ List.replicate n 0).take n = xs ++ List.replicate (n - xs.length) 0 := by
  rw [List.take_append, List.take_of_length_le hle, List.take_replicate,
    Nat.min_eq_left (Nat.sub_le n xs.length)]

theorem overwrite_behind {n : ℕ} {buf : Bytes n} {xs : List UInt8} (r : UInt8)
    (hlt : xs.length < n) (hbuf : buf.toList = (xs ++ List.replicate n 0).take n) :
    (overwrite buf xs.length [r]).toList = (xs ++ [r] ++ List.replicate n 0).take n := by
  have hle : (xs ++ [r]).length ≤ n := by
    rw [List.length_append, List.length_singleton]
    exact hlt
  rw [take_padded hle, toList_overwrite, hbuf, take_padded hlt.le]
  have hone : [r].take (n - xs.length) = [r] :=
    List.take_of_length_le (by rw [List.length_singleton]; omega)
  rw [hone, List.take_left, List.drop_append, List.drop_eq_nil_of_le (by omega), List.nil_append,
    List.drop_replicate, List.length_append, List.length_singleton]
  congr 2
  omega

theorem Collected.step {d : HxDecoder} {cs : List UInt8} (h : Collected d cs) {c r : UInt8}
    (hbyte : TextByte cs c r) (hlen : (hxUnstuff cs).1.length < 2 ^ 31) :
    Collected (d.collect (Int32.ofNat (hxUnstuff cs).1.length) r) (cs ++ [c]) := by
  obtain ⟨hbuf, hover⟩ := h
  unfold HxDecoder.collect
  by_cases hroom : (hxUnstuff cs).1.length < 195
  · rw [if_pos ((ofNat_lt_195 hlen).mpr hroom), index_of_lt hroom]
    have hno : d.overrun = false := by
      have hbit := Bool.toNat_le (hxUnstuff cs).2
      rw [hover, decide_eq_false]
      omega
    cases hbyte with
    | data hnext =>
        refine ⟨?_, ?_⟩
        · rw [hnext]
          exact overwrite_behind r hroom hbuf
        · show d.overrun = _
          rw [hno, hnext, eq_comm, decide_eq_false]
          simp
          omega
    | escape hnext hr hopen =>
        subst hr
        refine ⟨?_, ?_⟩
        · -- the zero was there already
          have hmove : [(0 : UInt8)] ++ List.replicate 195 0 = List.replicate 195 0 ++ [0] := by
            rw [List.singleton_append, ← List.replicate_succ, List.replicate_succ']
          rw [hnext, overwrite_behind 0 hroom hbuf, List.append_assoc, hmove, ← List.append_assoc,
            List.take_append_of_le_length
              (by rw [List.length_append, List.length_replicate]; omega)]
        · show d.overrun = _
          rw [hno, hnext, eq_comm, decide_eq_false]
          simp
          omega
  · rw [if_neg (fun hlt => hroom ((ofNat_lt_195 hlen).mp hlt))]
    have hfull : 195 ≤ (hxUnstuff cs).1.length := Nat.not_lt.mp hroom
    cases hbyte with
    | data hnext =>
        refine ⟨?_, ?_⟩
        · show d.buf.toList = _
          rw [hbuf, hnext, List.append_assoc, List.take_append_of_le_length hfull,
            List.take_append_of_le_length hfull]
        · rw [hnext, eq_comm, decide_eq_true]
          simp
          omega
    | escape hnext hr hopen =>
        refine ⟨?_, ?_⟩
        · rw [hnext]
          exact hbuf
        · rw [hnext, eq_comm, decide_eq_true]
          simp
          omega

/-! ## Every line -/

/-- No run of bytes without a delimiter reaches the range of `offset`. -/
def hxInRange (s : Segment UInt8) (_ : UInt8) : Prop := s.body.length < 2 ^ 31

/-- A short line is in range. -/
theorem inRange_of_length {s : Segment UInt8} {line : List UInt8}
    (hlen : s.body.length + line.length < 2 ^ 31) : hxLine.Along hxInRange s line := by
  induction line generalizing s with
  | nil => trivial
  | cons c line ih =>
      rw [List.length_cons] at hlen
      refine ⟨show s.body.length < 2 ^ 31 by omega, ih ?_⟩
      by_cases hc : c = 126
      · subst hc
        have hstep : hxLine.step s 126 =
          (if s.opened then acceptFrame s.body else none, ⟨true, []⟩) := segment_delimiter s
        rw [hstep, List.length_nil]
        omega
      · have hstep : hxLine.step s c = (none, ⟨s.opened, s.body ++ [c]⟩) := segment_symbol s hc
        rw [hstep, List.length_append, List.length_singleton]
        omega

theorem accept_collected {d : HxDecoder} {cs : List UInt8} (h : Collected d cs)
    (hclosed : (hxUnstuff cs).2 = false) :
    (if !d.overrun then some (slice d.buf 0 96) else none) = acceptFrame (0 :: cs) := by
  obtain ⟨hbuf, hover⟩ := h
  have hover' : d.overrun = decide (195 < (hxUnstuff cs).1.length) := by
    rw [hover, hclosed]
    rfl
  show _ = if (0 : UInt8) = 0 ∧ !(hxUnstuff cs).2 ∧ (hxUnstuff cs).1.length ≤ 195 then _ else none
  by_cases hfits : (hxUnstuff cs).1.length ≤ 195
  · rw [if_pos (by rw [hover']; simpa using hfits), if_pos ⟨rfl, by rw [hclosed]; rfl, hfits⟩]
    congr 1
    apply vec_ext
    have hzeros : (zeros 96).toList = List.replicate 96 0 := rfl
    rw [toList_slice, List.drop_zero, hbuf, List.take_take, toList_overwrite, hzeros,
      List.take_append, List.take_replicate, List.drop_replicate, List.take_zero, List.nil_append]
    congr 2
    omega
  · rw [if_neg (by rw [hover']; simpa using hfits), if_neg (fun hall => hfits hall.2.2)]

/-- The state machine's part of a step. -/
theorem hxDecoder_step (d : HxDecoder) (c : UInt8) :
    (callbackDecoderSerialIn d c).2.hxDecoder = (decodeSM d.hxDecoder c).2 := by
  unfold callbackDecoderSerialIn HxDecoder.collect
  dsimp only
  split
  · rfl
  · split
    · split <;> rfl
    · split
      · split
        · split <;> rfl
        · rfl
      · rfl

theorem decodeSM_delimiter (hx : HxstreamState) :
    decodeSM hx 126 = (0, { hx with offset := 0, tagSeen := false, fstate := 1 }) := if_pos rfl

theorem answer_delimiter (d : HxDecoder) :
    (callbackDecoderSerialIn d 126).1 =
      if d.hxDecoder.fstate = 2 ∧ d.hxDecoder.tagSeen ∧ d.hxDecoder.ftag = 0 then
        if !d.overrun then some (slice d.buf 0 96) else none
      else none := by
  unfold callbackDecoderSerialIn
  dsimp only
  rw [decodeSM_delimiter]
  dsimp only
  by_cases hend : d.hxDecoder.fstate = 2 ∧ d.hxDecoder.tagSeen = true
  · have hfirst : d.hxDecoder.fstate = 2 ∧ (1 : UInt8) = 1 ∧ d.hxDecoder.tagSeen = true :=
      ⟨hend.1, rfl, hend.2⟩
    rw [if_pos hfirst]
    by_cases htag : d.hxDecoder.ftag = 0
    · have hall : d.hxDecoder.fstate = 2 ∧ d.hxDecoder.tagSeen = true ∧ d.hxDecoder.ftag = 0 :=
        ⟨hend.1, hend.2, htag⟩
      rw [if_pos hall]
      exact if_congr (and_iff_right htag) rfl rfl
    · have hnone : ¬ (d.hxDecoder.fstate = 2 ∧ d.hxDecoder.tagSeen = true ∧
          d.hxDecoder.ftag = 0) := fun h => htag h.2.2
      rw [if_neg hnone]
      exact if_neg fun h => htag h.1
  · have hfirst : ¬ (d.hxDecoder.fstate = 2 ∧ (1 : UInt8) = 1 ∧ d.hxDecoder.tagSeen = true) :=
      fun h => hend ⟨h.1, h.2.2⟩
    have hnone : ¬ (d.hxDecoder.fstate = 2 ∧ d.hxDecoder.tagSeen = true ∧
        d.hxDecoder.ftag = 0) := fun h => hend ⟨h.1, h.2.1⟩
    rw [if_neg hfirst, if_neg hnone]
    split
    · rfl
    · split <;> rfl

theorem fstate_symbol {hx : HxstreamState} {c : UInt8} (hc : c ≠ 126) (hf : hx.fstate = 2) :
    (decodeSM hx c).2.fstate ≠ 1 := by
  rw [decodeSM, if_neg hc, hf, if_neg (by decide), if_pos rfl]
  split
  · show (3 : UInt8) ≠ 1
    decide
  · show (2 : UInt8) ≠ 1
    decide

/-- In the middle of a frame nothing is pushed. -/
theorem answer_symbol (d : HxDecoder) {c : UInt8} (hc : c ≠ 126) :
    (callbackDecoderSerialIn d c).1 = none := by
  unfold callbackDecoderSerialIn
  dsimp only
  rw [if_neg (fun h => fstate_symbol hc h.1 h.2.1)]
  split
  · rfl
  · split <;> rfl

/-- A tag empties the buffer when it is zero. -/
theorem collected_tag {d : HxDecoder} (hf : d.hxDecoder.fstate = 1) :
    Collected (callbackDecoderSerialIn d 0).2 [] := by
  have hnot : ¬ ((1 : UInt8) = 2 ∧ (decodeSM d.hxDecoder 0).2.fstate = 1 ∧ d.hxDecoder.tagSeen) :=
    fun h => absurd h.1 (by decide)
  have htag : (decodeSM d.hxDecoder 0).2.ftag = 0 := by
    rw [decodeSM, if_neg (by decide), if_pos hf]
  unfold callbackDecoderSerialIn
  dsimp only
  rw [hf, if_neg hnot, if_pos rfl, if_pos htag]
  refine ⟨rfl, rfl⟩

theorem collected_symbol {d : HxDecoder} {cs : List UInt8} (h : Collected d cs)
    (htext : InText d.hxDecoder cs) (htag : d.hxDecoder.ftag = 0) {c : UInt8} (hc : c ≠ 126)
    (hlen : (hxUnstuff cs).1.length < 2 ^ 31) :
    Collected (callbackDecoderSerialIn d c).2 (cs ++ [c]) := by
  obtain ⟨-, hbyte, hftag, -⟩ := htext.step hc
  have hf : d.hxDecoder.fstate = 2 ∨ d.hxDecoder.fstate = 3 := by
    rw [htext.fstate]
    split
    · exact .inr rfl
    · exact .inl rfl
  have hone : d.hxDecoder.fstate ≠ 1 := by
    rintro heq
    rw [heq] at hf
    exact absurd hf (by decide)
  have hnot : ¬ (d.hxDecoder.fstate = 2 ∧ (decodeSM d.hxDecoder c).2.fstate = 1 ∧
      d.hxDecoder.tagSeen) := by
    rintro ⟨htwo, hnext, -⟩
    exact fstate_symbol hc htwo hnext
  unfold callbackDecoderSerialIn
  dsimp only
  rw [if_neg hnot, if_neg hone, if_pos hf, if_pos (hftag.trans htag), htext.offset]
  have hsame : Collected { d with hxDecoder := (decodeSM d.hxDecoder c).2 } cs :=
    ⟨h.buf, h.overrun⟩
  exact hsame.step hbyte hlen

theorem follows_delimiter (d : HxDecoder) :
    Follows (callbackDecoderSerialIn d 126).2 ⟨true, []⟩ := by
  unfold Follows
  dsimp only
  rw [hxDecoder_step, decodeSM_delimiter]
  exact ⟨rfl, rfl, rfl⟩

theorem follows_tag {d : HxDecoder} (h : Follows d ⟨true, []⟩) {c : UInt8} (hc : c ≠ 126) :
    Follows (callbackDecoderSerialIn d c).2 ⟨true, [c]⟩ := by
  obtain ⟨hf, hoff, -⟩ := h
  have hstep : decodeSM d.hxDecoder c =
      (0, { d.hxDecoder with ftag := c, tagSeen := true, fstate := 2 }) := by
    rw [decodeSM, if_neg hc, if_pos hf]
  unfold Follows
  dsimp only
  rw [hxDecoder_step, hstep]
  refine ⟨⟨rfl, hoff⟩, rfl, rfl, ?_⟩
  rintro rfl
  exact collected_tag hf

theorem follows_step (d : HxDecoder) (s : Segment UInt8) (c : UInt8) (h : Follows d s)
    (hrange : hxInRange s c) :
    (hxDecoderMachine.step d c).1 = (hxLine.step s c).1 ∧
      Follows (hxDecoderMachine.step d c).2 (hxLine.step s c).2 := by
  obtain ⟨opened, body⟩ := s
  show (callbackDecoderSerialIn d c).1 = (hxLine.step ⟨opened, body⟩ c).1 ∧
    Follows (callbackDecoderSerialIn d c).2 (hxLine.step ⟨opened, body⟩ c).2
  unfold hxLine
  by_cases hc : c = 126
  · subst hc
    rw [segment_delimiter, answer_delimiter]
    refine ⟨?_, follows_delimiter d⟩
    cases opened with
    | false =>
        obtain ⟨-, hseen⟩ := h
        rw [if_neg (fun hall => Bool.false_ne_true (hseen.symm.trans hall.2.1))]
        rfl
    | true =>
        cases body with
        | nil =>
            obtain ⟨-, -, hseen⟩ := h
            rw [if_neg (fun hall => Bool.false_ne_true (hseen.symm.trans hall.2.1))]
            rfl
        | cons tag cs =>
            obtain ⟨htext, hseen, htag, hcollected⟩ := h
            show _ = acceptFrame (tag :: cs)
            by_cases hclosed : (hxUnstuff cs).2 = false
            · have hf : d.hxDecoder.fstate = 2 := by
                rw [htext.fstate, hclosed]
                rfl
              by_cases hzero : tag = 0
              · subst hzero
                rw [if_pos ⟨hf, hseen, htag⟩]
                exact accept_collected (hcollected rfl) hclosed
              · rw [if_neg (fun hall => hzero (htag.symm.trans hall.2.2))]
                exact (if_neg fun hall => hzero hall.1).symm
            · have hf : d.hxDecoder.fstate = 3 := by
                rw [htext.fstate, if_pos (Bool.not_eq_false _ ▸ hclosed)]
              rw [if_neg (fun hall => absurd (hf.symm.trans hall.1) (by decide))]
              refine (if_neg fun hall => hclosed ?_).symm
              exact Bool.not_eq_true' _ ▸ hall.2.1
  · rw [segment_symbol _ hc, answer_symbol d hc]
    refine ⟨rfl, ?_⟩
    cases opened with
    | false =>
        obtain ⟨htext, hseen⟩ := h
        obtain ⟨hnext, -, -, hsame⟩ := htext.step hc
        unfold Follows
        dsimp only
        rw [hxDecoder_step]
        exact ⟨hnext, hsame.trans hseen⟩
    | true =>
        cases body with
        | nil => exact follows_tag h hc
        | cons tag cs =>
            obtain ⟨htext, hseen, htag, hcollected⟩ := h
            obtain ⟨hnext, -, hftag, hsame⟩ := htext.step hc
            show Follows _ ⟨true, tag :: (cs ++ [c])⟩
            unfold Follows
            dsimp only
            rw [hxDecoder_step]
            refine ⟨hnext, hsame.trans hseen, hftag.trans htag, ?_⟩
            intro hzero
            have hlen : (hxUnstuff cs).1.length < 2 ^ 31 := by
              have hle : (hxUnstuff cs).1.length ≤ cs.length := length_unstuff_le cs
              have hbody : cs.length + 1 < 2 ^ 31 := hrange
              omega
            exact collected_symbol (hcollected hzero) htext (htag.trans hzero) hc hlen

theorem follows_init : Follows HxDecoder.init ⟨false, []⟩ := ⟨⟨rfl, rfl⟩, rfl⟩

/-- **The decoder pushes exactly the well-formed frames of the line**, for
every line without a run of `2 ^ 31` bytes between delimiters. -/
theorem decoder_exact (line : List UInt8) (hrange : hxLine.Along hxInRange ⟨false, []⟩ line) :
    hxDecoderMachine.answers HxDecoder.init line = hxLine.answers ⟨false, []⟩ line :=
  (Machine.rel_run follows_step follows_init hrange).1

/-- A frame of one byte between two bytes of noise. -/
theorem decoder_exact_oneByte :
    (hxDecoderMachine.answers HxDecoder.init [7, 126, 0, 5, 126, 7]).reduceOption =
      [overwrite (zeros 96) 0 [5]] := by
  rw [decoder_exact [7, 126, 0, 5, 126, 7] (inRange_of_length (by decide))]
  rfl

/-! ## Encoding -/

/-- `ivory_string_HXCyphertext`. -/
structure HxCyphertext where
  data : Bytes 195
  len : ℕ

/-- `data[len % 195] = c; len = 1 + len`. -/
def HxCyphertext.append (s : HxCyphertext) (c : UInt8) : HxCyphertext where
  data := overwrite s.data (s.len % 195) [c]
  len := s.len + 1

def HxCyphertext.escaped (s : HxCyphertext) (b : UInt8) : HxCyphertext :=
  if b = 126 ∨ b = 124 then (s.append 124).append (b ^^^ 32) else s.append b

/-- The string `callback_encoder_ct_in` builds. -/
def encodeFrame (ct : Bytes 96) : HxCyphertext :=
  let start : HxCyphertext := ⟨zeros 195, 0⟩
  (ct.toList.foldl HxCyphertext.escaped ((start.append 126).append 0)).append 126

def hxSpecial (b : UInt8) : Bool := b = 126 || b = 124

/-- The bytes of a ciphertext on the line. -/
def frameBytes (ct : Bytes 96) : List UInt8 :=
  126 :: ((0 :: stuff 124 hxFlip hxSpecial ct.toList) ++ [126])

/-- The string holds these bytes, and its index never wrapped. -/
def HxCyphertext.Holds (s : HxCyphertext) (xs : List UInt8) : Prop :=
  xs <+: s.data.toList ∧ s.len = xs.length

theorem HxCyphertext.Holds.append {s : HxCyphertext} {xs : List UInt8} (h : s.Holds xs)
    (c : UInt8) (hroom : xs.length < 195) : (s.append c).Holds (xs ++ [c]) := by
  obtain ⟨hpre, hlen⟩ := h
  refine ⟨?_, ?_⟩
  · have htake : s.data.toList.take xs.length = xs := (List.prefix_iff_eq_take.mp hpre).symm
    show xs ++ [c] <+: (overwrite s.data (s.len % 195) [c]).toList
    rw [hlen, Nat.mod_eq_of_lt hroom, toList_overwrite, htake,
      List.take_of_length_le (by rw [List.length_singleton]; omega)]
    exact List.prefix_append _ _
  · show s.len + 1 = _
    rw [hlen, List.length_append, List.length_singleton]

theorem HxCyphertext.Holds.escaped {s : HxCyphertext} {xs : List UInt8} (h : s.Holds xs)
    (bs : List UInt8) (hroom : xs.length + 2 * bs.length ≤ 195) :
    (bs.foldl HxCyphertext.escaped s).Holds (xs ++ stuff 124 hxFlip hxSpecial bs) := by
  induction bs generalizing s xs with
  | nil =>
      rw [stuff, List.append_nil]
      exact h
  | cons b bs ih =>
      rw [List.length_cons] at hroom
      rw [List.foldl_cons, stuff, HxCyphertext.escaped]
      by_cases hb : b = 126 ∨ b = 124
      · have hspecial : hxSpecial b = true := by simpa [hxSpecial] using hb
        have htwo := (h.append 124 (by omega)).append (hxFlip b)
          (by rw [List.length_append, List.length_singleton]; omega)
        have hall := ih htwo (by simp only [List.length_append, List.length_singleton]; omega)
        have hlist : xs ++ [124] ++ [hxFlip b] ++ stuff 124 hxFlip hxSpecial bs =
            xs ++ 124 :: hxFlip b :: stuff 124 hxFlip hxSpecial bs := by simp
        rw [hlist] at hall
        rw [if_pos hb, if_pos hspecial]
        exact hall
      · have hplain : ¬ hxSpecial b = true := by simpa [hxSpecial] using hb
        have hone := h.append b (by omega)
        have hall := ih hone (by simp only [List.length_append, List.length_singleton]; omega)
        rw [if_neg hb, if_neg hplain]
        simpa only [List.append_assoc, List.singleton_append] using hall

theorem length_frameBytes_le (ct : Bytes 96) : (frameBytes ct).length ≤ 195 := by
  have hstuff : (stuff 124 hxFlip hxSpecial ct.toList).length ≤ 2 * ct.toList.length :=
    length_stuff_le _
  rw [List.Vector.toList_length] at hstuff
  simp only [frameBytes, List.length_cons, List.length_append, List.length_nil]
  omega

/-- **The string of a ciphertext.** It fits its 195 bytes. -/
theorem encodeFrame_holds (ct : Bytes 96) : (encodeFrame ct).Holds (frameBytes ct) := by
  have hempty : HxCyphertext.Holds ⟨zeros 195, 0⟩ [] := ⟨List.nil_prefix, rfl⟩
  have hstart := (hempty.append 126 (by decide)).append 0 (by decide)
  have hbody := hstart.escaped ct.toList (by rw [List.Vector.toList_length]; decide)
  have hlen := length_frameBytes_le ct
  have hall := hbody.append 126 (by
    simp only [frameBytes, List.length_cons, List.length_append, List.length_nil] at hlen ⊢
    omega)
  have hlist : [] ++ [126] ++ [0] ++ stuff 124 hxFlip hxSpecial ct.toList ++ [126] =
      frameBytes ct := by simp [frameBytes]
  rw [hlist] at hall
  exact hall

theorem acceptFrame_stuff (ct : Bytes 96) :
    acceptFrame (0 :: stuff 124 hxFlip hxSpecial ct.toList) = some ct := by
  have hread : hxUnstuff (stuff 124 hxFlip hxSpecial ct.toList) = (ct.toList, false) := by
    refine unstuff_stuff (by decide) (fun x => ?_) _
    unfold hxFlip
    rw [UInt8.xor_assoc, UInt8.xor_self, UInt8.xor_zero]
  have hlen : ct.toList.length = 96 := List.Vector.toList_length ct
  unfold acceptFrame
  dsimp only
  rw [hread, if_pos ⟨rfl, rfl, by rw [hlen]; decide⟩]
  congr 1
  apply vec_ext
  exact overwrite_all _ hlen

theorem delimiter_not_mem (ct : Bytes 96) :
    126 ∉ (0 : UInt8) :: stuff 124 hxFlip hxSpecial ct.toList := by
  rw [List.mem_cons]
  rintro (heq | hmem)
  · exact absurd heq (by decide)
  · refine not_mem_stuff (by decide) (by decide) ?_ _ hmem
    intro x hx
    rcases (by simpa [hxSpecial] using hx : x = 126 ∨ x = 124) with rfl | rfl
    · decide
    · decide

/-- A frame on the line, whatever came before it. -/
theorem line_frame (s : Segment UInt8) (ct : Bytes 96) :
    hxLine.exec s (frameBytes ct) = ⟨true, []⟩ ∧
      ∃ old : Option (Bytes 96),
        (hxLine.answers s (frameBytes ct)).reduceOption = old.toList ++ [ct] ∧
        (s.body = [] → old = none) := by
  have h : hxLine.exec s (frameBytes ct) = ⟨true, []⟩ ∧
      (hxLine.answers s (frameBytes ct)).reduceOption =
        (if s.opened then acceptFrame s.body else none).toList ++
          (acceptFrame (0 :: stuff 124 hxFlip hxSpecial ct.toList)).toList :=
    segment_frame (delimiter_not_mem ct) s
  rw [acceptFrame_stuff] at h
  refine ⟨h.1, _, h.2, ?_⟩
  intro hbody
  rw [hbody]
  exact ite_self none

/-- What is put on the line: the first `len` bytes of the string. -/
def HxCyphertext.bytes (s : HxCyphertext) : List UInt8 := s.data.toList.take s.len

theorem encodeFrame_bytes (ct : Bytes 96) : (encodeFrame ct).bytes = frameBytes ct := by
  obtain ⟨hpre, hlen⟩ := encodeFrame_holds ct
  rw [HxCyphertext.bytes, hlen]
  exact (List.prefix_iff_eq_take.mp hpre).symm

/-- Ciphertexts as the encoder writes them, with noise before each of them. -/
def noisyLine (items : List (List UInt8 × Bytes 96)) : List UInt8 :=
  items.flatMap fun item => item.1 ++ (encodeFrame item.2).bytes

theorem noisyLine_cons (item : List UInt8 × Bytes 96) (items : List (List UInt8 × Bytes 96)) :
    noisyLine (item :: items) = item.1 ++ (frameBytes item.2 ++ noisyLine items) := by
  rw [noisyLine, List.flatMap_cons, encodeFrame_bytes, List.append_assoc]
  rfl

theorem line_noisy (s : Segment UInt8) (items : List (List UInt8 × Bytes 96)) :
    (items.map Prod.snd).Sublist (hxLine.answers s (noisyLine items)).reduceOption := by
  induction items generalizing s with
  | nil => exact List.Sublist.refl []
  | cons item items ih =>
      obtain ⟨hexec, old, hout, -⟩ := line_frame (hxLine.exec s item.1) item.2
      rw [noisyLine_cons, Machine.outputs_append, Machine.outputs_append, hexec, hout,
        List.map_cons]
      refine List.sublist_append_of_sublist_right ?_
      rw [List.append_assoc]
      exact List.sublist_append_of_sublist_right ((ih _).cons_cons item.2)

theorem line_idle {s : Segment UInt8} (hs : s.body = []) {noise : List UInt8}
    (hnoise : ∀ c ∈ noise, c = 126) :
    (hxLine.exec s noise).body = [] ∧ (hxLine.answers s noise).reduceOption = [] := by
  induction noise generalizing s with
  | nil => exact ⟨hs, rfl⟩
  | cons c noise ih =>
      obtain rfl : c = 126 := hnoise c List.mem_cons_self
      have hstep : hxLine.step s 126 = (if s.opened then acceptFrame s.body else none, ⟨true, []⟩) :=
        segment_delimiter s
      have hnone : (if s.opened then acceptFrame s.body else none) = none := by
        rw [hs]
        exact ite_self none
      rw [Machine.exec_cons, Machine.answers_cons, hstep, hnone, Machine.reduceOption_cons]
      exact ih rfl fun c' hc' => hnoise c' (List.mem_cons_of_mem _ hc')

theorem line_clean {s : Segment UInt8} (hs : s.body = [])
    {items : List (List UInt8 × Bytes 96)} (hidle : ∀ item ∈ items, ∀ c ∈ item.1, c = 126) :
    (hxLine.answers s (noisyLine items)).reduceOption = items.map Prod.snd := by
  induction items generalizing s with
  | nil => rfl
  | cons item items ih =>
      obtain ⟨hbody, hquiet⟩ := line_idle hs (hidle item List.mem_cons_self)
      obtain ⟨hexec, old, hout, hold⟩ := line_frame (hxLine.exec s item.1) item.2
      have hrest := ih (s := ⟨true, []⟩) rfl fun i hi => hidle i (List.mem_cons_of_mem item hi)
      rw [noisyLine_cons, Machine.outputs_append, Machine.outputs_append, hexec, hquiet, hout,
        hold hbody, hrest]
      rfl

/-- **Every encoded ciphertext gets through the noise.** The encoder's bytes for
any ciphertexts, with any bytes before each of them and behind the last, are
decoded to these ciphertexts in their order, as long as no run of bytes without
a delimiter reaches the range of `offset`; on a line that is idle between them
nothing else is pushed. -/
theorem frames_get_through (items : List (List UInt8 × Bytes 96)) (behind : List UInt8)
    (hrange : hxLine.Along hxInRange ⟨false, []⟩ (noisyLine items ++ behind)) :
    let pushed := (hxDecoderMachine.answers HxDecoder.init
      (noisyLine items ++ behind)).reduceOption
    (items.map Prod.snd).Sublist pushed ∧
      ((∀ item ∈ items, ∀ c ∈ item.1, c = 126) → behind = [] → pushed = items.map Prod.snd) := by
  intro pushed
  have hline : pushed = (hxLine.answers ⟨false, []⟩ (noisyLine items ++ behind)).reduceOption :=
    congrArg List.reduceOption (Machine.rel_run follows_step follows_init hrange).1
  rw [hline]
  constructor
  · rw [Machine.outputs_append]
    exact List.sublist_append_of_sublist_left (line_noisy _ items)
  · rintro hidle rfl
    rw [List.append_nil]
    exact line_clean rfl hidle

/-- A ciphertext of delimiters and escapes, and one that differs from it. -/
def specialText (c : UInt8) : Bytes 96 := ⟨List.replicate 48 126 ++ List.replicate 48 c, by simp⟩

/-- Noise with delimiters, an open frame and an escape, and then an idle line. -/
theorem frames_get_through_two :
    [specialText 124, specialText 7].Sublist (hxDecoderMachine.answers HxDecoder.init
      (noisyLine [([1, 126, 0, 124], specialText 124), ([3, 126, 5], specialText 7)] ++
        [126, 9])).reduceOption ∧
    (hxDecoderMachine.answers HxDecoder.init
      (noisyLine [([126], specialText 124), ([], specialText 7)] ++ [])).reduceOption =
        [specialText 124, specialText 7] := by
  have hnoisy : hxLine.Along hxInRange ⟨false, []⟩
      (noisyLine [([1, 126, 0, 124], specialText 124), ([3, 126, 5], specialText 7)] ++
        [126, 9]) := inRange_of_length (by decide +kernel)
  have hclean : hxLine.Along hxInRange ⟨false, []⟩
      (noisyLine [([126], specialText 124), ([], specialText 7)] ++ []) :=
    inRange_of_length (by decide +kernel)
  refine ⟨(frames_get_through [([1, 126, 0, 124], specialText 124), ([3, 126, 5], specialText 7)]
    [126, 9] hnoisy).1, ?_⟩
  refine (frames_get_through [([126], specialText 124), ([], specialText 7)] [] hclean).2 ?_ rfl
  intro item hitem c hc
  rw [List.mem_cons, List.mem_singleton] at hitem
  rcases hitem with rfl | rfl
  · exact List.mem_singleton.mp hc
  · exact absurd hc List.not_mem_nil

end GecRelay
