import GecRelay.Ground.Bounds
import Mathlib.Data.List.DropRight
import Mathlib.Algebra.Group.Nat.Even

/-!
# Finding the header again

After lost data the readers look for the two header bytes. All three scans
take the byte after a magic byte off the line before they look at it, and
begin anew when it is not the tag, also when it is a magic byte itself. So
they pair magic bytes up: the first header is found exactly when an even
number of magic bytes stands directly before it.
-/

namespace GecRelay

open Foundation

variable {κ σ : Type}

def NoHeader (line : List UInt8) : Prop :=
  ¬[gecCiphertextFrameMagic, gecCiphertextFrameTag] <:+: line

/-- The number of magic bytes at the end. -/
def magicRun (line : List UInt8) : ℕ := (line.rtakeWhile (· = gecCiphertextFrameMagic)).length

/-! ## The scan -/

def AllMagic (line : List UInt8) : Prop := ∀ x ∈ line, x = gecCiphertextFrameMagic

instance (line : List UInt8) : Decidable (AllMagic line) :=
  inferInstanceAs (Decidable (∀ x ∈ line, x = gecCiphertextFrameMagic))

theorem allMagic_cons {c : UInt8} {line : List UInt8} :
    AllMagic (c :: line) ↔ c = gecCiphertextFrameMagic ∧ AllMagic line := by
  simp [AllMagic]

theorem magicRun_cons (c : UInt8) (line : List UInt8) :
    magicRun (c :: line) =
      if AllMagic (c :: line) then magicRun line + 1 else magicRun line := by
  have hrun : (line.reverse.takeWhile (· = gecCiphertextFrameMagic)).length = line.length ↔
      AllMagic line := by
    rw [← line.length_reverse]
    constructor
    · intro hlen x hx
      have hall := List.takeWhile_eq_self_iff.mp ((List.takeWhile_prefix _).eq_of_length hlen) x
        (List.mem_reverse.mpr hx)
      exact of_decide_eq_true hall
    · intro hall
      rw [List.takeWhile_eq_self_iff.mpr]
      intro x hx
      exact decide_eq_true (hall x (List.mem_reverse.mp hx))
  simp only [magicRun, List.rtakeWhile, List.reverse_cons, List.takeWhile_append,
    List.length_reverse, hrun, allMagic_cons]
  by_cases hall : AllMagic line
  · have hlen := hrun.mpr hall
    by_cases hc : c = gecCiphertextFrameMagic
    · simp [hall, hc, hlen]
    · simp [hall, hc, hlen]
  · simp [hall]

theorem magicRun_cons_of_ne {c : UInt8} (hc : c ≠ gecCiphertextFrameMagic) (line : List UInt8) :
    magicRun (c :: line) = magicRun line := by
  rw [magicRun_cons, if_neg fun hcons => hc (allMagic_cons.mp hcons).1]

/-- A magic byte and the byte after it: two more, or none. -/
theorem even_magicRun_cons_cons (c : UInt8) (line : List UInt8) :
    Even (magicRun (gecCiphertextFrameMagic :: c :: line)) ↔ Even (magicRun line) := by
  by_cases hc : AllMagic (c :: line)
  · rw [magicRun_cons, if_pos (allMagic_cons.mpr ⟨rfl, hc⟩), magicRun_cons, if_pos hc]
    simp [Nat.even_add_one]
  · rw [magicRun_cons, if_neg fun hcons => hc (allMagic_cons.mp hcons).2, magicRun_cons,
      if_neg hc]

theorem NoHeader.of_suffix {line line' : List UInt8} (h : NoHeader line) (hsuf : line' <:+ line) :
    NoHeader line' :=
  fun hin => h (hin.trans hsuf.isInfix)

theorem scanHeader_cons_of_ne {c : UInt8} (hc : c ≠ gecCiphertextFrameMagic) (line : List UInt8) :
    scanHeader (c :: line) = scanHeader line := by
  rw [scanHeader.eq_def]
  simp [hc]

theorem scanHeader_magic_of_ne {c : UInt8} (hc : c ≠ gecCiphertextFrameTag) (line : List UInt8) :
    scanHeader (gecCiphertextFrameMagic :: c :: line) = scanHeader line := by
  rw [scanHeader.eq_def]
  simp [hc]

theorem scanHeader_header (line : List UInt8) :
    scanHeader (gecCiphertextFrameMagic :: gecCiphertextFrameTag :: line) = some line := by
  rw [scanHeader.eq_def]
  simp

/-- Bytes without a header leave the scan as it was, or behind a magic byte. -/
theorem scanHeader_skip (line : List UInt8) : ∀ pre, NoHeader (pre ++ [gecCiphertextFrameMagic]) →
    scanHeader (pre ++ line) =
      if Even (magicRun pre) then scanHeader line
      else scanHeader (gecCiphertextFrameMagic :: line)
  | [], _ => by simp [magicRun]
  | [c], h => by
      by_cases hc : c = gecCiphertextFrameMagic
      · simp [hc, magicRun, List.rtakeWhile]
      · rw [List.singleton_append, scanHeader_cons_of_ne hc, magicRun_cons_of_ne hc]
        simp [magicRun]
  | c :: c' :: pre, h => by
      by_cases hc : c = gecCiphertextFrameMagic
      · subst hc
        have hne : c' ≠ gecCiphertextFrameTag := by
          rintro rfl
          exact h ⟨[], pre ++ [gecCiphertextFrameMagic], rfl⟩
        have hrest := scanHeader_skip line pre (h.of_suffix ⟨[_, c'], rfl⟩)
        simp only [even_magicRun_cons_cons, ← hrest]
        exact scanHeader_magic_of_ne hne (pre ++ line)
      · have hrest := scanHeader_skip line (c' :: pre) (h.of_suffix ⟨[c], rfl⟩)
        rw [magicRun_cons_of_ne hc, ← hrest]
        exact scanHeader_cons_of_ne hc (c' :: pre ++ line)

/-- **The first header** is where the scan stops exactly after an even run of
magic bytes; else it is lost. -/
theorem scanHeader_first {pre : List UInt8} (h : NoHeader (pre ++ [gecCiphertextFrameMagic]))
    (line : List UInt8) :
    scanHeader (pre ++ gecCiphertextFrameMagic :: gecCiphertextFrameTag :: line) =
      if Even (magicRun pre) then some line else scanHeader line := by
  rw [scanHeader_skip _ pre h]
  split
  · exact scanHeader_header line
  · rw [scanHeader_magic_of_ne (by decide), scanHeader_cons_of_ne (by decide)]

theorem readCiphertextFrame_first_iff {pre : List UInt8}
    (h : NoHeader (pre ++ [gecCiphertextFrameMagic])) (body : Bytes 80) (rest : List UInt8) :
    readCiphertextFrame
        (pre ++ gecCiphertextFrameMagic :: gecCiphertextFrameTag :: (body.toList ++ rest)) =
      some (⟨gecCiphertextFrameMagic, gecCiphertextFrameTag, body⟩, rest) ↔
    Even (magicRun pre) := by
  have hscan := scanHeader_first h (body.toList ++ rest)
  constructor
  · intro hread
    by_contra hodd
    rw [if_neg hodd] at hscan
    -- behind the lost header less than the body and the rest is left to read
    simp only [readCiphertextFrame, hscan, Option.bind_eq_bind, Option.bind_eq_some_iff,
      readBuffer] at hread
    obtain ⟨left, hleft, ⟨ct, rest'⟩, htake, hsome⟩ := hread
    have hshort := scanHeader_length hleft
    split at htake
    · cases htake
      cases hsome
      rw [List.length_append, List.length_drop, List.Vector.toList_length] at hshort
      omega
    · cases htake
  · intro heven
    rw [if_pos heven] at hscan
    exact readCiphertextFrame_of_scan body.toList_length hscan

/-! ## The same frames on the ground -/

/-- What `gec_decrypt` gets in a run of `receive`. -/
def passedFrames (G : Gcm κ) (parse : MavlinkParser σ) :
    ReceiveState κ σ → List (List UInt8) → List (Bytes 80)
  | _, [] => []
  | s, bytes :: reads =>
      ((leavesBody s (.data bytes)).map Prod.snd).toList ++
        passedFrames G parse (receiveStep G parse s (.data bytes)).2 reads

/-- The bytes of the frame that `receive` is in. -/
def InHand (s : ReceiveState κ σ) (hand : List UInt8) : Prop :=
  match s.point with
  | .magic => s.cnt = 0 ∧ hand = []
  | .tag => s.cnt = 0 ∧ hand = [gecCiphertextFrameMagic]
  | .body => ∃ got, hand = gecCiphertextFrameMagic :: gecCiphertextFrameTag :: got ∧
      BodyHolds s got

theorem readFrames_congr {line line' : List UInt8}
    (h : readCiphertextFrame line = readCiphertextFrame line') :
    readFrames line = readFrames line' := by
  rw [readFrames.eq_def, readFrames.eq_def line']
  split <;> split <;> simp_all

theorem readCiphertextFrame_congr {line line' : List UInt8}
    (h : scanHeader line = scanHeader line') :
    readCiphertextFrame line = readCiphertextFrame line' := by
  rw [readCiphertextFrame, readCiphertextFrame, h]

theorem readCiphertextFrame_inHand {s : ReceiveState κ σ} {hand : List UInt8} (h : InHand s hand) :
    readCiphertextFrame hand = none := by
  cases hpoint : s.point with
  | magic =>
      simp only [InHand, hpoint] at h
      rw [h.2]
      rfl
  | tag =>
      simp only [InHand, hpoint] at h
      rw [h.2]
      rfl
  | body =>
      simp only [InHand, hpoint] at h
      obtain ⟨got, rfl, hgot⟩ := h
      have hshort := hgot.short
      rw [readCiphertextFrame, scanHeader_header]
      simp only [Option.bind_eq_bind, Option.bind_some, readBuffer, dif_neg (Nat.not_le.mpr hshort),
        Option.bind_none]

/-- A read of `bytes` with `hand` in hand, seen from `read_ciphertext_frame`:
either the frame goes on, or its body is full and the rest of the line follows. -/
inductive TakesUp (G : Gcm κ) (parse : MavlinkParser σ) (s : ReceiveState κ σ)
    (hand bytes : List UInt8) : Prop
  | goesOn (hand' : List UInt8) (hnone : leavesBody s (.data bytes) = none)
      (hnext : InHand (receiveStep G parse s (.data bytes)).2 hand')
      (hread : ∀ rest, readCiphertextFrame (hand ++ (bytes ++ rest)) =
        readCiphertextFrame (hand' ++ rest))
  | frame (cnt : Int) (body : Bytes 80) (hsome : leavesBody s (.data bytes) = some (cnt, body))
      (hnext : InHand (receiveStep G parse s (.data bytes)).2 [])
      (hread : ∀ rest, readCiphertextFrame (hand ++ (bytes ++ rest)) =
        some (⟨gecCiphertextFrameMagic, gecCiphertextFrameTag, body⟩, rest))

theorem takesUp_magic (G : Gcm κ) (parse : MavlinkParser σ) {s : ReceiveState κ σ}
    {hand : List UInt8} (hpoint : s.point = .magic) (h : InHand s hand) (b : UInt8) :
    TakesUp G parse s hand [b] := by
  simp only [InHand, hpoint] at h
  obtain ⟨hcnt, rfl⟩ := h
  have hnone : leavesBody s (.data [b]) = none := by simp only [leavesBody, hpoint]
  by_cases hb : b = gecCiphertextFrameMagic
  · refine .goesOn [gecCiphertextFrameMagic] hnone ?_ fun rest => by rw [hb]; rfl
    simp only [receiveStep, hpoint]
    simpa [InHand, hb, ReadOutcome.ret, ReadOutcome.bytes, gecCiphertextFrameMagic] using hcnt
  · refine .goesOn [] hnone ?_ fun rest => ?_
    · have hb' : b ≠ 0x7e := hb
      simp only [receiveStep, hpoint]
      simpa [InHand, hb', ReadOutcome.ret, ReadOutcome.bytes] using hcnt
    · exact readCiphertextFrame_congr (scanHeader_cons_of_ne hb rest)

theorem takesUp_tag (G : Gcm κ) (parse : MavlinkParser σ) {s : ReceiveState κ σ}
    {hand : List UInt8} (hpoint : s.point = .tag) (h : InHand s hand) (b : UInt8) :
    TakesUp G parse s hand [b] := by
  simp only [InHand, hpoint] at h
  obtain ⟨hcnt, rfl⟩ := h
  have hnone : leavesBody s (.data [b]) = none := by simp only [leavesBody, hpoint]
  by_cases hb : b = gecCiphertextFrameTag
  · refine .goesOn [gecCiphertextFrameMagic, gecCiphertextFrameTag] hnone ?_
      fun rest => by rw [hb]; rfl
    simp only [receiveStep, hpoint, hb, ReadOutcome.bytes, InHand]
    exact ⟨[], rfl, by decide, hcnt, fun i hi => absurd hi (Nat.not_lt_zero i)⟩
  · refine .goesOn [] hnone ?_ fun rest => ?_
    · have hb' : b ≠ 0 := hb
      simp only [receiveStep, hpoint]
      simpa [InHand, hb', ReadOutcome.ret, ReadOutcome.bytes] using hcnt
    · exact readCiphertextFrame_congr (scanHeader_magic_of_ne hb rest)

theorem takesUp_body (G : Gcm κ) (parse : MavlinkParser σ) {s : ReceiveState κ σ}
    {hand bytes : List UInt8} (hpoint : s.point = .body) (h : InHand s hand)
    (hlen : bytes.length ≤ s.requested) : TakesUp G parse s hand bytes := by
  simp only [InHand, hpoint] at h
  obtain ⟨got, rfl, hgot⟩ := h
  have hline (rest : List UInt8) :
      gecCiphertextFrameMagic :: gecCiphertextFrameTag :: got ++ (bytes ++ rest) =
        gecCiphertextFrameMagic :: gecCiphertextFrameTag :: (got ++ bytes ++ rest) := by
    simp
  rcases body_read G parse hpoint hgot (o := .data bytes) hlen
      (by simp only [ReadOutcome.ret]; omega) with
    ⟨hnone, hnext, hholds⟩ | ⟨hfull, hsome, hnext, hzero, -⟩
  · refine .goesOn (gecCiphertextFrameMagic :: gecCiphertextFrameTag :: (got ++ bytes)) hnone ?_
      fun rest => congrArg readCiphertextFrame (hline rest)
    simp only [InHand, hnext]
    exact ⟨got ++ bytes, rfl, hholds⟩
  · refine .frame 80 ⟨got ++ bytes, hfull⟩ hsome ?_ fun rest => ?_
    · simp only [InHand, hnext]
      exact ⟨hzero, trivial⟩
    · rw [hline]
      exact readCiphertextFrame_of_scan hfull (scanHeader_header (got ++ bytes ++ rest))

/-- One read of `receive` takes its bytes as `read_ciphertext_frame` would. -/
theorem takesUp_step (G : Gcm κ) (parse : MavlinkParser σ) {s : ReceiveState κ σ}
    {hand bytes : List UInt8} (h : InHand s hand) (hne : bytes ≠ [])
    (hlen : bytes.length ≤ s.requested) : TakesUp G parse s hand bytes := by
  -- the header loops ask for one byte
  have hone (hreq : s.requested = 1) : ∃ b, bytes = [b] := List.length_eq_one_iff.mp
    (Nat.le_antisymm (hreq ▸ hlen) (List.length_pos_iff.mpr hne))
  cases hpoint : s.point with
  | magic =>
      obtain ⟨b, rfl⟩ := hone (by rw [ReceiveState.requested, hpoint])
      exact takesUp_magic G parse hpoint h b
  | tag =>
      obtain ⟨b, rfl⟩ := hone (by rw [ReceiveState.requested, hpoint])
      exact takesUp_tag G parse hpoint h b
  | body => exact takesUp_body G parse hpoint h hlen

/-- **The ground station reads the frames of `read_ciphertext_frame`**, in
whatever pieces the line comes. -/
theorem passedFrames_eq (G : Gcm κ) (parse : MavlinkParser σ) (reads : List (List UInt8))
    {s : ReceiveState κ σ} {hand : List UInt8} (h : InHand s hand)
    (hreads : ShortReads G parse s reads) :
    passedFrames G parse s reads =
      (readFrames (hand ++ reads.flatten)).map CipherTextFrame.ciphertext := by
  induction reads generalizing s hand with
  | nil =>
      rw [List.flatten_nil, List.append_nil, readFrames_of_none (readCiphertextFrame_inHand h)]
      rfl
  | cons bytes reads ih =>
      obtain ⟨hne, hlen, hrest⟩ := hreads
      rw [List.flatten_cons, passedFrames]
      cases takesUp_step G parse h hne hlen with
      | goesOn hand' hnone hnext hread =>
          rw [readFrames_congr (hread _), ← ih hnext hrest, hnone]
          rfl
      | frame cnt body hsome hnext hread =>
          rw [readFrames_of_read (hread _), hsome, ih hnext hrest]
          rfl

/-- A frame that `read_ciphertext_frame` reads is passed on by the read that
completes it, and that read takes nothing of what follows. -/
theorem passedFrames_first (G : Gcm κ) (parse : MavlinkParser σ) (reads : List (List UInt8))
    {s : ReceiveState κ σ} {hand rest : List UInt8} {frame : CipherTextFrame} (h : InHand s hand)
    (hreads : ShortReads G parse s reads)
    (hframe : readCiphertextFrame (hand ++ reads.flatten) = some (frame, rest)) :
    ∃ now later, reads = now ++ later ∧ later.flatten = rest ∧
      passedFrames G parse s now = [frame.ciphertext] := by
  induction reads generalizing s hand with
  | nil =>
      rw [List.flatten_nil, List.append_nil, readCiphertextFrame_inHand h] at hframe
      cases hframe
  | cons bytes reads ih =>
      obtain ⟨hne, hlen, hrest⟩ := hreads
      rw [List.flatten_cons] at hframe
      cases takesUp_step G parse h hne hlen with
      | goesOn hand' hnone hnext hread =>
          obtain ⟨now, later, rfl, hlater, hpassed⟩ := ih hnext hrest (hread _ ▸ hframe)
          refine ⟨bytes :: now, later, rfl, hlater, ?_⟩
          rw [passedFrames, hnone]
          exact hpassed
      | frame cnt body hsome hnext hread =>
          rw [hread, Option.some_inj, Prod.mk.injEq] at hframe
          obtain ⟨rfl, rfl⟩ := hframe
          refine ⟨[bytes], reads, rfl, rfl, ?_⟩
          rw [passedFrames, hsome]
          rfl

theorem ShortReads.of_append {G : Gcm κ} {parse : MavlinkParser σ} {now later : List (List UInt8)}
    {s : ReceiveState κ σ} (h : ShortReads G parse s (now ++ later)) :
    ShortReads G parse s now := by
  induction now generalizing s with
  | nil => trivial
  | cons bytes now ih => exact ⟨h.1, h.2.1, ih h.2.2⟩

/-- A lost header loses its frame: what is left of it is too short for another. -/
theorem readFrames_first_iff {pre : List UInt8}
    (h : NoHeader (pre ++ [gecCiphertextFrameMagic])) (body : Bytes 80) :
    (readFrames (pre ++ gecCiphertextFrameMagic :: gecCiphertextFrameTag :: body.toList)).map
        CipherTextFrame.ciphertext = [body] ↔ Even (magicRun pre) := by
  have hread := readCiphertextFrame_first_iff h body []
  rw [List.append_nil] at hread
  by_cases heven : Even (magicRun pre)
  · have hempty : readFrames [] = [] := readFrames_of_none rfl
    simp [readFrames_of_read (hread.mpr heven), hempty, heven]
  · have hscan := scanHeader_first h body.toList
    rw [if_neg heven] at hscan
    have hnone : readCiphertextFrame
        (pre ++ gecCiphertextFrameMagic :: gecCiphertextFrameTag :: body.toList) = none := by
      rw [readCiphertextFrame, hscan]
      cases hleft : scanHeader body.toList with
      | none => rfl
      | some left =>
          have hshort := scanHeader_length hleft
          rw [List.Vector.toList_length] at hshort
          simp only [Option.bind_eq_bind, Option.bind_some, readBuffer,
            dif_neg (Nat.not_le.mpr hshort), Option.bind_none]
    simp [readFrames_of_none hnone, heven]

/-- `receive` reads to the end of the body that follows `pre` and a header, and
that body is the first it passes on. -/
def PassesFirst (G : Gcm κ) (parse : MavlinkParser σ) (s : ReceiveState κ σ)
    (reads : List (List UInt8)) (pre : List UInt8) (body : Bytes 80) : Prop :=
  ∃ now later, reads = now ++ later ∧
    now.flatten = pre ++ gecCiphertextFrameMagic :: gecCiphertextFrameTag :: body.toList ∧
    passedFrames G parse s now = [body]

/-- **When the first header is found.** On every line, `pre` the bytes before
its first header: `read_ciphertext_frame` reads to the end of that header and
returns the 80 bytes after it exactly when `pre` ends in an even number of
magic bytes, and so does `receive`, in whatever pieces it gets the line. -/
theorem first_header_found_exactly (G : Gcm κ) (parse : MavlinkParser σ) {pre : List UInt8}
    (hfirst : NoHeader (pre ++ [gecCiphertextFrameMagic])) (body : Bytes 80) (rest : List UInt8)
    {s : ReceiveState κ σ} (hpoint : s.point = .magic) (hcnt : s.cnt = 0)
    {reads : List (List UInt8)} (hreads : ShortReads G parse s reads)
    (hline : reads.flatten =
      pre ++ gecCiphertextFrameMagic :: gecCiphertextFrameTag :: (body.toList ++ rest)) :
    (readCiphertextFrame
        (pre ++ gecCiphertextFrameMagic :: gecCiphertextFrameTag :: (body.toList ++ rest)) =
      some (⟨gecCiphertextFrameMagic, gecCiphertextFrameTag, body⟩, rest) ↔
      Even (magicRun pre)) ∧
    (PassesFirst G parse s reads pre body ↔ Even (magicRun pre)) := by
  have hstart : InHand s [] := by
    simp only [InHand, hpoint]
    exact ⟨hcnt, trivial⟩
  have hread := readCiphertextFrame_first_iff hfirst body rest
  refine ⟨hread, fun hpassed => ?_, fun heven => ?_⟩
  · obtain ⟨now, later, rfl, hnow, hpassed⟩ := hpassed
    rw [passedFrames_eq G parse now hstart hreads.of_append, hnow, List.nil_append] at hpassed
    exact (readFrames_first_iff hfirst body).mp hpassed
  · rw [← hline] at hread
    obtain ⟨now, later, rfl, rfl, hpassed⟩ :=
      passedFrames_first G parse reads hstart hreads (hread.mpr heven)
    refine ⟨now, later, rfl, ?_, hpassed⟩
    rw [List.flatten_append] at hline
    exact List.append_cancel_right (hline.trans (by simp))

def splitFrame : List (List UInt8) :=
  [[0x7e], [0x7e], [0x7e], [0], List.replicate 10 1, List.replicate 70 1, [5]]

def onesBody : Bytes 80 := List.Vector.replicate 80 1

instance (line : List UInt8) : Decidable (NoHeader line) := inferInstanceAs (Decidable (¬_))

theorem first_header_found_exactly_splitFrame :
    NoHeader ([0x7e, 0x7e] ++ [gecCiphertextFrameMagic]) ∧
    (readCiphertextFrame ([0x7e, 0x7e] ++ gecCiphertextFrameMagic :: gecCiphertextFrameTag ::
        (onesBody.toList ++ [5])) =
      some (⟨gecCiphertextFrameMagic, gecCiphertextFrameTag, onesBody⟩, [5]) ↔
      Even (magicRun [0x7e, 0x7e])) ∧
    (PassesFirst plainGcm (fun p _ => (none, p))
        (receiveInit (gecInitSymKeyConfAuth plainGcm (zeros 24)) (fun _ => 0) ()) splitFrame
        [0x7e, 0x7e] onesBody ↔
      Even (magicRun [0x7e, 0x7e])) :=
  have hreads : ShortReads plainGcm (fun p _ => (none, p))
      (receiveInit (gecInitSymKeyConfAuth plainGcm (zeros 24)) (fun _ => 0) ()) splitFrame := by
    decide
  ⟨by decide, first_header_found_exactly plainGcm (fun p _ => (none, p)) (by decide) onesBody [5]
    rfl rfl hreads (by decide)⟩

/-- A magic byte before the header, as the tail of a cut-off frame leaves one. -/
theorem repeated_magic_lost :
    NoHeader ([0x7e] ++ [gecCiphertextFrameMagic]) ∧
    readCiphertextFrame (0x7e :: 0x7e :: 0 :: onesBody.toList) = none ∧
    passedFrames plainGcm (fun p _ => (none, p))
      (receiveInit (gecInitSymKeyConfAuth plainGcm (zeros 24)) (fun _ => 0) ())
      ([0x7e] :: [0x7e] :: [0] :: onesBody.toList.map fun b => [b]) = [] := by
  decide +kernel

end GecRelay
