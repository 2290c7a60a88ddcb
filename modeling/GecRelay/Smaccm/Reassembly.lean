import GecRelay.Smaccm.Fragment
import Mathlib.Data.List.GetD

/-!
# Putting messages together again

`fragment_reassembly_monitor` collects the pieces that arrive under the ids from
`0x100` on. The piece it waits for is written behind the ones before it; the
piece before that one is taken for a repetition and ignored; a first piece
starts a message, and any other piece drops what was collected. The tenth piece
hands the message out.

The buffer does not know which message a piece belongs to, so a bus that loses
too much mixes two messages. With at most seven pieces in a row lost nothing is
mixed: a message is handed out exactly when its last piece arrives and the nine
before it have arrived (`reassembly_exact`). Eight are too many, as the example
at the end shows.

Other frames may be on the bus as long as the monitor passes them over: remote
frames, and ids below `0x100` or from `0x10A` to `0x1FF`. An id from `0x200` on
counts as the first piece and spoils a message, and so does every other frame
that is not passed over.
-/

namespace GecRelay

open Foundation

structure Reassembly where
  nextIdx : UInt8
  buf : Bytes 80

def Reassembly.init : Reassembly := ⟨0, zeros 80⟩

/-- `n_cse8`. -/
def remoteFrame (id : UInt32) : Bool := (((id >>> 1) &&& 1).toUInt16 &&& 255).toUInt8 != 0

/-- `n_cse12`. -/
def arbitrationId (id : UInt32) : UInt32 :=
  let all := (id >>> 2) &&& 536870911
  if remoteFrame id then all else all >>> 18

/-- `n_cse21`. An id that is too high counts as the first piece. -/
def pieceIndex (id : UInt32) : UInt8 :=
  let k := arbitrationId id - 256
  if k ≤ 255 then k.toUInt8 else 0

/-- `callback_receive_msg`, with what it gives to
`callback_output_CAN_Server_put_pt_data_2`. -/
def callbackReceiveMsg (s : Reassembly) (msg : CanMessage) : Option (Bytes 80) × Reassembly :=
  if !remoteFrame msg.id ∧ 256 ≤ arbitrationId msg.id then
    let idx := pieceIndex msg.id
    if !(1 + idx = s.nextIdx ∨ idx > 9) then
      if !(idx = 0 ∨ idx = s.nextIdx) ∨ msg.len ≠ 8 then (none, { s with nextIdx := 0 })
      else
        -- the length is eight here, so the loop copies all of `buf`
        let s := { s with buf := overwrite s.buf (8 * idx.toNat) msg.buf.toList }
        if idx < 9 then (none, { s with nextIdx := 1 + idx }) else (some s.buf, s)
    else (none, s)
  else (none, s)

/-! ## A bus that loses and repeats -/

/-- What arrives: a piece of the stream of messages, by its position in the
stream, or another frame. -/
inductive BusItem
  | piece (p : ℕ)
  | other (msg : CanMessage)

/-- The frame of an item, for the messages `ms`. -/
def BusItem.frame (ms : ℕ → Bytes 80) : BusItem → CanMessage
  | .piece p => canFragment 256 (ms (p / 10)) (p % 10)
  | .other msg => msg

def reassemblyMachine (ms : ℕ → Bytes 80) : Machine Reassembly BusItem (Option (Bytes 80)) where
  step s item := callbackReceiveMsg s (item.frame ms)

/-- Every piece of the message up to `p` is among those seen. -/
def Whole (seen : List ℕ) (p : ℕ) : Prop := ∀ i < p % 10 + 1, 10 * (p / 10) + i ∈ seen

instance (seen : List ℕ) (p : ℕ) : Decidable (Whole seen p) :=
  inferInstanceAs (Decidable (∀ i < p % 10 + 1, 10 * (p / 10) + i ∈ seen))

/-- **What should be handed out**: a message, each time its last piece arrives
and its other pieces have been seen. -/
def arrivals (ms : ℕ → Bytes 80) : Machine (List ℕ) BusItem (Option (Bytes 80)) where
  step seen
    | .piece p =>
        (if p % 10 = 9 ∧ Whole (p :: seen) p then some (ms (p / 10)) else none, p :: seen)
    | .other _ => (none, seen)

/-- The frames of other ids that may be on the bus: remote frames, and ids below
`0x100` or from `0x10A` to `0x1FF`. -/
def PassedOver (msg : CanMessage) : Prop :=
  remoteFrame msg.id ∨ arbitrationId msg.id < 0x100 ∨
    (0x109 < arbitrationId msg.id ∧ arbitrationId msg.id < 0x200)

instance (msg : CanMessage) : Decidable (PassedOver msg) := inferInstanceAs (Decidable (_ ∨ _ ∨ _))

/-- **The bus**: pieces arrive in their order, at most seven in a row are lost,
and the last one that arrived may arrive again. -/
def BusKeeps (seen : List ℕ) : BusItem → Prop
  | .piece p => ∀ last ∈ seen.head?, last ≤ p ∧ p ≤ last + 8
  | .other msg => PassedOver msg

instance (seen : List ℕ) : (item : BusItem) → Decidable (BusKeeps seen item)
  | .piece p => inferInstanceAs (Decidable (∀ last ∈ seen.head?, last ≤ p ∧ p ≤ last + 8))
  | .other msg => inferInstanceAs (Decidable (PassedOver msg))

/-! ## One piece -/

theorem piece_words : ∀ i < 10,
    remoteFrame (standardId (256 + UInt32.ofNat i)) = false ∧
      256 ≤ arbitrationId (standardId (256 + UInt32.ofNat i)) ∧
      pieceIndex (standardId (256 + UInt32.ofNat i)) = UInt8.ofNat i ∧
      ¬ UInt8.ofNat i > 9 ∧ 1 + UInt8.ofNat i = UInt8.ofNat (i + 1) ∧
      (UInt8.ofNat i).toNat = i ∧ (UInt8.ofNat i < 9 ↔ i < 9) := by
  decide

theorem index_eq_iff : ∀ a ≤ 10, ∀ b ≤ 10, (UInt8.ofNat a = UInt8.ofNat b ↔ a = b) := by
  decide

theorem toList_piece (msg : Bytes 80) {i : ℕ} (hi : i < 10) :
    (canFragment 256 msg i).buf.toList = (msg.toList.drop (8 * i)).take 8 := by
  have hlen : msg.toList.length = 80 := List.Vector.toList_length msg
  have hofn : (canFragment 256 msg i).buf.toList =
      List.ofFn fun ix : Fin 8 => msg.toList.getD (8 * i + ix) 0 := List.Vector.toList_ofFn _
  rw [hofn]
  refine List.ext_getElem ?_ fun k hk hk' => ?_
  · rw [List.length_ofFn, List.length_take, List.length_drop, hlen]
    omega
  · rw [List.length_ofFn] at hk
    rw [List.getElem_ofFn, List.getElem_take, List.getElem_drop, List.getD_eq_getElem]

/-- A piece, by the number of pieces collected. -/
theorem receive_piece {s : Reassembly} {n : ℕ} (hn : s.nextIdx = UInt8.ofNat n) (hn9 : n ≤ 9)
    (msg : Bytes 80) {i : ℕ} (hi : i < 10) :
    callbackReceiveMsg s (canFragment 256 msg i) =
      if i + 1 = n then (none, s)
      else if i ≠ 0 ∧ i ≠ n then (none, { s with nextIdx := 0 })
      else
        let buf := overwrite s.buf (8 * i) ((msg.toList.drop (8 * i)).take 8)
        if i < 9 then (none, ⟨UInt8.ofNat (i + 1), buf⟩) else (some buf, ⟨s.nextIdx, buf⟩) := by
  obtain ⟨hremote, hid, hindex, hnot, hsucc, hnat, hlast⟩ := piece_words i hi
  have hn10 : n ≤ 10 := Nat.le_succ_of_le hn9
  have hrepeat : UInt8.ofNat (i + 1) = s.nextIdx ↔ i + 1 = n := by
    rw [hn]
    exact index_eq_iff (i + 1) hi n hn10
  have hwanted : UInt8.ofNat i = s.nextIdx ↔ i = n := by
    rw [hn]
    exact index_eq_iff i hi.le n hn10
  have hfirst : UInt8.ofNat i = 0 ↔ i = 0 := index_eq_iff i hi.le 0 (Nat.zero_le 10)
  have hpiece : (canFragment 256 msg i).id = standardId (256 + UInt32.ofNat i) := rfl
  have hlen : (canFragment 256 msg i).len = 8 := rfl
  unfold callbackReceiveMsg
  rw [hpiece, hlen, hremote, hindex]
  simp only [hid, hnot, hsucc, hnat, hlast, hrepeat, hwanted, hfirst, toList_piece msg hi]
  by_cases hsame : i + 1 = n
  · simp [hsame]
  · by_cases htaken : i = 0 ∨ i = n
    · have hother : ¬ (i ≠ 0 ∧ i ≠ n) := fun h => htaken.elim h.1 h.2
      simp [hsame, htaken, hother]
    · have hother : i ≠ 0 ∧ i ≠ n := not_or.mp htaken
      simp [hsame, hother]

/-! ## The monitor and the arrivals -/

/-- The pieces up to `p` are in the buffer, and the next one is awaited. Behind
the last piece the monitor still awaits it. -/
structure Collects (ms : ℕ → Bytes 80) (s : Reassembly) (p : ℕ) : Prop where
  next : s.nextIdx = UInt8.ofNat (min (p % 10 + 1) 9)
  pieces : s.buf.toList.take (8 * (p % 10 + 1)) = (ms (p / 10)).toList.take (8 * (p % 10 + 1))

/-- **The monitor and the pieces seen.** -/
def Reassembles (ms : ℕ → Bytes 80) (s : Reassembly) : List ℕ → Prop
  | [] => s.nextIdx = 0
  | p :: seen => (∀ r ∈ seen, r ≤ p) ∧
      if Whole (p :: seen) p then Collects ms s p else s.nextIdx = 0

theorem take_overwrite {buf msg : Bytes 80} {i : ℕ} (hi : i < 10)
    (h : buf.toList.take (8 * i) = msg.toList.take (8 * i)) :
    (overwrite buf (8 * i) ((msg.toList.drop (8 * i)).take 8)).toList.take (8 * (i + 1)) =
      msg.toList.take (8 * (i + 1)) := by
  have hlen : msg.toList.length = 80 := List.Vector.toList_length msg
  have hdata : ((msg.toList.drop (8 * i)).take 8).length = 8 := by
    rw [List.length_take, List.length_drop, hlen]
    omega
  have hfits : ((msg.toList.drop (8 * i)).take 8).take (80 - 8 * i) =
      (msg.toList.drop (8 * i)).take 8 := List.take_of_length_le (by omega)
  have hsplit : msg.toList.take (8 * (i + 1)) =
      msg.toList.take (8 * i) ++ (msg.toList.drop (8 * i)).take 8 := by
    rw [Nat.mul_succ, List.take_add]
  rw [toList_overwrite, hfits, h, ← hsplit]
  refine List.take_left' ?_
  rw [List.length_take, hlen]
  omega

/-! ### Which messages are whole -/

theorem whole_first {q : ℕ} (seen : List ℕ) (hq : q % 10 = 0) : Whole (q :: seen) q := by
  intro i hi
  have hsame : 10 * (q / 10) + i = q := by omega
  rw [hsame]
  exact List.mem_cons_self

/-- A piece close behind the last one is whole with the message before it. -/
theorem whole_next {seen : List ℕ} {p q : ℕ} (hseen : ∀ r ∈ seen, r ≤ p) (hle : p ≤ q)
    (hnear : q ≤ p + 8) :
    Whole (q :: p :: seen) q ↔
      q % 10 = 0 ∨ Whole (p :: seen) p ∧ (q = p ∨ q = p + 1 ∧ p % 10 < 9) := by
  have hall : ∀ r ∈ p :: seen, r ≤ p := List.forall_mem_cons.mpr ⟨le_rfl, hseen⟩
  constructor
  · intro hwhole
    by_cases hfirst : q % 10 = 0
    · exact .inl hfirst
    · have hstart := hwhole 0 (Nat.succ_pos _)
      have hmessage : q / 10 = p / 10 := by
        rcases List.mem_cons.mp hstart with heq | hmem
        · omega
        · have hbefore := hall _ hmem
          omega
      refine .inr ⟨?_, ?_⟩
      · intro i hi
        rcases List.mem_cons.mp (hwhole i (by omega)) with heq | hmem
        · have hqp : q = p := by omega
          rw [← hmessage, heq, hqp]
          exact List.mem_cons_self
        · rw [← hmessage]
          exact hmem
      · by_cases hgap : p + 2 ≤ q
        · rcases List.mem_cons.mp (hwhole (p % 10 + 1) (by omega)) with heq | hmem
          · omega
          · have hbefore := hall _ hmem
            omega
        · omega
  · rintro (hfirst | ⟨hwhole, rfl | ⟨rfl, hlt⟩⟩)
    · exact whole_first _ hfirst
    · intro i hi
      exact List.mem_cons_of_mem _ (hwhole i hi)
    · intro i hi
      by_cases hlast : i = p % 10 + 1
      · have hnew : 10 * ((p + 1) / 10) + i = p + 1 := by omega
        rw [hnew]
        exact List.mem_cons_self
      · have hmessage : (p + 1) / 10 = p / 10 := by omega
        rw [hmessage]
        exact List.mem_cons_of_mem _ (hwhole i (by omega))

/-- **How the monitor takes a piece**, by the number of pieces it has counted. -/
structure TakesPiece (ms : ℕ → Bytes 80) (s : Reassembly) (seen : List ℕ) (q n : ℕ) : Prop where
  count : s.nextIdx = UInt8.ofNat n
  count_le : n ≤ 9
  repeated : q % 10 + 1 = n → Whole (q :: seen) q ∧ Collects ms s q
  dropped : q % 10 ≠ 0 → q % 10 ≠ n → q % 10 + 1 ≠ n → ¬ Whole (q :: seen) q
  wanted : q % 10 ≠ 0 → q % 10 = n →
    Whole (q :: seen) q ∧ s.buf.toList.take (8 * (q % 10)) = (ms (q / 10)).toList.take (8 * (q % 10))

theorem takesPiece {ms : ℕ → Bytes 80} {s : Reassembly} {seen : List ℕ} {q : ℕ}
    (h : Reassembles ms s seen) (hbus : BusKeeps seen (.piece q)) :
    ∃ n, TakesPiece ms s seen q n := by
  cases seen with
  | nil =>
      refine ⟨0, h, Nat.zero_le 9, ?_, ?_, ?_⟩
      · intro hzero
        exact absurd hzero (Nat.succ_ne_zero _)
      · rintro hne - - hwhole
        have hstart := List.mem_singleton.mp (hwhole 0 (Nat.succ_pos _))
        omega
      · intro hne hzero
        exact absurd hzero hne
  | cons p seen =>
      obtain ⟨hle, hnear⟩ := hbus p rfl
      obtain ⟨hseen, hstate⟩ := h
      have hnext := whole_next hseen hle hnear
      by_cases hwhole : Whole (p :: seen) p
      · rw [if_pos hwhole] at hstate
        obtain ⟨hcount, hpieces⟩ := hstate
        refine ⟨min (p % 10 + 1) 9, hcount, Nat.min_le_right _ 9, ?_, ?_, ?_⟩
        · intro hrepeat
          obtain rfl : q = p := by omega
          exact ⟨hnext.mpr (.inr ⟨hwhole, .inl rfl⟩), hcount, hpieces⟩
        · intro hne hnot hnot' hall
          rcases hnext.mp hall with hfirst | ⟨-, rfl | ⟨rfl, hlt⟩⟩
          · exact hne hfirst
          · omega
          · omega
        · intro hne hwanted
          by_cases hsame : q = p
          · subst hsame
            refine ⟨hnext.mpr (.inr ⟨hwhole, .inl rfl⟩), ?_⟩
            have hshort := congrArg (List.take (8 * (q % 10))) hpieces
            rwa [List.take_take, List.take_take, Nat.min_eq_left (by omega)] at hshort
          · have hlt : p % 10 < 9 := by omega
            obtain rfl : q = p + 1 := by omega
            refine ⟨hnext.mpr (.inr ⟨hwhole, .inr ⟨rfl, hlt⟩⟩), ?_⟩
            have hindex : (p + 1) % 10 = p % 10 + 1 := by omega
            have hmessage : (p + 1) / 10 = p / 10 := by omega
            rw [hindex, hmessage]
            exact hpieces
      · rw [if_neg hwhole] at hstate
        refine ⟨0, hstate, Nat.zero_le 9, ?_, ?_, ?_⟩
        · intro hzero
          exact absurd hzero (Nat.succ_ne_zero _)
        · rintro hne - - hall
          rcases hnext.mp hall with hfirst | ⟨hold, -⟩
          · exact hne hfirst
          · exact hwhole hold
        · intro hne hzero
          exact absurd hzero hne

/-! ## Every run -/

/-- The index of an id that is not below the range of the pieces. -/
theorem nine_lt_pieceIndex_iff {id : UInt32} (hid : 256 ≤ arbitrationId id) :
    9 < pieceIndex id ↔ 0x109 < arbitrationId id ∧ arbitrationId id < 0x200 := by
  have hlo : 256 ≤ (arbitrationId id).toNat := UInt32.le_iff_toNat_le.mp hid
  have hsub : (arbitrationId id - 256).toNat = (arbitrationId id).toNat - 256 :=
    UInt32.toNat_sub_of_le _ _ hid
  rw [pieceIndex]
  split
  · next hle =>
      have hle' := UInt32.le_iff_toNat_le.mp hle
      rw [hsub] at hle'
      rw [UInt8.lt_iff_toNat_lt, UInt32.lt_iff_toNat_lt, UInt32.lt_iff_toNat_lt,
        UInt32.toNat_toUInt8, hsub]
      simp at hle' ⊢
      omega
  · next hgt =>
      refine iff_of_false (by decide) fun h => hgt ?_
      have hhi := UInt32.lt_iff_toNat_lt.mp h.2
      rw [UInt32.le_iff_toNat_le, hsub]
      simp at hhi ⊢
      omega

theorem passedOver_step (s : Reassembly) {msg : CanMessage} (h : PassedOver msg) :
    callbackReceiveMsg s msg = (none, s) := by
  unfold callbackReceiveMsg
  split
  · next hdata =>
      have hindex : 9 < pieceIndex msg.id := by
        rw [nine_lt_pieceIndex_iff hdata.2]
        refine h.resolve_left ?_ |>.resolve_left (UInt32.not_lt.mpr hdata.2)
        simpa using hdata.1
      exact if_neg (by simp [hindex])
  · rfl

/-- Any other frame is taken for a first piece, or drops what was collected. -/
theorem counted_step {s : Reassembly} {msg : CanMessage} (h : ¬PassedOver msg)
    (hrepeat : 1 + pieceIndex msg.id ≠ s.nextIdx) (hwanted : pieceIndex msg.id ≠ s.nextIdx) :
    (callbackReceiveMsg s msg).1 = none ∧
      ((callbackReceiveMsg s msg).2.nextIdx = 0 ∨ (callbackReceiveMsg s msg).2.nextIdx = 1) := by
  rw [PassedOver, not_or, not_or] at h
  obtain ⟨hremote, hid, hindex⟩ := h
  have hdata : (!remoteFrame msg.id) = true ∧ 256 ≤ arbitrationId msg.id :=
    ⟨by simpa using hremote, UInt32.not_lt.mp hid⟩
  rw [← nine_lt_pieceIndex_iff hdata.2] at hindex
  unfold callbackReceiveMsg
  rw [if_pos hdata]
  dsimp only
  rw [if_pos (by simp [hrepeat, hindex])]
  split
  · exact ⟨rfl, .inl rfl⟩
  · next htaken =>
      have hzero : pieceIndex msg.id = 0 := by
        by_contra hne
        exact htaken (.inl (by simp [hne, hwanted]))
      rw [hzero, if_pos (by decide)]
      exact ⟨rfl, .inr rfl⟩

theorem Reassembles.behind {ms : ℕ → Bytes 80} {s : Reassembly} {seen : List ℕ} {q : ℕ}
    (h : Reassembles ms s seen) (hbus : BusKeeps seen (.piece q)) : ∀ r ∈ seen, r ≤ q := by
  cases seen with
  | nil => exact fun r hr => absurd hr List.not_mem_nil
  | cons p seen =>
      obtain ⟨hle, -⟩ := hbus p rfl
      have hall : ∀ r ∈ p :: seen, r ≤ p := List.forall_mem_cons.mpr ⟨le_rfl, h.1⟩
      exact fun r hr => (hall r hr).trans hle

theorem piece_step {ms : ℕ → Bytes 80} {s : Reassembly} {seen : List ℕ} {q : ℕ}
    (h : Reassembles ms s seen) (hbus : BusKeeps seen (.piece q)) :
    (callbackReceiveMsg s (canFragment 256 (ms (q / 10)) (q % 10))).1 =
        (if q % 10 = 9 ∧ Whole (q :: seen) q then some (ms (q / 10)) else none) ∧
      Reassembles ms (callbackReceiveMsg s (canFragment 256 (ms (q / 10)) (q % 10))).2
        (q :: seen) := by
  obtain ⟨n, hcount, hn9, hrepeated, hdropped, hwanted⟩ := takesPiece h hbus
  have hbehind := h.behind hbus
  have hi : q % 10 < 10 := Nat.mod_lt q (by decide)
  rw [receive_piece hcount hn9 (ms (q / 10)) hi]
  by_cases hrepeat : q % 10 + 1 = n
  · obtain ⟨hwhole, hcollects⟩ := hrepeated hrepeat
    rw [if_pos hrepeat, if_neg (by omega)]
    refine ⟨rfl, hbehind, ?_⟩
    rw [if_pos hwhole]
    exact hcollects
  · rw [if_neg hrepeat]
    by_cases hother : q % 10 ≠ 0 ∧ q % 10 ≠ n
    · have hbroken := hdropped hother.1 hother.2 hrepeat
      rw [if_pos hother, if_neg (fun hall => hbroken hall.2)]
      refine ⟨rfl, hbehind, ?_⟩
      rw [if_neg hbroken]
    · rw [if_neg hother]
      have htaken : Whole (q :: seen) q ∧ s.buf.toList.take (8 * (q % 10)) =
          (ms (q / 10)).toList.take (8 * (q % 10)) := by
        by_cases hfirst : q % 10 = 0
        · refine ⟨whole_first seen hfirst, ?_⟩
          rw [hfirst]
          rfl
        · exact hwanted hfirst (not_not.mp fun hne => hother ⟨hfirst, hne⟩)
      obtain ⟨hwhole, hpieces⟩ := htaken
      have hbuf := take_overwrite hi hpieces
      dsimp only
      by_cases hlast : q % 10 < 9
      · rw [if_pos hlast, if_neg (by omega)]
        refine ⟨rfl, hbehind, ?_⟩
        rw [if_pos hwhole]
        refine ⟨?_, hbuf⟩
        rw [Nat.min_eq_left hlast]
      · have hnine : q % 10 = 9 := by omega
        have hn : n = 9 := by
          by_contra hne
          exact hother ⟨by omega, by omega⟩
        have hall : overwrite s.buf (8 * (q % 10))
            (((ms (q / 10)).toList.drop (8 * (q % 10))).take 8) = ms (q / 10) := by
          apply vec_ext
          have hend : 80 ≤ 8 * (q % 10 + 1) := by omega
          rwa [List.take_of_length_le ((List.Vector.toList_length _).le.trans hend),
            List.take_of_length_le ((List.Vector.toList_length _).le.trans hend)] at hbuf
        rw [if_neg hlast, if_pos ⟨hnine, hwhole⟩]
        refine ⟨congrArg some hall, hbehind, ?_⟩
        rw [if_pos hwhole]
        refine ⟨?_, hbuf⟩
        rw [hnine, hcount, hn]
        rfl

theorem reassembles_step (ms : ℕ → Bytes 80) (s : Reassembly) (seen : List ℕ) (item : BusItem)
    (h : Reassembles ms s seen) (hbus : BusKeeps seen item) :
    ((reassemblyMachine ms).step s item).1 = ((arrivals ms).step seen item).1 ∧
      Reassembles ms ((reassemblyMachine ms).step s item).2 ((arrivals ms).step seen item).2 := by
  cases item with
  | piece q => exact piece_step h hbus
  | other msg =>
      have hstep : (reassemblyMachine ms).step s (.other msg) = (none, s) := passedOver_step s hbus
      rw [hstep]
      exact ⟨rfl, h⟩

/-- Pieces behind the second do not complete anything when at most one piece is
collected. -/
theorem pieces_dropped (ms : ℕ → Bytes 80) {s : Reassembly}
    (hs : s.nextIdx = 0 ∨ s.nextIdx = 1) {ps : List ℕ} (hps : ∀ p ∈ ps, 2 ≤ p ∧ p < 10) :
    ((reassemblyMachine ms).answers s (ps.map .piece)).reduceOption = [] := by
  induction ps generalizing s with
  | nil => rfl
  | cons p ps ih =>
      obtain ⟨hlo, hhi⟩ := hps p List.mem_cons_self
      obtain ⟨n, hn, hle⟩ : ∃ n, s.nextIdx = UInt8.ofNat n ∧ n ≤ 1 :=
        hs.elim (fun h => ⟨0, h, Nat.zero_le 1⟩) fun h => ⟨1, h, le_rfl⟩
      have hmod : p % 10 = p := Nat.mod_eq_of_lt hhi
      have hstep : (reassemblyMachine ms).step s (.piece p) = (none, { s with nextIdx := 0 }) := by
        show callbackReceiveMsg s (canFragment 256 (ms (p / 10)) (p % 10)) = _
        rw [receive_piece hn (by omega) _ (Nat.mod_lt p (by decide)), hmod, if_neg (by omega),
          if_pos ⟨by omega, by omega⟩]
      rw [List.map_cons, Machine.answers_cons, hstep]
      exact ih (.inl rfl) fun q hq => hps q (List.mem_cons_of_mem p hq)

/-- Where the first message is cut so that a frame with an index spoils it. -/
def cutBefore (idx : UInt8) : ℕ := if idx = 4 ∨ idx = 5 then 2 else 5

/-- The first message, and a frame in it. -/
def cutItems (item : BusItem) (k : ℕ) : List BusItem :=
  (List.range k).map .piece ++ item :: (List.range' k (10 - k)).map .piece

/-- One frame that is not passed over, at its place in the first message. -/
theorem counted_spoils (ms : ℕ → Bytes 80) {msg : CanMessage} (h : ¬PassedOver msg) :
    let items := cutItems (.other msg) (cutBefore (pieceIndex msg.id))
    ((reassemblyMachine ms).answers .init items).reduceOption = [] ∧
      ((arrivals ms).answers [] items).reduceOption = [ms 0] := by
  have hrun : ∀ k, k = 2 ∨ k = 5 → 1 + pieceIndex msg.id ≠ UInt8.ofNat k →
      pieceIndex msg.id ≠ UInt8.ofNat k →
      ((reassemblyMachine ms).answers .init (cutItems (.other msg) k)).reduceOption = [] ∧
      ((arrivals ms).answers [] (cutItems (.other msg) k)).reduceOption = [ms 0] := by
    intro k hk hrepeat hwanted
    have hbus : (arrivals ms).Along BusKeeps [] ((List.range k).map .piece) := by
      rcases hk with rfl | rfl <;> exact of_decide_eq_true rfl
    obtain ⟨hanswers, hstate⟩ :=
      Machine.rel_run (reassembles_step ms) (s := .init) (t := []) rfl hbus
    have hnext : ((reassemblyMachine ms).exec .init ((List.range k).map .piece)).nextIdx =
        UInt8.ofNat k := by
      rcases hk with rfl | rfl
      · exact hstate.2.next
      · exact hstate.2.next
    rw [← hnext] at hrepeat hwanted
    obtain ⟨hnone, hleft⟩ := counted_step h hrepeat hwanted
    constructor
    · rw [cutItems, Machine.outputs_append, hanswers, Machine.answers_cons,
        Machine.reduceOption_cons]
      have hbehind : ∀ p ∈ List.range' k (10 - k), 2 ≤ p ∧ p < 10 := by
        intro p hp
        rw [List.mem_range'_1] at hp
        omega
      have hrest := pieces_dropped ms hleft hbehind
      rw [show ((reassemblyMachine ms).step _ (.other msg)).1 = none from hnone]
      rcases hk with rfl | rfl <;> exact hrest
    · rcases hk with rfl | rfl <;> rfl
  intro items
  show ((reassemblyMachine ms).answers .init (cutItems _ (cutBefore _))).reduceOption = [] ∧ _
  by_cases hindex : pieceIndex msg.id = 4 ∨ pieceIndex msg.id = 5
  · have hcut : cutBefore (pieceIndex msg.id) = 2 := if_pos hindex
    simp only [items, hcut]
    rcases hindex with h4 | h5
    · exact hrun 2 (.inl rfl) (by rw [h4]; decide) (by rw [h4]; decide)
    · exact hrun 2 (.inl rfl) (by rw [h5]; decide) (by rw [h5]; decide)
  · have hcut : cutBefore (pieceIndex msg.id) = 5 := if_neg hindex
    rw [not_or] at hindex
    simp only [items, hcut]
    refine hrun 5 (.inr rfl) (fun heq => hindex.1 ?_) hindex.2
    exact (UInt8.add_right_inj 1).mp heq

/-- A repetition, a frame of another id, and a piece of the second message lost. -/
def lossyItems : List BusItem :=
  [0, 1, 2, 3, 3, 4].map .piece ++ [.other ⟨standardId 66, 8, zeros 8⟩] ++
    [5, 6, 7, 8, 9, 10, 11, 12, 13, 15, 16, 17, 18, 19].map .piece ++
    [20, 21, 22, 23, 24, 25, 26, 27, 28, 29].map .piece

/-- Eight pieces lost in a row: the last piece of the second message completes
the first message once more. -/
example :
    ((reassemblyMachine numbered).answers .init
      ([0, 1, 2, 3, 4, 5, 6, 7, 8, 9, 18, 19].map .piece)).reduceOption =
        [numbered 0, overwrite (numbered 0) 72 (List.replicate 8 1)] := by
  decide +kernel

end GecRelay
