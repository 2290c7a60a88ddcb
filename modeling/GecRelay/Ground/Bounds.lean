import GecRelay.Ground.Receive
import Mathlib.Data.List.GetD

/-!
# The body loop of the ground station

`receive` adds what `read` returns to `cnt`, also when it returns -1, and reads
on at `ct + cnt`. The header scan is not hurt by a failed read: `c` still holds
the byte read last, so a header is two bytes that follow each other on the
line. The body loop is: after -1 it goes back by a byte, out of the array when
it stands at its start. As long as no read fails there, `ct` is filled from 0
to 80 with what follows the header.
-/

namespace GecRelay

open Foundation

variable {κ σ : Type}

/-- The cells of `ct` that a `read` stores to. -/
def writtenCells (s : ReceiveState κ σ) (o : ReadOutcome) : List Int :=
  match s.point with
  | .magic => []
  | .tag => []
  | .body => (List.range o.bytes.length).map fun i : ℕ => s.cnt + i

/-- The value of `cnt` with which a `read` ends the body loop, and the buffer
`gec_decrypt` gets. -/
def leavesBody (s : ReceiveState κ σ) (o : ReadOutcome) : Option (Int × Bytes 80) :=
  match s.point with
  | .magic => none
  | .tag => none
  | .body =>
      if s.cnt + o.ret < 80 then none
      else some (s.cnt + o.ret, ctBytes (storeBytes s.ct s.cnt o.bytes))

/-- `read` answers what the system call allows: at most the bytes asked for. -/
def Allowed (s : ReceiveState κ σ) (o : ReadOutcome) : Prop := o.bytes.length ≤ s.requested

def NoBodyError (s : ReceiveState κ σ) (o : ReadOutcome) : Prop := s.point = .body → o.ret ≠ -1

def lineBytes (outcomes : List ReadOutcome) : List UInt8 := outcomes.flatMap ReadOutcome.bytes

/-- Every write is in `ct[0..80)`, the body loop leaves with `cnt = 80`, and
what it leaves in `ct` are the bytes after a header on the line. -/
def StaysInBounds (G : Gcm κ) (parse : MavlinkParser σ) (s₀ : ReceiveState κ σ)
    (outcomes : List ReadOutcome) : Prop :=
  ∀ done o later, outcomes = done ++ o :: later →
    let s := (receiveMachine G parse).exec s₀ done
    (∀ i ∈ writtenCells s o, 0 ≤ i ∧ i < 80) ∧
    ∀ cnt ct, leavesBody s o = some (cnt, ct) →
      cnt = 80 ∧ ∃ pre, lineBytes (done ++ [o]) =
        pre ++ gecCiphertextFrameMagic :: gecCiphertextFrameTag :: ct.toList

/-- The body loop has stored `got`. -/
structure BodyHolds (s : ReceiveState κ σ) (got : List UInt8) : Prop where
  short : got.length < 80
  cnt : s.cnt = got.length
  stored : ∀ i : ℕ, i < got.length → s.ct (i : Int) = got.getD i 0

/-- What `receive` knows of the line it has read. -/
def OnLine (line : List UInt8) (s : ReceiveState κ σ) : Prop :=
  match s.point with
  | .magic => s.cnt = 0 ∧ (s.c = 0x7e → ∃ pre, line = pre ++ [0x7e])
  | .tag => s.cnt = 0 ∧ s.c = 0x7e ∧ ∃ pre, line = pre ++ [0x7e]
  | .body => ∃ pre got, line = pre ++ 0x7e :: 0 :: got ∧ BodyHolds s got

theorem onLine_init (k : GecSymKey κ) (ct : Int → UInt8) (p : σ) :
    OnLine [] (receiveInit k ct p) :=
  ⟨rfl, fun h => absurd h (show (0xff : UInt8) ≠ 0x7e by decide)⟩

/-- One byte of the header: `c` is the last byte of the line, if it is the
magic byte. -/
theorem header_byte {line : List UInt8} {c : UInt8} (h : c = 0x7e → ∃ pre, line = pre ++ [0x7e])
    {bytes : List UInt8} (hlen : bytes.length ≤ 1) :
    bytes.headD c = 0x7e → ∃ pre, line ++ bytes = pre ++ [0x7e] := by
  intro hc
  match bytes, hlen with
  | [], _ => simpa using h hc
  | [b], _ => exact ⟨line, congrArg (line ++ [·]) hc⟩

theorem onLine_magic (G : Gcm κ) (parse : MavlinkParser σ) {line : List UInt8}
    {s : ReceiveState κ σ} (hpoint : s.point = .magic) (h : OnLine line s) {o : ReadOutcome}
    (hlen : o.bytes.length ≤ 1) : OnLine (line ++ o.bytes) (receiveStep G parse s o).2 := by
  simp only [OnLine, hpoint] at h
  have hbyte := header_byte h.2 hlen
  simp only [receiveStep, hpoint]
  split
  · next hfound => exact ⟨h.1, hfound.2, hbyte hfound.2⟩
  · exact ⟨h.1, hbyte⟩

theorem onLine_tag (G : Gcm κ) (parse : MavlinkParser σ) {line : List UInt8}
    {s : ReceiveState κ σ} (hpoint : s.point = .tag) (h : OnLine line s) {o : ReadOutcome}
    (hlen : o.bytes.length ≤ 1) : OnLine (line ++ o.bytes) (receiveStep G parse s o).2 := by
  simp only [OnLine, hpoint] at h
  obtain ⟨hcnt, hc, pre, hline⟩ := h
  have hbyte := header_byte (c := s.c) (fun _ => ⟨pre, hline⟩) hlen
  simp only [receiveStep, hpoint]
  split
  · next hfound =>
      -- the tag is a byte of this read: what was in `c` before is the magic byte
      rcases hbytes : o.bytes with _ | ⟨b, rest⟩
      · rw [hbytes, hc] at hfound
        exact absurd hfound.2 (by decide)
      · obtain rfl : rest = [] := by
          rw [hbytes] at hlen
          exact List.eq_nil_of_length_eq_zero (Nat.le_zero.mp (Nat.le_of_succ_le_succ hlen))
        rw [hbytes] at hfound
        refine ⟨pre, [], ?_, by decide, hcnt, fun i hi => absurd hi (Nat.not_lt_zero i)⟩
        rw [hline, show b = 0 from hfound.2]
        simp
  · exact ⟨hcnt, hbyte⟩

theorem storeBytes_append {mem : Int → UInt8} {got bytes : List UInt8}
    (h : ∀ i : ℕ, i < got.length → mem (i : Int) = got.getD i 0) (i : ℕ)
    (hi : i < (got ++ bytes).length) :
    storeBytes mem got.length bytes (i : Int) = (got ++ bytes).getD i 0 := by
  rw [List.length_append] at hi
  rw [storeBytes]
  by_cases hold : i < got.length
  · rw [if_neg (by omega), List.getD_append _ _ _ _ hold]
    exact h i hold
  · have hidx : ((i : Int) - got.length).toNat = i - got.length := by omega
    rw [if_pos (by omega), hidx, List.getD_append_right _ _ _ _ (by omega)]

theorem ReadOutcome.ret_eq_length {o : ReadOutcome} (h : o.ret ≠ -1) :
    o.ret = o.bytes.length := by
  cases o with
  | data bytes => rfl
  | error => exact absurd rfl h

theorem ctBytes_storeBytes {s : ReceiveState κ σ} {got bytes : List UInt8} (h : BodyHolds s got)
    (hlen : (got ++ bytes).length = 80) :
    ctBytes (storeBytes s.ct s.cnt bytes) = ⟨got ++ bytes, hlen⟩ := by
  apply ctBytes_eq
  intro i hi
  rw [h.cnt]
  exact storeBytes_append h.stored i (hlen ▸ hi)

/-- A read in the body fits behind what is there: it is stored, or it is the
last one and `ct` is full. -/
theorem body_read (G : Gcm κ) (parse : MavlinkParser σ) {s : ReceiveState κ σ} {got : List UInt8}
    (hpoint : s.point = .body) (h : BodyHolds s got) {o : ReadOutcome} (hlen : Allowed s o)
    (hok : o.ret ≠ -1) :
    (leavesBody s o = none ∧ (receiveStep G parse s o).2.point = .body ∧
      BodyHolds (receiveStep G parse s o).2 (got ++ o.bytes)) ∨
    ∃ hfull : (got ++ o.bytes).length = 80,
      leavesBody s o = some (80, ⟨got ++ o.bytes, hfull⟩) ∧
      (receiveStep G parse s o).2.point = .magic ∧ (receiveStep G parse s o).2.cnt = 0 ∧
      (receiveStep G parse s o).2.c = 0xff := by
  have hret := ReadOutcome.ret_eq_length hok
  rw [Allowed, ReceiveState.requested, hpoint, h.cnt] at hlen
  have hfit : got.length + o.bytes.length ≤ 80 := by
    have hshort := h.short
    simp only at hlen
    omega
  have hsum : s.cnt + o.ret = (got ++ o.bytes).length := by
    rw [h.cnt, hret, List.length_append, Nat.cast_add]
  simp only [leavesBody, receiveStep, hpoint, hsum]
  by_cases hmore : (got ++ o.bytes).length < 80
  · rw [if_pos (by omega), if_pos (by omega)]
    refine Or.inl ⟨rfl, rfl, hmore, rfl, ?_⟩
    rw [h.cnt]
    exact storeBytes_append h.stored
  · have hfull : (got ++ o.bytes).length = 80 := by
      rw [List.length_append] at hmore ⊢
      omega
    have hcnt : ((got ++ o.bytes).length : Int) = 80 := by rw [hfull]; rfl
    rw [if_neg (by omega), if_neg (by omega), ctBytes_storeBytes h hfull]
    exact Or.inr ⟨hfull, congrArg (fun n => some (n, _)) hcnt, rfl, rfl, rfl⟩

theorem onLine_body (G : Gcm κ) (parse : MavlinkParser σ) {line : List UInt8}
    {s : ReceiveState κ σ} (hpoint : s.point = .body) (h : OnLine line s) {o : ReadOutcome}
    (hlen : Allowed s o) (hok : o.ret ≠ -1) :
    OnLine (line ++ o.bytes) (receiveStep G parse s o).2 := by
  simp only [OnLine, hpoint] at h
  obtain ⟨pre, got, hline, hgot⟩ := h
  rcases body_read G parse hpoint hgot hlen hok with
    ⟨-, hnext, hholds⟩ | ⟨-, -, hnext, hzero, hc⟩
  · simp only [OnLine, hnext]
    exact ⟨pre, got ++ o.bytes, by rw [hline]; simp, hholds⟩
  · simp only [OnLine, hnext, hc]
    exact ⟨hzero, fun h => absurd h (by decide)⟩

theorem onLine_step (G : Gcm κ) (parse : MavlinkParser σ) {line : List UInt8}
    {s : ReceiveState κ σ} (h : OnLine line s) {o : ReadOutcome} (hlen : Allowed s o)
    (hok : NoBodyError s o) :
    OnLine (line ++ o.bytes) ((receiveMachine G parse).step s o).2 := by
  cases hpoint : s.point with
  | magic => exact onLine_magic G parse hpoint h (by simpa [Allowed, ReceiveState.requested,
      hpoint] using hlen)
  | tag => exact onLine_tag G parse hpoint h (by simpa [Allowed, ReceiveState.requested,
      hpoint] using hlen)
  | body => exact onLine_body G parse hpoint h hlen (hok hpoint)

theorem onLine_run (G : Gcm κ) (parse : MavlinkParser σ) (done : List ReadOutcome)
    {line : List UInt8} {s : ReceiveState κ σ} (h : OnLine line s)
    (hlen : (receiveMachine G parse).Along Allowed s done)
    (hok : (receiveMachine G parse).Along NoBodyError s done) :
    OnLine (line ++ lineBytes done) ((receiveMachine G parse).exec s done) := by
  induction done generalizing line s with
  | nil => simpa [lineBytes] using h
  | cons o done ih =>
      have hnext := ih (onLine_step G parse h hlen.1 hok.1) hlen.2 hok.2
      rwa [List.append_assoc] at hnext

/-- **The ground station's buffer.** Whatever `read` answers, as long as none
fails in the body loop: every write goes to `ct[0..80)`, the loop leaves with
`cnt = 80`, and `gec_decrypt` gets the 80 bytes that followed a header. -/
theorem receive_stays_in_bounds (G : Gcm κ) (parse : MavlinkParser σ) (k : GecSymKey κ)
    (ct : Int → UInt8) (p : σ) (outcomes : List ReadOutcome)
    (hlen : (receiveMachine G parse).Along Allowed (receiveInit k ct p) outcomes)
    (hok : (receiveMachine G parse).Along NoBodyError (receiveInit k ct p) outcomes) :
    StaysInBounds G parse (receiveInit k ct p) outcomes := by
  rintro done o later rfl s
  rw [Machine.along_append] at hlen hok
  have hline : OnLine (lineBytes done) s :=
    onLine_run G parse done (onLine_init k ct p) hlen.1 hok.1
  cases hpoint : s.point with
  | magic => simp [writtenCells, leavesBody, hpoint]
  | tag => simp [writtenCells, leavesBody, hpoint]
  | body =>
      simp only [OnLine, hpoint] at hline
      obtain ⟨pre, got, hgot, hholds⟩ := hline
      constructor
      · intro i hi
        simp only [writtenCells, hpoint, List.mem_map, List.mem_range] at hi
        obtain ⟨j, hj, rfl⟩ := hi
        have hroom : Allowed s o := hlen.2.1
        simp only [Allowed, ReceiveState.requested, hpoint] at hroom
        have hcnt := hholds.cnt
        omega
      · intro cnt ct' hleave
        rcases body_read G parse hpoint hholds hlen.2.1 (hok.2.1 hpoint) with
          ⟨hnone, -⟩ | ⟨hfull, hsome, -⟩
        · rw [hnone] at hleave
          cases hleave
        · rw [hsome] at hleave
          cases hleave
          refine ⟨rfl, pre, ?_⟩
          rw [lineBytes, List.flatMap_append, ← lineBytes, hgot]
          simp [gecCiphertextFrameMagic, gecCiphertextFrameTag]

instance (s : ReceiveState κ σ) (o : ReadOutcome) : Decidable (Allowed s o) :=
  inferInstanceAs (Decidable (_ ≤ _))

instance (s : ReceiveState κ σ) (o : ReadOutcome) : Decidable (NoBodyError s o) :=
  inferInstanceAs (Decidable (_ → _))

def mixedReads : List ReadOutcome :=
  [.error, .data [0x7e], .error, .error, .data [0], .data (List.replicate 30 1), .data [],
    .data (List.replicate 50 2)]

theorem receive_stays_in_bounds_mixedReads :
    (receiveMachine plainGcm (fun (p : Unit) _ => (none, p))).Along Allowed
      (receiveInit (gecInitSymKeyConfAuth plainGcm (zeros 24)) (fun _ => 0) ()) mixedReads ∧
    (receiveMachine plainGcm (fun (p : Unit) _ => (none, p))).Along NoBodyError
      (receiveInit (gecInitSymKeyConfAuth plainGcm (zeros 24)) (fun _ => 0) ()) mixedReads ∧
    StaysInBounds plainGcm (fun p _ => (none, p))
      (receiveInit (gecInitSymKeyConfAuth plainGcm (zeros 24)) (fun _ => 0) ()) mixedReads :=
  have hlen : (receiveMachine plainGcm (fun (p : Unit) _ => (none, p))).Along Allowed
      (receiveInit (gecInitSymKeyConfAuth plainGcm (zeros 24)) (fun _ => 0) ()) mixedReads := by
    decide
  have hok : (receiveMachine plainGcm (fun (p : Unit) _ => (none, p))).Along NoBodyError
      (receiveInit (gecInitSymKeyConfAuth plainGcm (zeros 24)) (fun _ => 0) ()) mixedReads := by
    decide
  ⟨hlen, hok, receive_stays_in_bounds plainGcm (fun p _ => (none, p))
    (gecInitSymKeyConfAuth plainGcm (zeros 24)) (fun _ => 0) () mixedReads hlen hok⟩

/-- The read after the header fails; the next asks for 81 bytes at `ct - 1`. -/
def failedBodyRead : List ReadOutcome :=
  [.data [0x7e], .data [0], .error, .data (List.replicate 81 1)]

theorem failed_body_read_out_of_bounds :
    (receiveMachine plainGcm (fun (p : Unit) _ => (none, p))).Along Allowed
      (receiveInit (gecInitSymKeyConfAuth plainGcm (zeros 24)) (fun _ => 0) ()) failedBodyRead ∧
    ¬StaysInBounds plainGcm (fun p _ => (none, p))
      (receiveInit (gecInitSymKeyConfAuth plainGcm (zeros 24)) (fun _ => 0) ())
      failedBodyRead := by
  refine ⟨by decide, fun h => ?_⟩
  have hwrite := (h [.data [0x7e], .data [0], .error] (.data (List.replicate 81 1)) [] rfl).1
    (-1) (by decide)
  exact absurd hwrite.1 (by decide)

end GecRelay
