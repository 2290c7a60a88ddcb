import GecRelay.Ground.Receive
import Mathlib.Data.List.Induction

/-!
# Lost packets

The ground station keeps the sequence number of the last message of system 1
and compares it with that of the next message, whatever system that is from.
The count is right for system 1 alone; a message of another system adds its
distance from system 1's number, so the count stays right exactly when every
such message happens to carry the number system 1 would use next.
-/

namespace GecRelay

open Foundation

variable {κ σ : Type}

/-- The counters after some messages. -/
def received (msgs : List MavlinkMessage) : PacketCount :=
  msgs.foldl PacketCount.count { allPackets := 0, lostPackets := 0, lastSeq := -1 }

/-- The numbers skipped between two messages. -/
def lostBetween (prev next : UInt8) : Int := ((next.toNat : Int) - prev.toNat - 1) % 256

/-- The sum over consecutive sequence numbers. -/
def lossesOf : List UInt8 → Int
  | [] => 0
  | [_] => 0
  | prev :: next :: seqs => lostBetween prev next + lossesOf (next :: seqs)

def systemOneSeqs (msgs : List MavlinkMessage) : List UInt8 :=
  (msgs.filter fun msg => msg.sysid = 1).map MavlinkMessage.seq

/-- The largest `int`. -/
def intMax : Int := 2 ^ 31 - 1

/-- No counter has overflowed, and `lost_packets` is the loss of system 1. -/
def Accounted (msgs : List MavlinkMessage) : Prop :=
  (received msgs).allPackets ≤ intMax ∧ (received msgs).lostPackets ≤ intMax ∧
  (received msgs).lostPackets = lossesOf (systemOneSeqs msgs)

/-- A message of another system that comes after one of system 1 carries the
next number of system 1. -/
def OthersInStep (msgs : List MavlinkMessage) : Prop :=
  ∀ done msg later, msgs = done ++ msg :: later → msg.sysid ≠ 1 →
    ∀ prev ∈ (systemOneSeqs done).getLast?, msg.seq = prev + 1

/-! ## The messages of a run -/

def parsedMsgs (parse : MavlinkParser σ) (p : σ) : List UInt8 → List MavlinkMessage
  | [] => []
  | c :: cs => (parse p c).1.toList ++ parsedMsgs parse (parse p c).2 cs

def parserAfter (parse : MavlinkParser σ) (p : σ) (cs : List UInt8) : σ :=
  cs.foldl (fun p c => (parse p c).2) p

theorem parsedMsgs_append (parse : MavlinkParser σ) (p : σ) (xs ys : List UInt8) :
    parsedMsgs parse p (xs ++ ys) =
      parsedMsgs parse p xs ++ parsedMsgs parse (parserAfter parse p xs) ys := by
  induction xs generalizing p with
  | nil => rfl
  | cons x xs ih =>
      rw [List.cons_append, parsedMsgs, ih, parsedMsgs, List.append_assoc]
      rfl

theorem drainAll_counts (parse : MavlinkParser σ) (q : QueueT) (p : σ) (n : PacketCount) :
    let d := drainAll parse q p n
    d.2.2.1 = parserAfter parse p d.1 ∧
    d.2.2.2 = (parsedMsgs parse p d.1).foldl PacketCount.count n := by
  induction q, p, n using drainAll.induct parse with
  | case1 q p n hzero =>
      rw [drainAll, if_pos hzero]
      exact ⟨rfl, rfl⟩
  | case2 q p n hne d r ih =>
      rw [drainAll, if_neg hne]
      refine ⟨ih.1, ih.2.trans ?_⟩
      rw [parsedMsgs, List.foldl_append]
      congr 1
      show r.1.elim n n.count = r.1.toList.foldl PacketCount.count n
      cases r.1 with
      | none => rfl
      | some msg => rfl

theorem receiveStep_counts (G : Gcm κ) (parse : MavlinkParser σ) (s : ReceiveState κ σ)
    (o : ReadOutcome) :
    let r := (receiveMachine G parse).step s o
    r.2.parser = parserAfter parse s.parser r.1 ∧
    r.2.packets = (parsedMsgs parse s.parser r.1).foldl PacketCount.count s.packets := by
  intro r
  cases hpoint : s.point with
  | magic =>
      simp only [r, receiveMachine, receiveStep, hpoint]
      exact ⟨rfl, rfl⟩
  | tag =>
      simp only [r, receiveMachine, receiveStep, hpoint]
      exact ⟨rfl, rfl⟩
  | body =>
      simp only [r, receiveMachine, receiveStep, hpoint]
      split
      · exact ⟨rfl, rfl⟩
      · exact drainAll_counts parse _ s.parser s.packets

/-- **The counters of a run** are those of the messages it has parsed. -/
theorem receive_counts (G : Gcm κ) (parse : MavlinkParser σ) (outcomes : List ReadOutcome)
    (s : ReceiveState κ σ) :
    ((receiveMachine G parse).exec s outcomes).packets =
      (parsedMsgs parse s.parser ((receiveMachine G parse).answers s outcomes).flatten).foldl
        PacketCount.count s.packets := by
  induction outcomes generalizing s with
  | nil => rfl
  | cons o outcomes ih =>
      obtain ⟨hparser, hpackets⟩ := receiveStep_counts G parse s o
      rw [Machine.exec_cons, ih, Machine.answers_cons, List.flatten_cons, parsedMsgs_append,
        List.foldl_append, hparser, hpackets]

/-! ## One message -/

theorem received_snoc (msgs : List MavlinkMessage) (msg : MavlinkMessage) :
    received (msgs ++ [msg]) = (received msgs).count msg := by
  rw [received, List.foldl_append]
  rfl

theorem systemOneSeqs_snoc (msgs : List MavlinkMessage) (msg : MavlinkMessage) :
    systemOneSeqs (msgs ++ [msg]) =
      systemOneSeqs msgs ++ if msg.sysid = 1 then [msg.seq] else [] := by
  rw [systemOneSeqs, List.filter_append, List.map_append, ← systemOneSeqs]
  by_cases hsys : msg.sysid = 1 <;> simp [hsys]

theorem allPackets_received (msgs : List MavlinkMessage) :
    (received msgs).allPackets = msgs.length := by
  induction msgs using List.reverseRecOn with
  | nil => rfl
  | append_singleton msgs msg ih =>
      rw [received_snoc, PacketCount.count, ih]
      simp

/-- `last_seq` is the number of the last message of system 1, or -1. -/
theorem lastSeq_received (msgs : List MavlinkMessage) :
    (received msgs).lastSeq =
      (systemOneSeqs msgs).getLast?.elim (-1) fun seq => (seq.toNat : Int) := by
  induction msgs using List.reverseRecOn with
  | nil => rfl
  | append_singleton msgs msg ih =>
      rw [received_snoc, systemOneSeqs_snoc, PacketCount.count, ih]
      by_cases hsys : msg.sysid = 1 <;> simp [hsys]

/-- What a message adds to the count. -/
def lostSince (prev : Option UInt8) (next : UInt8) : Int := prev.elim 0 (lostBetween · next)

theorem lostPackets_snoc (msgs : List MavlinkMessage) (msg : MavlinkMessage) :
    (received (msgs ++ [msg])).lostPackets =
      (received msgs).lostPackets + lostSince (systemOneSeqs msgs).getLast? msg.seq := by
  rw [received_snoc, PacketCount.count, lastSeq_received]
  cases (systemOneSeqs msgs).getLast? with
  | none => simp [lostSince]
  | some prev =>
      have hprev := prev.toNat_lt
      have hseq := msg.seq.toNat_lt
      have hnext : ((prev.toNat : Int) + 1).tmod 256 = (prev.toNat + 1) % 256 :=
        Int.tmod_eq_emod_of_nonneg (by omega)
      have hgap : ((msg.seq.toNat : Int) - prev.toNat - 1 + 256).tmod 256 =
          (msg.seq.toNat - prev.toNat - 1) % 256 := by
        rw [Int.tmod_eq_emod_of_nonneg (by omega), Int.add_emod_right]
      simp only [Option.elim_some, lostSince, lostBetween, hnext, hgap]
      by_cases hskip : (prev.toNat : Int) ≠ -1 ∧ (msg.seq.toNat : Int) ≠ (prev.toNat + 1) % 256
      · rw [if_pos hskip]
      · rw [if_neg hskip]
        omega

theorem lossesOf_snoc (seqs : List UInt8) (seq : UInt8) :
    lossesOf (seqs ++ [seq]) = lossesOf seqs + lostSince seqs.getLast? seq := by
  induction seqs using lossesOf.induct with
  | case1 => rfl
  | case2 prev => simp [lossesOf, lostSince]
  | case3 prev next seqs ih =>
      rw [List.cons_append, List.cons_append, lossesOf, ← List.cons_append, ih, lossesOf,
        List.getLast?_cons_cons]
      omega

theorem lostBetween_nonneg (prev next : UInt8) : 0 ≤ lostBetween prev next :=
  Int.emod_nonneg _ (by decide)

theorem lostBetween_eq_zero_iff {prev next : UInt8} :
    lostBetween prev next = 0 ↔ next = prev + 1 := by
  have hprev := prev.toNat_lt
  have hnext := next.toNat_lt
  rw [lostBetween, ← UInt8.toNat_inj, UInt8.toNat_add]
  simp only [UInt8.reduceToNat]
  omega

theorem lossesOf_le_append (xs ys : List UInt8) : lossesOf xs ≤ lossesOf (xs ++ ys) := by
  induction ys using List.reverseRecOn with
  | nil => rw [List.append_nil]
  | append_singleton ys y ih =>
      have hadd : 0 ≤ lostSince (xs ++ ys).getLast? y := by
        cases (xs ++ ys).getLast? with
        | none => exact Int.le_refl 0
        | some prev => exact lostBetween_nonneg prev y
      rw [← List.append_assoc, lossesOf_snoc]
      omega

/-! ## Whole sequences -/

/-- After a message that the count was right before: it stays right when the
message is of system 1 or adds nothing. -/
theorem accounted_snoc_iff {msgs : List MavlinkMessage} {msg : MavlinkMessage}
    (h : (received msgs).lostPackets = lossesOf (systemOneSeqs msgs)) :
    (received (msgs ++ [msg])).lostPackets = lossesOf (systemOneSeqs (msgs ++ [msg])) ↔
      (msg.sysid ≠ 1 → ∀ prev ∈ (systemOneSeqs msgs).getLast?, msg.seq = prev + 1) := by
  rw [lostPackets_snoc, systemOneSeqs_snoc, h]
  by_cases hsys : msg.sysid = 1
  · rw [if_pos hsys, lossesOf_snoc]
    simp [hsys]
  · rw [if_neg hsys, List.append_nil, add_eq_left]
    simp only [ne_eq, hsys, not_false_eq_true, forall_const]
    cases (systemOneSeqs msgs).getLast? with
    | none => simp [lostSince]
    | some prev =>
        rw [lostSince, Option.elim_some, lostBetween_eq_zero_iff]
        simp

theorem OthersInStep.mono {msgs msgs' : List MavlinkMessage} (h : OthersInStep msgs)
    (hpre : msgs' <+: msgs) : OthersInStep msgs' := by
  rintro done msg later rfl hsys
  obtain ⟨more, rfl⟩ := hpre
  exact h done msg (later ++ more) (by simp) hsys

theorem OthersInStep.lostPackets {msgs : List MavlinkMessage} (h : OthersInStep msgs) :
    (received msgs).lostPackets = lossesOf (systemOneSeqs msgs) := by
  induction msgs using List.reverseRecOn with
  | nil => rfl
  | append_singleton msgs msg ih =>
      exact (accounted_snoc_iff (ih (h.mono (List.prefix_append msgs [msg])))).mpr
        (h msgs msg [] rfl)

/-- **When the count is right.** For every interleaving of messages of any
systems: after every message `lost_packets` is what system 1 has lost, exactly
when every message of another system carries the next number of system 1; and
as long as the counts fit an `int`. -/
theorem packet_loss_exactly (msgs : List MavlinkMessage) :
    (∀ done, done <+: msgs → Accounted done) ↔
      OthersInStep msgs ∧ msgs.length ≤ intMax ∧ lossesOf (systemOneSeqs msgs) ≤ intMax := by
  constructor
  · intro h
    obtain ⟨hall, hlost, heq⟩ := h msgs List.prefix_rfl
    refine ⟨?_, by rwa [allPackets_received] at hall, heq ▸ hlost⟩
    rintro done msg later rfl
    have hbefore := h done (List.prefix_append done _)
    have hafter := h (done ++ [msg]) ⟨later, by simp⟩
    exact (accounted_snoc_iff hbefore.2.2).mp hafter.2.2
  · rintro ⟨hstep, hall, hlost⟩ done hdone
    have heq := (hstep.mono hdone).lostPackets
    obtain ⟨more, rfl⟩ := hdone
    refine ⟨?_, ?_, heq⟩
    · rw [allPackets_received]
      rw [List.length_append] at hall
      omega
    · rw [heq]
      refine (lossesOf_le_append (systemOneSeqs done) (systemOneSeqs more)).trans ?_
      rw [systemOneSeqs, systemOneSeqs, ← List.map_append, ← List.filter_append]
      exact hlost

def fromSystem (sysid seq : UInt8) : MavlinkMessage :=
  { longMessage with sysid := sysid, seq := seq }

/-- Two messages of the vehicle in a row, and one of the ground station between
them. -/
theorem other_system_counted_as_lost :
    (received [fromSystem 1 0, fromSystem 255 100, fromSystem 1 1]).lostPackets = 99 ∧
    lossesOf (systemOneSeqs [fromSystem 1 0, fromSystem 255 100, fromSystem 1 1]) = 0 ∧
    ¬Accounted [fromSystem 1 0, fromSystem 255 100, fromSystem 1 1] := by
  refine ⟨by decide, by decide, fun h => ?_⟩
  exact absurd h.2.2 (by decide)

end GecRelay
