import GecRelay.Foundation.Machine
import GecRelay.Gec.Primitives

/-!
# Messages in pieces on the CAN bus

A message of 80 bytes goes over the bus as ten frames of eight bytes, whose ids
count from `0x200` on. `fragment_drop_monitor` takes a message when none is in
progress and drops it otherwise; `fragment_0x200_monitor` puts the next piece
each time the driver reports the one before it, and gives a message up when the
driver reports a failure or an abort was asked for.

Whatever the order of messages, reports and aborts, what is put on the bus are
the pieces of the messages that were taken, one message after the other and each
from its first piece on (`sender_pieces`).
-/

namespace GecRelay

open Foundation

structure CanMessage where
  id : UInt32
  len : Int32
  buf : Bytes 8
deriving DecidableEq

/-- `can_message_id` of a standard data frame, as the monitors compute it. -/
def standardId (id : UInt32) : UInt32 :=
  (((id <<< 18) &&& 536870911) <<< 2) &&& ~~~1 ||| 0

/-- **The piece `i` of a message.** -/
def canFragment (base : UInt32) (msg : Bytes 80) (i : ℕ) : CanMessage where
  id := standardId (base + UInt32.ofNat i)
  len := 8
  buf := List.Vector.ofFn fun ix => msg.toList.getD (8 * i + ix) 0

/-! ## The sender -/

structure Fragmenter where
  canMsg : Bytes 80
  inProgress : Bool
  fragmentSent : UInt8
  fragmentBuf : Bytes 80
  fragmentAborting : Bool

namespace Fragmenter

def init : Fragmenter where
  canMsg := zeros 80
  inProgress := false
  fragmentSent := 0
  fragmentBuf := zeros 80
  fragmentAborting := false

/-- `callback_fragment_req_0x200`. -/
def callbackFragmentReq0x200 (s : Fragmenter) (msg : Bytes 80) : CanMessage × Fragmenter :=
  let s := { s with fragmentBuf := msg }
  ({ id := standardId 512
     len := 8
     buf := List.Vector.ofFn fun ix => s.fragmentBuf.toList.getD (ix % 80) 0 },
    { s with fragmentSent := 1 })

/-- `callback_new_msg`. -/
def callbackNewMsg (s : Fragmenter) (msg : Bytes 80) : Option CanMessage × Fragmenter :=
  if !s.inProgress then
    let s := { s with canMsg := msg }
    let r := s.callbackFragmentReq0x200 s.canMsg
    (some r.1, { r.2 with inProgress := true })
  else (none, s)

/-- `callback_fragment_done`, and the two resets behind each of its calls. -/
def finish (s : Fragmenter) : Fragmenter :=
  { s with inProgress := false, fragmentSent := 0, fragmentAborting := false }

/-- The frame `callback_fragment_complete_0x200` puts. -/
def nextFrame (s : Fragmenter) : CanMessage :=
  let left : UInt8 := 80 - s.fragmentSent * 8
  let len : UInt8 := if left > 8 then 8 else left
  { id := standardId (((s.fragmentSent.toUInt16 + 512) &&& 2047).toUInt32)
    len := Int32.ofNat (len.toNat % 9)
    buf := List.Vector.ofFn fun ix =>
      if ix ≤ (len - 1).toNat % 8 then
        s.fragmentBuf.toList.getD ((8 * s.fragmentSent.toNat + ix) % 80) 0
      else 0 }

/-- `callback_fragment_complete_0x200`: the frame put, the argument of
`callback_fragment_done`, and the state. -/
def callbackFragmentComplete0x200 (s : Fragmenter) (ok : Bool) :
    (Option CanMessage × Option Bool) × Fragmenter :=
  if !ok then ((none, some false), s.finish)
  else if 80 ≤ 8 * s.fragmentSent.toUInt16 then ((none, some true), s.finish)
  else if s.fragmentAborting then ((none, some false), s.finish)
  else ((some s.nextFrame, none), { s with fragmentSent := s.fragmentSent + 1 })

/-- `callback_fragment_abort_0x200`. -/
def callbackFragmentAbort0x200 (s : Fragmenter) : Fragmenter := { s with fragmentAborting := true }

end Fragmenter

inductive SenderEvent
  | newMsg (msg : Bytes 80)
  | status (ok : Bool)
  | abort
deriving DecidableEq

def senderMachine : Machine Fragmenter SenderEvent (Option CanMessage × Option Bool) where
  step s
    | .newMsg msg => ((( s.callbackNewMsg msg).1, none), (s.callbackNewMsg msg).2)
    | .status ok => s.callbackFragmentComplete0x200 ok
    | .abort => ((none, none), s.callbackFragmentAbort0x200)

/-- The driver reports on a frame that was put. -/
def ReportsFrame (s : Fragmenter) : SenderEvent → Prop
  | .status _ => s.fragmentSent ≠ 0
  | _ => True

instance (s : Fragmenter) : (event : SenderEvent) → Decidable (ReportsFrame s event)
  | .status _ => inferInstanceAs (Decidable (_ ≠ _))
  | .newMsg _ => isTrue trivial
  | .abort => isTrue trivial

/-- The assertions of the monitors. -/
def AssertsHold (s : Fragmenter) : SenderEvent → Prop
  | .newMsg _ => s.inProgress = false → s.fragmentSent = 0
  | .status ok => ok = true → 0 < s.fragmentSent
  | .abort => True

/-! ## What has been put -/

/-- The first `k` pieces of a message. -/
def pieces (part : Bytes 80 × ℕ) : List CanMessage :=
  (List.range part.2).map (canFragment 512 part.1)

/-- The messages offered. -/
def offered : List SenderEvent → List (Bytes 80)
  | [] => []
  | .newMsg msg :: events => msg :: offered events
  | _ :: events => offered events

/-- Neither failures nor aborts. -/
def Smooth (events : List SenderEvent) : Prop :=
  ∀ event ∈ events, event ≠ .abort ∧ event ≠ .status false

/-- The words of the sender, for each piece behind the first. -/
theorem sender_words : ∀ k < 10, 0 < k →
    (if 80 - UInt8.ofNat k * 8 > (8 : UInt8) then 8 else 80 - UInt8.ofNat k * 8) = (8 : UInt8) ∧
      (((UInt8.ofNat k).toUInt16 + 512) &&& 2047).toUInt32 = 512 + UInt32.ofNat k ∧
      (UInt8.ofNat k).toNat = k ∧ ¬ 80 ≤ 8 * (UInt8.ofNat k).toUInt16 ∧
      UInt8.ofNat k + 1 = UInt8.ofNat (k + 1) := by
  decide

theorem nextFrame_eq {s : Fragmenter} {k : ℕ} (hk : s.fragmentSent = UInt8.ofNat k) (hlo : 0 < k)
    (hhi : k < 10) : s.nextFrame = canFragment 512 s.fragmentBuf k := by
  obtain ⟨hlen, hid, hnat, -⟩ := sender_words k hhi hlo
  unfold Fragmenter.nextFrame canFragment
  dsimp only
  rw [hk, hlen, hid, hnat]
  congr 1
  refine congrArg List.Vector.ofFn (funext fun ix => ?_)
  have hix : ix.val ≤ ((8 : UInt8) - 1).toNat % 8 := Nat.lt_succ_iff.mp ix.isLt
  rw [if_pos hix, Nat.mod_eq_of_lt (by omega)]

theorem newMsg_idle {s : Fragmenter} (hprogress : s.inProgress = false) (msg : Bytes 80) :
    s.callbackNewMsg msg = (some (canFragment 512 msg 0),
      { s with canMsg := msg, inProgress := true, fragmentSent := 1, fragmentBuf := msg }) := by
  unfold Fragmenter.callbackNewMsg
  rw [hprogress]
  rfl

theorem newMsg_busy {s : Fragmenter} (hprogress : s.inProgress = true) (msg : Bytes 80) :
    s.callbackNewMsg msg = (none, s) := by
  unfold Fragmenter.callbackNewMsg
  rw [hprogress]
  rfl

/-- The messages that were taken, each with the number of its pieces put: those
that are over, and the one in progress. -/
structure Ledger where
  closed : List (Bytes 80 × ℕ)
  current : Option (Bytes 80 × ℕ)

namespace Ledger

def parts (l : Ledger) : List (Bytes 80 × ℕ) := l.closed ++ l.current.toList

def put (l : Ledger) : List CanMessage := l.parts.flatMap pieces

end Ledger

/-- **The sender keeps the ledger.** -/
structure Sends (s : Fragmenter) (l : Ledger) : Prop where
  range : ∀ part ∈ l.parts, 1 ≤ part.2 ∧ part.2 ≤ 10
  state : (l.current = none ∧ s.inProgress = false ∧ s.fragmentSent = 0) ∨
    ∃ k, l.current = some (s.fragmentBuf, k) ∧ s.inProgress = true ∧ s.fragmentSent = UInt8.ofNat k

/-- Done is reported as true only behind ten pieces. -/
def Told (part : Bytes 80 × ℕ) (done : Bool) : Prop := done = true → part.2 = 10

/-- **What steps add to the ledger.** -/
structure Adds (l l' : Ledger) (events : List SenderEvent)
    (answers : List (Option CanMessage × Option Bool)) : Prop where
  put : l'.put = l.put ++ (answers.map Prod.fst).reduceOption
  taken : ∃ took, l'.parts.map Prod.fst = l.parts.map Prod.fst ++ took ∧
    took.Sublist (offered events)
  ended : ∃ ended, l'.closed = l.closed ++ ended ∧
    List.Forall₂ Told ended (answers.map Prod.snd).reduceOption

theorem pieces_succ (msg : Bytes 80) (k : ℕ) :
    pieces (msg, k + 1) = pieces (msg, k) ++ [canFragment 512 msg k] := by
  simp [pieces, List.range_succ]

theorem offered_append (events more : List SenderEvent) :
    offered (events ++ more) = offered events ++ offered more := by
  induction events with
  | nil => rfl
  | cons event events ih =>
      cases event with
      | newMsg msg => exact congrArg (msg :: ·) ih
      | status ok => exact ih
      | abort => exact ih

theorem Adds.refl (l : Ledger) : Adds l l [] [] where
  put := by simp
  taken := ⟨[], by simp, List.Sublist.refl []⟩
  ended := ⟨[], by simp, List.Forall₂.nil⟩

theorem Adds.trans {l l₁ l₂ : Ledger} {events more : List SenderEvent}
    {answers next : List (Option CanMessage × Option Bool)} (h : Adds l l₁ events answers)
    (h' : Adds l₁ l₂ more next) : Adds l l₂ (events ++ more) (answers ++ next) := by
  obtain ⟨hput, ⟨took, htook, hoffered⟩, ended, hended, htold⟩ := h
  obtain ⟨hput', ⟨took', htook', hoffered'⟩, ended', hended', htold'⟩ := h'
  refine ⟨?_, ⟨took ++ took', ?_, ?_⟩, ended ++ ended', ?_, ?_⟩
  · rw [hput', hput, List.map_append, List.reduceOption_append, List.append_assoc]
  · rw [htook', htook, List.append_assoc]
  · rw [offered_append]
    exact hoffered.append hoffered'
  · rw [hended', hended, List.append_assoc]
  · rw [List.map_append, List.reduceOption_append]
    exact List.rel_append htold htold'

/-- A frame more of the message in progress. -/
theorem Adds.frame {closed : List (Bytes 80 × ℕ)} {msg : Bytes 80} {k : ℕ} {event : SenderEvent} :
    Adds ⟨closed, some (msg, k)⟩ ⟨closed, some (msg, k + 1)⟩ [event]
      [(some (canFragment 512 msg k), none)] where
  put := by simp [Ledger.put, Ledger.parts, pieces_succ, List.reduceOption]
  taken := ⟨[], by simp [Ledger.parts], List.nil_sublist _⟩
  ended := ⟨[], by simp, by simp [List.reduceOption]⟩

theorem Adds.start {closed : List (Bytes 80 × ℕ)} {msg : Bytes 80} :
    Adds ⟨closed, none⟩ ⟨closed, some (msg, 1)⟩ [.newMsg msg] [(some (canFragment 512 msg 0), none)]
    where
  put := by simp [Ledger.put, Ledger.parts, pieces, List.reduceOption]
  taken := ⟨[msg], by simp [Ledger.parts], List.Sublist.refl _⟩
  ended := ⟨[], by simp, by simp [List.reduceOption]⟩

theorem Adds.finish {closed : List (Bytes 80 × ℕ)} {part : Bytes 80 × ℕ} {event : SenderEvent}
    {done : Bool} (htold : Told part done) :
    Adds ⟨closed, some part⟩ ⟨closed ++ [part], none⟩ [event] [(none, some done)] where
  put := by simp [Ledger.put, Ledger.parts, List.reduceOption]
  taken := ⟨[], by simp [Ledger.parts], List.nil_sublist _⟩
  ended := ⟨[part], rfl, by simpa [List.reduceOption] using htold⟩

theorem Adds.idle (l : Ledger) (event : SenderEvent) : Adds l l [event] [(none, none)] where
  put := by simp [List.reduceOption]
  taken := ⟨[], by simp, List.nil_sublist _⟩
  ended := ⟨[], by simp, by simp [List.reduceOption]⟩

/-- Ten pieces are on the bus exactly when the sender counts eighty bytes. -/
theorem all_sent : ∀ k ≤ 10, 1 ≤ k → (80 ≤ 8 * (UInt8.ofNat k).toUInt16 ↔ k = 10) := by
  decide

theorem Sends.range_closed {s : Fragmenter} {l : Ledger} (h : Sends s l) :
    ∀ part ∈ l.closed, 1 ≤ part.2 ∧ part.2 ≤ 10 :=
  fun part hpart => h.range part (List.mem_append_left _ hpart)

theorem range_snoc {closed : List (Bytes 80 × ℕ)} {part : Bytes 80 × ℕ}
    (hclosed : ∀ part ∈ closed, 1 ≤ part.2 ∧ part.2 ≤ 10) (hpart : 1 ≤ part.2 ∧ part.2 ≤ 10) :
    ∀ other ∈ closed ++ [part], 1 ≤ other.2 ∧ other.2 ≤ 10 := by
  intro other hother
  rcases List.mem_append.mp hother with hmem | hmem
  · exact hclosed other hmem
  · rw [List.mem_singleton.mp hmem]
    exact hpart

/-- A report on the frame before. -/
theorem sends_status {s : Fragmenter} {closed : List (Bytes 80 × ℕ)} {k : ℕ}
    (h : Sends s ⟨closed, some (s.fragmentBuf, k)⟩) (hsent : s.fragmentSent = UInt8.ofNat k)
    (hprogress : s.inProgress = true) (ok : Bool) :
    ∃ l', Sends (s.callbackFragmentComplete0x200 ok).2 l' ∧
      Adds ⟨closed, some (s.fragmentBuf, k)⟩ l' [.status ok]
        [(s.callbackFragmentComplete0x200 ok).1] := by
  have hk : 1 ≤ k ∧ k ≤ 10 :=
    h.range (s.fragmentBuf, k) (List.mem_append_right _ (List.mem_singleton_self _))
  have hover : ∀ done, Told (s.fragmentBuf, k) done →
      ∃ l', Sends s.finish l' ∧
        Adds ⟨closed, some (s.fragmentBuf, k)⟩ l' [.status ok] [(none, some done)] := by
    intro done htold
    refine ⟨⟨closed ++ [(s.fragmentBuf, k)], none⟩, ⟨?_, .inl ⟨rfl, rfl, rfl⟩⟩, Adds.finish htold⟩
    intro part hpart
    rw [Ledger.parts, Option.toList_none, List.append_nil] at hpart
    exact range_snoc h.range_closed hk part hpart
  unfold Fragmenter.callbackFragmentComplete0x200
  cases ok with
  | false => exact hover false fun hdone => absurd hdone Bool.false_ne_true
  | true =>
      rw [if_neg (by decide), hsent]
      by_cases hten : k = 10
      · rw [if_pos ((all_sent k hk.2 hk.1).mpr hten)]
        exact hover true fun _ => hten
      · rw [if_neg (fun hle => hten ((all_sent k hk.2 hk.1).mp hle))]
        by_cases habort : s.fragmentAborting = true
        · rw [if_pos habort]
          exact hover false fun hdone => absurd hdone Bool.false_ne_true
        · have hlt : k < 10 := lt_of_le_of_ne hk.2 hten
          obtain ⟨-, -, -, -, hnext⟩ := sender_words k hlt hk.1
          rw [if_neg habort, nextFrame_eq hsent hk.1 hlt, hnext]
          refine ⟨⟨closed, some (s.fragmentBuf, k + 1)⟩, ⟨?_, ?_⟩, Adds.frame⟩
          · exact range_snoc h.range_closed ⟨Nat.le_add_left 1 k, hlt⟩
          · exact .inr ⟨k + 1, rfl, hprogress, rfl⟩

theorem sends_step {s : Fragmenter} {l : Ledger} (h : Sends s l) {event : SenderEvent}
    (hreports : ReportsFrame s event) :
    AssertsHold s event ∧ ∃ l', Sends (senderMachine.step s event).2 l' ∧
      Adds l l' [event] [(senderMachine.step s event).1] := by
  obtain ⟨closed, current⟩ := l
  have hrange := h.range_closed
  rcases h.state with ⟨hcurrent, hprogress, hsent⟩ | ⟨k, hcurrent, hprogress, hsent⟩
  · obtain rfl : current = none := hcurrent
    cases event with
    | newMsg msg =>
        refine ⟨fun _ => hsent, ⟨closed, some (msg, 1)⟩, ?_⟩
        show Sends (s.callbackNewMsg msg).2 _ ∧ Adds _ _ _ [((s.callbackNewMsg msg).1, none)]
        rw [newMsg_idle hprogress]
        have hone : 1 ≤ (msg, 1).2 ∧ (msg, 1).2 ≤ 10 := ⟨le_rfl, Nat.le_add_left 1 9⟩
        exact ⟨⟨range_snoc hrange hone, .inr ⟨1, rfl, rfl, rfl⟩⟩, Adds.start⟩
    | status ok => exact absurd hsent hreports
    | abort =>
        exact ⟨trivial, _, ⟨h.range, .inl ⟨rfl, hprogress, hsent⟩⟩, Adds.idle _ _⟩
  · obtain rfl : current = some (s.fragmentBuf, k) := hcurrent
    cases event with
    | newMsg msg =>
        refine ⟨fun hidle => absurd (hidle.symm.trans hprogress) Bool.false_ne_true,
          ⟨closed, some (s.fragmentBuf, k)⟩, ?_⟩
        show Sends (s.callbackNewMsg msg).2 _ ∧ Adds _ _ _ [((s.callbackNewMsg msg).1, none)]
        rw [newMsg_busy hprogress]
        exact ⟨h, Adds.idle _ _⟩
    | status ok =>
        refine ⟨?_, sends_status h hsent hprogress ok⟩
        rintro -
        exact UInt8.pos_iff_ne_zero.mpr hreports
    | abort =>
        exact ⟨trivial, _, ⟨h.range, .inr ⟨k, rfl, hprogress, hsent⟩⟩, Adds.idle _ _⟩

theorem sends_run {s : Fragmenter} {l : Ledger} (h : Sends s l) {events : List SenderEvent}
    (hreports : senderMachine.Along ReportsFrame s events) :
    senderMachine.Along AssertsHold s events ∧ ∃ l', Sends (senderMachine.exec s events) l' ∧
      Adds l l' events (senderMachine.answers s events) := by
  induction events generalizing s l with
  | nil => exact ⟨trivial, l, h, Adds.refl l⟩
  | cons event events ih =>
      obtain ⟨hassert, l₁, h₁, hadds₁⟩ := sends_step h hreports.1
      obtain ⟨hasserts, l₂, h₂, hadds₂⟩ := ih h₁ hreports.2
      exact ⟨⟨hassert, hasserts⟩, l₂, h₂, hadds₁.trans hadds₂⟩

/-- Nothing is given up without a failure or an abort. -/
theorem smooth_step {s : Fragmenter} (hs : s.fragmentAborting = false) {event : SenderEvent}
    (hevent : event ≠ .abort ∧ event ≠ .status false) :
    (senderMachine.step s event).1.2 ≠ some false ∧
      (senderMachine.step s event).2.fragmentAborting = false := by
  cases event with
  | newMsg msg =>
      refine ⟨Option.some_ne_none _ ∘ Eq.symm, ?_⟩
      show (s.callbackNewMsg msg).2.fragmentAborting = false
      cases hprogress : s.inProgress with
      | false => rw [newMsg_idle hprogress]; exact hs
      | true => rw [newMsg_busy hprogress]; exact hs
  | status ok =>
      have hok : ok = true := by
        cases ok with
        | false => exact absurd rfl hevent.2
        | true => rfl
      subst hok
      show (s.callbackFragmentComplete0x200 true).1.2 ≠ _ ∧
        (s.callbackFragmentComplete0x200 true).2.fragmentAborting = false
      unfold Fragmenter.callbackFragmentComplete0x200
      rw [if_neg (by decide)]
      split
      · exact ⟨fun heq => Bool.false_ne_true (Option.some.inj heq).symm, rfl⟩
      · rw [if_neg (by rw [hs]; decide)]
        exact ⟨Option.some_ne_none _ ∘ Eq.symm, hs⟩
  | abort => exact absurd rfl hevent.1

theorem smooth_run {s : Fragmenter} (hs : s.fragmentAborting = false) {events : List SenderEvent}
    (hsmooth : Smooth events) :
    ∀ done ∈ ((senderMachine.answers s events).map Prod.snd).reduceOption, done = true := by
  induction events generalizing s with
  | nil => simp [List.reduceOption]
  | cons event events ih =>
      obtain ⟨hdone, hnext⟩ := smooth_step hs (hsmooth event List.mem_cons_self)
      have hrest := ih hnext fun e he => hsmooth e (List.mem_cons_of_mem event he)
      intro done hmem
      rw [Machine.answers_cons, List.map_cons, Machine.reduceOption_cons] at hmem
      rcases List.mem_append.mp hmem with hfirst | hlater
      · rw [Option.mem_toList] at hfirst
        cases done with
        | false => exact absurd hfirst hdone
        | true => rfl
      · exact hrest done hlater

theorem told_all {parts : List (Bytes 80 × ℕ)} {dones : List Bool}
    (h : List.Forall₂ Told parts dones) (hdones : ∀ done ∈ dones, done = true) :
    ∀ part ∈ parts, part.2 = 10 := by
  induction h with
  | nil => exact fun part hpart => absurd hpart List.not_mem_nil
  | @cons part done parts dones htold _ ih =>
      intro other hother
      rcases List.mem_cons.mp hother with rfl | hlater
      · exact htold (hdones done List.mem_cons_self)
      · exact ih (fun d hd => hdones d (List.mem_cons_of_mem done hd)) other hlater

/-- **The pieces of the messages taken.** In any order of messages, reports on
frames and aborts the frames put are the pieces of some of the messages offered,
in their order, each message from its first piece on. Done is reported once for
each message that is over, and as true only behind its ten pieces; without
failures and aborts every message that is over has its ten pieces on the bus.
The assertions hold throughout. -/
theorem sender_pieces (events : List SenderEvent)
    (hreports : senderMachine.Along ReportsFrame .init events) :
    let answers := senderMachine.answers .init events
    (∃ l : Ledger, (answers.map Prod.fst).reduceOption = l.put ∧
      (l.parts.map Prod.fst).Sublist (offered events) ∧
      (∀ part ∈ l.parts, 1 ≤ part.2 ∧ part.2 ≤ 10) ∧
      List.Forall₂ Told l.closed (answers.map Prod.snd).reduceOption ∧
      (Smooth events → ∀ part ∈ l.closed, part.2 = 10)) ∧
    senderMachine.Along AssertsHold .init events := by
  intro answers
  have hinit : Sends .init ⟨[], none⟩ :=
    ⟨fun part hpart => absurd hpart List.not_mem_nil, .inl ⟨rfl, rfl, rfl⟩⟩
  obtain ⟨hasserts, l, hl, hput, ⟨took, htook, hoffered⟩, ended, hended, htold⟩ :=
    sends_run hinit hreports
  rw [List.nil_append] at hended
  subst hended
  refine ⟨⟨l, hput.symm, ?_, hl.range, htold, ?_⟩, hasserts⟩
  · rw [htook]
    exact hoffered
  · intro hsmooth
    exact told_all htold (smooth_run rfl hsmooth)

/-- Messages that their pieces tell apart. -/
def numbered (k : ℕ) : Bytes 80 := List.Vector.replicate 80 (UInt8.ofNat k)

/-- A message, one that is dropped, and one that follows. -/
def threeOffered : List SenderEvent :=
  [.newMsg (numbered 1), .newMsg (numbered 2)] ++ List.replicate 10 (.status true) ++
    [.newMsg (numbered 3), .status true]

theorem sender_pieces_threeOffered :
    let answers := senderMachine.answers .init threeOffered
    (answers.map Prod.fst).reduceOption = pieces (numbered 1, 10) ++ pieces (numbered 3, 2) ∧
    (answers.map Prod.snd).reduceOption = [true] ∧
    ∃ l : Ledger, (answers.map Prod.fst).reduceOption = l.put ∧
      (l.parts.map Prod.fst).Sublist [numbered 1, numbered 2, numbered 3] ∧
      ∀ part ∈ l.closed, part.2 = 10 := by
  intro answers
  have hput : (answers.map Prod.fst).reduceOption =
      pieces (numbered 1, 10) ++ pieces (numbered 3, 2) := by
    decide +kernel
  have hdone : (answers.map Prod.snd).reduceOption = [true] := by decide +kernel
  have hreports : senderMachine.Along ReportsFrame .init threeOffered := by decide +kernel
  have hsmooth : Smooth threeOffered := by
    unfold Smooth
    decide +kernel
  obtain ⟨⟨l, hledger, hoffered, -, -, hclosed⟩, -⟩ := sender_pieces threeOffered hreports
  exact ⟨hput, hdone, l, hledger, hoffered, hclosed hsmooth⟩

end GecRelay
