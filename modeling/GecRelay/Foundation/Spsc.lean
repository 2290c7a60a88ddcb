import GecRelay.Foundation.Machine
import Mathlib.Logic.Function.Basic

/-!
# A ring for one writer and one reader

The writer puts an item into the slot at its own tail and then publishes the
next tail; the reader samples the published tail and takes items from its own
head until it meets the sample, which may be old by then. `Spsc` holds what
both share, what each has for itself, and what has happened so far.
Indices are counts modulo the number of slots, whatever the schedule
(`Counted`). As long as the writer is never a whole ring ahead, the slots from
head to tail hold what was received and not yet taken (`Holds`), so what is
taken is a prefix of what was received.
-/

namespace GecRelay.Foundation

universe u

/-- What the writer has in hand. -/
inductive Hand (α : Type u)
  | empty
  | received (x : α)
  | stored (x : α)

structure Spsc (α : Type u) where
  slots : ℕ → α
  tail : ℕ
  /-- The writer's own tail. -/
  next : ℕ
  hand : Hand α
  head : ℕ
  /-- The tail the reader has seen last. -/
  seen : ℕ
  received : List α
  published : ℕ
  taken : List α

namespace Spsc

variable {α : Type u} {N : ℕ}

/-- One step of either side, with `N` slots. -/
inductive Step (N : ℕ) : Spsc α → Spsc α → Prop
  | stutter (v : Spsc α) : Step N v v
  | receive (v : Spsc α) (x : α) (hand : v.hand = .empty) :
      Step N v { v with hand := .received x, received := v.received ++ [x] }
  | store (v : Spsc α) (x : α) (hand : v.hand = .received x) :
      Step N v { v with hand := .stored x, slots := Function.update v.slots v.next x }
  | publish (v : Spsc α) (x : α) (hand : v.hand = .stored x) :
      Step N v { v with
        hand := .empty
        next := (v.next + 1) % N
        tail := (v.next + 1) % N
        published := v.published + 1 }
  | sample (v : Spsc α) : Step N v { v with seen := v.tail }
  | take (v : Spsc α) (more : v.head ≠ v.seen) :
      Step N v { v with head := (v.head + 1) % N, taken := v.taken ++ [v.slots v.head] }

/-- What a reader may do: load nothing and keep or renew its sample, or take the
item at its head. -/
theorem Step.of_read {v : Spsc α} {head seen : ℕ} {loaded : Option ℕ}
    (h : (loaded = none ∧ head = v.head ∧ (seen = v.seen ∨ seen = v.tail)) ∨
      (loaded = some v.head ∧ v.head ≠ v.seen ∧ head = (v.head + 1) % N ∧ seen = v.seen)) :
    Step N v { v with
      head := head
      seen := seen
      taken := v.taken ++ (loaded.map v.slots).toList } := by
  rcases h with ⟨rfl, rfl, rfl | rfl⟩ | ⟨rfl, more, rfl, rfl⟩
  · rw [Option.map_none, Option.toList_none, List.append_nil]
    exact .stutter v
  · rw [Option.map_none, Option.toList_none, List.append_nil]
    exact .sample v
  · exact .take v more

/-- The item in hand is the one after the published ones. -/
def InHand (v : Spsc α) : Prop :=
  match v.hand with
  | .empty => v.received.length = v.published
  | .received x => v.received.length = v.published + 1 ∧ v.received[v.published]? = some x
  | .stored x => v.received.length = v.published + 1 ∧ v.received[v.published]? = some x

/-- **The indices are counts.** -/
structure Counted (N : ℕ) (v : Spsc α) : Prop where
  tail_eq : v.tail = v.published % N
  next_eq : v.next = v.published % N
  head_eq : v.head = v.taken.length % N
  seen_eq : ∃ n, v.seen = n % N ∧ v.taken.length ≤ n ∧ n ≤ v.published
  inHand : v.InHand

/-- **The slots hold what was received and not yet taken.** -/
structure Holds (N : ℕ) (v : Spsc α) : Prop where
  prefix_received : v.taken <+: v.received
  slot : ∀ i, v.taken.length ≤ i → i < v.published → v.received[i]? = some (v.slots (i % N))
  stored : ∀ x, v.hand = .stored x → v.slots v.next = x

/-- The writer is not a whole ring ahead. -/
def NotLapped (N : ℕ) (v : Spsc α) : Prop := v.published < v.taken.length + N

theorem Counted.step {v w : Spsc α} (h : Counted N v) (hstep : Step N v w) : Counted N w := by
  obtain ⟨n, hseen, htaken, hn⟩ := h.seen_eq
  have hin := h.inHand
  cases hstep with
  | stutter => exact h
  | receive x hand =>
      rw [InHand, hand] at hin
      refine ⟨h.tail_eq, h.next_eq, h.head_eq, h.seen_eq, ?_⟩
      simp [InHand, hin.symm]
  | store x hand =>
      rw [InHand, hand] at hin
      exact ⟨h.tail_eq, h.next_eq, h.head_eq, h.seen_eq, hin⟩
  | publish x hand =>
      rw [InHand, hand] at hin
      have hnext : (v.next + 1) % N = (v.published + 1) % N := by rw [h.next_eq, Nat.mod_add_mod]
      exact ⟨hnext, hnext, h.head_eq, ⟨n, hseen, htaken, Nat.le_succ_of_le hn⟩, hin.1⟩
  | sample =>
      exact ⟨h.tail_eq, h.next_eq, h.head_eq,
        ⟨v.published, h.tail_eq, Nat.le_trans htaken hn, Nat.le_refl _⟩, hin⟩
  | take more =>
      have hne : v.taken.length ≠ n := by
        rintro rfl
        exact more (h.head_eq.trans hseen.symm)
      refine ⟨h.tail_eq, h.next_eq, ?_, ⟨n, hseen, ?_, hn⟩, hin⟩
      · rw [h.head_eq, Nat.mod_add_mod, List.length_append, List.length_singleton]
      · rw [List.length_append, List.length_singleton]
        omega

theorem Counted.published_le {v : Spsc α} (h : Counted N v) : v.published ≤ v.received.length := by
  have hin := h.inHand
  rw [InHand] at hin
  split at hin <;> omega

/-- Two counts less than a ring apart have different slots. -/
theorem mod_ne_mod {i j : ℕ} (hlt : i < j) (hnear : j < i + N) : i % N ≠ j % N := by
  intro h
  have hdvd : N ∣ j - i := Nat.dvd_of_mod_eq_zero (Nat.sub_mod_eq_zero_of_mod_eq h.symm)
  have := Nat.le_of_dvd (by omega) hdvd
  omega

theorem Holds.step {v w : Spsc α} (hc : Counted N v) (hlap : NotLapped N v) (h : Holds N v)
    (hstep : Step N v w) : Holds N w := by
  obtain ⟨n, hseen, htaken, hn⟩ := hc.seen_eq
  have hin := hc.inHand
  have hlen := hc.published_le
  cases hstep with
  | stutter => exact h
  | receive x hand =>
      refine ⟨h.prefix_received.trans (List.prefix_append _ _), fun i hi hpub => ?_,
        fun y hy => by cases hy⟩
      rw [List.getElem?_append_left (Nat.lt_of_lt_of_le hpub hlen)]
      exact h.slot i hi hpub
  | store x hand =>
      refine ⟨h.prefix_received, fun i hi hpub => ?_, fun y hy => ?_⟩
      · -- the slot written is not in use, as the writer is not a whole ring ahead
        have hne : i % N ≠ v.next := by
          rw [hc.next_eq]
          exact mod_ne_mod hpub (Nat.lt_of_lt_of_le hlap (Nat.add_le_add_right hi N))
        simp only [Function.update_of_ne hne]
        exact h.slot i hi hpub
      · cases hy
        simp only [Function.update_self]
  | publish x hand =>
      rw [InHand, hand] at hin
      refine ⟨h.prefix_received, fun i hi hpub => ?_, fun y hy => by cases hy⟩
      rcases Nat.lt_succ_iff_lt_or_eq.mp hpub with hlt | rfl
      · exact h.slot i hi hlt
      · rw [← hc.next_eq, h.stored x hand]
        exact hin.2
  | sample => exact ⟨h.prefix_received, h.slot, h.stored⟩
  | take more =>
      -- a sample may be old, but what lies before it was published
      have hlt : v.taken.length < v.published := by
        have hne : v.taken.length ≠ n := by
          rintro rfl
          exact more (hc.head_eq.trans hseen.symm)
        omega
      have hslot := h.slot _ (Nat.le_refl _) hlt
      refine ⟨?_, fun i hi hpub => ?_, h.stored⟩
      · obtain ⟨rest, hrest⟩ := h.prefix_received
        rw [← hrest, List.getElem?_append_right (Nat.le_refl _), Nat.sub_self] at hslot
        obtain ⟨y, rest, rfl⟩ := List.exists_cons_of_ne_nil (show rest ≠ [] by
          rintro rfl
          cases hslot)
        have hy : y = v.slots (v.taken.length % N) := by simpa using hslot
        refine ⟨rest, ?_⟩
        rw [← hrest, hc.head_eq, ← hy]
        simp
      · rw [List.length_append, List.length_singleton] at hi
        exact h.slot i (by omega) hpub

theorem Counted.taken_le {v : Spsc α} (h : Counted N v) : v.taken.length ≤ v.published := by
  obtain ⟨n, -, htaken, hn⟩ := h.seen_eq
  exact Nat.le_trans htaken hn

theorem Counted.lt {v : Spsc α} (h : Counted N v) (hN : 0 < N) : v.next < N ∧ v.head < N := by
  rw [h.next_eq, h.head_eq]
  exact ⟨Nat.mod_lt _ hN, Nat.mod_lt _ hN⟩

/-- At the start nothing has happened, and all indices are zero. -/
structure Fresh (v : Spsc α) : Prop where
  tail_eq : v.tail = 0
  next_eq : v.next = 0
  hand_eq : v.hand = .empty
  head_eq : v.head = 0
  seen_eq : v.seen = 0
  received_eq : v.received = []
  published_eq : v.published = 0
  taken_eq : v.taken = []

theorem Fresh.counted {v : Spsc α} (h : Fresh v) : Counted N v where
  tail_eq := by rw [h.tail_eq, h.published_eq, Nat.zero_mod]
  next_eq := by rw [h.next_eq, h.published_eq, Nat.zero_mod]
  head_eq := by rw [h.head_eq, h.taken_eq, List.length_nil, Nat.zero_mod]
  seen_eq := ⟨0, by rw [h.seen_eq, Nat.zero_mod], by simp [h.taken_eq], Nat.zero_le _⟩
  inHand := by rw [InHand, h.hand_eq, h.received_eq, h.published_eq, List.length_nil]

theorem Fresh.holds {v : Spsc α} (h : Fresh v) : Holds N v where
  prefix_received := by
    rw [h.taken_eq]
    exact List.nil_prefix
  slot i _ hpub := by
    rw [h.published_eq] at hpub
    exact absurd hpub (Nat.not_lt_zero i)
  stored x hx := by
    rw [h.hand_eq] at hx
    cases hx

/-- **The refinement rule.** A machine whose steps are matched by steps of the
ring, as long as they meet a condition that keeps the writer from lapping. -/
theorem exec_refines {S ι ω : Type u} {M : Machine S ι ω} {R : S → Spsc α → Prop}
    {P : S → ι → Prop}
    (hstep : ∀ s v i, R s v → Counted N v → P s i →
      NotLapped N v ∧ ∃ w, Step N v w ∧ R (M.step s i).2 w)
    {s : S} {v : Spsc α} (hR : R s v) (hc : Counted N v) (hh : Holds N v) {is : List ι}
    (hP : M.Along P s is) : ∃ w, R (M.exec s is) w ∧ Counted N w ∧ Holds N w := by
  refine Machine.exec_inv_along (I := fun s => ∃ w, R s w ∧ Counted N w ∧ Holds N w) ?_
    ⟨v, hR, hc, hh⟩ hP
  rintro s i ⟨v, hR, hc, hh⟩ hP
  obtain ⟨hlap, w, hw, hnext⟩ := hstep s v i hR hc hP
  exact ⟨w, hnext, hc.step hw, hh.step hc hlap hw⟩

/-- The slots hold the last `N` of the items written. -/
def Logged (N : ℕ) (slots : ℕ → α) (log : List α) : Prop :=
  ∀ i, i < log.length → log.length ≤ i + N → log[i]? = some (slots (i % N))

theorem Logged.store {slots : ℕ → α} {log : List α} (h : Logged N slots log) {j : ℕ}
    (hj : j = log.length % N) (x : α) : Logged N (Function.update slots j x) (log ++ [x]) := by
  intro i hi hnear
  rw [List.length_append, List.length_singleton] at hi hnear
  rcases Nat.lt_succ_iff_lt_or_eq.mp hi with hlt | rfl
  · have hne : i % N ≠ j := by
      rw [hj]
      exact mod_ne_mod hlt (Nat.lt_of_succ_le hnear)
    rw [List.getElem?_append_left hlt, Function.update_of_ne hne]
    exact h i hlt (by omega)
  · rw [List.getElem?_append_right (Nat.le_refl _), Nat.sub_self, ← hj, Function.update_self]
    rfl

end Spsc

end GecRelay.Foundation
