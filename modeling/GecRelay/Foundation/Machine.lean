import Mathlib.Data.List.Basic
import Mathlib.Data.List.Nodup
import Mathlib.Data.List.ReduceOption

/-!
# Machines that answer each input

A machine takes a state and an input to an answer and a new state. `exec`
runs it over a list of inputs and `answers` collects what it said. Four
rules carry every statement about whole runs: an invariant kept by one step
holds after any run (`exec_inv`), or after a run whose steps all meet a
condition (`exec_inv_along`), every answer of a run is that of one step in an
invariant state (`mem_answers`), and a relation between an answer and
everything said later follows from what the answer leaves behind in the state
(`answers_pairwise`).
-/

namespace GecRelay.Foundation

universe u

structure Machine (σ ι ω : Type u) where
  step : σ → ι → ω × σ

namespace Machine

variable {σ ι ω : Type u} (M : Machine σ ι ω)

def exec (s : σ) (is : List ι) : σ :=
  is.foldl (fun t i => (M.step t i).2) s

def answers (s : σ) : List ι → List ω
  | [] => []
  | i :: is => (M.step s i).1 :: answers (M.step s i).2 is

@[simp] theorem exec_nil (s : σ) : M.exec s [] = s := rfl

@[simp] theorem exec_cons (s : σ) (i : ι) (is : List ι) :
    M.exec s (i :: is) = M.exec (M.step s i).2 is := rfl

@[simp] theorem answers_nil (s : σ) : M.answers s [] = [] := rfl

@[simp] theorem answers_cons (s : σ) (i : ι) (is : List ι) :
    M.answers s (i :: is) = (M.step s i).1 :: M.answers (M.step s i).2 is := rfl

theorem exec_append (s : σ) (is js : List ι) : M.exec s (is ++ js) = M.exec (M.exec s is) js :=
  List.foldl_append

theorem answers_append (s : σ) (is js : List ι) :
    M.answers s (is ++ js) = M.answers s is ++ M.answers (M.exec s is) js := by
  induction is generalizing s with
  | nil => rfl
  | cons i is ih =>
      rw [List.cons_append, answers_cons, ih, answers_cons, List.cons_append, exec_cons]

theorem exec_snoc (s : σ) (is : List ι) (i : ι) :
    M.exec s (is ++ [i]) = (M.step (M.exec s is) i).2 := exec_append M s is [i]

variable {M}

/-- **The invariant rule.** -/
theorem exec_inv {I : σ → Prop} (hstep : ∀ s i, I s → I (M.step s i).2)
    {s : σ} (hs : I s) (is : List ι) : I (M.exec s is) := by
  induction is generalizing s with
  | nil => exact hs
  | cons i is ih => exact ih (hstep s i hs)

theorem mem_answers {I : σ → Prop} (hstep : ∀ s i, I s → I (M.step s i).2)
    {s : σ} (hs : I s) {is : List ι} {o : ω} (ho : o ∈ M.answers s is) :
    ∃ t, I t ∧ ∃ i ∈ is, o = (M.step t i).1 := by
  induction is generalizing s with
  | nil => simp [answers] at ho
  | cons i is ih =>
      rcases List.mem_cons.mp ho with rfl | ho
      · exact ⟨s, hs, i, List.mem_cons_self, rfl⟩
      · obtain ⟨t, ht, j, hj, rfl⟩ := ih (hstep s i hs) ho
        exact ⟨t, ht, j, List.mem_cons_of_mem i hj, rfl⟩

/-- **The pairwise rule.** `J o s` records what the answer `o` leaves behind
in the state; it is kept by every later step and relates `o` to what that step
answers. -/
theorem answers_pairwise {I : σ → Prop} {J : ω → σ → Prop} {R : ω → ω → Prop}
    (hstep : ∀ s i, I s → I (M.step s i).2)
    (leave : ∀ s i, I s → J (M.step s i).1 (M.step s i).2)
    (keep : ∀ o s i, I s → J o s → J o (M.step s i).2)
    (relate : ∀ o s i, I s → J o s → R o (M.step s i).1)
    {s : σ} (hs : I s) (is : List ι) : (M.answers s is).Pairwise R := by
  induction is generalizing s with
  | nil => exact List.Pairwise.nil
  | cons i is ih =>
      have hnext := hstep s i hs
      refine List.pairwise_cons.mpr ⟨?_, ih hnext⟩
      have hJ : ∀ t j, I t ∧ J (M.step s i).1 t →
          I (M.step t j).2 ∧ J (M.step s i).1 (M.step t j).2 :=
        fun t j ht => ⟨hstep t j ht.1, keep _ t j ht.1 ht.2⟩
      intro o ho
      obtain ⟨t, ht, j, _, rfl⟩ := mem_answers hJ ⟨hnext, leave s i hs⟩ ho
      exact relate _ t j ht.1 ht.2

/-! ## Runs under a condition -/

variable (M) in
/-- Every step of the run meets the condition, in the state it is taken in. -/
def Along (P : σ → ι → Prop) (s : σ) : List ι → Prop
  | [] => True
  | i :: is => P s i ∧ Along P (M.step s i).2 is

instance decidableAlong (P : σ → ι → Prop) [∀ s i, Decidable (P s i)] (s : σ) :
    ∀ is : List ι, Decidable (M.Along P s is)
  | [] => isTrue trivial
  | i :: is =>
      have := decidableAlong P (M.step s i).2 is
      inferInstanceAs (Decidable (_ ∧ _))

theorem along_append {P : σ → ι → Prop} {s : σ} {is js : List ι} :
    M.Along P s (is ++ js) ↔ M.Along P s is ∧ M.Along P (M.exec s is) js := by
  induction is generalizing s with
  | nil => exact ⟨fun h => ⟨trivial, h⟩, And.right⟩
  | cons i is ih =>
      rw [List.cons_append, Along, ih, Along, and_assoc, exec_cons]

/-- The condition, at each step of the run. -/
theorem along_iff {P : σ → ι → Prop} {s : σ} {is : List ι} :
    M.Along P s is ↔ ∀ before i after, is = before ++ i :: after → P (M.exec s before) i := by
  constructor
  · rintro h before i after rfl
    exact (along_append.mp h).2.1
  · intro h
    induction is generalizing s with
    | nil => trivial
    | cons i is ih =>
        refine ⟨h [] i is rfl, ih fun before j after heq => ?_⟩
        exact h (i :: before) j after (congrArg (i :: ·) heq)

theorem Along.mono {P Q : σ → ι → Prop} (hPQ : ∀ s i, P s i → Q s i) {s : σ} {is : List ι}
    (h : M.Along P s is) : M.Along Q s is := by
  induction is generalizing s with
  | nil => trivial
  | cons i is ih => exact ⟨hPQ s i h.1, ih h.2⟩

theorem Along.and {P Q : σ → ι → Prop} {s : σ} {is : List ι} (hP : M.Along P s is)
    (hQ : M.Along Q s is) : M.Along (fun s i => P s i ∧ Q s i) s is := by
  induction is generalizing s with
  | nil => trivial
  | cons i is ih => exact ⟨⟨hP.1, hQ.1⟩, ih hP.2 hQ.2⟩

/-- **The invariant rule under a condition.** -/
theorem exec_inv_along {I : σ → Prop} {P : σ → ι → Prop}
    (hstep : ∀ s i, I s → P s i → I (M.step s i).2) {s : σ} (hs : I s) {is : List ι}
    (hP : M.Along P s is) : I (M.exec s is) := by
  induction is generalizing s with
  | nil => exact hs
  | cons i is ih => exact ih (hstep s i hs hP.1) hP.2

theorem along_of_inv {I : σ → Prop} {P : σ → ι → Prop}
    (hstep : ∀ s i, I s → P s i ∧ I (M.step s i).2) {s : σ} (hs : I s) (is : List ι) :
    M.Along P s is := by
  induction is generalizing s with
  | nil => trivial
  | cons i is ih => exact ⟨(hstep s i hs).1, ih (hstep s i hs).2⟩

/-! ## Machines that do not always answer -/

section Outputs

variable {α : Type u} {M : Machine σ ι (Option α)}

theorem reduceOption_cons (x : Option α) (xs : List (Option α)) :
    (x :: xs).reduceOption = x.toList ++ xs.reduceOption := by
  cases x <;> rfl

theorem outputs_append (s : σ) (is js : List ι) :
    (M.answers s (is ++ js)).reduceOption =
      (M.answers s is).reduceOption ++ (M.answers (M.exec s is) js).reduceOption := by
  rw [answers_append, List.reduceOption_append]

theorem outputs_snoc (s : σ) (is : List ι) (i : ι) :
    (M.answers s (is ++ [i])).reduceOption =
      (M.answers s is).reduceOption ++ (M.step (M.exec s is) i).1.toList := by
  rw [outputs_append, answers_cons, answers_nil, reduceOption_cons, List.reduceOption_nil,
    List.append_nil]

/-- A run that says one thing. -/
theorem outputs_eq_singleton_iff {s : σ} {is : List ι} {x : α} :
    (M.answers s is).reduceOption = [x] ↔
      ∃ before i after, is = before ++ i :: after ∧ (M.answers s before).reduceOption = [] ∧
        (M.step (M.exec s before) i).1 = some x ∧
        (M.answers (M.step (M.exec s before) i).2 after).reduceOption = [] := by
  constructor
  · intro h
    induction is generalizing s with
    | nil => cases h
    | cons i is ih =>
        rw [answers_cons, reduceOption_cons] at h
        cases hstep : (M.step s i).1 with
        | some y =>
            rw [hstep, Option.toList_some, List.singleton_append, List.cons.injEq] at h
            exact ⟨[], i, is, rfl, rfl, hstep.trans (congrArg some h.1), h.2⟩
        | none =>
            rw [hstep] at h
            obtain ⟨before, j, after, rfl, hbefore, hj, hafter⟩ := ih h
            refine ⟨i :: before, j, after, rfl, ?_, hj, hafter⟩
            rw [answers_cons, reduceOption_cons, hstep, hbefore]
            rfl
  · rintro ⟨before, i, after, rfl, hbefore, hi, hafter⟩
    rw [outputs_append, hbefore, answers_cons, reduceOption_cons, hi, hafter]
    rfl

end Outputs

/-! ## Steps that may be undefined -/

/-- An undefined step has no answer and leaves the state. -/
def ofPartial (step : σ → ι → Option (ω × σ)) : Machine σ ι (Option ω) where
  step s i := (step s i).elim (none, s) fun r => (some r.1, r.2)

theorem ofPartial_step {step : σ → ι → Option (ω × σ)} {s : σ} {i : ι} {r : ω × σ}
    (h : step s i = some r) : (ofPartial step).step s i = (some r.1, r.2) := by
  show (step s i).elim _ _ = _
  rw [h]
  rfl

/-! ## Simulation -/

section Simulation

variable {τ : Type u} {f : σ → τ}

/-- **The simulation rule.** A map of the states and of the answers that the
steps agree with carries runs to runs. -/
theorem sim_run_map {ω' : Type u} {N : Machine τ ι ω'} {g : ω → ω'}
    (h : ∀ s i, N.step (f s) i = (g (M.step s i).1, f (M.step s i).2)) (s : σ) (is : List ι) :
    N.exec (f s) is = f (M.exec s is) ∧ N.answers (f s) is = (M.answers s is).map g := by
  induction is generalizing s with
  | nil => exact ⟨rfl, rfl⟩
  | cons i is ih =>
      obtain ⟨hexec, hanswers⟩ := ih (M.step s i).2
      rw [exec_cons, exec_cons, answers_cons, answers_cons, h s i]
      exact ⟨hexec, congrArg (_ :: ·) hanswers⟩

/-- The states alone: the steps may answer differently. -/
theorem sim_exec {ω' : Type u} {N : Machine τ ι ω'}
    (h : ∀ s i, (N.step (f s) i).2 = f (M.step s i).2) (s : σ) (is : List ι) :
    N.exec (f s) is = f (M.exec s is) := by
  induction is generalizing s with
  | nil => rfl
  | cons i is ih => rw [exec_cons, exec_cons, h s i, ih]

/-- A condition on the simulating run is one on the simulated run. -/
theorem along_sim {ω' : Type u} {N : Machine τ ι ω'}
    (h : ∀ s i, (N.step (f s) i).2 = f (M.step s i).2) {P : τ → ι → Prop} (s : σ) (is : List ι) :
    N.Along P (f s) is ↔ M.Along (fun s i => P (f s) i) s is := by
  induction is generalizing s with
  | nil => exact Iff.rfl
  | cons i is ih => rw [Along, Along, h s i, ih]

/-- Where the states agree, the answers agree exactly when every step's do. -/
theorem answers_sim_iff {N : Machine τ ι ω} (h : ∀ s i, (N.step (f s) i).2 = f (M.step s i).2)
    (s : σ) (is : List ι) :
    M.answers s is = N.answers (f s) is ↔
      M.Along (fun s i => (M.step s i).1 = (N.step (f s) i).1) s is := by
  induction is generalizing s with
  | nil => exact ⟨fun _ => trivial, fun _ => rfl⟩
  | cons i is ih => rw [answers_cons, answers_cons, List.cons_eq_cons, h s i, ih, Along]

theorem sim_run {N : Machine τ ι ω} (h : ∀ s i, N.step (f s) i = ((M.step s i).1, f (M.step s i).2))
    (s : σ) (is : List ι) :
    N.exec (f s) is = f (M.exec s is) ∧ N.answers (f s) is = M.answers s is := by
  rw [← List.map_id (M.answers s is)]
  exact sim_run_map h s is

/-- **The refinement rule.** A relation between the states that steps with
equal answers keep, as long as the abstract step meets a condition. -/
theorem rel_run {N : Machine τ ι ω} {R : σ → τ → Prop} {P : τ → ι → Prop}
    (h : ∀ s t i, R s t → P t i →
      (M.step s i).1 = (N.step t i).1 ∧ R (M.step s i).2 (N.step t i).2)
    {s : σ} {t : τ} (hst : R s t) {is : List ι} (hP : N.Along P t is) :
    M.answers s is = N.answers t is ∧ R (M.exec s is) (N.exec t is) := by
  induction is generalizing s t with
  | nil => exact ⟨rfl, hst⟩
  | cons i is ih =>
      obtain ⟨hi, his⟩ := hP
      obtain ⟨hanswer, hnext⟩ := h s t i hst hi
      obtain ⟨hanswers, hexec⟩ := ih hnext his
      rw [answers_cons, answers_cons, hanswer, hanswers]
      exact ⟨rfl, hexec⟩

/-- A simulating step is defined along the run. -/
theorem sim_ofPartial {step : τ → ι → Option (ω × τ)}
    (h : ∀ s i, step (f s) i = some ((M.step s i).1, f (M.step s i).2)) (s : σ) (is : List ι) :
    (ofPartial step).exec (f s) is = f (M.exec s is) ∧
      (ofPartial step).answers (f s) is = (M.answers s is).map some := by
  refine sim_run_map ?_ s is
  intro s i
  exact ofPartial_step (h s i)

end Simulation

end Machine

end GecRelay.Foundation
