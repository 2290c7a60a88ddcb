import GecRelay.Foundation.Machine
import Mathlib.Data.List.Induction

/-!
# Byte stuffing

A text is sent between delimiters. A symbol that would be mistaken for the
delimiter or for the escape goes out as the escape followed by its image under
an involution. `stuff` writes a text so, `unstuff` reads one: the text so far,
and whether the last symbol was an escape. A receiver follows a line with the
symbols since the last delimiter (`Segment`), so it finds its way back at the
next one, whatever came before.
-/

namespace GecRelay.Foundation

universe u

section Stuff

variable {α : Type u} (esc : α) (flip : α → α) (special : α → Bool)

def stuff : List α → List α
  | [] => []
  | x :: xs => if special x then esc :: flip x :: stuff xs else x :: stuff xs

variable {esc flip special}

theorem not_mem_stuff {d : α} (hd : special d = true) (hne : esc ≠ d)
    (himage : ∀ x, special x = true → flip x ≠ d) (xs : List α) :
    d ∉ stuff esc flip special xs := by
  induction xs with
  | nil => exact List.not_mem_nil
  | cons x xs ih =>
      rw [stuff]
      split
      · next hx =>
          rw [List.mem_cons, List.mem_cons]
          rintro (heq | heq | hmem)
          · exact hne heq.symm
          · exact himage x hx heq.symm
          · exact ih hmem
      · next hx =>
          rw [List.mem_cons]
          rintro (rfl | hmem)
          · exact hx hd
          · exact ih hmem

theorem length_stuff_le (xs : List α) : (stuff esc flip special xs).length ≤ 2 * xs.length := by
  induction xs with
  | nil => exact Nat.le_refl 0
  | cons x xs ih =>
      rw [stuff, List.length_cons]
      split
      · rw [List.length_cons, List.length_cons]
        omega
      · rw [List.length_cons]
        omega

end Stuff

section Unstuff

variable {α : Type u} [DecidableEq α] (esc : α) (flip : α → α)

/-- One symbol after the text `s.1`, inside an escape when `s.2`. -/
def unstuffStep (s : List α × Bool) (c : α) : List α × Bool :=
  if s.2 then (s.1 ++ [flip c], false) else if c = esc then (s.1, true) else (s.1 ++ [c], false)

def unstuff (cs : List α) : List α × Bool := cs.foldl (unstuffStep esc flip) ([], false)

variable {esc flip}

theorem unstuff_snoc (cs : List α) (c : α) :
    unstuff esc flip (cs ++ [c]) = unstuffStep esc flip (unstuff esc flip cs) c := by
  unfold unstuff
  rw [List.foldl_append]
  rfl

theorem length_unstuff_le (cs : List α) : (unstuff esc flip cs).1.length ≤ cs.length := by
  induction cs using List.reverseRecOn with
  | nil => exact Nat.le_refl 0
  | append_singleton cs c ih =>
      rw [unstuff_snoc, List.length_append, List.length_singleton]
      unfold unstuffStep
      split
      · rw [List.length_append, List.length_singleton]
        exact Nat.succ_le_succ ih
      · split
        · exact Nat.le_succ_of_le ih
        · rw [List.length_append, List.length_singleton]
          exact Nat.succ_le_succ ih

/-- **A stuffed text reads back.** -/
theorem unstuff_stuff {special : α → Bool} (hesc : special esc = true)
    (hflip : ∀ x, flip (flip x) = x) (xs : List α) :
    unstuff esc flip (stuff esc flip special xs) = (xs, false) := by
  have hrun : ∀ acc, (stuff esc flip special xs).foldl (unstuffStep esc flip) (acc, false) =
      (acc ++ xs, false) := by
    induction xs with
    | nil =>
        intro acc
        rw [List.append_nil]
        rfl
    | cons x xs ih =>
        intro acc
        rw [stuff]
        split
        · next hx =>
            have hpair : unstuffStep esc flip (unstuffStep esc flip (acc, false) esc) (flip x) =
                (acc ++ [x], false) := by
              simp [unstuffStep, hflip]
            rw [List.foldl_cons, List.foldl_cons, hpair, ih, List.append_assoc]
            rfl
        · next hx =>
            have hne : x ≠ esc := by
              rintro rfl
              exact hx hesc
            have hone : unstuffStep esc flip (acc, false) x = (acc ++ [x], false) := by
              simp [unstuffStep, hne]
            rw [List.foldl_cons, hone, ih, List.append_assoc]
            rfl
  exact hrun []

end Unstuff

section Segments

/-- Whether a delimiter was seen, and the symbols since it or since the
beginning. -/
structure Segment (α : Type u) where
  opened : Bool
  body : List α

variable {α β : Type u} [DecidableEq α]

/-- A receiver that looks at a segment when a delimiter closes it. -/
def segmentMachine (d : α) (accept : List α → Option β) : Machine (Segment α) α (Option β) where
  step s c :=
    if c = d then (if s.opened then accept s.body else none, ⟨true, []⟩)
    else (none, ⟨s.opened, s.body ++ [c]⟩)

variable {d : α} {accept : List α → Option β}

theorem segment_delimiter (s : Segment α) :
    (segmentMachine d accept).step s d =
      (if s.opened then accept s.body else none, ⟨true, []⟩) := if_pos rfl

theorem segment_symbol (s : Segment α) {c : α} (hc : c ≠ d) :
    (segmentMachine d accept).step s c = (none, ⟨s.opened, s.body ++ [c]⟩) := if_neg hc

theorem segment_body {cs : List α} (hcs : d ∉ cs) (s : Segment α) :
    (segmentMachine d accept).exec s cs = ⟨s.opened, s.body ++ cs⟩ ∧
      ((segmentMachine d accept).answers s cs).reduceOption = [] := by
  induction cs generalizing s with
  | nil => simp
  | cons c cs ih =>
      have hc : c ≠ d := fun heq => hcs (heq ▸ List.mem_cons_self)
      obtain ⟨hexec, hanswers⟩ := ih (fun h => hcs (List.mem_cons_of_mem c h))
        ⟨s.opened, s.body ++ [c]⟩
      rw [Machine.exec_cons, Machine.answers_cons, segment_symbol s hc,
        Machine.reduceOption_cons, hexec, hanswers, List.append_assoc]
      exact ⟨rfl, rfl⟩

/-- **A text between delimiters**, from any state. -/
theorem segment_frame {cs : List α} (hcs : d ∉ cs) (s : Segment α) :
    (segmentMachine d accept).exec s (d :: (cs ++ [d])) = ⟨true, []⟩ ∧
      ((segmentMachine d accept).answers s (d :: (cs ++ [d]))).reduceOption =
        (if s.opened then accept s.body else none).toList ++ (accept cs).toList := by
  have hbody : (segmentMachine d accept).exec ⟨true, []⟩ cs = ⟨true, [] ++ cs⟩ ∧
      ((segmentMachine d accept).answers ⟨true, []⟩ cs).reduceOption = [] := segment_body hcs _
  rw [Machine.exec_cons, Machine.answers_cons, segment_delimiter, Machine.exec_snoc,
    Machine.reduceOption_cons, Machine.outputs_snoc, hbody.1, hbody.2, segment_delimiter]
  exact ⟨rfl, rfl⟩

end Segments

end GecRelay.Foundation
