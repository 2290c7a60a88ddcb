import Mathlib.Logic.ExistsUnique

/-!
# A baton

Parties that pass one baton around: at every moment exactly one place holds
it. A lock is the case where one of the places is the free lock. A step leaves
the holders alone or passes the baton from its holder to another place
(`Passes`), and that is all an argument by exclusion needs.
-/

namespace GecRelay.Foundation

universe u

variable {ι : Type u}

/-- Exactly one place holds the baton. -/
def Baton (holds : ι → Bool) : Prop := ∃! i, holds i = true

/-- The holders after the baton went from `i` to `j`. -/
def pass [DecidableEq ι] (holds : ι → Bool) (i j : ι) : ι → Bool :=
  fun k => if k = j then true else if k = i then false else holds k

/-- The baton stays where it is, or its holder passes it on. -/
inductive Passes [DecidableEq ι] (holds : ι → Bool) : (ι → Bool) → Prop
  | stay : Passes holds holds
  | pass (i j : ι) (hi : holds i = true) : Passes holds (pass holds i j)

theorem Passes.of_eq [DecidableEq ι] {holds after : ι → Bool} (h : ∀ k, after k = holds k) :
    Passes holds after := by
  rw [funext h]
  exact .stay

theorem Passes.of_pass [DecidableEq ι] {holds after : ι → Bool} (i j : ι) (hi : holds i = true)
    (h : ∀ k, after k = Foundation.pass holds i j k) : Passes holds after := by
  rw [funext h]
  exact .pass i j hi

namespace Baton

variable {holds after : ι → Bool}

theorem elsewhere (h : Baton holds) {i j : ι} (hi : holds i = true) (hne : j ≠ i) :
    holds j = false := by
  cases hj : holds j with
  | false => rfl
  | true => exact absurd (h.unique hj hi) hne

theorem step [DecidableEq ι] (h : Baton holds) (hpass : Passes holds after) : Baton after := by
  cases hpass with
  | stay => exact h
  | pass i j hi =>
      refine ⟨j, if_pos rfl, fun k hk => ?_⟩
      replace hk : pass holds i j k = true := hk
      rw [pass] at hk
      split at hk
      · next hkj => exact hkj
      · split at hk
        · cases hk
        · next hki => exact absurd (h.unique hk hi) hki

end Baton

end GecRelay.Foundation
