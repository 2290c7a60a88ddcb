import GecRelay.Foundation.Horner
import Mathlib.Algebra.Polynomial.Roots
import Mathlib.Data.List.GetD

/-!
# Collisions of polynomial hashes

The hash of a list of blocks is a polynomial in the key, without constant term
and with the blocks as its coefficients, the last one lowest. Two lists with
different polynomials, over a domain, collide under few keys: for any difference
there are at most as many as the longer list has blocks.
-/

namespace GecRelay.Foundation

open Polynomial

variable {R : Type*} [CommRing R]

/-- The hash with the key left open. -/
noncomputable def hashPoly (bs : List R) : R[X] := horner X 0 (bs.map C)

theorem hashPoly_snoc (bs : List R) (b : R) : hashPoly (bs ++ [b]) = (hashPoly bs + C b) * X := by
  unfold hashPoly
  rw [List.map_append, horner_append]
  rfl

theorem eval_hashPoly (h : R) (bs : List R) : (hashPoly bs).eval h = horner h 0 bs := by
  induction bs using List.reverseRecOn with
  | nil => exact eval_zero
  | append_singleton bs b ih =>
      rw [hashPoly_snoc, eval_mul, eval_add, eval_C, eval_X, ih, horner_append]
      rfl

theorem coeff_zero_hashPoly (bs : List R) : (hashPoly bs).coeff 0 = 0 := by
  induction bs using List.reverseRecOn with
  | nil => exact coeff_zero 0
  | append_singleton bs b ih => rw [hashPoly_snoc, coeff_mul_X_zero]

theorem coeff_succ_hashPoly (bs : List R) (k : ℕ) :
    (hashPoly bs).coeff (k + 1) = bs.reverse.getD k 0 := by
  induction bs using List.reverseRecOn generalizing k with
  | nil => exact coeff_zero (k + 1)
  | append_singleton bs b ih =>
      rw [hashPoly_snoc, coeff_mul_X, coeff_add, List.reverse_append, List.reverse_singleton,
        List.singleton_append]
      cases k with
      | zero => rw [coeff_zero_hashPoly, coeff_C_zero, zero_add, List.getD_cons_zero]
      | succ k => rw [ih, coeff_C_succ, add_zero, List.getD_cons_succ]

theorem natDegree_hashPoly_le (bs : List R) : (hashPoly bs).natDegree ≤ bs.length := by
  rw [natDegree_le_iff_coeff_eq_zero]
  intro k hk
  obtain ⟨j, rfl⟩ := Nat.exists_eq_succ_of_ne_zero (Nat.ne_zero_of_lt hk)
  rw [coeff_succ_hashPoly, List.getD_eq_default]
  rw [List.length_reverse]
  omega

/-- **The blocks can be read back** once their number is known. -/
theorem hashPoly_inj {bs cs : List R} (hlen : bs.length = cs.length)
    (h : hashPoly bs = hashPoly cs) : bs = cs := by
  apply List.reverse_injective
  apply List.ext_getElem (by rw [List.length_reverse, List.length_reverse, hlen])
  intro k hb hc
  have hcoeff := congrArg (fun p => coeff p (k + 1)) h
  simp only [coeff_succ_hashPoly] at hcoeff
  rwa [List.getD_eq_getElem _ _ hb, List.getD_eq_getElem _ _ hc] at hcoeff

/-- The last blocks are equal when the polynomials are. -/
theorem hashPoly_last {bs cs : List R} {b c : R}
    (h : hashPoly (bs ++ [b]) = hashPoly (cs ++ [c])) : b = c := by
  have hcoeff := congrArg (fun p => coeff p 1) h
  simpa only [coeff_succ_hashPoly, List.reverse_append, List.reverse_singleton,
    List.singleton_append, List.getD_cons_zero] using hcoeff

/-- **Few keys collide.** -/
theorem horner_collisions [IsDomain R] {bs cs : List R} (hne : hashPoly bs ≠ hashPoly cs) (d : R) :
    {h | horner h 0 bs - horner h 0 cs = d}.encard ≤ max bs.length cs.length := by
  classical
  set p := hashPoly bs - hashPoly cs - C d with hp
  have hzero : p ≠ 0 := by
    intro heq
    have hconst : hashPoly bs - hashPoly cs = C d := sub_eq_zero.mp heq
    -- there is no constant term
    have hd : d = 0 := by
      have h := congrArg (fun q => coeff q 0) hconst
      simpa only [coeff_sub, coeff_zero_hashPoly, sub_zero, coeff_C_zero] using h.symm
    rw [hd, C_0] at hconst
    exact hne (sub_eq_zero.mp hconst)
  have hdeg : p.natDegree ≤ max bs.length cs.length := by
    rw [hp, natDegree_sub_C]
    exact (natDegree_sub_le _ _).trans
      (max_le_max (natDegree_hashPoly_le bs) (natDegree_hashPoly_le cs))
  have hroots : {h | horner h 0 bs - horner h 0 cs = d} ⊆ (p.roots.toFinset : Set R) := by
    intro h hh
    rw [Finset.mem_coe, Multiset.mem_toFinset, mem_roots hzero, IsRoot.def, hp, eval_sub, eval_sub,
      eval_hashPoly, eval_hashPoly, eval_C]
    exact sub_eq_zero.mpr hh
  calc {h | horner h 0 bs - horner h 0 cs = d}.encard
      ≤ (p.roots.toFinset : Set R).encard := Set.encard_le_encard hroots
    _ = p.roots.toFinset.card := Set.encard_coe_eq_coe_finsetCard _
    _ ≤ max bs.length cs.length := by
        exact_mod_cast ((Multiset.toFinset_card_le _).trans (card_roots' p)).trans hdeg

end GecRelay.Foundation
