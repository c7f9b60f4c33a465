import Mathlib.LinearAlgebra.Lagrange
import Mathlib.LinearAlgebra.Matrix.ToLinearEquiv
import Mathlib.LinearAlgebra.Matrix.NonsingularInverse

namespace Galois
set_option autoImplicit true
set_option relaxedAutoImplicit false

open Finset Polynomial

variable {F ν κ : Type} [Field F] [DecidableEq κ]

/-- The numerator of a sum of simple fractions `v j / (X - y j)`. -/
noncomputable def numerator (J : Finset κ) (v y : κ → F) : F[X] :=
  ∑ j ∈ J, C (v j) * ∏ l ∈ J.erase j, (X - C (y l))

theorem numerator_degree (J : Finset κ) (v y : κ → F) : (numerator J v y).degree < #J := by
  rcases J.eq_empty_or_nonempty with rfl | hJ
  · simp [numerator]
  · refine (degree_sum_le _ _).trans_lt ((Finset.sup_lt_iff ?_).2 fun j hj => ?_)
    · exact WithBot.bot_lt_coe _
    · refine (degree_mul_le _ _).trans_lt ?_
      have hc : (C (v j)).degree ≤ 0 := degree_C_le
      have hp : (∏ l ∈ J.erase j, (X - C (y l))).degree = ((#J - 1 : ℕ) : WithBot ℕ) := by
        rw [degree_prod]
        simp only [degree_X_sub_C, sum_const, nsmul_eq_mul, mul_one, card_erase_of_mem hj]
      rw [hp]
      refine (add_le_add hc le_rfl).trans_lt ?_
      rw [zero_add]
      exact_mod_cast Nat.sub_lt hJ.card_pos Nat.one_pos

theorem numerator_eval (J : Finset κ) (v y : κ → F) {x : F} (hx : ∀ j ∈ J, x ≠ y j) :
    (numerator J v y).eval x = (∏ l ∈ J, (x - y l)) * ∑ j ∈ J, (x - y j)⁻¹ * v j := by
  rw [numerator, eval_finsetSum, mul_sum]
  refine sum_congr rfl fun j hj => ?_
  have hne : x - y j ≠ 0 := sub_ne_zero.2 (hx j hj)
  rw [eval_mul, eval_C, eval_prod, ← mul_prod_erase J (fun l => x - y l) hj]
  simp only [eval_sub, eval_X, eval_C]
  field_simp

theorem numerator_eval_pole (J : Finset κ) (v y : κ → F) {j : κ} (hj : j ∈ J) :
    (numerator J v y).eval (y j) = v j * ∏ l ∈ J.erase j, (y j - y l) := by
  rw [numerator, eval_finsetSum, sum_eq_single_of_mem j hj]
  · rw [eval_mul, eval_C, eval_prod]
    simp only [eval_sub, eval_X, eval_C]
  · intro i _ hij
    rw [eval_mul, eval_prod, prod_eq_zero (mem_erase.2 ⟨hij.symm, hj⟩), mul_zero]
    simp only [eval_sub, eval_X, eval_C, sub_self]

/-- A sum of simple fractions with as many zeros as poles has no terms. -/
theorem fractions_eq_zero {ι : Type} {J : Finset κ} {T : Finset ι} {v y : κ → F} {x : ι → F}
    (hcard : #T = #J) (hx : Set.InjOn x T) (hy : Function.Injective y)
    (hxy : ∀ r ∈ T, ∀ j ∈ J, x r ≠ y j)
    (h : ∀ r ∈ T, ∑ j ∈ J, (x r - y j)⁻¹ * v j = 0) : ∀ j ∈ J, v j = 0 := by
  have hp : numerator J v y = 0 := by
    apply eq_zero_of_degree_lt_of_eval_index_eq_zero T hx
    · rw [hcard]
      exact numerator_degree J v y
    · intro r hr
      rw [numerator_eval J v y (hxy r hr), h r hr, mul_zero]
  intro j hj
  have he := numerator_eval_pole J v y hj
  rw [hp, eval_zero] at he
  have hne : ∏ l ∈ J.erase j, (y j - y l) ≠ 0 := by
    refine prod_ne_zero_iff.2 fun l hl => sub_ne_zero.2 fun hjl => ?_
    exact (mem_erase.1 hl).1 (hy hjl).symm
  exact (mul_eq_zero.1 he.symm).resolve_right hne

variable [Fintype κ]

/-- Every choice of as many distinct rows as there are columns is invertible. -/
def IsMDS (G : Matrix ν κ F) : Prop :=
  ∀ s : κ → ν, Function.Injective s → IsUnit (G.submatrix s id)

theorem mulVec_decode {G : Matrix ν κ F} {s : κ → ν} {A : Matrix κ κ F}
    (hA : A * G.submatrix s id = 1) (d : κ → F) :
    A.mulVec (fun r => G.mulVec d (s r)) = d := by
  have hr : (fun r => G.mulVec d (s r)) = (G.submatrix s id).mulVec d := rfl
  rw [hr, Matrix.mulVec_mulVec, hA, Matrix.one_mulVec]

/-- Data rows `e j` that copy column `j`, over rows of a Cauchy matrix, form an MDS code. -/
theorem isMDS_of_cauchy {G : Matrix ν κ F} {e : κ → ν} {x : ν → F} {y : κ → F}
    (he : Function.Injective e) (hid : ∀ i j, G (e i) j = if i = j then 1 else 0)
    (hG : ∀ i ∉ Set.range e, ∀ j, G i j = (x i - y j)⁻¹)
    (hx : Set.InjOn x (Set.range e)ᶜ) (hy : Function.Injective y)
    (hxy : ∀ i ∉ Set.range e, ∀ j, x i ≠ y j) : IsMDS G := by
  classical
  intro s hs
  rw [Matrix.isUnit_iff_isUnit_det, isUnit_iff_ne_zero]
  intro hdet
  obtain ⟨v, hv, hmul⟩ := Matrix.exists_mulVec_eq_zero_iff.2 hdet
  have hrow (r : κ) : ∑ j, G (s r) j * v j = 0 := congrFun hmul r
  let T : Finset κ := {r | s r ∉ Set.range e}
  let J : Finset κ := {j | e j ∉ Set.range s}
  -- a chosen data row gives its column directly
  have hsel (j : κ) (hj : j ∉ J) : v j = 0 := by
    simp only [J, mem_filter, mem_univ, true_and, not_not] at hj
    obtain ⟨r, hr⟩ := hj
    have h0 := hrow r
    simp only [hr, hid, ite_mul, one_mul, zero_mul, sum_ite_eq, mem_univ, ↓reduceIte] at h0
    exact h0
  have himage : (univ \ T).image s = (univ \ J).image e := by
    ext i
    simp only [T, J, mem_image, mem_sdiff, mem_filter, mem_univ, true_and, not_not]
    constructor
    · rintro ⟨r, ⟨j, hj⟩, rfl⟩
      exact ⟨j, ⟨r, hj.symm⟩, hj⟩
    · rintro ⟨j, ⟨r, hr⟩, rfl⟩
      exact ⟨r, ⟨j, hr.symm⟩, hr⟩
  have hcard : #T = #J := by
    have h := congrArg Finset.card himage
    rw [card_image_of_injective _ hs, card_image_of_injective _ he,
      card_sdiff_of_subset (subset_univ _), card_sdiff_of_subset (subset_univ _)] at h
    have hT := card_le_univ T
    have hJ := card_le_univ J
    rw [card_univ] at h
    omega
  have hfrac : ∀ r ∈ T, ∑ j ∈ J, (x (s r) - y j)⁻¹ * v j = 0 := by
    intro r hr
    have hr' : s r ∉ Set.range e := by simpa [T] using hr
    rw [← hrow r, ← sum_subset (subset_univ J)]
    · exact sum_congr rfl fun j _ => by rw [hG _ hr']
    · intro j _ hj
      rw [hsel j hj, mul_zero]
  have hzero := fractions_eq_zero hcard (x := fun r => x (s r))
    (fun r hr r' hr' h => hs (hx (by simpa [T] using hr) (by simpa [T] using hr') h)) hy
    (fun r hr j _ => hxy _ (by simpa [T] using hr) j) hfrac
  apply hv
  funext j
  by_cases hj : j ∈ J
  · exact hzero j hj
  · exact hsel j hj

end Galois
