import Mathlib.Algebra.Ring.Nat
import Mathlib.Tactic.Basic

namespace Galois
set_option autoImplicit true
set_option relaxedAutoImplicit false

variable {w : Nat}

/-- The step of a hash that mixes the low bits of a word into its high ones. -/
def xorshift (x : BitVec w) (n : Nat) : BitVec w := (x <<< n) ^^^ x

theorem getLsbD_xorshift (x : BitVec w) (n : Nat) {i : Nat} (hi : i < w) :
    (xorshift x n).getLsbD i = ((!decide (i < n) && x.getLsbD (i - n)) ^^ x.getLsbD i) := by
  rw [xorshift, BitVec.getLsbD_xor, BitVec.getLsbD_shiftLeft]
  simp only [hi, decide_true, Bool.true_and]

/-- Bit by bit from the lowest, a word can be read off from its mix. -/
theorem xorshift_inj {x y : BitVec w} {n : Nat} (hn : 0 < n)
    (h : xorshift x n = xorshift y n) : x = y := by
  apply BitVec.eq_of_getLsbD_eq
  intro i
  induction i using Nat.strongRecOn with
  | ind i ih =>
    intro hi
    have hbit := congrArg (BitVec.getLsbD · i) h
    simp only [getLsbD_xorshift _ _ hi] at hbit
    by_cases hlow : i < n
    · simp only [hlow, decide_true, Bool.not_true, Bool.false_and, Bool.false_xor] at hbit
      exact hbit
    · have hprev : x.getLsbD (i - n) = y.getLsbD (i - n) := ih (i - n) (by omega) (by omega)
      rw [hprev] at hbit
      exact Bool.xor_right_inj.1 hbit

theorem setWidth_xorshift (x : BitVec w) {k n : Nat} (hk : k ≤ n) (hw : n ≤ w) :
    (xorshift x n).setWidth k = x.setWidth k := by
  apply BitVec.eq_of_getLsbD_eq
  intro i hi
  have hlow : i < n := by omega
  simp only [BitVec.getLsbD_setWidth, getLsbD_xorshift _ _ (show i < w by omega), hlow,
    decide_true, Bool.not_true, Bool.false_and, Bool.false_xor]

theorem mul_right_cancel_of_inv {x y m m' : BitVec w} (hm : m * m' = 1#w) (h : x * m = y * m) :
    x = y := by
  calc x = x * m * m' := by rw [BitVec.mul_assoc, hm, BitVec.mul_one]
    _ = y * m * m' := by rw [h]
    _ = y := by rw [BitVec.mul_assoc, hm, BitVec.mul_one]

theorem setWidth_mul_right_cancel {x y m m' : BitVec w} {k : Nat} (hk : k ≤ w)
    (hm : m * m' = 1#w) (h : (x * m).setWidth k = (y * m).setWidth k) :
    x.setWidth k = y.setWidth k := by
  have hinv : m.setWidth k * m'.setWidth k = 1#k := by
    rw [← BitVec.setWidth_mul _ _ hk, hm]
    exact BitVec.setWidth_ofNat_of_le hk 1
  rw [BitVec.setWidth_mul _ _ hk, BitVec.setWidth_mul _ _ hk] at h
  exact mul_right_cancel_of_inv hinv h

theorem toNat_umod_eq_iff {x y m : BitVec w} {k : Nat} (hm : m.toNat = 2 ^ k) :
    (x % m).toNat = (y % m).toNat ↔ x.setWidth k = y.setWidth k := by
  rw [BitVec.toNat_umod, BitVec.toNat_umod, hm, ← BitVec.toNat_setWidth, ← BitVec.toNat_setWidth,
    BitVec.toNat_inj]

end Galois
