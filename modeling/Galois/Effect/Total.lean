import Mathlib.Data.List.Basic
import Mathlib.Tactic.Basic

namespace Galois
set_option autoImplicit true
set_option relaxedAutoImplicit false

/-- A computation in which an assertion may fail, and here does not; `P` holds of its result. -/
def Yields (x : Option α) (P : α → Prop) : Prop := ∃ a, x = some a ∧ P a

namespace Yields

theorem ret (h : P a) : Yields (some a) P := ⟨a, rfl, h⟩

theorem mono (h : Yields x P) (hQ : ∀ a, P a → Q a) : Yields x Q := by
  obtain ⟨a, ha, hP⟩ := h
  exact ⟨a, ha, hQ a hP⟩

theorem bind {f : α → Option β} (h : Yields x P) (hf : ∀ a, P a → Yields (f a) Q) :
    Yields (x >>= f) Q := by
  obtain ⟨a, rfl, hP⟩ := h
  exact hf a hP

theorem check {c : Prop} [Decidable c] {f : Unit → Option β} (hc : c) (hf : Yields (f ()) Q) :
    Yields (guard c >>= f) Q := by
  rw [guard, if_pos hc]
  exact hf

theorem of_eq (h : Yields x P) (hx : x = some a) : P a := by
  obtain ⟨b, hb, hP⟩ := h
  rw [hx] at hb
  cases hb
  exact hP

theorem foldlM {f : σ → α → Option σ} {P : List α → σ → Prop} {l : List α}
    (hf : ∀ v a u s, l = v ++ a :: u → P v s → Yields (f s a) (P (v ++ [a]))) (h : P [] s) :
    Yields (l.foldlM f s) (P l) := by
  suffices hsuff : ∀ u v s, l = v ++ u → P v s → Yields (u.foldlM f s) (P l) from hsuff l [] s rfl h
  intro u
  induction u with
  | nil =>
    intro v s hl hP
    rw [List.append_nil] at hl
    subst hl
    exact Yields.ret hP
  | cons a u ih =>
    intro v s hl hP
    rw [List.foldlM_cons]
    refine (hf v a u s hl hP).bind fun s' hP' => ih (v ++ [a]) s' ?_ hP'
    rw [hl, List.append_assoc, List.singleton_append]

theorem foldlM_range {f : σ → Nat → Option σ} {P : Nat → σ → Prop}
    (hf : ∀ k < n, ∀ s, P k s → Yields (f s k) (P (k + 1))) (h : P 0 s) :
    Yields ((List.range n).foldlM f s) (P n) := by
  induction n with
  | zero => exact Yields.ret h
  | succ n ih =>
    rw [List.range_succ, List.foldlM_append]
    refine (ih fun k hk => hf k (Nat.lt_succ_of_lt hk)).bind fun s' hP => ?_
    rw [List.foldlM_cons]
    exact (hf n (Nat.lt_succ_self n) s' hP).bind fun s'' hP' => Yields.ret hP'

end Yields

end Galois
