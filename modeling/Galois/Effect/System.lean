import Mathlib.Data.List.Induction
import Mathlib.Tactic.Basic

namespace Galois
set_option autoImplicit true
set_option relaxedAutoImplicit false

/-- A labelled transition system with its initial states. -/
structure System (σ α : Type) where
  init : σ → Prop
  step : σ → α → σ → Prop

namespace System

/-- The same system with fewer steps. -/
def restrict (M : System σ α) (P : σ → α → σ → Prop) : System σ α where
  init := M.init
  step s a s' := M.step s a s' ∧ P s a s'

/-- The runs of a system, each with the labels of its steps in order. -/
inductive Run (M : System σ α) : List α → σ → Prop
  | nil (h : M.init s) : Run M [] s
  | snoc (h : Run M w s) (hs : M.step s a s') : Run M (w ++ [a]) s'

/-- What holds initially and is kept by every step holds along every run. -/
theorem Run.invariant {M : System σ α} {I : σ → Prop} (hinit : ∀ s, M.init s → I s)
    (hstep : ∀ s a s', I s → M.step s a s' → I s') (h : M.Run w s) : I s := by
  induction h with
  | nil h => exact hinit _ h
  | snoc _ hs ih => exact hstep _ _ _ ih hs

/-- The same rule for a property of the state and of the labels that led to it. -/
theorem Run.history {M : System σ α} {I : List α → σ → Prop}
    (hinit : ∀ s, M.init s → I [] s)
    (hstep : ∀ w s a s', M.Run w s → I w s → M.step s a s' → I (w ++ [a]) s')
    (h : M.Run w s) : I w s := by
  induction h with
  | nil h => exact hinit _ h
  | snoc hr hs ih => exact hstep _ _ _ _ hr ih hs

def Reachable (M : System σ α) (s : σ) : Prop := ∃ w, M.Run w s

theorem Reachable.step {M : System σ α} (h : M.Reachable s) (hs : M.step s a s') :
    M.Reachable s' := by
  obtain ⟨w, hr⟩ := h
  exact ⟨w ++ [a], hr.snoc hs⟩

theorem Run.of_restrict {M : System σ α} {P : σ → α → σ → Prop} (h : (M.restrict P).Run w s) :
    M.Run w s := by
  induction h with
  | nil h => exact .nil h
  | snoc _ hs ih => exact ih.snoc hs.1

theorem Run.restrict {M : System σ α} {P : σ → α → σ → Prop} (h : M.Run w s)
    (hP : ∀ s a s', M.step s a s' → P s a s') : (M.restrict P).Run w s := by
  induction h with
  | nil h => exact .nil h
  | snoc _ hs ih => exact ih.snoc ⟨hs, hP _ _ _ hs⟩

inductive Steps (M : System σ α) (s : σ) : List α → σ → Prop
  | nil : Steps M s [] s
  | snoc (h : Steps M s w s') (hs : M.step s' a s'') : Steps M s (w ++ [a]) s''

theorem Run.split {M : System σ α} {v u : List α} (h : M.Run (v ++ u) s) :
    ∃ s', M.Run v s' ∧ M.Steps s' u s := by
  generalize hw : v ++ u = w at h
  induction h generalizing u with
  | nil h =>
    obtain ⟨rfl, rfl⟩ := List.append_eq_nil_iff.1 hw
    exact ⟨_, .nil h, .nil⟩
  | @snoc w s a s' hr hs ih =>
    cases u using List.reverseRecOn with
    | nil =>
      rw [List.append_nil] at hw
      rw [hw]
      exact ⟨s', hr.snoc hs, .nil⟩
    | append_singleton u b =>
      rw [← List.append_assoc] at hw
      obtain ⟨hw, hb⟩ := List.append_singleton_inj.1 hw
      obtain ⟨s₁, hv, hu⟩ := ih hw
      rw [hb]
      exact ⟨s₁, hv, hu.snoc hs⟩

theorem Run.steps {M : System σ α} (h : M.Run v s) (hs : M.Steps s w s') : M.Run (v ++ w) s' := by
  induction hs with
  | nil =>
    rw [List.append_nil]
    exact h
  | snoc _ hs ih =>
    rw [← List.append_assoc]
    exact ih.snoc hs

theorem Steps.trans {M : System σ α} (h : M.Steps s v s') (h' : M.Steps s' w s'') :
    M.Steps s (v ++ w) s'' := by
  induction h' with
  | nil =>
    rw [List.append_nil]
    exact h
  | snoc _ hs ih =>
    rw [← List.append_assoc]
    exact ih.snoc hs

theorem Steps.single {M : System σ α} (h : M.step s a s') : M.Steps s [a] s' := .snoc .nil h

theorem Run.steps_keep {M : System σ α} {R : σ → σ → Prop} (hrefl : ∀ s, R s s)
    (htrans : ∀ s s' s'', R s s' → R s' s'' → R s s'')
    (hstep : ∀ w s a s', M.Run w s → M.step s a s' → R s s') (h : M.Run v s)
    (hs : M.Steps s w s') : R s s' := by
  induction hs with
  | nil => exact hrefl s
  | snoc hsteps hs ih => exact htrans _ _ _ ih (hstep _ _ _ _ (h.steps hsteps) hs)

theorem Run.restrict_of_mem {M : System σ α} {P Q : σ → α → σ → Prop} (h : (M.restrict P).Run w s)
    (hQ : ∀ a ∈ w, ∀ s s', P s a s' → Q s a s') : (M.restrict Q).Run w s := by
  induction h with
  | nil h => exact .nil h
  | snoc _ hs ih =>
    have hr := ih fun a ha => hQ a (List.mem_append_left _ ha)
    exact hr.snoc ⟨hs.1, hQ _ (List.mem_append_right _ List.mem_cons_self) _ _ hs.2⟩

end System

end Galois
