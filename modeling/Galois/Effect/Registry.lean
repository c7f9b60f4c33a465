import Mathlib.Algebra.Ring.Nat
import Mathlib.Data.List.Induction
import Mathlib.Logic.Function.Basic
import Mathlib.Tactic.Basic

namespace Galois
set_option autoImplicit true
set_option relaxedAutoImplicit false

/-- Some element with `P` has none with `Q` after it. -/
def Since (P Q : α → Prop) (w : List α) : Prop :=
  ∃ v a u, w = v ++ a :: u ∧ P a ∧ ∀ b ∈ u, ¬ Q b

theorem not_since_nil {P Q : α → Prop} : ¬ Since P Q [] := by
  rintro ⟨v, a, u, hw, -⟩
  exact List.append_ne_nil_of_right_ne_nil v (List.cons_ne_nil a u) hw.symm

theorem since_snoc {P Q : α → Prop} {w : List α} {a : α} :
    Since P Q (w ++ [a]) ↔ P a ∨ Since P Q w ∧ ¬ Q a := by
  constructor
  · rintro ⟨v, b, u, hw, hb, hu⟩
    cases u using List.reverseRecOn with
    | nil =>
      obtain ⟨rfl, rfl⟩ := List.append_singleton_inj.1 hw
      exact .inl hb
    | append_singleton u c =>
      rw [← List.cons_append, ← List.append_assoc] at hw
      obtain ⟨rfl, rfl⟩ := List.append_singleton_inj.1 hw
      exact .inr ⟨⟨v, b, u, rfl, hb, fun d hd => hu d (List.mem_append_left _ hd)⟩,
        hu _ (List.mem_append_right _ (List.mem_singleton_self _))⟩
  · rintro (ha | ⟨⟨v, b, u, rfl, hb, hu⟩, ha⟩)
    · exact ⟨w, a, [], rfl, ha, fun b hb => absurd hb List.not_mem_nil⟩
    · refine ⟨v, b, u ++ [a], by rw [List.append_assoc, List.cons_append], hb, ?_⟩
      intro c hc
      cases List.mem_append.1 hc with
      | inl hc => exact hu c hc
      | inr hc => rw [List.mem_singleton.1 hc]; exact ha

/-- What may happen to the entries of a registry. -/
inductive Registry.Event (κ α : Type) where
  | create (k : κ) (a : α)
  | remove (k : κ)
  | update (k : κ) (a : α)
  | other

/-- Entries under keys, each with the number that its creation drew. -/
structure Registry (κ α : Type) where
  entry : κ → Option (Nat × α)
  drawn : Nat

namespace Registry

variable [DecidableEq κ] {r : Registry κ α} {k k' : κ} {a : α} {e : Event κ α}

def empty : Registry κ α where
  entry := fun _ => none
  drawn := 0

def apply (r : Registry κ α) : Event κ α → Registry κ α
  | .create k a => ⟨Function.update r.entry k (some (r.drawn, a)), r.drawn + 1⟩
  | .remove k => { r with entry := Function.update r.entry k none }
  | .update k a =>
    { r with entry := Function.update r.entry k ((r.entry k).map fun x => (x.1, a)) }
  | .other => r

def Created (k : κ) (e : Event κ α) : Prop := ∃ a, e = .create k a

def Removed (k : κ) (e : Event κ α) : Prop := e = .remove k

def updated (k : κ) : Event κ α → Option α
  | .update k' a => if k' = k then some a else none
  | _ => none

def draws : Event κ α → Nat
  | .create _ _ => 1
  | _ => 0

theorem drawn_apply : (r.apply e).drawn = r.drawn + draws e := by
  cases e <;> rfl

theorem isSome_apply :
    ((r.apply e).entry k).isSome ↔ Created k e ∨ (r.entry k).isSome ∧ ¬ Removed k e := by
  cases e with
  | create k' a =>
    by_cases hk : k = k'
    · simp [apply, Created, hk]
    · simp [apply, Created, Removed, hk, Ne.symm hk]
  | remove k' =>
    by_cases hk : k = k'
    · simp [apply, Created, Removed, hk]
    · simp [apply, Created, Removed, hk, Ne.symm hk]
  | update k' a =>
    by_cases hk : k = k'
    · simp [apply, Created, Removed, hk]
    · simp [apply, Created, Removed, hk]
  | other => simp [apply, Created, Removed]

theorem entry_apply (hc : ¬ Created k e) (hr : ¬ Removed k e) :
    (r.apply e).entry k = (r.entry k).map fun x => (x.1, (updated k e).getD x.2) := by
  cases e with
  | create k' a =>
    have hk : k ≠ k' := fun hk => hc ⟨a, by rw [hk]⟩
    simp [apply, hk, updated]
  | remove k' =>
    have hk : k ≠ k' := fun hk => hr (by rw [hk]; rfl)
    simp [apply, hk, updated]
  | update k' a =>
    by_cases hk : k = k'
    · simp [apply, hk, updated]
    · simp [apply, hk, updated, Ne.symm hk]
  | other => simp [apply, updated]

variable (event : β → Event κ α)

/-- The registry after a history. -/
def replay (w : List β) : Registry κ α := w.foldl (fun r b => r.apply (event b)) empty

variable {event} {w v u : List β} {b : β}

@[simp] theorem replay_snoc : replay event (w ++ [b]) = (replay event w).apply (event b) := by
  simp only [replay, List.foldl_append, List.foldl_cons, List.foldl_nil]

theorem drawn_replay_append : (replay event (v ++ u)).drawn =
    (replay event v).drawn + (u.map fun b => draws (event b)).sum := by
  induction u using List.reverseRecOn with
  | nil => simp
  | append_singleton u b ih =>
    rw [← List.append_assoc, replay_snoc, drawn_apply, ih, List.map_append, List.sum_append]
    simp [Nat.add_assoc]

theorem isSome_replay : ((replay event w).entry k).isSome ↔
    Since (fun b => Created k (event b)) (fun b => Removed k (event b)) w := by
  induction w using List.reverseRecOn with
  | nil => exact iff_of_false Bool.false_ne_true not_since_nil
  | append_singleton w b ih => rw [replay_snoc, isSome_apply, since_snoc, ih]

theorem entry_replay (hb : event b = .create k a)
    (hu : ∀ c ∈ u, ¬ Created k (event c) ∧ ¬ Removed k (event c)) :
    (replay event (v ++ b :: u)).entry k =
      some ((replay event v).drawn, ((u.filterMap fun c => updated k (event c)).getLastD a)) := by
  induction u using List.reverseRecOn with
  | nil =>
    rw [replay_snoc, hb]
    exact Function.update_self ..
  | append_singleton u c ih =>
    obtain ⟨hc, hr⟩ := hu c (List.mem_append_right _ (List.mem_singleton_self c))
    rw [← List.cons_append, ← List.append_assoc, replay_snoc, entry_apply hc hr,
      ih fun d hd => hu d (List.mem_append_left _ hd), List.filterMap_append]
    cases hx : updated k (event c) with
    | none => simp [hx]
    | some x => simp [hx, List.getLastD_eq_getLast?]

end Registry

end Galois
