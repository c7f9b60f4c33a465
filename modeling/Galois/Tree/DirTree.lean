import Galois.Tree.Walk

namespace Galois
set_option autoImplicit true
set_option relaxedAutoImplicit false

/-- The paths of a tree, each with an identity of its own. -/
structure DirTree (N U : Type) where
  find : List N → Option U
  closed : ∀ {p n}, find p = none → find (p ++ [n]) = none
  inj : ∀ {p q u}, find p = some u → find q = some u → p = q

namespace DirTree

variable {N U : Type} {T T' : DirTree N U} {p q : List N} {n : N} {u : U}

theorem find_below (h : T.find p = none) (hpq : p <+: q) : T.find q = none := by
  obtain ⟨r, rfl⟩ := hpq
  induction r using List.reverseRecOn with
  | nil => rw [List.append_nil]; exact h
  | append_singleton r n ih =>
    rw [← List.append_assoc]
    exact T.closed ih

def Free (T : DirTree N U) (p : List N) : Prop :=
  p ≠ [] ∧ (T.find p.dropLast).isSome ∧ T.find p = none

theorem free_concat : T.Free (p ++ [n]) ↔ (T.find p).isSome ∧ T.find (p ++ [n]) = none := by
  simp only [Free, List.dropLast_concat, ne_eq, List.append_eq_nil_iff, List.cons_ne_self,
    and_false, not_false_eq_true, true_and]

def Added (T : DirTree N U) (p : List N) (u : U) (T' : DirTree N U) : Prop :=
  T'.find p = some u ∧ ∀ q, q ≠ p → T'.find q = T.find q

/-- The tree without `p` and everything below. -/
def Cut (T : DirTree N U) (p : List N) (T' : DirTree N U) : Prop :=
  (∀ q, p <+: q → T'.find q = none) ∧ ∀ q, ¬ p <+: q → T'.find q = T.find q

/-- The tree with the directory `p` and everything below under another path. -/
def Moved (T : DirTree N U) (p p' : List N) (T' : DirTree N U) : Prop :=
  (∀ t, T'.find (p' ++ t) = T.find (p ++ t)) ∧ (∀ t, T'.find (p ++ t) = none) ∧
    ∀ q, ¬ p <+: q → ¬ p' <+: q → T'.find q = T.find q

theorem Added.below (h : T.Added p u T') (hp : T.find p = none) (hq : p <+: q) (hne : q ≠ p) :
    T'.find q = none := by
  rw [h.2 q hne]
  exact find_below hp hq

theorem Added.other (h : T.Added p u T') (hq : ¬ p <+: q) : T'.find q = T.find q := by
  apply h.2
  rintro rfl
  exact hq (List.prefix_refl _)

end DirTree

namespace Links

variable {U N : Type} {E : Links U N} {r : U}

/-- The paths that lead somewhere from the root. -/
def Rooted.tree (h : E.Rooted r) : DirTree N U where
  find p := E.walk r p
  closed {p n} hp := by rw [walk_concat, hp]; rfl
  inj := walk_inj h

end Links

end Galois
