import Mathlib.Data.List.Infix
import Mathlib.Tactic.Basic

namespace Galois
set_option autoImplicit true
set_option relaxedAutoImplicit false

/-- A graph in which every node has at most one edge of each name. -/
abbrev Links (U N : Type) := U → N → Option U

namespace Links

/-- Nothing leads to `r`, and at most one edge to any other node. -/
structure Rooted (E : Links U N) (r : U) : Prop where
  root : ∀ {u n}, E u n ≠ some r
  unique : ∀ {u n v w m}, E u n = some v → E w m = some v → u = w ∧ n = m

variable {U N : Type} {E : Links U N} {r u v w x : U} {n m : N} {p q : List N}

/-- The node reached by following the names of a path in turn. -/
def walk (E : Links U N) (u : U) : List N → Option U
  | [] => some u
  | n :: p => (E u n).bind fun v => walk E v p

@[simp] theorem walk_nil : E.walk u [] = some u := rfl

theorem walk_append : E.walk u (p ++ q) = (E.walk u p).bind fun v => E.walk v q := by
  induction p generalizing u with
  | nil => rfl
  | cons n p ih =>
    simp only [List.cons_append, walk]
    cases E u n with
    | none => rfl
    | some v => exact ih

theorem walk_concat : E.walk u (p ++ [n]) = (E.walk u p).bind fun v => E v n := by
  rw [walk_append]
  cases E.walk u p with
  | none => rfl
  | some v => simp only [Option.bind_some, walk, Option.bind_fun_some]

theorem walk_inj (h : E.Rooted r) (hp : E.walk r p = some v) (hq : E.walk r q = some v) :
    p = q := by
  induction p using List.reverseRecOn generalizing q v with
  | nil =>
    cases q using List.reverseRecOn with
    | nil => rfl
    | append_singleton q m =>
      cases hp
      obtain ⟨w, -, hm⟩ := Option.bind_eq_some_iff.1 (walk_concat ▸ hq)
      exact absurd hm h.root
  | append_singleton p n ih =>
    obtain ⟨u, hu, hn⟩ := Option.bind_eq_some_iff.1 (walk_concat ▸ hp)
    cases q using List.reverseRecOn with
    | nil => cases hq; exact absurd hn h.root
    | append_singleton q m =>
      obtain ⟨w, hw, hm⟩ := Option.bind_eq_some_iff.1 (walk_concat ▸ hq)
      obtain ⟨rfl, rfl⟩ := h.unique hn hm
      rw [ih hu hw]

theorem walk_congr_of_apart {E' : Links U N} (hx : ∀ q, E.walk x q ≠ some w)
    (hE : ∀ y l, y ≠ w → E' y l = E y l) : E'.walk x q = E.walk x q := by
  induction q generalizing x with
  | nil => rfl
  | cons l q ih =>
    have hne : x ≠ w := fun he => hx [] (congrArg some he)
    rw [walk, walk, hE x l hne]
    cases hl : E x l with
    | none => rfl
    | some y =>
      refine ih fun q' hq' => hx (l :: q') ?_
      rw [walk, hl]
      exact hq'

theorem walk_congr {E' : Links U N} (h : E.Rooted r) (hp : E.walk r p = some w)
    (hE : ∀ x l, x ≠ w ∨ p ++ [l] <+: q → E' x l = E x l) : E'.walk r q = E.walk r q := by
  induction q using List.reverseRecOn with
  | nil => rfl
  | append_singleton q m ih =>
    have hq := ih fun x l hx => hE x l (hx.imp_right (·.trans (List.prefix_append q [m])))
    rw [walk_concat, walk_concat, hq]
    cases hw : E.walk r q with
    | none => rfl
    | some x =>
      refine hE x m ?_
      by_cases hx : x = w
      · rw [hx] at hw
        rw [walk_inj h hp hw]
        exact .inr (List.prefix_refl _)
      · exact .inl hx

theorem not_concat_isPrefix_self (p : List N) (n : N) : ¬ p ++ [n] <+: p := by
  intro h
  have hlen := h.length_le
  rw [List.length_append, List.length_singleton] at hlen
  omega

theorem walk_congr_of_edge {E' : Links U N} (h : E.Rooted r) (hp : E.walk r p = some u)
    (hE : ∀ x l, ¬ (x = u ∧ l = n) → E' x l = E x l) (hq : ¬ p ++ [n] <+: q) :
    E'.walk r q = E.walk r q := by
  refine walk_congr h hp fun x l hx => hE x l ?_
  rintro ⟨rfl, rfl⟩
  exact hx.elim (fun hne => hne rfl) hq

theorem walk_below {E' : Links U N} (h : E.Rooted r) (hp : E.walk r p = some u)
    (hE : ∀ x l, ¬ (x = u ∧ l = n) → E' x l = E x l) :
    E'.walk r (p ++ n :: q) = (E' u n).bind fun v => E'.walk v q := by
  have hold := walk_congr_of_edge h hp hE (not_concat_isPrefix_self p n)
  rw [walk_append, hold, hp, Option.bind_some, walk]

variable [DecidableEq U] [DecidableEq N]

def link (E : Links U N) (u : U) (n : N) (v : U) : Links U N :=
  fun w m => if w = u ∧ m = n then some v else E w m

def unlink (E : Links U N) (u : U) (n : N) : Links U N :=
  fun w m => if w = u ∧ m = n then none else E w m

theorem walk_link_of_some (hn : E u n = none) (h : E.walk x p = some w) :
    (E.link u n v).walk x p = some w := by
  induction p generalizing x with
  | nil => exact h
  | cons m p ih =>
    obtain ⟨y, hy, hp⟩ := Option.bind_eq_some_iff.1 h
    have hne : ¬ (x = u ∧ m = n) := by
      rintro ⟨rfl, rfl⟩
      rw [hn] at hy
      cases hy
    simp only [walk, link, hne, ↓reduceIte, hy, Option.bind_some]
    exact ih hp

theorem walk_unlink_of_leaf (hn : E u n = some v) (hv : ∀ m, E v m = none) (hw : w ≠ v)
    (h : E.walk x p = some w) : (E.unlink u n).walk x p = some w := by
  induction p generalizing x with
  | nil => exact h
  | cons m p ih =>
    obtain ⟨y, hy, hp⟩ := Option.bind_eq_some_iff.1 h
    have hne : ¬ (x = u ∧ m = n) := by
      rintro ⟨rfl, rfl⟩
      cases hn.symm.trans hy
      cases p with
      | nil =>
        cases hp
        exact hw rfl
      | cons l p =>
        rw [walk, hv l] at hp
        cases hp
    simp only [walk, unlink, hne, ↓reduceIte, hy, Option.bind_some]
    exact ih hp

theorem link_self : E.link u n v u n = some v := if_pos ⟨rfl, rfl⟩

theorem link_of_ne {x : U} {l : N} (h : ¬ (x = u ∧ l = n)) : E.link u n v x l = E x l := if_neg h

theorem unlink_self : E.unlink u n u n = none := if_pos ⟨rfl, rfl⟩

theorem unlink_of_ne {x : U} {l : N} (h : ¬ (x = u ∧ l = n)) : E.unlink u n x l = E x l := if_neg h

theorem walk_link (h : E.Rooted r) (hp : E.walk r p = some u) (hn : E u n = none) (hvu : v ≠ u)
    (hv : ∀ m, E v m = none) :
    (E.link u n v).walk r q = if q = p ++ [n] then some v else E.walk r q := by
  by_cases hq : p ++ [n] <+: q
  · obtain ⟨t, rfl⟩ := hq
    rw [List.append_assoc, List.singleton_append, walk_below h hp fun x l => link_of_ne, link_self,
      Option.bind_some]
    cases t with
    | nil =>
      rw [if_pos rfl]
      rfl
    | cons m t =>
      have hne : p ++ n :: m :: t ≠ p ++ [n] := by simp
      rw [if_neg hne, walk, link_of_ne fun he => hvu he.1, hv, walk_append, hp, Option.bind_some,
        walk, hn]
      rfl
  · rw [if_neg, walk_congr_of_edge h hp (fun x l => link_of_ne) hq]
    rintro rfl
    exact hq (List.prefix_refl _)

theorem walk_unlink (h : E.Rooted r) (hp : E.walk r p = some u) :
    (E.unlink u n).walk r q = if p ++ [n] <+: q then none else E.walk r q := by
  split
  case isTrue hq =>
    obtain ⟨t, rfl⟩ := hq
    rw [List.append_assoc, List.singleton_append, walk_below h hp fun x l => unlink_of_ne,
      unlink_self]
    rfl
  case isFalse hq => exact walk_congr_of_edge h hp (fun x l => unlink_of_ne) hq

theorem walk_renamed_of_apart (h : E.Rooted r) (hp : E.walk r p = some u)
    (hn : ¬ p ++ [n] <+: q) (hm : ¬ p ++ [m] <+: q) :
    ((E.unlink u n).link u m v).walk r q = E.walk r q := by
  refine walk_congr h hp fun x l hx => ?_
  have hne : ¬ (x = u ∧ l = m) ∧ ¬ (x = u ∧ l = n) := by
    constructor
    · rintro ⟨rfl, rfl⟩
      exact hx.elim (fun hne => hne rfl) hm
    · rintro ⟨rfl, rfl⟩
      exact hx.elim (fun hne => hne rfl) hn
  simp only [link, unlink, hne, ↓reduceIte]

theorem walk_renamed_parent (h : E.Rooted r) (hp : E.walk r p = some u) :
    ((E.unlink u n).link u m v).walk r p = some u :=
  (walk_renamed_of_apart h hp (not_concat_isPrefix_self p n)
    (not_concat_isPrefix_self p m)).trans hp

/-- A node given another name in its directory takes along everything below it. -/
theorem walk_renamed (h : E.Rooted r) (hp : E.walk r p = some u) (hn : E u n = some v) :
    ((E.unlink u n).link u m v).walk r (p ++ m :: q) = E.walk r (p ++ n :: q) := by
  have hbelow : ∀ t, E.walk v t ≠ some u := by
    intro t ht
    have hloop : E.walk r (p ++ n :: t) = some u := by
      rw [walk_append, hp, Option.bind_some, walk, hn]
      exact ht
    have hlen := congrArg List.length (walk_inj h hp hloop)
    rw [List.length_append, List.length_cons] at hlen
    omega
  have hedge : ((E.unlink u n).link u m v) u m = some v := by
    simp only [link, and_self, ↓reduceIte]
  rw [walk_append, walk_renamed_parent h hp, Option.bind_some, walk, hedge, Option.bind_some,
    walk_append, hp, Option.bind_some, walk, hn, Option.bind_some]
  refine walk_congr_of_apart hbelow fun x l hx => ?_
  simp only [link, unlink, hx, false_and, ↓reduceIte]

theorem walk_renamed_old (h : E.Rooted r) (hp : E.walk r p = some u) (hne : n ≠ m) :
    ((E.unlink u n).link u m v).walk r (p ++ n :: q) = none := by
  rw [walk_append, walk_renamed_parent h hp, Option.bind_some, walk]
  simp only [link, unlink, hne, and_false, and_self, ↓reduceIte, Option.bind_none]

end Links

end Galois
