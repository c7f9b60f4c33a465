import Mathlib.Algebra.Ring.Nat
import Mathlib.Data.List.Basic
import Mathlib.Tactic.Basic

namespace Galois
set_option autoImplicit true
set_option relaxedAutoImplicit false

/-- `boost::split` at a separator, with `token_compress_on`. -/
abbrev Splitter := Char → List Char → List (List Char)

namespace Splitter

/-- The tokens stand between the separators, of which adjacent ones are merged. -/
structure Documented (split : Splitter) : Prop where
  single : ∀ {sep s}, sep ∉ s → split sep s = [s]
  next : ∀ {sep t s}, sep ∉ t → s.head? ≠ some sep → split sep (t ++ sep :: s) = t :: split sep s
  merge : ∀ {sep t s}, split sep (t ++ sep :: sep :: s) = split sep (t ++ sep :: s)

variable {split : Splitter} {sep : Char} {s t : List Char}

theorem first_sep (sep : Char) (s : List Char) :
    sep ∉ s ∨ ∃ t r, sep ∉ t ∧ s = t ++ sep :: r := by
  induction s with
  | nil => exact .inl List.not_mem_nil
  | cons c s ih =>
    by_cases hc : c = sep
    · exact .inr ⟨[], s, List.not_mem_nil, by rw [hc]; rfl⟩
    · cases ih with
      | inl hs => exact .inl (List.not_mem_cons_of_ne_of_not_mem (Ne.symm hc) hs)
      | inr hs =>
        obtain ⟨t, r, ht, rfl⟩ := hs
        exact .inr ⟨c :: t, r, List.not_mem_cons_of_ne_of_not_mem (Ne.symm hc) ht, rfl⟩

theorem Documented.induction (h : split.Documented) {P : List Char → List (List Char) → Prop}
    (single : ∀ s, sep ∉ s → P s [s])
    (next : ∀ t s, sep ∉ t → s.head? ≠ some sep → P s (split sep s) →
      P (t ++ sep :: s) (t :: split sep s))
    (merge : ∀ t s, P (t ++ sep :: s) (split sep (t ++ sep :: s)) →
      P (t ++ sep :: sep :: s) (split sep (t ++ sep :: s))) (s : List Char) :
    P s (split sep s) := by
  generalize hn : s.length = n
  induction n using Nat.strongRecOn generalizing s with
  | ind n ih =>
    cases first_sep sep s with
    | inl hs => rw [h.single hs]; exact single s hs
    | inr hs =>
      obtain ⟨t, r, ht, rfl⟩ := hs
      rw [List.length_append, List.length_cons] at hn
      by_cases hr : r.head? = some sep
      · obtain ⟨r, rfl⟩ := List.head?_eq_some_iff.1 hr
        rw [h.merge]
        rw [List.length_cons] at hn
        exact merge t r (ih (t ++ sep :: r).length
          (by rw [List.length_append, List.length_cons]; omega) _ rfl)
      · rw [h.next ht hr]
        exact next t r ht hr (ih _ (by omega) r rfl)

theorem Documented.sep_notMem (h : split.Documented) (ht : t ∈ split sep s) : sep ∉ t := by
  revert ht
  apply h.induction (P := fun _ l => t ∈ l → sep ∉ t)
  · intro s hs ht
    rw [List.mem_singleton.1 ht]
    exact hs
  · intro u s hu _ ih ht
    cases ht with
    | head => exact hu
    | tail _ ht => exact ih ht
  · intro u s ih
    exact ih

theorem Documented.mem_token (h : split.Documented) {c : Char} (hc : c ≠ sep) (hs : c ∈ s) :
    ∃ t ∈ split sep s, c ∈ t := by
  revert hs
  apply h.induction (P := fun s l => c ∈ s → ∃ t ∈ l, c ∈ t)
  · intro s _ hs
    exact ⟨s, List.mem_singleton_self s, hs⟩
  · intro t s _ _ ih hs
    cases List.mem_append.1 hs with
    | inl ht => exact ⟨t, List.mem_cons_self, ht⟩
    | inr hs =>
      obtain ⟨u, hu, hcu⟩ := ih ((List.mem_cons.1 hs).resolve_left hc)
      exact ⟨u, List.mem_cons_of_mem t hu, hcu⟩
  · intro t s ih hs
    apply ih
    cases List.mem_append.1 hs with
    | inl ht => exact List.mem_append_left _ ht
    | inr hs => exact List.mem_append_right t ((List.mem_cons.1 hs).resolve_left hc)

theorem mem_intercalate {c : Char} {l : List (List Char)} (h : c ∈ [sep].intercalate l) :
    c = sep ∨ ∃ t ∈ l, c ∈ t := by
  induction l with
  | nil => cases h
  | cons t l ih =>
    cases l with
    | nil =>
      rw [List.intercalate_singleton] at h
      exact .inr ⟨t, List.mem_cons_self, h⟩
    | cons u l =>
      rw [List.intercalate_cons_cons, List.append_assoc] at h
      cases List.mem_append.1 h with
      | inl h => exact .inr ⟨t, List.mem_cons_self, h⟩
      | inr h =>
        cases List.mem_cons.1 h with
        | inl h => exact .inl h
        | inr h =>
          refine (ih h).imp_right ?_
          rintro ⟨v, hv, hc⟩
          exact ⟨v, List.mem_cons_of_mem t hv, hc⟩

def weight (l : List (List Char)) : Nat := (l.map fun t => t.length + 1).sum

theorem weight_append (l m : List (List Char)) : weight (l ++ m) = weight l + weight m := by
  simp only [weight, List.map_append, List.sum_append]

theorem weight_perm {l m : List (List Char)} (h : l.Perm m) : weight l = weight m :=
  (h.map _).sum_nat

theorem length_intercalate {l : List (List Char)} (hl : l ≠ []) :
    ([sep].intercalate l).length + 1 = weight l := by
  induction l with
  | nil => exact absurd rfl hl
  | cons t l ih =>
    cases l with
    | nil => simp [weight]
    | cons u l =>
      have hw : weight (t :: u :: l) = t.length + 1 + weight (u :: l) := by
        simp only [weight, List.map_cons, List.sum_cons]
      rw [List.intercalate_cons_cons, hw, ← ih (List.cons_ne_nil u l)]
      simp only [List.length_append, List.length_singleton]
      omega

theorem Documented.weight_le (h : split.Documented) (sep : Char) (s : List Char) :
    weight (split sep s) ≤ s.length + 1 := by
  apply h.induction (P := fun s l => weight l ≤ s.length + 1)
  · intro s _
    simp [weight]
  · intro t s _ _ ih
    rw [← List.singleton_append, weight_append, List.length_append, List.length_cons]
    simp only [weight, List.map_cons, List.map_nil, List.sum_cons, List.sum_nil] at ih ⊢
    omega
  · intro t s ih
    rw [List.length_append, List.length_cons] at ih ⊢
    rw [List.length_cons]
    omega

/-- What is joined of tokens without separator splits into them again. -/
theorem Documented.intercalate (h : split.Documented) {l : List (List Char)} (hne : l ≠ [])
    (hl : ∀ t ∈ l, t ≠ [] ∧ sep ∉ t) : split sep ([sep].intercalate l) = l := by
  induction l with
  | nil => exact absurd rfl hne
  | cons t l ih =>
    obtain ⟨-, ht⟩ := hl t List.mem_cons_self
    cases l with
    | nil =>
      rw [List.intercalate_singleton]
      exact h.single ht
    | cons u l =>
      have hrest : ∀ v ∈ u :: l, v ≠ [] ∧ sep ∉ v := fun v hv => hl v (List.mem_cons_of_mem t hv)
      obtain ⟨hu, hsep⟩ := hrest u List.mem_cons_self
      have hhead : ([sep].intercalate (u :: l)).head? ≠ some sep := by
        obtain ⟨c, r, rfl⟩ := List.exists_cons_of_ne_nil hu
        have hc : c ≠ sep := fun hc => hsep (hc ▸ List.mem_cons_self)
        cases l with
        | nil => simp [hc]
        | cons v l => simp [List.intercalate_cons_cons, hc]
      rw [List.intercalate_cons_cons, List.append_assoc, List.singleton_append, h.next ht hhead,
        ih (List.cons_ne_nil u l) hrest]

theorem Documented.pair (h : split.Documented) (ht : sep ∉ t) (hs : sep ∉ s) :
    split sep (t ++ sep :: s) = [t, s] := by
  rw [h.next ht, h.single hs]
  intro he
  exact hs (List.mem_of_mem_head? he)

theorem Documented.ne_nil (h : split.Documented) (sep : Char) (s : List Char) :
    split sep s ≠ [] := by
  apply h.induction (P := fun _ l => l ≠ [])
  · intro s _
    exact List.cons_ne_nil s []
  · intro t s _ _ _
    exact List.cons_ne_nil t _
  · intro _ _ ih
    exact ih

theorem Documented.concat (h : split.Documented) (ht : sep ∉ t) {s : List Char}
    (hs : s.getLast? ≠ some sep) : split sep (s ++ sep :: t) = split sep s ++ [t] := by
  have hhead : t.head? ≠ some sep := fun he => ht (List.mem_of_mem_head? he)
  revert hs
  apply h.induction (P := fun s l => s.getLast? ≠ some sep → split sep (s ++ sep :: t) = l ++ [t])
  case single =>
    intro s hs _
    rw [h.next hs hhead, h.single ht]
    rfl
  case next =>
    intro r s hr hs ih hlast
    cases s with
    | nil =>
      rw [List.getLast?_concat] at hlast
      exact absurd rfl hlast
    | cons c s =>
      rw [List.getLast?_append_cons, List.getLast?_cons_cons] at hlast
      rw [List.append_assoc, List.cons_append, h.next (s := c :: s ++ sep :: t) hr hs, ih hlast]
      rfl
  case merge =>
    intro r s ih hlast
    rw [List.getLast?_append_cons, List.getLast?_cons_cons] at hlast
    rw [List.append_assoc, List.cons_append, List.cons_append, h.merge, ← List.cons_append,
      ← List.append_assoc]
    exact ih (by rwa [List.getLast?_append_cons])

/-- Drops the empty tokens but the last one. -/
def compress : List (List Char) → List (List Char)
  | [] => []
  | [t] => [t]
  | [] :: u :: l => compress (u :: l)
  | t :: u :: l => t :: compress (u :: l)

/-- The documented behaviour, in terms of a split at every separator. -/
def runs : Splitter := fun sep s =>
  match s.splitOn sep with
  | [] => []
  | t :: l => t :: compress l

theorem compress_cons {t : List Char} {l : List (List Char)} (h : l ≠ []) :
    compress (t :: l) = if t = [] then compress l else t :: compress l := by
  cases l with
  | nil => exact absurd rfl h
  | cons u l =>
    cases t with
    | nil => rfl
    | cons c t => rfl

theorem compress_merge (l m : List (List Char)) (h : m ≠ []) :
    compress (l ++ [] :: m) = compress (l ++ m) := by
  induction l with
  | nil => exact (compress_cons h).trans (if_pos rfl)
  | cons t l ih =>
    rw [List.cons_append, List.cons_append, compress_cons (by simp), compress_cons (by simp [h]),
      ih]

theorem runs_documented : Documented runs where
  single h := by simp only [runs, List.splitOn_eq_singleton h, compress]
  next {sep t s} ht hs := by
    simp only [runs, List.splitOn_append_cons_self_of_not_mem ht]
    cases s with
    | nil => rfl
    | cons c s =>
      have hc : (c == sep) = false := by simpa using hs
      rw [List.splitOn_cons_eq_if_modifyHead, hc, if_neg Bool.false_ne_true]
      obtain ⟨u, l, hl⟩ := List.exists_cons_of_ne_nil (List.splitOn_ne_nil sep s)
      rw [hl, List.modifyHead_cons]
      cases l with
      | nil => rfl
      | cons v l => rfl
  merge {sep t s} := by
    obtain ⟨u, l, hl⟩ := List.exists_cons_of_ne_nil (List.splitOn_ne_nil sep t)
    have hone : (sep :: s).splitOn sep = [] :: s.splitOn sep := by
      rw [List.splitOn_cons_eq_if_modifyHead, if_pos (BEq.refl sep)]
    simp only [runs, List.splitOn_append_cons_self, hl, hone, List.cons_append]
    rw [compress_merge _ _ (List.splitOn_ne_nil sep s)]

end Splitter

end Galois
