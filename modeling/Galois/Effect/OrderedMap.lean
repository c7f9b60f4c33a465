import Mathlib.Data.List.Induction
import Mathlib.Order.Lattice
import Mathlib.Tactic.Basic

namespace Galois
set_option autoImplicit true
set_option relaxedAutoImplicit false

universe u v w

variable {K : Type u} {β : Type v} {γ : Type w}

theorem foldl_least {α : Type u} [LinearOrder β] (w : α → β) (a : α) (l : List α) :
    ∃ before after, a :: l =
      before ++ l.foldl (fun b e => if w e < w b then e else b) a :: after ∧
      (∀ e ∈ before, w (l.foldl (fun b e => if w e < w b then e else b) a) < w e) ∧
      ∀ e ∈ after, w (l.foldl (fun b e => if w e < w b then e else b) a) ≤ w e := by
  induction l using List.reverseRecOn with
  | nil => exact ⟨[], [], rfl, fun _ he => absurd he List.not_mem_nil,
      fun _ he => absurd he List.not_mem_nil⟩
  | append_singleton l b ih =>
    obtain ⟨before, after, he, hbefore, hafter⟩ := ih
    rw [List.foldl_append, List.foldl_cons, List.foldl_nil, ← List.cons_append, he]
    generalize l.foldl (fun b e => if w e < w b then e else b) a = r at hbefore hafter ⊢
    split
    case isTrue hlt =>
      refine ⟨before ++ r :: after, [], rfl, ?_, fun _ he => absurd he List.not_mem_nil⟩
      intro e he
      rcases List.mem_append.1 he with he | he
      · exact hlt.trans (hbefore e he)
      · rcases List.mem_cons.1 he with rfl | he
        · exact hlt
        · exact hlt.trans_le (hafter e he)
    case isFalse hle =>
      refine ⟨before, after ++ [b], List.append_assoc .., hbefore, ?_⟩
      intro e he
      rcases List.mem_append.1 he with he | he
      · exact hafter e he
      · rw [List.mem_singleton.1 he]
        exact not_lt.1 hle

/-- Entries with their keys in order, each key once. -/
def Ordered [LT K] (m : List (K × β)) : Prop := m.Pairwise fun e e' => e.1 < e'.1

namespace Ordered

variable [LinearOrder K] {m : List (K × β)} {k key : K} {x : β}

theorem nil : Ordered ([] : List (K × β)) := List.Pairwise.nil

theorem cons_iff {e : K × β} : Ordered (e :: m) ↔ (∀ e' ∈ m, e.1 < e'.1) ∧ Ordered m :=
  List.pairwise_cons

theorem filter (h : Ordered m) (p : K × β → Bool) : Ordered (m.filter p) :=
  h.sublist List.filter_sublist

theorem eraseP (h : Ordered m) (p : K × β → Bool) : Ordered (m.eraseP p) :=
  h.sublist List.eraseP_sublist

theorem unique (h : Ordered m) {e e' : K × β} (he : e ∈ m) (he' : e' ∈ m) (hk : e.1 = e'.1) :
    e = e' := by
  induction m with
  | nil => cases he
  | cons a m ih =>
    obtain ⟨ha, hm⟩ := cons_iff.1 h
    rcases List.mem_cons.1 he with rfl | hem
    · rcases List.mem_cons.1 he' with rfl | hem'
      · rfl
      · exact absurd hk (ha e' hem').ne
    · rcases List.mem_cons.1 he' with rfl | hem'
      · exact absurd hk.symm (ha e hem).ne
      · exact ih hm hem hem'

theorem lookup_eq_some (h : Ordered m) : m.lookup k = some x ↔ (k, x) ∈ m := by
  constructor
  · intro hk
    obtain ⟨l₁, l₂, rfl, -⟩ := List.lookup_eq_some_iff.1 hk
    exact List.mem_append_right _ List.mem_cons_self
  · intro hk
    cases hl : m.lookup k with
    | none =>
      have hne := List.lookup_eq_none_iff.1 hl (k, x) hk
      simp at hne
    | some y =>
      obtain ⟨l₁, l₂, he, -⟩ := List.lookup_eq_some_iff.1 hl
      have hy : (k, y) ∈ m := he ▸ List.mem_append_right _ List.mem_cons_self
      cases h.unique hk hy rfl
      rfl

theorem lookup_filter (h : Ordered m) (p : K × β → Bool) :
    (m.filter p).lookup k = (m.lookup k).filter fun x => p (k, x) := by
  apply Option.ext
  intro x
  rw [(h.filter p).lookup_eq_some, List.mem_filter, Option.filter_eq_some_iff, h.lookup_eq_some]

theorem eraseP_eq_filter (h : Ordered m) (key : K) :
    m.eraseP (fun e => e.1 = key) = m.filter fun e => e.1 ≠ key := by
  induction m with
  | nil => rfl
  | cons a m ih =>
    obtain ⟨ha, hm⟩ := cons_iff.1 h
    by_cases hk : a.1 = key
    · have hrest : m.filter (fun e => e.1 ≠ key) = m := by
        rw [List.filter_eq_self]
        intro e he
        exact decide_eq_true (hk ▸ (ha e he).ne')
      rw [List.eraseP_cons_of_pos (by simp [hk]), List.filter_cons_of_neg (by simp [hk]), hrest]
    · rw [List.eraseP_cons_of_neg (by simp [hk]), List.filter_cons_of_pos (by simp [hk]), ih hm]

theorem lookup_eraseP (h : Ordered m) (key : K) :
    (m.eraseP fun e => e.1 = key).lookup k = if k = key then none else m.lookup k := by
  rw [h.eraseP_eq_filter, h.lookup_filter]
  by_cases hk : k = key
  · simp [hk]
  · simp only [ne_eq, hk, not_false_eq_true, decide_true, ↓reduceIte]
    cases m.lookup k <;> rfl

end Ordered

/-- An entry of least weight, the first of them in the order of the keys. -/
structure FirstLeast [LinearOrder K] [LinearOrder γ] (w : K × β → γ) (m : List (K × β))
    (e : K × β) : Prop where
  mem : e ∈ m
  least : ∀ e' ∈ m, w e ≤ w e'
  first : ∀ e' ∈ m, e'.1 < e.1 → w e < w e'

namespace FirstLeast

variable [LinearOrder K] [LinearOrder γ] {w : K × β → γ} {m : List (K × β)} {e e' : K × β}

theorem key_eq (h : FirstLeast w m e) (h' : FirstLeast w m e') : e.1 = e'.1 := by
  rcases lt_trichotomy e.1 e'.1 with hlt | heq | hlt
  · exact absurd (h'.first e h.mem hlt) (h.least e' h'.mem).not_gt
  · exact heq
  · exact absurd (h.first e' h'.mem hlt) (h'.least e h.mem).not_gt

theorem of_foldl (h : Ordered (e :: m)) :
    FirstLeast w (e :: m) (m.foldl (fun b e => if w e < w b then e else b) e) := by
  obtain ⟨before, after, he, hbefore, hafter⟩ := foldl_least w e m
  generalize m.foldl (fun b e => if w e < w b then e else b) e = r at he hbefore hafter ⊢
  rw [he] at h ⊢
  constructor
  case mem => exact List.mem_append_right _ List.mem_cons_self
  case least =>
    intro e' he'
    rcases List.mem_append.1 he' with he' | he'
    · exact (hbefore e' he').le
    · rcases List.mem_cons.1 he' with rfl | he'
      · exact le_refl _
      · exact hafter e' he'
  case first =>
    intro e' he' hlt
    rcases List.mem_append.1 he' with he' | he'
    · exact hbefore e' he'
    · rcases List.mem_cons.1 he' with rfl | he'
      · exact absurd hlt (lt_irrefl _)
      · have hr := (List.pairwise_append.1 h).2.1
        exact absurd hlt ((List.pairwise_cons.1 hr).1 e' he').not_gt

end FirstLeast

end Galois
