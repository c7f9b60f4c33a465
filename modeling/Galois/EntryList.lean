import Galois.KVStore
import Galois.Tokens

namespace Galois
set_option autoImplicit true
set_option relaxedAutoImplicit false

/-- What the code takes from Boost and from the C++ library beyond its specification:
`filename`, `parent_path` of `boost::filesystem::path`, `split` at runs of `/` and `tokens` at
those of another character, `join`, and the strings that `std::remove` leaves behind the ones it
keeps. -/
structure Library where
  filename : Str → Str
  parent_path : Str → Str
  split : Str → List Str
  tokens : Splitter
  join : List Str → Str → Str
  leftover : List Str → Str → List Str

/-- The map from a uuid to the names in the directory, in the order of their insertion. -/
abbrev EntryList := Str → Option (List Str)

namespace EntryList

variable (lib : Library)

def insert_entry (ec : EntryList) (uuid file_name : Str) : EntryList :=
  match ec uuid with
  | some fl => Function.update ec uuid (some (fl ++ [file_name]))
  | none => Function.update ec uuid (some [file_name])

def readdir (ec : EntryList) (uuid : Str) : Str :=
  match ec uuid with
  | some fl => lib.join fl ['\t']
  | none => []

/-- The strings after `std::remove`, and the position it returns. -/
def stdRemove (fl : List Str) (value : Str) : List Str × Nat :=
  let kept := fl.filter (· ≠ value)
  (kept ++ lib.leftover fl value, kept.length)

/-- `vector::erase`, which is undefined at the end. -/
def eraseAt (fl : List Str) (pos : Nat) : Option (List Str) :=
  if pos < fl.length then some (fl.eraseIdx pos) else none

/-- `none` is undefined behaviour. -/
def remove_entry (ec : EntryList) (uuid file_name : Str) : Option EntryList :=
  match ec uuid with
  | some fl =>
    let (fl, pos) := stdRemove lib fl file_name
    (eraseAt fl pos).map fun fl => Function.update ec uuid (some fl)
  | none => some ec

def names (ec : EntryList) (uuid : Str) : List Str := (ec uuid).getD []

variable {lib} {ec ec' : EntryList} {u v n m : Str}

@[simp] theorem names_update (fl : List Str) :
    names (Function.update ec u (some fl)) v = if v = u then fl else ec.names v := by
  simp only [names, Function.update_apply]
  split <;> rfl

theorem names_insert_entry :
    (ec.insert_entry u n).names v = if v = u then ec.names u ++ [n] else ec.names v := by
  simp only [insert_entry]
  cases hu : ec u with
  | none =>
    rw [names_update]
    simp only [names, hu, Option.getD_none, List.nil_append]
  | some fl =>
    rw [names_update]
    simp only [names, hu, Option.getD_some]

theorem mem_insert_entry_self : n ∈ (ec.insert_entry u n).names u := by
  rw [names_insert_entry, if_pos rfl]
  exact List.mem_append_right _ (List.mem_singleton_self n)

theorem mem_insert_entry (h : m ∈ ec.names v) : m ∈ (ec.insert_entry u n).names v := by
  rw [names_insert_entry]
  split
  case isTrue he => exact List.mem_append_left _ (he ▸ h)
  case isFalse => exact h

theorem remove_entry_eq {fl : List Str} (hu : ec u = some fl) : ec.remove_entry lib u n =
    if lib.leftover fl n = [] then none
    else some (Function.update ec u (some (fl.filter (· ≠ n) ++ (lib.leftover fl n).tail))) := by
  simp only [remove_entry, hu, stdRemove, eraseAt, List.length_append]
  cases hl : lib.leftover fl n with
  | nil => simp only [List.length_nil, Nat.add_zero, Nat.lt_irrefl, ↓reduceIte, Option.map_none]
  | cons x rest =>
    rw [if_pos (by simp), if_neg (List.cons_ne_nil x rest), Option.map_some,
      List.eraseIdx_append_of_length_le (Nat.le_refl _), Nat.sub_self, List.eraseIdx_cons_zero,
      List.tail_cons]

theorem remove_entry_of_mem (hlib : (lib.leftover (ec.names u) n).length = (ec.names u).count n)
    (hn : n ∈ ec.names u) : ∃ ec', ec.remove_entry lib u n = some ec' := by
  cases hu : ec u with
  | none =>
    rw [names, hu] at hn
    cases hn
  | some fl =>
    simp only [names, hu, Option.getD_some] at hlib hn
    have hpos : 0 < (lib.leftover fl n).length := by
      rw [hlib]
      exact List.count_pos_iff.2 hn
    rw [remove_entry_eq hu, if_neg (List.ne_nil_of_length_pos hpos)]
    exact ⟨_, rfl⟩

theorem remove_entry_of_once (hlib : (lib.leftover (ec.names u) n).length = (ec.names u).count n)
    (hn : (ec.names u).count n = 1) :
    ∃ ec', ec.remove_entry lib u n = some ec' ∧
      ∀ v, ec'.names v = if v = u then (ec.names u).filter (· ≠ n) else ec.names v := by
  cases hu : ec u with
  | none =>
    rw [names, hu, Option.getD_none, List.count_nil] at hn
    cases hn
  | some fl =>
    simp only [names, hu, Option.getD_some] at hlib hn ⊢
    obtain ⟨x, hx⟩ := List.length_eq_one_iff.1 (hlib.trans hn)
    rw [remove_entry_eq hu, hx, if_neg (List.cons_ne_nil x []), List.tail_cons, List.append_nil]
    exact ⟨_, rfl, fun v => names_update _⟩

/-- Whatever a removal leaves behind, it takes no other name out. -/
theorem remove_entry_others (h : ec.remove_entry lib u n = some ec') :
    (∀ v, v ≠ u → ec'.names v = ec.names v) ∧
      (ec.names u).filter (· ≠ n) <+: (ec'.names u).filter (· ≠ n) := by
  cases hu : ec u with
  | none =>
    simp only [remove_entry, hu] at h
    cases h
    exact ⟨fun v _ => rfl, List.prefix_refl _⟩
  | some fl =>
    rw [remove_entry_eq hu] at h
    obtain ⟨-, he⟩ := Option.ite_none_left_eq_some.1 h
    cases he
    constructor
    · intro v hv
      rw [names_update, if_neg hv]
    · rw [names_update, if_pos rfl, List.filter_append, List.filter_filter, names, hu]
      simp only [Bool.and_self, Option.getD_some]
      exact List.prefix_append _ _

theorem mem_of_remove_entry (h : ec.remove_entry lib u n = some ec') (hm : m ∈ ec.names v)
    (hne : ¬ (v = u ∧ m = n)) : m ∈ ec'.names v := by
  obtain ⟨hothers, hpre⟩ := remove_entry_others h
  by_cases hv : v = u
  · subst hv
    have hkept : m ∈ (ec.names v).filter (· ≠ n) :=
      List.mem_filter.2 ⟨hm, decide_eq_true fun hmn => hne ⟨rfl, hmn⟩⟩
    exact (List.mem_filter.1 (hpre.subset hkept)).1
  · rw [hothers v hv]
    exact hm

/-- Each uuid's list holds the names of its keys, each of them once. -/
structure Exact (ec : EntryList) (kv : KVStore β) : Prop where
  nodup : ∀ u, ':' ∉ u → (ec.names u).Nodup
  mem : ∀ u n, ':' ∉ u → (n ∈ ec.names u ↔ (kv (key u n)).isSome)

variable {kv : KVStore β}

theorem Exact.congr (h : ec.Exact kv) {kv' : KVStore γ}
    (hkv : ∀ u n, ':' ∉ u → (kv' (key u n)).isSome = (kv (key u n)).isSome) : ec.Exact kv' where
  nodup := h.nodup
  mem u n hu := by rw [h.mem u n hu, hkv u n hu]

theorem Exact.insert (h : ec.Exact kv) (hu : ':' ∉ u) (hn : kv (key u n) = none) (x : β) :
    (ec.insert_entry u n).Exact (Function.update kv (key u n) (some x)) where
  nodup w hw := by
    rw [names_insert_entry]
    split
    · have hnot : n ∉ ec.names u := by simp [h.mem u n hu, hn]
      exact List.nodup_append'.2 ⟨h.nodup u hu, List.nodup_singleton n,
        List.disjoint_singleton.2 hnot⟩
    · exact h.nodup w hw
  mem w m hw := by
    rw [names_insert_entry, update_key hu hw]
    by_cases hwu : w = u
    · subst hwu
      rw [if_pos rfl, List.mem_append, h.mem w m hw, List.mem_singleton]
      by_cases hm : m = n
      · simp only [hm, or_true, and_self, ↓reduceIte, Option.isSome_some]
      · simp only [hm, or_false, and_false, ↓reduceIte]
    · simp only [hwu, false_and, ↓reduceIte, h.mem w m hw]

theorem Exact.remove (h : ec.Exact kv)
    (hlib : ∀ fl value, (lib.leftover fl value).length = fl.count value) (hu : ':' ∉ u)
    (hn : (kv (key u n)).isSome) : ∃ ec', ec.remove_entry lib u n = some ec' ∧
      ec'.Exact (Function.update kv (key u n) none) := by
  have hmem : n ∈ ec.names u := (h.mem u n hu).2 hn
  obtain ⟨ec', hec, hnames⟩ := remove_entry_of_once (hlib (ec.names u) n)
    (List.count_eq_one_of_mem (h.nodup u hu) hmem)
  refine ⟨ec', hec, ?_⟩
  constructor
  case nodup =>
    intro w hw
    rw [hnames]
    split
    · exact (h.nodup u hu).filter _
    · exact h.nodup w hw
  case mem =>
    intro w m hw
    rw [hnames, update_key hu hw]
    by_cases hwu : w = u
    · subst hwu
      rw [if_pos rfl, List.mem_filter, h.mem w m hw]
      by_cases hm : m = n
      · simp [hm]
      · simp [hm]
    · simp only [hwu, false_and, ↓reduceIte, h.mem w m hw]

theorem not_nodup_insert_entry (h : n ∈ ec.names u) : ¬ ((ec.insert_entry u n).names u).Nodup := by
  intro hnodup
  rw [names_insert_entry, if_pos rfl] at hnodup
  exact (List.nodup_append'.1 hnodup).2.2 h (List.mem_singleton_self n)

end EntryList

end Galois
