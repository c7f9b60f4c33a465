import Galois.Path

namespace Galois
set_option autoImplicit true
set_option relaxedAutoImplicit false

namespace EntryList

variable {lib : Library} {ec : EntryList} {u n : Str} {fl : List Str}

variable (lib) in
/-- Every occurrence of the name is taken out and nothing else is changed. -/
def RemovesEntry (ec : EntryList) (u n : Str) : Prop :=
  ∃ ec', ec.remove_entry lib u n = some ec' ∧ ec' u = (ec u).map (·.filter (· ≠ n)) ∧
    ∀ v, v ≠ u → ec' v = ec v

/-- The single erasure is the removal of a list whose names after the kept ones are one. -/
theorem removesEntry_iff_leftover (hu : ec u = some fl) :
    RemovesEntry lib ec u n ↔ (lib.leftover fl n).length = 1 := by
  simp only [RemovesEntry, remove_entry_eq hu, hu, Option.map_some]
  constructor
  · rintro ⟨ec', hec, hfl, -⟩
    split at hec
    · cases hec
    · next hne =>
      cases hec
      rw [Function.update_self, Option.some.injEq] at hfl
      have htail : (lib.leftover fl n).tail = [] := List.append_right_eq_self.1 hfl
      obtain ⟨x, rest, hx⟩ := List.exists_cons_of_ne_nil hne
      rw [hx, List.tail_cons] at htail
      rw [hx, htail, List.length_singleton]
  · intro hone
    obtain ⟨x, hx⟩ := List.length_eq_one_iff.1 hone
    rw [hx, if_neg (List.cons_ne_nil x []), List.tail_cons, List.append_nil]
    exact ⟨_, rfl, Function.update_self .., fun v hv => Function.update_of_ne hv ..⟩

theorem removesEntry_iff (hlib : ∀ fl value, (lib.leftover fl value).length = fl.count value) :
    RemovesEntry lib ec u n ↔ ec u = none ∨ (ec.names u).count n = 1 := by
  cases hu : ec u with
  | none =>
    refine iff_of_true ⟨ec, ?_, ?_, fun v _ => rfl⟩ (.inl rfl)
    · simp only [remove_entry, hu]
    · rw [hu, Option.map_none]
  | some fl =>
    rw [removesEntry_iff_leftover hu, hlib, names, hu, Option.getD_some]
    simp only [reduceCtorEq, false_or]

def twice : EntryList := Function.update (fun _ => none) ['7'] (some [['f'], ['f']])

theorem removesEntry_iff_dropped :
    ¬ RemovesEntry Library.posix (twice.insert_entry ['7'] ['g']) ['7'] ['f'] ∧
      RemovesEntry Library.posix (twice.insert_entry ['7'] ['g']) ['7'] ['g'] := by
  have hlib := Library.posix_documented.leftover
  exact ⟨fun h => absurd ((removesEntry_iff hlib).1 h) (by decide),
    (removesEntry_iff hlib).2 (.inr (by decide))⟩

/-- Of two occurrences one stays, and the removal of a name that is not there erases `end()`. -/
theorem remove_entry_misses : ¬ (∀ ec u n, RemovesEntry Library.posix ec u n) ∧
    (twice.remove_entry Library.posix ['7'] ['f']).map (·.names ['7']) = some [['f']] ∧
    (twice.remove_entry Library.posix ['7'] ['g']).isNone := by
  refine ⟨fun h => ?_, by decide, by decide⟩
  obtain ⟨ec', hec, -⟩ := h twice ['7'] ['g']
  have hnone : (twice.remove_entry Library.posix ['7'] ['g']).isNone := by decide
  rw [hec] at hnone
  cases hnone

end EntryList

end Galois
