import Galois.Listing
import Galois.Tree.DirTree
import Mathlib.Algebra.Ring.Nat

namespace Galois
set_option autoImplicit true
set_option relaxedAutoImplicit false

/-- The uuid of the number `i`, for some `i` up to `counter`. -/
def Issued (counter : BitVec 64) (u : Str) : Prop := ∃ i ≤ counter, u = to_string i

theorem Issued.mono (h : Issued c u) (hc : c ≤ c') : Issued c' u := by
  obtain ⟨i, hi, rfl⟩ := h
  exact ⟨i, BitVec.le_trans hi hc, rfl⟩

theorem Issued.colon_notMem (h : Issued c u) : ':' ∉ u := by
  obtain ⟨i, -, rfl⟩ := h
  exact colon_notMem_to_string i

theorem issued_zero (c : BitVec 64) : Issued c ['0'] := ⟨0, by bv_omega, by decide⟩

theorem lt_succ_of_toNat {c : BitVec 64} (hc : c.toNat + 1 < 2 ^ 64) : c < c + 1 := by
  bv_omega

theorem not_issued_succ {c : BitVec 64} (hc : c.toNat + 1 < 2 ^ 64) :
    ¬ Issued c (to_string (c + 1)) := by
  rintro ⟨i, hi, he⟩
  cases to_string_inj he
  exact absurd (lt_succ_of_toNat hc) (BitVec.not_lt.2 hi)

namespace EntryList

variable {lib : Library} {ec ec' : EntryList} {kv : KVStore β} {u n : Str}

/-- Each uuid's list holds the names of its keys, and may hold more. -/
def Covers (ec : EntryList) (kv : KVStore β) : Prop :=
  ∀ u n, ':' ∉ u → (kv (key u n)).isSome → n ∈ ec.names u

theorem Covers.insert (h : ec.Covers kv) (hu : ':' ∉ u) (x : Option β) :
    (ec.insert_entry u n).Covers (Function.update kv (key u n) x) := by
  intro w m hw hm
  rw [update_key hu hw] at hm
  split at hm
  case isTrue he =>
    rw [he.1, he.2]
    exact mem_insert_entry_self
  case isFalse => exact mem_insert_entry (h w m hw hm)

theorem Covers.remove (h : ec.Covers kv) (hu : ':' ∉ u)
    (hr : ec.remove_entry lib u n = some ec') :
    ec'.Covers (Function.update kv (key u n) none) := by
  intro w m hw hm
  rw [update_key hu hw] at hm
  split at hm
  case isTrue => cases hm
  case isFalse hne => exact mem_of_remove_entry hr (h w m hw hm) hne

end EntryList

namespace DMStore

variable {lib : Library} {s s' : DMStore} {p q : Path} {n m : Name} {u v w k k' : Str}

/-- What keeps the flat keys a tree, and the lists long enough. -/
structure Linked (s : DMStore) : Prop where
  plain : Plain s.uuid_store
  covered : s.ec_store.Covers s.uuid_store
  root : (s.uuid_store ['/']).isSome
  issued : ∀ {k v}, s.uuid_store k = some v → Issued s.uuid_counter v
  ne_zero : ∀ {k v}, s.uuid_store k = some v → v ≠ ['0']
  unique : ∀ {k k' v}, s.uuid_store k = some v → s.uuid_store k' = some v → k = k'

theorem links_eq_some : links s.uuid_store u n = some v ↔
    ':' ∉ u ∧ s.uuid_store (key u n.chars) = some v := by
  simp only [links]
  split
  · simp_all only [reduceCtorEq, not_true_eq_false, false_and]
  · simp_all only [not_false_eq_true, true_and]

theorem Linked.rooted (h : s.Linked) : (links s.uuid_store).Rooted ['0'] where
  root {u n} hn := h.ne_zero (links_eq_some.1 hn).2 rfl
  unique {u n v w m} hn hm := by
    obtain ⟨hu, hn⟩ := links_eq_some.1 hn
    obtain ⟨hw, hm⟩ := links_eq_some.1 hm
    obtain ⟨rfl, he⟩ := (key_inj hu hw).1 (h.unique hn hm)
    exact ⟨rfl, Name.ext_chars he⟩

theorem links_update {kv : KVStore Str} (hu : ':' ∉ u) (n : Name) (x : Option Str) :
    links (Function.update kv (key u n.chars) x) = fun w m =>
      if w = u ∧ m = n then x else links kv w m := by
  funext w m
  simp only [links]
  split
  · rename_i hw
    rw [if_neg]
    rintro ⟨rfl, -⟩
    exact hu hw
  · rename_i hw
    rw [update_key hu hw]
    have hiff : w = u ∧ m.chars = n.chars ↔ w = u ∧ m = n := by
      constructor
      · exact fun h => ⟨h.1, Name.ext_chars h.2⟩
      · exact fun h => ⟨h.1, congrArg _ h.2⟩
    simp only [hiff]

theorem Linked.walk_issued (h : s.Linked) (hp : (links s.uuid_store).walk ['0'] p = some u) :
    Issued s.uuid_counter u := by
  cases p using List.reverseRecOn with
  | nil => cases hp; exact issued_zero _
  | append_singleton p n =>
    obtain ⟨w, -, hn⟩ := Option.bind_eq_some_iff.1 (Links.walk_concat ▸ hp)
    exact h.issued (links_eq_some.1 hn).2

theorem Linked.bumped (h : s.Linked) (hc : s.uuid_counter.toNat + 1 < 2 ^ 64) :
    s.bumped.Linked where
  plain := h.plain
  covered := h.covered
  root := h.root
  issued hk := (h.issued hk).mono (BitVec.le_of_lt (lt_succ_of_toNat hc))
  ne_zero := h.ne_zero
  unique := h.unique

theorem made_cases {n : Str} {inode : DirectoryInode}
    (hk : (s.made u n inode).uuid_store k = some v) :
    k = key u n ∧ v = s.next ∨ k ≠ key u n ∧ s.uuid_store k = some v := by
  simp only [DMStore.made, Function.update_apply] at hk
  split at hk
  · rename_i he
    exact .inl ⟨he, (Option.some.inj hk).symm⟩
  · rename_i he
    exact .inr ⟨he, hk⟩

theorem Linked.made (h : s.Linked) (hc : s.uuid_counter.toNat + 1 < 2 ^ 64)
    (hu : Issued s.uuid_counter u) (n : Str) (inode : DirectoryInode) :
    (s.made u n inode).Linked := by
  have hlt := BitVec.le_of_lt (lt_succ_of_toNat hc)
  have hnew := not_issued_succ hc
  constructor
  case plain => exact h.plain.update (colon_notMem_to_string _) _
  case covered => exact h.covered.insert hu.colon_notMem _
  case root =>
    simp only [DMStore.made, Function.update_of_ne (key_ne_root u n).symm]
    exact h.root
  case issued =>
    intro k v hk
    obtain ⟨-, rfl⟩ | ⟨-, hk⟩ := made_cases hk
    · exact ⟨_, BitVec.le_refl _, rfl⟩
    · exact (h.issued hk).mono hlt
  case ne_zero =>
    intro k v hk
    obtain ⟨-, rfl⟩ | ⟨-, hk⟩ := made_cases hk
    · intro he
      exact hnew (by rw [show to_string (s.uuid_counter + 1) = _ from he]; exact issued_zero _)
    · exact h.ne_zero hk
  case unique =>
    intro k k' v hk hk'
    obtain ⟨rfl, rfl⟩ | ⟨-, hk⟩ := made_cases hk
    · obtain ⟨rfl, -⟩ | ⟨-, hk'⟩ := made_cases hk'
      · rfl
      · exact absurd (h.issued hk') hnew
    · obtain ⟨-, rfl⟩ | ⟨-, hk'⟩ := made_cases hk'
      · exact absurd (h.issued hk) hnew
      · exact h.unique hk hk'

theorem unmade_cases {n : Str} {ec : EntryList}
    (hk : (s.unmade u n v ec).uuid_store k = some w) : k ≠ key u n ∧ s.uuid_store k = some w := by
  simp only [DMStore.unmade, Function.update_apply] at hk
  split at hk
  · cases hk
  · rename_i he
    exact ⟨he, hk⟩

theorem Linked.unmade (h : s.Linked) {n : Str} {ec : EntryList}
    (hec : ec.Covers (Function.update s.uuid_store (key u n) none)) :
    (s.unmade u n v ec).Linked := by
  constructor
  case plain => exact h.plain.erase _
  case covered => exact hec
  case root =>
    simp only [DMStore.unmade, Function.update_of_ne (key_ne_root u n).symm]
    exact h.root
  case issued => exact fun hk => h.issued (unmade_cases hk).2
  case ne_zero => exact fun hk => h.ne_zero (unmade_cases hk).2
  case unique => exact fun hk hk' => h.unique (unmade_cases hk).2 (unmade_cases hk').2

theorem moved_cases {n m : Str} {dii : DirectoryInode} {time : Int} {ec : EntryList}
    (hk : (s.moved u n m v dii time ec).uuid_store k = some w) :
    k = key u m ∧ w = v ∨ k ≠ key u n ∧ s.uuid_store k = some w := by
  simp only [DMStore.moved, Function.update_apply] at hk
  split at hk
  · rename_i he
    exact .inl ⟨he, (Option.some.inj hk).symm⟩
  · split at hk
    · cases hk
    · rename_i he
      exact .inr ⟨he, hk⟩

/-- A directory may be renamed onto any other one: what was there is only lost. -/
theorem Linked.moved (h : s.Linked) (hu : ':' ∉ u) {n : Str}
    (hn : s.uuid_store (key u n) = some v) (m : Str) (dii : DirectoryInode) (time : Int)
    {ec : EntryList} (hec : ec.Covers (Function.update s.uuid_store (key u n) none)) :
    (s.moved u n m v dii time ec).Linked := by
  constructor
  case plain => exact (h.plain.erase _).update (h.plain _ _ hn) _
  case covered => exact hec.insert hu _
  case root =>
    simp only [DMStore.moved, Function.update_of_ne (key_ne_root u _).symm]
    exact h.root
  case issued =>
    intro k w hk
    obtain ⟨-, rfl⟩ | ⟨-, hk⟩ := moved_cases hk
    · exact h.issued hn
    · exact h.issued hk
  case ne_zero =>
    intro k w hk
    obtain ⟨-, rfl⟩ | ⟨-, hk⟩ := moved_cases hk
    · exact h.ne_zero hn
    · exact h.ne_zero hk
  case unique =>
    intro k k' w hk hk'
    obtain ⟨rfl, rfl⟩ | ⟨hne, hk⟩ := moved_cases hk
    · obtain ⟨rfl, -⟩ | ⟨hne', hk'⟩ := moved_cases hk'
      · rfl
      · exact absurd (h.unique hk' hn) hne'
    · obtain ⟨-, he⟩ | ⟨-, hold⟩ := moved_cases hk'
      · exact absurd (h.unique hk (he ▸ hn)) hne
      · exact h.unique hk hold

end DMStore

end Galois
