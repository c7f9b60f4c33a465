import Mathlib.Tactic

namespace Galois
set_option autoImplicit true
set_option relaxedAutoImplicit false

abbrev Byte := BitVec 8

/-- A byte-addressed area of memory. -/
abbrev Mem := Nat → Byte

/-- The `n` bytes from address `a` on. -/
def Mem.load (m : Mem) (a n : Nat) : Fin n → Byte := fun t => m (a + t)

/-- Overwrite the bytes from address `a` on with `b`. -/
def Mem.store (m : Mem) (a : Nat) (b : Fin n → Byte) : Mem := fun x =>
  if h : a ≤ x ∧ x < a + n then b ⟨x - a, by omega⟩ else m x

namespace Mem

@[simp] theorem load_store (m : Mem) (a : Nat) (b : Fin n → Byte) : (m.store a b).load a n = b := by
  funext t
  have ht : a ≤ a + t ∧ a + t < a + n := ⟨by omega, by omega⟩
  simp only [load, store, ht, and_self, ↓reduceDIte, Nat.add_sub_cancel_left]

theorem load_store_disjoint (m : Mem) {a a' : Nat} {b : Fin n → Byte}
    (h : a' + k ≤ a ∨ a + n ≤ a') : (m.store a b).load a' k = m.load a' k := by
  funext t
  have ht : ¬(a ≤ a' + t ∧ a' + t < a + n) := by omega
  simp only [load, store, ht, ↓reduceDIte]

theorem load_store_prefix (m : Mem) (a : Nat) (b : Fin n → Byte) (h : k ≤ n) :
    (m.store a b).load a k = fun t => b (t.castLE h) := by
  funext t
  have ht : a ≤ a + t ∧ a + t < a + n := ⟨by omega, by omega⟩
  simp only [load, store, ht, and_self, ↓reduceDIte, Nat.add_sub_cancel_left]
  rfl

theorem load_store_block (m : Mem) (i j : Nat) (b : Fin n → Byte) :
    (m.store (i * n) b).load (j * n) n = if i = j then b else m.load (j * n) n := by
  split
  · next h => rw [h, load_store]
  · next h =>
    refine load_store_disjoint m ?_
    rcases Nat.lt_or_gt_of_ne h with h | h
    · exact .inr (by nlinarith)
    · exact .inl (by nlinarith)

end Mem

end Galois
