import Mathlib.Tactic

namespace Galois
set_option autoImplicit true
set_option relaxedAutoImplicit false

/-- A bitmap of `w` slots; a set bit is a free slot. -/
abbrev Bitmap (w : Nat) := BitVec w

/-- The index of the least set bit, `__builtin_ffs(x) - 1`. -/
def ffs (x : BitVec w) : Int :=
  match (List.range w).find? fun i => x.getLsbD i with
  | some i => i
  | none => -1

namespace Bitmap

/-- All slots are free at first: `std::numeric_limits<BitmapTy>::max()`. -/
def full (w : Nat) : Bitmap w := BitVec.allOnes w

/-- One uncontended call: the slot taken, or `-1`, and the bitmap after it. -/
def allocBit (bitmap : Bitmap w) : Int × Bitmap w :=
  if bitmap = 0 then (-1, bitmap)
  else
    let lowbit := bitmap &&& -bitmap
    (ffs lowbit, bitmap &&& ~~~lowbit)

def freeBit (bitmap : Bitmap w) (idx : Nat) : Bitmap w := bitmap ||| (1#w <<< idx)

theorem exists_least_bit {b : Bitmap w} (hb : b ≠ 0) :
    ∃ i < w, b.getLsbD i = true ∧ ∀ j < i, b.getLsbD j = false := by
  have hex : ∃ i, b.getLsbD i = true := by
    by_contra h
    push Not at h
    apply hb
    apply BitVec.eq_of_getLsbD_eq
    intro i _
    simpa using h i
  refine ⟨Nat.find hex, ?_, Nat.find_spec hex, fun j hj => ?_⟩
  · exact BitVec.lt_of_getLsbD (Nat.find_spec hex)
  · simpa using Nat.find_min hex hj

theorem lowbit_eq {b : Bitmap w} (hi : b.getLsbD i = true) (hmin : ∀ j < i, b.getLsbD j = false) :
    b &&& -b = BitVec.twoPow w i := by
  have hw : i < w := BitVec.lt_of_getLsbD hi
  apply BitVec.eq_of_getLsbD_eq
  intro j hj
  rw [BitVec.getLsbD_and, BitVec.getLsbD_neg, BitVec.getLsbD_twoPow]
  rcases Nat.lt_trichotomy j i with h | rfl | h
  · simp [hmin j h, h.ne']
  · have hno : ¬∃ k < j, b.getLsbD k = true := by
      rintro ⟨k, hk, hb⟩
      rw [hmin k hk] at hb
      cases hb
    simp [hi, hw, hno]
  · have hyes : ∃ k < j, b.getLsbD k = true := ⟨i, h, hi⟩
    simp [hj, hyes, h.ne]

theorem ffs_twoPow (h : i < w) : ffs (BitVec.twoPow w i) = i := by
  have hf : (List.range w).find? (fun j => (BitVec.twoPow w i).getLsbD j) = some i := by
    rw [List.find?_range_eq_some]
    refine ⟨by simp [h], by simpa using h, fun j hj => ?_⟩
    simp [BitVec.getLsbD_twoPow, hj.ne']
  rw [ffs, hf]

theorem allocBit_spec {b : Bitmap w} (hb : b ≠ 0) :
    ∃ i, b.getLsbD i = true ∧ b.allocBit = ((i : Int), b &&& ~~~BitVec.twoPow w i) := by
  obtain ⟨i, hw, hi, hmin⟩ := exists_least_bit hb
  refine ⟨i, hi, ?_⟩
  simp only [allocBit, hb, ↓reduceIte, lowbit_eq hi hmin, ffs_twoPow hw]

theorem lowbit_spec {b : Bitmap w} (hb : b ≠ 0) : ∃ i < w, b.getLsbD i = true ∧
    ffs (b &&& -b) = i ∧
    ∀ j < w, (b &&& ~~~(b &&& -b)).getLsbD j = true ↔ b.getLsbD j = true ∧ j ≠ i := by
  obtain ⟨i, hw, hi, hmin⟩ := exists_least_bit hb
  refine ⟨i, hw, hi, ?_, ?_⟩
  · rw [lowbit_eq hi hmin, ffs_twoPow hw]
  · intro j hj
    rw [lowbit_eq hi hmin]
    simp [hj]

theorem getLsbD_freeBit {b : Bitmap w} (hj : j < w) :
    (freeBit b i).getLsbD j = true ↔ b.getLsbD j = true ∨ j = i := by
  simp only [freeBit, ← BitVec.twoPow_eq, BitVec.getLsbD_or, BitVec.getLsbD_twoPow,
    Bool.or_eq_true, Bool.and_eq_true, decide_eq_true_eq]
  constructor
  · rintro (h | ⟨-, rfl⟩)
    · exact .inl h
    · exact .inr rfl
  · rintro (h | rfl)
    · exact .inl h
    · exact .inr ⟨hj, rfl⟩

theorem freeBit_alloc {b : Bitmap w} (hi : b.getLsbD i = true) :
    freeBit (b &&& ~~~BitVec.twoPow w i) i = b := by
  have hw : i < w := BitVec.lt_of_getLsbD hi
  apply BitVec.eq_of_getLsbD_eq
  intro j hj
  rw [freeBit, ← BitVec.twoPow_eq, BitVec.getLsbD_or, BitVec.getLsbD_and, BitVec.getLsbD_not,
    BitVec.getLsbD_twoPow]
  by_cases h : i = j
  · subst h
    simp [hw, hi]
  · simp [h, hj]

theorem full_ne_zero (h : 0 < w) : full w ≠ 0 := by
  intro h0
  have := congrArg (fun b : BitVec w => b.getLsbD 0) h0
  simp [full, h] at this

end Bitmap

end Galois
