import Galois.Code.Cauchy
import Galois.Code.GF256
import Galois.Effect.ByteMem
import Mathlib.Data.List.GetD

namespace Galois
set_option autoImplicit true
set_option relaxedAutoImplicit false

/-- The functions of ISA-L the code calls, over flat arrays of bytes. -/
structure IsaL where
  gf_gen_cauchy1_matrix (m k : Nat) : Mem
  ec_init_tables (k rows : Nat) (a : Mem) : Mem
  /-- The coding block of each row, from the data block of each column. -/
  ec_encode_data (len k rows : Nat) (gftbls : Mem) (data : Nat → Mem) : Nat → Mem
  /-- The inverse, or `none` for a negative return value. -/
  gf_invert_matrix (a : Mem) (n : Nat) : Option Mem

def toMatrix (a : Mem) (m k : Nat) : Matrix (Fin m) (Fin k) GF256 := fun i j => ⟨a (k * i + j)⟩

theorem entry_div (i : Nat) (j : Fin k) : (k * i + j) / k = i := by
  rw [Nat.mul_add_div j.pos, Nat.div_eq_of_lt j.isLt, Nat.add_zero]

theorem entry_mod (i : Nat) (j : Fin k) : (k * i + j) % k = j := by
  rw [Nat.mul_add_mod, Nat.mod_eq_of_lt j.isLt]

/-- The documented behaviour of ISA-L that the code relies on. -/
structure IsaL.Documented (isal : IsaL) : Prop where
  cauchy : ∀ m k, m ≤ 256 → ∀ (i : Fin m) (j : Fin k),
    toMatrix (isal.gf_gen_cauchy1_matrix m k) m k i j =
      if i.val < k then if i.val = j.val then 1 else 0
      else (⟨BitVec.ofNat 8 i ^^^ BitVec.ofNat 8 j⟩ : GF256)⁻¹
  encode : ∀ len k rows a data (i : Fin rows) t, t < len →
    (⟨isal.ec_encode_data len k rows (isal.ec_init_tables k rows a) data i t⟩ : GF256) =
      (toMatrix a rows k).mulVec (fun j => ⟨data j t⟩) i
  invert : ∀ a n b, isal.gf_invert_matrix a n = some b → toMatrix b n n * toMatrix a n n = 1
  singular : ∀ a n, isal.gf_invert_matrix a n = none → ¬IsUnit (toMatrix a n n)

namespace IsaL.Documented

variable {isal : IsaL} (h : isal.Documented)
include h

/-- The code built by `gf_gen_cauchy1_matrix` recovers from any `m - k` erasures. -/
theorem cauchy_isMDS {m k : Nat} (hkm : k ≤ m) (hm : m ≤ 256) :
    IsMDS (toMatrix (isal.gf_gen_cauchy1_matrix m k) m k) := by
  have hrange (i : Fin m) : i ∉ Set.range (Fin.castLE hkm) ↔ k ≤ i.val := by
    rw [Fin.range_castLE]
    simp
  have hbyte {i j : Nat} (hi : i < 256) (hj : j < 256)
      (hij : (⟨BitVec.ofNat 8 i⟩ : GF256) = ⟨BitVec.ofNat 8 j⟩) : i = j := by
    have hv := congrArg (fun a : GF256 => a.byte.toNat) hij
    simp only [BitVec.toNat_ofNat] at hv
    omega
  refine isMDS_of_cauchy (e := Fin.castLE hkm) (x := fun i => ⟨BitVec.ofNat 8 i⟩)
    (y := fun j => ⟨BitVec.ofNat 8 j⟩) (Fin.castLE_injective hkm) ?_ ?_ ?_ ?_ ?_
  · intro i j
    rw [h.cauchy m k hm]
    simp [Fin.ext_iff]
  · intro i hi j
    rw [hrange] at hi
    rw [h.cauchy m k hm, if_neg (by omega)]
    rfl
  · intro i _ j _ hij
    exact Fin.ext (hbyte (by omega) (by omega) hij)
  · intro i j hij
    exact Fin.ext (hbyte (by omega) (by omega) hij)
  · intro i hi j hij
    rw [hrange] at hi
    have := hbyte (by omega) (by omega) hij
    omega

theorem data_row {m k : Nat} (hm : m ≤ 256) {i : Fin m} (hi : i.val < k) (x : Fin k → GF256) :
    (toMatrix (isal.gf_gen_cauchy1_matrix m k) m k).mulVec x i = x ⟨i, hi⟩ := by
  have hrow : toMatrix (isal.gf_gen_cauchy1_matrix m k) m k i = Pi.single ⟨i, hi⟩ 1 := by
    funext j
    rw [h.cauchy m k hm, if_pos hi, Pi.single_apply]
    simp only [Fin.ext_iff, eq_comm]
  rw [Matrix.mulVec, hrow, single_one_dotProduct]

theorem parity_row {len k p : Nat} (a : Mem) (data : Nat → Mem) {i : Fin (k + p)}
    (hi : ¬ i.val < k) {t : Nat} (ht : t < len) :
    (⟨isal.ec_encode_data len k p (isal.ec_init_tables k p fun x => a (k * k + x)) data
      (i - k) t⟩ : GF256) = (toMatrix a (k + p) k).mulVec (fun j => ⟨data j t⟩) i := by
  have hparity : i.val - k < p := Nat.sub_lt_left_of_lt_add (not_lt.1 hi) i.isLt
  rw [show i.val - k = (⟨i.val - k, hparity⟩ : Fin p).val from rfl, h.encode _ _ _ _ _ _ _ ht,
    Matrix.mulVec, Matrix.mulVec]
  refine congrArg₂ dotProduct (funext fun j => ?_) rfl
  have hx : k * k + (k * (i.val - k) + j) = k * i.val + j := by
    have : k * k + k * (i.val - k) = k * i.val := by
      rw [← Nat.mul_add, Nat.add_sub_cancel' (by omega)]
    omega
  simp only [toMatrix, hx]

/-- `gf_invert_matrix` inverts every invertible matrix. -/
theorem invert_of_isUnit {a : Mem} {n : Nat} (ha : IsUnit (toMatrix a n n)) :
    ∃ b, isal.gf_invert_matrix a n = some b ∧ toMatrix b n n * toMatrix a n n = 1 := by
  cases hb : isal.gf_invert_matrix a n with
  | none => exact (h.singular a n hb ha).elim
  | some b => exact ⟨b, rfl, h.invert a n b hb⟩

end IsaL.Documented

theorem getD_mem {ids : List Nat} {i d : Nat} (hi : i < ids.length) : ids.getD i d ∈ ids := by
  rw [List.getD_eq_getElem _ _ hi]
  exact List.getElem_mem hi

def ofMatrix (A : Matrix (Fin m) (Fin k) GF256) : Mem := fun x =>
  if h : x / k < m ∧ x % k < k then (A ⟨x / k, h.1⟩ ⟨x % k, h.2⟩).byte else 0

theorem toMatrix_ofMatrix (A : Matrix (Fin m) (Fin k) GF256) : toMatrix (ofMatrix A) m k = A := by
  funext i j
  simp only [toMatrix, ofMatrix, entry_div, entry_mod, i.isLt, j.isLt, and_self, ↓reduceDIte]

def cauchy1Matrix (m k : Nat) : Matrix (Fin m) (Fin k) GF256 := fun i j =>
  if i.val < k then if i.val = j.val then 1 else 0
  else (⟨BitVec.ofNat 8 i ^^^ BitVec.ofNat 8 j⟩ : GF256)⁻¹

/-- The portable functions of the library; each coefficient has a table of 32 products. -/
def IsaL.base : IsaL where
  gf_gen_cauchy1_matrix m k := ofMatrix (cauchy1Matrix m k)
  ec_init_tables _ _ a := fun x =>
    let nibble := x % 32
    GF256.mul (a (x / 32)) (BitVec.ofNat 8 (if nibble < 16 then nibble else (nibble - 16) * 16))
  ec_encode_data _ k _ gftbls data := fun l t =>
    (∑ j : Fin k, (⟨gftbls (32 * (k * l + j) + 1)⟩ * ⟨data j t⟩ : GF256)).byte
  gf_invert_matrix a n :=
    let A := toMatrix a n n
    if A.det = 0 then none else some (ofMatrix (A.det⁻¹ • A.adjugate))

theorem IsaL.base_documented : IsaL.base.Documented where
  cauchy m k _ i j := congrFun (congrFun (toMatrix_ofMatrix (cauchy1Matrix m k)) i) j
  encode len k rows a data i t _ := by
    have htable (c : Nat) : IsaL.base.ec_init_tables k rows a (32 * c + 1) = a c := by
      have hd : (32 * c + 1) / 32 = c := by omega
      have hm : (32 * c + 1) % 32 = 1 := by omega
      simp only [IsaL.base, hd, hm]
      rw [GF256.mul_comm']
      exact GF256.one_mul' _
    simp only [IsaL.base] at htable
    simp only [IsaL.base, htable]
    rfl
  invert a n b hb := by
    simp only [IsaL.base, Option.ite_none_left_eq_some, Option.some.injEq] at hb
    obtain ⟨hdet, rfl⟩ := hb
    rw [toMatrix_ofMatrix, Matrix.smul_mul, Matrix.adjugate_mul, smul_smul,
      inv_mul_cancel₀ hdet, one_smul]
  singular a n hn := by
    simp only [IsaL.base, ite_eq_left_iff, reduceCtorEq, imp_false, not_not] at hn
    rw [Matrix.isUnit_iff_isUnit_det, hn]
    exact not_isUnit_zero

end Galois
