import Mathlib.Algebra.Field.Basic
import Mathlib.Algebra.Ring.MinimalAxioms
import Mathlib.GroupTheory.OrderOfElement
import Mathlib.Tactic

namespace Galois
set_option autoImplicit true
set_option relaxedAutoImplicit false

/-- A byte read as an element of the field with 256 elements. -/
structure GF256 where
  byte : BitVec 8
deriving DecidableEq

namespace GF256

/-- Multiplication by `x`, reduced modulo `x^8 + x^4 + x^3 + x^2 + 1`. -/
def xtime (b : BitVec 8) : BitVec 8 :=
  b <<< 1 ^^^ if b.msb then 0x1d#8 else 0#8

/-- The partial product over the lowest `n` bits of `a`. -/
def mulBits (a b : BitVec 8) : Nat → BitVec 8
  | 0 => 0#8
  | n + 1 => mulBits a b n ^^^ if a.getLsbD n then xtime^[n] b else 0#8

def mul (a b : BitVec 8) : BitVec 8 := mulBits a b 8

def square (a : BitVec 8) : BitVec 8 := mul a a

/-- The power `a ^ (2 ^ (n + 1) - 2)`, by squaring. -/
def powInv (a : BitVec 8) : Nat → BitVec 8
  | 0 => 1#8
  | n + 1 => square (mul (powInv a n) a)

def inv (a : BitVec 8) : BitVec 8 := powInv a 7

theorem xtime_xor (b c : BitVec 8) : xtime (b ^^^ c) = xtime b ^^^ xtime c := by
  have hm : (if (b ^^^ c).msb then 0x1d#8 else 0#8) =
      (if b.msb then 0x1d#8 else 0#8) ^^^ if c.msb then 0x1d#8 else 0#8 := by
    rw [BitVec.msb_xor]
    cases b.msb <;> cases c.msb <;> rfl
  rw [xtime, xtime, xtime, hm, BitVec.shiftLeft_xor_distrib]
  ac_rfl

theorem iterate_xtime_xor (n : Nat) (b c : BitVec 8) :
    xtime^[n] (b ^^^ c) = xtime^[n] b ^^^ xtime^[n] c := by
  induction n generalizing b c with
  | zero => rfl
  | succ n ih => simp only [Function.iterate_succ, Function.comp_apply, xtime_xor, ih]

theorem mulBits_xor_right (a b c : BitVec 8) (n : Nat) :
    mulBits a (b ^^^ c) n = mulBits a b n ^^^ mulBits a c n := by
  induction n with
  | zero => simp only [mulBits, BitVec.xor_self]
  | succ n ih =>
    simp only [mulBits, ih, iterate_xtime_xor]
    cases a.getLsbD n
    · simp
    · simp only [↓reduceIte]; ac_rfl

theorem mulBits_xor_left (a b c : BitVec 8) (n : Nat) :
    mulBits (a ^^^ b) c n = mulBits a c n ^^^ mulBits b c n := by
  induction n with
  | zero => simp only [mulBits, BitVec.xor_self]
  | succ n ih =>
    have hx : (if (a ^^^ b).getLsbD n then xtime^[n] c else 0#8) =
        (if a.getLsbD n then xtime^[n] c else 0#8) ^^^
          if b.getLsbD n then xtime^[n] c else 0#8 := by
      rw [BitVec.getLsbD_xor]
      cases a.getLsbD n <;> cases b.getLsbD n <;> simp
    rw [mulBits, mulBits, mulBits, ih, hx]
    ac_rfl

theorem mul_xor_right (a b c : BitVec 8) : mul a (b ^^^ c) = mul a b ^^^ mul a c :=
  mulBits_xor_right a b c 8

theorem mul_xor_left (a b c : BitVec 8) : mul (a ^^^ b) c = mul a c ^^^ mul b c :=
  mulBits_xor_left a b c 8

def bitSum (b : BitVec 8) : Nat → BitVec 8
  | 0 => 0#8
  | n + 1 => bitSum b n ^^^ if b.getLsbD n then BitVec.twoPow 8 n else 0#8

theorem bitSum_eq : ∀ b : BitVec 8, bitSum b 8 = b := by
  decide +kernel

theorem additive_ext {f g : BitVec 8 → BitVec 8} (hf : ∀ b c, f (b ^^^ c) = f b ^^^ f c)
    (hg : ∀ b c, g (b ^^^ c) = g b ^^^ g c)
    (h : ∀ i < 8, f (BitVec.twoPow 8 i) = g (BitVec.twoPow 8 i)) (b : BitVec 8) : f b = g b := by
  have zero {f : BitVec 8 → BitVec 8} (hf : ∀ b c, f (b ^^^ c) = f b ^^^ f c) :
      f 0#8 = 0#8 := by
    have h0 := hf 0#8 0#8
    rw [BitVec.xor_self, BitVec.xor_self] at h0
    exact h0
  have hs (n : Nat) (hn : n ≤ 8) : f (bitSum b n) = g (bitSum b n) := by
    induction n with
    | zero => exact (zero hf).trans (zero hg).symm
    | succ n ih =>
      rw [bitSum, hf, hg, ih (by omega)]
      split
      · rw [h n (by omega)]
      · rw [zero hf, zero hg]
  simpa only [bitSum_eq] using hs 8 le_rfl

theorem mul_comm' (a b : BitVec 8) : mul a b = mul b a := by
  refine additive_ext (f := fun a => mul a b) (g := fun a => mul b a)
    (fun _ _ => mul_xor_left _ _ _) (fun _ _ => mul_xor_right _ _ _) (fun i hi => ?_) a
  refine additive_ext (f := fun b => mul (BitVec.twoPow 8 i) b)
    (g := fun b => mul b (BitVec.twoPow 8 i))
    (fun _ _ => mul_xor_right _ _ _) (fun _ _ => mul_xor_left _ _ _) (fun j hj => ?_) b
  have hd : ∀ i < 8, ∀ j < 8, mul (BitVec.twoPow 8 i) (BitVec.twoPow 8 j) =
      mul (BitVec.twoPow 8 j) (BitVec.twoPow 8 i) := by decide +kernel
  exact hd i hi j hj

theorem mul_assoc' (a b c : BitVec 8) : mul (mul a b) c = mul a (mul b c) := by
  refine additive_ext (f := fun a => mul (mul a b) c) (g := fun a => mul a (mul b c))
    (fun _ _ => by simp only [mul_xor_left]) (fun _ _ => mul_xor_left _ _ _) (fun i hi => ?_) a
  refine additive_ext (f := fun b => mul (mul (BitVec.twoPow 8 i) b) c)
    (g := fun b => mul (BitVec.twoPow 8 i) (mul b c))
    (fun _ _ => by simp only [mul_xor_left, mul_xor_right])
    (fun _ _ => by simp only [mul_xor_left, mul_xor_right]) (fun j hj => ?_) b
  refine additive_ext (f := fun c => mul (mul (BitVec.twoPow 8 i) (BitVec.twoPow 8 j)) c)
    (g := fun c => mul (BitVec.twoPow 8 i) (mul (BitVec.twoPow 8 j) c))
    (fun _ _ => mul_xor_right _ _ _) (fun _ _ => by simp only [mul_xor_right])
    (fun k hk => ?_) c
  have hd : ∀ i < 8, ∀ j < 8, ∀ k < 8,
      mul (mul (BitVec.twoPow 8 i) (BitVec.twoPow 8 j)) (BitVec.twoPow 8 k) =
        mul (BitVec.twoPow 8 i) (mul (BitVec.twoPow 8 j) (BitVec.twoPow 8 k)) := by
    decide +kernel
  exact hd i hi j hj k hk

theorem one_mul' : ∀ a : BitVec 8, mul 1#8 a = a := by
  decide +kernel

theorem inv_zero' : inv 0#8 = 0#8 := by
  decide +kernel

instance : Add GF256 := ⟨fun a b => ⟨a.byte ^^^ b.byte⟩⟩
instance : Mul GF256 := ⟨fun a b => ⟨mul a.byte b.byte⟩⟩
instance : Neg GF256 := ⟨id⟩
instance : Inv GF256 := ⟨fun a => ⟨inv a.byte⟩⟩
instance : Zero GF256 := ⟨⟨0#8⟩⟩
instance : One GF256 := ⟨⟨1#8⟩⟩

@[ext] theorem ext {a b : GF256} (h : a.byte = b.byte) : a = b := by
  cases a
  cases b
  exact congrArg _ h

@[simp] theorem byte_add (a b : GF256) : (a + b).byte = a.byte ^^^ b.byte := rfl
@[simp] theorem byte_zero : (0 : GF256).byte = 0#8 := rfl
@[simp] theorem byte_one : (1 : GF256).byte = 1#8 := rfl

instance : CommRing GF256 :=
  CommRing.ofMinimalAxioms
    (fun _ _ _ => ext (BitVec.xor_assoc _ _ _))
    (fun _ => ext BitVec.zero_xor)
    (fun _ => ext BitVec.xor_self)
    (fun _ _ _ => ext (mul_assoc' _ _ _))
    (fun _ _ => ext (mul_comm' _ _))
    (fun _ => ext (one_mul' _))
    (fun _ _ _ => ext (mul_xor_right _ _ _))

def gen : GF256 := ⟨2#8⟩

theorem orderOf_gen : orderOf gen = 255 := by
  refine orderOf_eq_of_pow_and_pow_div_prime (by decide) (by decide +kernel) ?_
  intro p hp hd
  have hp' : p ∈ Nat.primeFactors 255 := by simp [hp, hd]
  have hf : Nat.primeFactors 255 = {3, 5, 17} := by decide +kernel
  rw [hf] at hp'
  simp only [Finset.mem_insert, Finset.mem_singleton] at hp'
  rcases hp' with rfl | rfl | rfl <;> decide +kernel

def equivFin : GF256 ≃ Fin (2 ^ 8) where
  toFun a := a.byte.toFin
  invFun i := ⟨⟨i⟩⟩
  left_inv _ := rfl
  right_inv _ := rfl

instance : Fintype GF256 := .ofEquiv _ equivFin.symm

theorem card_eq : Fintype.card GF256 = 2 ^ 8 :=
  (Fintype.card_congr equivFin).trans (Fintype.card_fin _)

theorem exists_pow_gen (ha : a ≠ (0 : GF256)) : ∃ n, gen ^ n = a := by
  have hne (n : Nat) : gen ^ n ≠ 0 := by
    intro h0
    have h1 : (gen ^ n) ^ 255 = 1 := by
      rw [← pow_mul, mul_comm, pow_mul, ← orderOf_gen, pow_orderOf_eq_one, one_pow]
    rw [h0, zero_pow (by omega)] at h1
    exact absurd h1 (by decide)
  have hinj : Set.InjOn (fun n : Nat => gen ^ n) (Finset.range 255) := by
    intro m hm n hn h
    rw [Finset.coe_range, ← orderOf_gen] at hm hn
    exact pow_injOn_Iio_orderOf hm hn h
  have hcard : ((Finset.range 255).image fun n => gen ^ n).card = 255 := by
    rw [Finset.card_image_of_injOn hinj, Finset.card_range]
  have hsub : (Finset.range 255).image (fun n => gen ^ n) ⊆ Finset.univ.erase 0 := by
    intro b hb
    obtain ⟨n, _, rfl⟩ := Finset.mem_image.1 hb
    exact Finset.mem_erase.2 ⟨hne n, Finset.mem_univ _⟩
  have heq := Finset.eq_of_subset_of_card_le hsub (by
    rw [hcard, Finset.card_erase_of_mem (Finset.mem_univ _), Finset.card_univ, card_eq]
    omega)
  have hmem : a ∈ (Finset.range 255).image fun n => gen ^ n := by
    rw [heq]
    exact Finset.mem_erase.2 ⟨ha, Finset.mem_univ _⟩
  obtain ⟨n, _, h⟩ := Finset.mem_image.1 hmem
  exact ⟨n, h⟩

theorem pow_card_sub_one (ha : a ≠ (0 : GF256)) : a ^ 255 = 1 := by
  obtain ⟨n, rfl⟩ := exists_pow_gen ha
  rw [← pow_mul, mul_comm, pow_mul, ← orderOf_gen, pow_orderOf_eq_one, one_pow]

theorem powInv_eq (a : GF256) (n : Nat) : (⟨powInv a.byte n⟩ : GF256) = a ^ (2 ^ (n + 1) - 2) := by
  induction n with
  | zero => rfl
  | succ n ih =>
    have hs : (⟨powInv a.byte (n + 1)⟩ : GF256) =
        (⟨powInv a.byte n⟩ * a) * (⟨powInv a.byte n⟩ * a) := rfl
    have hp : 2 ^ (n + 1 + 1) - 2 = (2 ^ (n + 1) - 2 + 1) + (2 ^ (n + 1) - 2 + 1) := by
      have h2 : 2 ≤ 2 ^ (n + 1) := Nat.le_self_pow (by omega) 2
      rw [Nat.pow_succ 2 (n + 1)]
      omega
    rw [hs, ih, ← pow_succ, ← pow_add, hp]

theorem mul_inv' (ha : a ≠ (0 : GF256)) : a * a⁻¹ = 1 := by
  have hi : a⁻¹ = a ^ 254 := powInv_eq a 7
  rw [hi, ← pow_succ']
  exact pow_card_sub_one ha

instance : Field GF256 :=
  { (inferInstance : CommRing GF256) with
    inv := Inv.inv
    exists_pair_ne := ⟨0, 1, by decide⟩
    mul_inv_cancel := fun _ ha => mul_inv' ha
    inv_zero := ext inv_zero'
    nnqsmul := _
    nnqsmul_def := fun _ _ => rfl
    qsmul := _
    qsmul_def := fun _ _ => rfl }

end GF256

end Galois
