import Mathlib.Data.List.Nodup
import Mathlib.Logic.Function.Basic
import Mathlib.Tactic.Basic

namespace Galois
set_option autoImplicit true
set_option relaxedAutoImplicit false

/-- A `std::string`. -/
abbrev Str := List Char

/-- A `kyotocabinet::CacheDB`, of the values that the strings in it stand for. -/
abbrev KVStore (β : Type) := Str → Option β

namespace KVStore

variable {kv kv' : KVStore β} {k path : Str} {v value : β} {ok : Bool}

def getValue (kv : KVStore β) (path : Str) : Option β := kv path

/-- `ok` tells whether the database carries out the update; `none` is the answer `false`. -/
def setValue (ok : Bool) (kv : KVStore β) (path : Str) (value : β) : Option (KVStore β) :=
  if ok then some (Function.update kv path (some value)) else none

def remove (ok : Bool) (kv : KVStore β) (path : Str) : Option (KVStore β) :=
  if ok ∧ (kv path).isSome then some (Function.update kv path none) else none

@[simp] theorem setValue_true :
    setValue true kv path value = some (Function.update kv path (some value)) := rfl

theorem remove_true_of_some (h : kv path = some v) :
    remove true kv path = some (Function.update kv path none) := by
  simp only [remove, h, Option.isSome_some, and_self, ↓reduceIte]

theorem remove_of_none (h : kv path = none) : remove ok kv path = none := by
  simp only [remove, h, Option.isSome_none, Bool.false_eq_true, and_false, ↓reduceIte]

end KVStore

/-- `std::to_string` of a `uint64_t` -/
def to_string (value : BitVec 64) : Str := Nat.toDigits 10 value.toNat

theorem to_string_inj {a b : BitVec 64} (h : to_string a = to_string b) : a = b := by
  have hn := congrArg (Nat.ofDigitChars 10 · 0) h
  simp only [to_string, Nat.ofDigitChars_ten_toDigits] at hn
  exact BitVec.eq_of_toNat_eq hn

theorem colon_notMem_to_string (a : BitVec 64) : ':' ∉ to_string a := by
  intro h
  have hd := Nat.isDigit_of_mem_toDigits (by decide) (by decide) h
  revert hd
  decide

/-- The key `uuid:name`. -/
def key (uuid name : Str) : Str := uuid ++ ':' :: name

theorem key_inj {u u' n n' : Str} (hu : ':' ∉ u) (hu' : ':' ∉ u') :
    key u n = key u' n' ↔ u = u' ∧ n = n' := by
  constructor
  · intro h
    induction u generalizing u' with
    | nil =>
      cases u' with
      | nil => exact ⟨rfl, (List.cons.inj h).2⟩
      | cons c u' => exact absurd (List.cons.inj h).1 fun hc => hu' (hc ▸ List.mem_cons_self)
    | cons c u ih =>
      cases u' with
      | nil => exact absurd (List.cons.inj h).1.symm fun hc => hu (hc ▸ List.mem_cons_self)
      | cons c' u' =>
        obtain ⟨rfl, ht⟩ := List.cons.inj h
        obtain ⟨rfl, rfl⟩ := ih (List.not_mem_of_not_mem_cons hu)
          (List.not_mem_of_not_mem_cons hu') ht
        exact ⟨rfl, rfl⟩
  · rintro ⟨rfl, rfl⟩
    rfl

theorem update_key {kv : Str → α} {x : α} {u w n m : Str} (hu : ':' ∉ u) (hw : ':' ∉ w) :
    Function.update kv (key u n) x (key w m) = if w = u ∧ m = n then x else kv (key w m) := by
  simp only [Function.update_apply, key_inj hw hu]

theorem key_ne_root (u n : Str) : key u n ≠ ['/'] := by
  intro h
  have hc : ':' ∈ key u n := List.mem_append_right u List.mem_cons_self
  rw [h] at hc
  revert hc
  decide

end Galois
