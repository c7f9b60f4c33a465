import Mathlib.Algebra.Ring.Int.Defs
import Mathlib.Data.List.Basic
import Mathlib.Order.Lattice
import Mathlib.Tactic.Basic

namespace Galois
set_option autoImplicit true
set_option relaxedAutoImplicit false

/-- `lru_cache::cache_data` -/
structure CacheData (T : Type) where
  begin_time : Int
  update_time : Int
  expire_time : Int
  count : Int
  data : T

/-- An `lru_cache`, its map in the order of the keys. -/
structure LruCache (K T : Type) where
  m_max_size : Nat
  m_cache_map : List (K × CacheData T)
  m_avg_expire_time : Int

namespace LruCache

variable {K T : Type} [LinearOrder K]

/-- `map::insert`, which keeps the entry that is there. -/
def insert (key : K) (new_data : CacheData T) : List (K × CacheData T) → List (K × CacheData T)
  | [] => [(key, new_data)]
  | e :: m =>
    if key < e.1 then (key, new_data) :: e :: m
    else if key = e.1 then e :: m
    else e :: insert key new_data m

def find (c : LruCache K T) (key : K) : Option (CacheData T) := c.m_cache_map.lookup key

def cached (c : LruCache K T) (key : K) : Option T := (c.find key).map CacheData.data

def touch (key : K) (time : Int) (e : K × CacheData T) : K × CacheData T :=
  if e.1 = key then (e.1, { e.2 with count := e.2.count + 1, update_time := time }) else e

def get (c : LruCache K T) (key : K) (time : Int) : Option T × LruCache K T :=
  match c.find key with
  | none => (none, c)
  | some it => (some it.data, { c with m_cache_map := c.m_cache_map.map (touch key time) })

/-- The `size_t` that `lru_remove` compares. -/
def weight (it : CacheData T) : BitVec 64 := BitVec.ofInt 64 (it.count + it.update_time)

def lru_remove (c : LruCache K T) : LruCache K T :=
  match c.m_cache_map with
  | [] => c
  | it :: m =>
    let lru_it := m.foldl (fun lru_it it =>
      if weight it.2 < weight lru_it.2 then it else lru_it) it
    { c with m_cache_map := c.m_cache_map.eraseP fun e => e.1 = lru_it.1 }

def set (c : LruCache K T) (key : K) (data : T) (expire_time time : Int) : LruCache K T :=
  let new_data := ⟨time, time, expire_time, 0, data⟩
  let c := if c.m_cache_map.length ≥ c.m_max_size then c.lru_remove else c
  { c with m_cache_map := insert key new_data c.m_cache_map }

def remove (c : LruCache K T) (key : K) : LruCache K T :=
  { c with m_cache_map := c.m_cache_map.filter fun e => e.1 ≠ key }

def Expires (time : K → Int) (e : K × CacheData T) : Prop :=
  e.2.expire_time ≥ 0 ∧ time e.1 - e.2.update_time ≥ e.2.expire_time

instance (time : K → Int) : DecidablePred (Expires (T := T) time) :=
  fun _ => inferInstanceAs (Decidable (_ ∧ _))

/-- The loop of `lru_expire`, with the time that it reads at each entry: how many entries it erases,
the sum of the expire times, and the entries that stay. -/
def expireLoop (time : K → Int) (count sum : Int) :
    List (K × CacheData T) → Int × Int × List (K × CacheData T)
  | [] => (count, sum, [])
  | it :: m =>
    let sum := sum + it.2.expire_time
    if Expires time it then expireLoop time (count + 1) sum m
    else
      let (count, sum, kept) := expireLoop time count sum m
      (count, sum, it :: kept)

/-- `sum / size()`: the `long long` is divided as a `size_t`, and the quotient stored as an
`int`. -/
def average (sum : Int) (size : Nat) : Int :=
  (BitVec.ofNat 32 ((BitVec.ofInt 64 sum).toNat / size)).toInt

def lru_expire (c : LruCache K T) (time : K → Int) : Int × LruCache K T :=
  let (count, sum, m_cache_map) := expireLoop time 0 0 c.m_cache_map
  let m_avg_expire_time :=
    if m_cache_map.isEmpty then c.m_avg_expire_time else average sum m_cache_map.length
  (count, { c with m_cache_map, m_avg_expire_time })

variable {c : LruCache K T} {key k : K}

theorem lookup_map_touch (m : List (K × CacheData T)) (key k : K) (time : Int) :
    ((m.map (touch key time)).lookup k).map CacheData.data = (m.lookup k).map CacheData.data := by
  induction m with
  | nil => rfl
  | cons e m ih =>
    have hkey : (touch key time e).1 = e.1 := by
      simp only [touch]
      split <;> rfl
    have hdata : (touch key time e).2.data = e.2.data := by
      simp only [touch]
      split <;> rfl
    rw [List.map_cons, List.lookup_cons, List.lookup_cons, hkey]
    split
    · exact congrArg some hdata
    · exact ih

theorem get_fst (c : LruCache K T) (key : K) (time : Int) : (c.get key time).1 = c.cached key := by
  simp only [get, cached]
  split
  · next h => rw [h]; rfl
  · next h => rw [h]; rfl

theorem get_cached (c : LruCache K T) (key k : K) (time : Int) :
    (c.get key time).2.cached k = c.cached k := by
  simp only [get]
  split
  · rfl
  · exact lookup_map_touch c.m_cache_map key k time

theorem lookup_insert {m : List (K × CacheData T)} (h : m.lookup key = none)
    (new_data : CacheData T) : (insert key new_data m).lookup key = some new_data := by
  induction m with
  | nil => exact List.lookup_cons_self
  | cons e m ih =>
    rw [List.lookup_cons] at h
    split at h
    · cases h
    · next hne =>
      have hne' : key ≠ e.1 := by simpa using hne
      simp only [insert, hne', ↓reduceIte]
      split
      · exact List.lookup_cons_self
      · rw [List.lookup_cons, hne]
        exact ih h

theorem lookup_eraseP {m : List (K × CacheData T)} (h : m.lookup key = none)
    (p : K × CacheData T → Bool) : (m.eraseP p).lookup key = none := by
  induction m with
  | nil => rfl
  | cons e m ih =>
    rw [List.lookup_cons] at h
    split at h
    · cases h
    · next hne =>
      rw [List.eraseP_cons]
      cases p e with
      | true => exact h
      | false => rw [cond_false, List.lookup_cons, hne]; exact ih h

theorem set_cached (h : c.cached key = none) (data : T) (expire_time time : Int) :
    (c.set key data expire_time time).cached key = some data := by
  have hm : c.m_cache_map.lookup key = none := Option.map_eq_none_iff.1 h
  have hroom : (if c.m_cache_map.length ≥ c.m_max_size then c.lru_remove
      else c).m_cache_map.lookup key = none := by
    split
    · simp only [lru_remove]
      split
      · exact hm
      · exact lookup_eraseP hm _
    · exact hm
  exact congrArg (Option.map CacheData.data) (lookup_insert hroom _)

omit [LinearOrder K] in
theorem expireLoop_eq (time : K → Int) (count sum : Int) (m : List (K × CacheData T)) :
    expireLoop time count sum m = (count + m.countP (Expires time ·),
      sum + (m.map fun e => e.2.expire_time).sum, m.filter (¬ Expires time ·)) := by
  induction m generalizing count sum with
  | nil => simp [expireLoop]
  | cons e m ih =>
    simp only [expireLoop]
    split
    · next he =>
      rw [ih, List.countP_cons_of_pos (by simpa using he),
        List.filter_cons_of_neg (by simpa using he), List.map_cons, List.sum_cons]
      simp only [Prod.mk.injEq, and_true]
      omega
    · next he =>
      rw [ih, List.countP_cons_of_neg (by simpa using he),
        List.filter_cons_of_pos (by simpa using he), List.map_cons, List.sum_cons]
      simp only [Prod.mk.injEq, and_true, true_and]
      omega

def Holds (c : LruCache K T) (key : K) (data : T) : Prop :=
  ∃ it, (key, it) ∈ c.m_cache_map ∧ it.data = data

theorem Holds.of_cached {data : T} (h : c.cached key = some data) : c.Holds key data := by
  obtain ⟨it, hit, rfl⟩ := Option.map_eq_some_iff.1 h
  obtain ⟨l₁, l₂, he, -⟩ := List.lookup_eq_some_iff.1 hit
  exact ⟨it, he ▸ List.mem_append_right _ List.mem_cons_self, rfl⟩

theorem Holds.of_get {data : T} {time : Int} (h : (c.get key time).2.Holds k data) :
    c.Holds k data := by
  obtain ⟨it, hit, rfl⟩ := h
  simp only [get] at hit
  split at hit
  · exact ⟨it, hit, rfl⟩
  · obtain ⟨⟨k', it'⟩, hmem, he⟩ := List.mem_map.1 hit
    simp only [touch] at he
    split at he
    · cases he
      exact ⟨it', hmem, rfl⟩
    · cases he
      exact ⟨it, hmem, rfl⟩

theorem mem_insert {new_data : CacheData T} {m : List (K × CacheData T)} {e : K × CacheData T}
    (h : e ∈ insert key new_data m) : e = (key, new_data) ∨ e ∈ m := by
  induction m with
  | nil => exact .inl (List.mem_singleton.1 h)
  | cons e' m ih =>
    simp only [insert] at h
    split at h
    · exact List.mem_cons.1 h
    · split at h
      · exact .inr h
      · cases List.mem_cons.1 h with
        | inl he => exact .inr (he ▸ List.mem_cons_self)
        | inr hm => exact (ih hm).imp_right (List.mem_cons_of_mem _)

theorem Holds.of_set {data data' : T} {expire_time time : Int}
    (h : (c.set key data expire_time time).Holds k data') :
    k = key ∧ data' = data ∨ c.Holds k data' := by
  obtain ⟨it, hit, rfl⟩ := h
  cases mem_insert hit with
  | inl he =>
    cases he
    exact .inl ⟨rfl, rfl⟩
  | inr hm =>
    refine .inr ⟨it, ?_, rfl⟩
    split at hm
    · simp only [lru_remove] at hm
      split at hm
      · exact hm
      · exact List.mem_of_mem_eraseP hm
    · exact hm

theorem Holds.of_remove {data : T} (h : (c.remove key).Holds k data) :
    k ≠ key ∧ c.Holds k data := by
  obtain ⟨it, hit, rfl⟩ := h
  obtain ⟨hmem, hne⟩ := List.mem_filter.1 hit
  exact ⟨of_decide_eq_true hne, it, hmem, rfl⟩

end LruCache

end Galois
