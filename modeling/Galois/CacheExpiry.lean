import Galois.LruCache
import Mathlib.Algebra.Order.BigOperators.Group.List
import Mathlib.Algebra.Order.Ring.Int
import Mathlib.Tactic.Ring

namespace Galois
set_option autoImplicit true
set_option relaxedAutoImplicit false

section Division

variable {x n m q : Int} {l : List Int}

theorem ediv_emod_eq_zero_iff (hn : 0 < n) (hm : 0 < m) : x / n % m = 0 ↔ x % (n * m) < n := by
  have hx : n * (x / n) + x % n = x := Int.mul_ediv_add_emod x n
  have hy : m * (x / n / m) + x / n % m = x / n := Int.mul_ediv_add_emod (x / n) m
  have hr := Int.emod_nonneg x hn.ne'
  have hr' := Int.emod_lt_of_pos x hn
  have hs := Int.emod_nonneg (x / n) hm.ne'
  have hs' := Int.emod_lt_of_pos (x / n) hm
  have hle : n * (x / n % m + 1) ≤ n * m := mul_le_mul_of_nonneg_left hs' hn.le
  have hnonneg : 0 ≤ n * (x / n % m) := mul_nonneg hn.le hs
  rw [mul_add, mul_one] at hle
  have hsum : n * (x / n % m) + x % n + n * m * (x / n / m) = x := by
    calc n * (x / n % m) + x % n + n * m * (x / n / m)
        = n * (m * (x / n / m) + x / n % m) + x % n := by ring
      _ = x := by rw [hy, hx]
  have hrest : x % (n * m) = n * (x / n % m) + x % n :=
    ((Int.ediv_emod_unique (mul_pos hn hm)).2 ⟨hsum, by omega, by omega⟩).2
  rw [hrest]
  constructor
  · intro hzero
    rw [hzero, mul_zero, zero_add]
    exact hr'
  · intro hlt
    by_contra hne
    have hone : 1 ≤ x / n % m := by omega
    have hbig : n * 1 ≤ n * (x / n % m) := mul_le_mul_of_nonneg_left hone hn.le
    omega

theorem length_pos_of_ne_nil (hl : l ≠ []) : (0 : Int) < l.length :=
  Int.natCast_pos.2 (List.length_pos_iff.2 hl)

theorem exists_le_tdiv (hl : l ≠ []) : ∃ x ∈ l, x ≤ l.sum.tdiv l.length := by
  by_contra hnone
  have hpos := length_pos_of_ne_nil hl
  have hsum := List.card_nsmul_le_sum l (l.sum.tdiv l.length + 1) fun x hx =>
    Int.add_one_le_of_lt (not_le.1 fun hle => hnone ⟨x, hx, hle⟩)
  rw [nsmul_eq_mul, mul_add, mul_one] at hsum
  have hdiv := Int.mul_tdiv_add_tmod l.sum l.length
  have hlt := Int.tmod_lt_of_pos l.sum hpos
  omega

theorem exists_tdiv_le (hl : l ≠ []) : ∃ x ∈ l, l.sum.tdiv l.length ≤ x := by
  by_contra hnone
  have hpos := length_pos_of_ne_nil hl
  have hsum := List.sum_le_card_nsmul l (l.sum.tdiv l.length - 1) fun x hx =>
    Int.le_sub_one_of_lt (not_le.1 fun hle => hnone ⟨x, hx, hle⟩)
  rw [nsmul_eq_mul, mul_sub, mul_one] at hsum
  have hdiv := Int.mul_tdiv_add_tmod l.sum l.length
  have hlt := Int.lt_tmod_of_pos l.sum hpos
  omega

theorem bmod_eq_iff (hlo : -2 ^ 31 ≤ q) (hhi : q < 2 ^ 31) :
    x.bmod (2 ^ 32) = q ↔ (x - q) % 2 ^ 32 = 0 := by
  rw [Int.bmod_def]
  split <;> omega

end Division

namespace LruCache

variable {K T : Type} {c : LruCache K T} {time : K → Int} {m : List (K × CacheData T)}

def expireTimes (m : List (K × CacheData T)) : List Int := m.map fun e => e.2.expire_time

def remaining (c : LruCache K T) (time : K → Int) : List Int :=
  expireTimes (c.m_cache_map.filter (¬ Expires time ·))

def erased (c : LruCache K T) (time : K → Int) : List Int :=
  expireTimes (c.m_cache_map.filter (Expires time ·))

/-- How long `expire_thread` sleeps. -/
def sleepTime (c : LruCache K T) : Nat := (c.m_avg_expire_time.tdiv 2).natAbs

/-- The stored average is that of the entries, and the thread sleeps no longer than half the largest
of their expire times. -/
structure AveragesExpiry (c : LruCache K T) : Prop where
  average : c.m_avg_expire_time =
    (expireTimes c.m_cache_map).sum.tdiv (expireTimes c.m_cache_map).length
  least : ∃ x ∈ expireTimes c.m_cache_map, x ≤ c.m_avg_expire_time
  greatest : ∃ x ∈ expireTimes c.m_cache_map, c.m_avg_expire_time ≤ x
  sleep : ∃ x ∈ expireTimes c.m_cache_map, 2 * c.sleepTime ≤ x.natAbs

/-- What the erased entries add to the sum, what the conversion to `size_t` adds and what is left
over by the division come to less than the number of entries, up to multiples of it times `2 ^ 32`.
-/
def AverageMeets (c : LruCache K T) (time : K → Int) : Prop :=
  let kept := c.remaining time
  let sum := (c.erased time).sum + kept.sum
  ((c.erased time).sum + (sum % 2 ^ 64 - sum) + kept.sum.tmod kept.length) %
    (kept.length * 2 ^ 32) < kept.length

instance : Decidable (c.AverageMeets time) := inferInstanceAs (Decidable (_ < _))

theorem sum_expireTimes (time : K → Int) : (expireTimes m).sum =
    (expireTimes (m.filter (Expires time ·))).sum +
      (expireTimes (m.filter (¬ Expires time ·))).sum := by
  induction m with
  | nil => rfl
  | cons e m ih =>
    simp only [expireTimes] at ih ⊢
    rw [List.map_cons, List.sum_cons, ih]
    by_cases he : Expires time e
    · rw [List.filter_cons_of_pos (by simpa using he), List.filter_cons_of_neg (by simpa using he),
        List.map_cons, List.sum_cons, Int.add_assoc]
    · rw [List.filter_cons_of_neg (by simpa using he), List.filter_cons_of_pos (by simpa using he),
        List.map_cons, List.sum_cons, Int.add_left_comm]

theorem average_eq (sum : Int) (n : Nat) : average sum n = (sum % 2 ^ 64 / n).bmod (2 ^ 32) := by
  have hnonneg : 0 ≤ sum % (2 ^ 64 : Nat) := Int.emod_nonneg sum (by decide)
  rw [average, BitVec.toInt_ofNat', BitVec.toNat_ofInt, Int.natCast_ediv,
    Int.toNat_of_nonneg hnonneg]
  rfl

theorem expireTimes_lru_expire :
    expireTimes (c.lru_expire time).2.m_cache_map = c.remaining time := by
  simp only [lru_expire, expireLoop_eq, remaining]

theorem m_avg_lru_expire (hne : c.remaining time ≠ []) : (c.lru_expire time).2.m_avg_expire_time =
    average ((c.erased time).sum + (c.remaining time).sum) (c.remaining time).length := by
  have hlength : (c.remaining time).length =
      (c.m_cache_map.filter (¬ Expires time ·)).length := List.length_map _
  have hkept : (c.m_cache_map.filter (¬ Expires time ·)).isEmpty = false := by
    rw [List.isEmpty_eq_false_iff]
    exact fun hnil => hne (congrArg expireTimes hnil)
  have hsum := sum_expireTimes (m := c.m_cache_map) time
  simp only [lru_expire, expireLoop_eq, hkept, Int.zero_add, hlength]
  rw [if_neg Bool.false_ne_true]
  exact congrArg (average · _) hsum

/-- The code's quotient is the average plus what the condition takes the remainder of. -/
theorem average_iff_meets (hne : c.remaining time ≠ [])
    (hlo : -2 ^ 31 ≤ (c.remaining time).sum.tdiv (c.remaining time).length)
    (hhi : (c.remaining time).sum.tdiv (c.remaining time).length < 2 ^ 31) :
    (c.lru_expire time).2.m_avg_expire_time =
      (c.remaining time).sum.tdiv (c.remaining time).length ↔ c.AverageMeets time := by
  have hpos := length_pos_of_ne_nil hne
  have hdiv := Int.tdiv_mul_add_tmod (c.remaining time).sum (c.remaining time).length
  rw [m_avg_lru_expire hne, average_eq, bmod_eq_iff hlo hhi]
  change _ ↔ _ % _ < _
  rw [← ediv_emod_eq_zero_iff hpos (by decide)]
  generalize (c.remaining time).sum.tdiv (c.remaining time).length = q at hdiv ⊢
  generalize (c.remaining time).sum.tmod (c.remaining time).length = r at hdiv ⊢
  generalize (c.erased time).sum = e
  rw [← hdiv]
  generalize ((c.remaining time).length : Int) = n at hpos
  generalize hs : (e + (q * n + r)) % 2 ^ 64 = s
  have hsum : s = e + (s - (e + (q * n + r))) + r + q * n := by omega
  have hquot : s / n - q = (e + (s - (e + (q * n + r))) + r) / n := by
    conv_lhs => rw [hsum, Int.add_mul_ediv_right _ _ hpos.ne']
    omega
  rw [hquot]

theorem averagesExpiry_of_average (hne : expireTimes c.m_cache_map ≠ [])
    (h : c.m_avg_expire_time =
      (expireTimes c.m_cache_map).sum.tdiv (expireTimes c.m_cache_map).length) :
    AveragesExpiry c := by
  have hleast := exists_le_tdiv hne
  have hgreatest := exists_tdiv_le hne
  rw [← h] at hleast hgreatest
  refine ⟨h, hleast, hgreatest, ?_⟩
  have hhalf := Int.mul_tdiv_add_tmod c.m_avg_expire_time 2
  have hlo := Int.lt_tmod_of_pos c.m_avg_expire_time (b := 2) (by decide)
  have hhi := Int.tmod_lt_of_pos c.m_avg_expire_time (b := 2) (by decide)
  by_cases hsign : 0 ≤ c.m_avg_expire_time
  · obtain ⟨x, hx, hle⟩ := hgreatest
    have hrest := Int.tmod_nonneg 2 hsign
    refine ⟨x, hx, ?_⟩
    rw [sleepTime]
    omega
  · obtain ⟨x, hx, hle⟩ := hleast
    have hrest := Int.tmod_nonneg (a := -c.m_avg_expire_time) 2 (by omega)
    rw [Int.neg_tmod] at hrest
    refine ⟨x, hx, ?_⟩
    rw [sleepTime]
    omega

/-- Where an entry stays, the stored average is one exactly under the condition. -/
theorem averages_iff
    (hint : ∀ e ∈ c.m_cache_map, -2 ^ 31 ≤ e.2.expire_time ∧ e.2.expire_time < 2 ^ 31)
    (hne : (c.lru_expire time).2.m_cache_map ≠ []) :
    AveragesExpiry (c.lru_expire time).2 ↔ c.AverageMeets time := by
  have hkept : c.remaining time ≠ [] := by
    rw [← expireTimes_lru_expire]
    exact fun hnil => hne (List.map_eq_nil_iff.1 hnil)
  have hrange : ∀ x ∈ c.remaining time, -2 ^ 31 ≤ x ∧ x < 2 ^ 31 := by
    intro x hx
    obtain ⟨e, he, rfl⟩ := List.mem_map.1 hx
    exact hint e (List.mem_filter.1 he).1
  obtain ⟨x, hx, hlo⟩ := exists_le_tdiv hkept
  obtain ⟨y, hy, hhi⟩ := exists_tdiv_le hkept
  have hxlo := (hrange x hx).1
  have hyhi := (hrange y hy).2
  rw [← average_iff_meets hkept (by omega) (by omega)]
  constructor
  · intro h
    have haverage := h.average
    rw [expireTimes_lru_expire] at haverage
    exact haverage
  · intro h
    apply averagesExpiry_of_average
    · rw [expireTimes_lru_expire]
      exact hkept
    · rw [expireTimes_lru_expire]
      exact h

section Examples

def expiring (l : List Int) : LruCache Nat Bool :=
  ⟨5000, l.mapIdx fun key expire_time => (key, ⟨100, 100, expire_time, 0, true⟩), 0⟩

theorem averages_iff_kept : AveragesExpiry ((expiring [10, 21]).lru_expire fun _ => 105).2 := by
  refine (averages_iff ?_ ?_).2 ?_
  · decide
  · decide
  · decide

/-- Three entries with the default of -1 store 1431655764, and so does not lie between them; and an
entry that is erased counts in the sum of those that stay. -/
theorem average_misses :
    ¬ (∀ (c : LruCache Nat Bool) (time : Nat → Int),
      (∀ e ∈ c.m_cache_map, -2 ^ 31 ≤ e.2.expire_time ∧ e.2.expire_time < 2 ^ 31) →
      (c.lru_expire time).2.m_cache_map ≠ [] → AveragesExpiry (c.lru_expire time).2) ∧
    ((expiring [-1, -1, -1]).lru_expire fun _ => 105).2.m_avg_expire_time = 1431655764 ∧
    ((expiring [3, 100]).lru_expire fun _ => 105).2.m_avg_expire_time = 103 := by
  refine ⟨fun h => ?_, by decide, by decide⟩
  obtain ⟨x, hx, hle⟩ := (h (expiring [-1, -1, -1]) (fun _ => 105) (by decide) (by decide)).greatest
  revert x
  decide

end Examples

end LruCache

end Galois
