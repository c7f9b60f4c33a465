import Galois.Effect.OrderedMap
import Galois.Effect.System
import Galois.LruCache
import Mathlib.Algebra.Order.Ring.Int
import Mathlib.Algebra.Ring.Nat

namespace Galois
set_option autoImplicit true
set_option relaxedAutoImplicit false

namespace LruCache

variable {K T : Type} [LinearOrder K] {c : LruCache K T} {k key : K} {data : T}
  {expire_time time : Int} {m : List (K × CacheData T)} {new_data : CacheData T}

theorem fst_touch (key : K) (time : Int) (e : K × CacheData T) :
    (touch key time e).1 = e.1 := by
  simp only [touch]
  split <;> rfl

theorem ordered_insert (h : Ordered m) : Ordered (insert key new_data m) := by
  induction m with
  | nil => exact List.pairwise_singleton _ _
  | cons e m ih =>
    obtain ⟨he, hm⟩ := Ordered.cons_iff.1 h
    simp only [insert]
    split
    case isTrue hlt =>
      refine Ordered.cons_iff.2 ⟨?_, h⟩
      intro e' he'
      rcases List.mem_cons.1 he' with rfl | he'
      · exact hlt
      · exact hlt.trans (he e' he')
    case isFalse hle =>
      split
      case isTrue => exact h
      case isFalse hne =>
        refine Ordered.cons_iff.2 ⟨?_, ih hm⟩
        intro e' he'
        rcases mem_insert he' with rfl | he'
        · exact lt_of_le_of_ne (not_lt.1 hle) (Ne.symm hne)
        · exact he e' he'

theorem lookup_insert_of_ne (hk : k ≠ key) : (insert key new_data m).lookup k = m.lookup k := by
  have hbeq : (k == key) = false := beq_false_of_ne hk
  induction m with
  | nil => simp only [insert, List.lookup_cons, hbeq, List.lookup_nil]
  | cons e m ih =>
    simp only [insert]
    split
    · rw [List.lookup_cons, hbeq]
    · split
      · rfl
      · rw [List.lookup_cons, List.lookup_cons, ih]

theorem insert_of_some {x : CacheData T} (h : Ordered m) (hx : m.lookup key = some x) :
    insert key new_data m = m := by
  induction m with
  | nil => cases hx
  | cons e m ih =>
    obtain ⟨he, hm⟩ := Ordered.cons_iff.1 h
    simp only [insert]
    rcases List.mem_cons.1 (h.lookup_eq_some.1 hx) with rfl | hmem
    · rw [if_neg (lt_irrefl _), if_pos rfl]
    · have hlt : e.1 < key := he _ hmem
      rw [if_neg hlt.not_gt, if_neg hlt.ne', ih hm (hm.lookup_eq_some.2 hmem)]

theorem lookup_insert_eq (h : Ordered m) : (insert key new_data m).lookup k =
    if k = key then some ((m.lookup key).getD new_data) else m.lookup k := by
  split
  case isTrue hk =>
    subst hk
    cases hx : m.lookup k with
    | none => rw [lookup_insert hx, Option.getD_none]
    | some x => rw [insert_of_some h hx, hx, Option.getD_some]
  case isFalse hk => exact lookup_insert_of_ne hk

/-- The number that `lru_remove` means to compare. -/
def rank (it : CacheData T) : Int := it.count + it.update_time

def Full (c : LruCache K T) : Prop := c.m_max_size ≤ c.m_cache_map.length

instance : Decidable c.Full := inferInstanceAs (Decidable (_ ≤ _))

/-- The entry that `lru_remove` takes out. -/
abbrev Victim (c : LruCache K T) (e : K × CacheData T) : Prop :=
  FirstLeast (fun e => (weight e.2).toNat) c.m_cache_map e

theorem lru_remove_spec (h : Ordered c.m_cache_map) (hne : c.m_cache_map ≠ []) :
    ∃ e, c.Victim e ∧
      c.lru_remove = { c with m_cache_map := c.m_cache_map.eraseP fun e' => e'.1 = e.1 } := by
  obtain ⟨a, m, hm⟩ := List.exists_cons_of_ne_nil hne
  refine ⟨_, hm ▸ FirstLeast.of_foldl (hm ▸ h), ?_⟩
  simp only [lru_remove, hm, BitVec.lt_def]

theorem ordered_lru_remove (h : Ordered c.m_cache_map) : Ordered c.lru_remove.m_cache_map := by
  simp only [lru_remove]
  split
  · exact h
  · exact h.eraseP _

theorem m_max_size_lru_remove : c.lru_remove.m_max_size = c.m_max_size := by
  simp only [lru_remove]
  split <;> rfl

/-- The map after the check and the eviction of a `set`. -/
def room (c : LruCache K T) : LruCache K T := if c.Full then c.lru_remove else c

theorem set_eq : c.set key data expire_time time = { c.room with
    m_cache_map := insert key ⟨time, time, expire_time, 0, data⟩ c.room.m_cache_map } := rfl

theorem ordered_room (h : Ordered c.m_cache_map) : Ordered c.room.m_cache_map := by
  simp only [room]
  split
  · exact ordered_lru_remove h
  · exact h

theorem find_set (h : Ordered c.m_cache_map) : (c.set key data expire_time time).find k =
    if k = key then some ((c.room.find key).getD ⟨time, time, expire_time, 0, data⟩)
    else c.room.find k := by
  rw [set_eq]
  exact lookup_insert_eq (ordered_room h)

theorem room_of_not_full (hf : ¬ c.Full) : c.room = c := if_neg hf

theorem find_room_of_full (h : Ordered c.m_cache_map) (hpos : 1 ≤ c.m_max_size) (hf : c.Full) :
    ∃ e, c.Victim e ∧ ∀ k, c.room.find k = if k = e.1 then none else c.find k := by
  have hne : c.m_cache_map ≠ [] := List.ne_nil_of_length_pos (hpos.trans hf)
  obtain ⟨e, he, hr⟩ := lru_remove_spec h hne
  refine ⟨e, he, fun k => ?_⟩
  rw [room, if_pos hf, hr]
  exact h.lookup_eraseP e.1

theorem cached_of_room (h : Ordered c.m_cache_map) (hpos : 1 ≤ c.m_max_size)
    (hk : c.room.cached k = some data) : c.cached k = some data := by
  by_cases hf : c.Full
  · obtain ⟨e, -, hroom⟩ := find_room_of_full h hpos hf
    rw [cached, hroom] at hk
    split at hk
    · cases hk
    · exact hk
  · rw [room_of_not_full hf] at hk
    exact hk

/-- No count and no sum overflows. -/
def InRange (c : LruCache K T) : Prop := ∀ e ∈ c.m_cache_map,
  e.2.count < 2 ^ 31 ∧ -2 ^ 63 ≤ rank e.2 ∧ rank e.2 < 2 ^ 63

/-- The sums compare as `size_t` as they do as signed numbers. -/
def SameSign (c : LruCache K T) : Prop :=
  (∀ e ∈ c.m_cache_map, 0 ≤ rank e.2) ∨ ∀ e ∈ c.m_cache_map, rank e.2 < 0

/-- What a `set` does: the key has the value, and the other keys keep their entries, but for one of
least rank if the key is new and the cache is full. -/
structure SetsLatest (c : LruCache K T) (key : K) (data : T) (c' : LruCache K T) : Prop where
  answers : ∀ time, (c'.get key time).1 = some data
  kept : ¬ (c.cached key = none ∧ c.Full) → ∀ k, k ≠ key → c'.find k = c.find k
  evicted : c.cached key = none ∧ c.Full → ∃ e ∈ c.m_cache_map,
    (∀ e' ∈ c.m_cache_map, rank e.2 ≤ rank e'.2) ∧
    ∀ k, k ≠ key → c'.find k = if k = e.1 then none else c.find k

/-- A new key is set, or a full cache has lost just the entry of the key, or its value stays. -/
def SetMeets (c : LruCache K T) (key : K) (data : T) : Prop :=
  match c.cached key with
  | none => c.Full → c.SameSign
  | some old => if c.Full then ∃ it, c.Victim (key, it) else old = data

theorem weight_of_nonneg {it : CacheData T} (h : 0 ≤ rank it) (h' : rank it < 2 ^ 63) :
    ((weight it).toNat : Int) = rank it := by
  rw [weight, BitVec.toNat_ofInt, ← rank]
  omega

theorem weight_of_neg {it : CacheData T} (h : rank it < 0) (h' : -2 ^ 63 ≤ rank it) :
    ((weight it).toNat : Int) = rank it + 2 ^ 64 := by
  rw [weight, BitVec.toNat_ofInt, ← rank]
  omega

theorem victim_least_iff (hr : c.InRange) {e : K × CacheData T} (he : c.Victim e) :
    (∀ e' ∈ c.m_cache_map, rank e.2 ≤ rank e'.2) ↔ c.SameSign := by
  obtain ⟨-, hlo, hhi⟩ := hr e he.mem
  constructor
  · intro hleast
    by_cases hsign : 0 ≤ rank e.2
    · exact .inl fun e' he' => hsign.trans (hleast e' he')
    · refine .inr fun e' he' => ?_
      obtain ⟨-, hlo', hhi'⟩ := hr e' he'
      by_contra hpos
      have hle := he.least e' he'
      have hw := weight_of_neg (not_le.1 hsign) hlo
      have hw' := weight_of_nonneg (not_lt.1 hpos) hhi'
      omega
  · rintro (hpos | hneg)
    · intro e' he'
      have hle := he.least e' he'
      have hw := weight_of_nonneg (hpos e he.mem) hhi
      have hw' := weight_of_nonneg (hpos e' he') (hr e' he').2.2
      omega
    · intro e' he'
      have hle := he.least e' he'
      have hw := weight_of_neg (hneg e he.mem) hlo
      have hw' := weight_of_neg (hneg e' he') (hr e' he').2.1
      omega

theorem cached_eq_none : c.cached key = none ↔ c.find key = none := Option.map_eq_none_iff

theorem find_set_of_ne (h : Ordered c.m_cache_map) (hk : k ≠ key) :
    (c.set key data expire_time time).find k = c.room.find k := by
  rw [find_set h, if_neg hk]

theorem cached_set_self (h : Ordered c.m_cache_map) :
    (c.set key data expire_time time).cached key = some ((c.room.cached key).getD data) := by
  rw [cached, find_set h, if_pos rfl, cached]
  cases c.room.find key <;> rfl

theorem answers_iff (h : Ordered c.m_cache_map) :
    (∀ time', ((c.set key data expire_time time).get key time').1 = some data) ↔
      (c.room.cached key).getD data = data := by
  simp only [get_fst, cached_set_self h, Option.some.injEq, forall_const]

theorem setsLatest_room (h : Ordered c.m_cache_map) (hf : ¬ c.Full) :
    SetsLatest c key data (c.set key data expire_time time) ↔
      (c.cached key).getD data = data := by
  have hroom := room_of_not_full hf
  constructor
  · intro hs
    rw [← hroom]
    exact (answers_iff h).1 hs.answers
  · intro hold
    refine ⟨(answers_iff h).2 (hroom.symm ▸ hold), ?_, fun hfull => absurd hfull.2 hf⟩
    intro _ k hk
    rw [find_set_of_ne h hk, hroom]

/-- A full cache loses the victim, which has to be the least for a new key. -/
theorem setsLatest_new (h : Ordered c.m_cache_map) (hpos : 1 ≤ c.m_max_size) (hr : c.InRange)
    (hf : c.Full) (hnew : c.cached key = none) :
    SetsLatest c key data (c.set key data expire_time time) ↔ c.SameSign := by
  obtain ⟨e, he, hroom⟩ := find_room_of_full h hpos hf
  have hmem : c.find e.1 = some e.2 := h.lookup_eq_some.2 he.mem
  have hkey : c.find key = none := cached_eq_none.1 hnew
  have hne : e.1 ≠ key := by
    rintro hek
    rw [hek, hkey] at hmem
    cases hmem
  constructor
  · intro hs
    obtain ⟨e', he', hleast, hfind⟩ := hs.evicted ⟨hnew, hf⟩
    have hgone := hfind e.1 hne
    rw [find_set_of_ne h hne, hroom, if_pos rfl, hmem] at hgone
    have hek : e.1 = e'.1 := by
      by_contra hek
      rw [if_neg hek] at hgone
      cases hgone
    rw [← victim_least_iff hr he, h.unique he.mem he' hek]
    exact hleast
  · intro hsign
    constructor
    case answers =>
      have hgone : c.room.cached key = none := by
        rw [cached_eq_none, hroom, hkey, ite_self]
      rw [answers_iff h, hgone, Option.getD_none]
    case kept => exact fun hold => absurd ⟨hnew, hf⟩ hold
    case evicted =>
      intro _
      refine ⟨e, he.mem, (victim_least_iff hr he).2 hsign, fun k hk => ?_⟩
      rw [find_set_of_ne h hk, hroom]

/-- A full cache loses the victim even if the key is there, and then it has to be the key's
entry. -/
theorem setsLatest_present (h : Ordered c.m_cache_map) (hpos : 1 ≤ c.m_max_size) (hf : c.Full)
    {old : T} (hold : c.cached key = some old) :
    SetsLatest c key data (c.set key data expire_time time) ↔ ∃ it, c.Victim (key, it) := by
  obtain ⟨e, he, hroom⟩ := find_room_of_full h hpos hf
  have hmem : c.find e.1 = some e.2 := h.lookup_eq_some.2 he.mem
  have hpresent : ¬ (c.cached key = none ∧ c.Full) := by
    rintro ⟨hnone, -⟩
    rw [hold] at hnone
    cases hnone
  constructor
  · intro hs
    have hek : e.1 = key := by
      by_contra hne
      have hkept := hs.kept hpresent e.1 hne
      rw [find_set_of_ne h hne, hroom, if_pos rfl, hmem] at hkept
      cases hkept
    exact ⟨e.2, hek ▸ he⟩
  · rintro ⟨it, hit⟩
    have hek : e.1 = key := he.key_eq hit
    constructor
    case answers =>
      have hgone : c.room.cached key = none := by
        rw [cached_eq_none, hroom, if_pos hek.symm]
      rw [answers_iff h, hgone, Option.getD_none]
    case kept =>
      intro _ k hk
      rw [find_set_of_ne h hk, hroom, if_neg (hek.symm ▸ hk)]
    case evicted => exact fun hnew => absurd hnew hpresent

theorem SetMeets.room (h : Ordered c.m_cache_map) (hpos : 1 ≤ c.m_max_size)
    (hm : c.SetMeets key data) : (c.room.cached key).getD data = data := by
  rw [SetMeets] at hm
  cases hr : c.room.cached key with
  | none => rfl
  | some x =>
    rw [cached_of_room h hpos hr] at hm
    simp only at hm
    split at hm
    case isTrue hf =>
      obtain ⟨it, hit⟩ := hm
      obtain ⟨e, he, hroom⟩ := find_room_of_full h hpos hf
      rw [cached, hroom, if_pos (hit.key_eq he)] at hr
      cases hr
    case isFalse => exact hm

theorem setsLatest_iff (h : Ordered c.m_cache_map) (hpos : 1 ≤ c.m_max_size)
    (hr : c.Full → c.InRange) :
    SetsLatest c key data (c.set key data expire_time time) ↔ c.SetMeets key data := by
  simp only [SetMeets]
  cases hc : c.cached key with
  | none =>
    by_cases hf : c.Full
    · rw [setsLatest_new h hpos (hr hf) hf hc]
      exact ⟨fun hs _ => hs, fun hs => hs hf⟩
    · rw [setsLatest_room h hf, hc]
      exact iff_of_true rfl fun hfull => absurd hfull hf
  | some old =>
    by_cases hf : c.Full
    · rw [setsLatest_present h hpos hf hc]
      simp only [if_pos hf]
    · rw [setsLatest_room h hf, hc]
      simp only [if_neg hf, Option.getD_some]

end LruCache

/-- The calls of a cache, with the times that each of them reads. -/
inductive CacheCall (K T : Type) where
  | get (key : K) (time : Int)
  | set (key : K) (data : T) (expire_time time : Int)
  | remove (key : K)
  | lru_expire (time : K → Int)

namespace CacheCall

open LruCache

variable {K T : Type} [LinearOrder K] {c c' : LruCache K T} {k key : K} {w : List (CacheCall K T)}

def run (c : LruCache K T) : CacheCall K T → LruCache K T
  | .get key time => (c.get key time).2
  | .set key data expire_time time => c.set key data expire_time time
  | .remove key => c.remove key
  | .lru_expire time => (c.lru_expire time).2

variable (K T) in
def system (max_cache_size : Nat) : System (LruCache K T) (CacheCall K T) where
  init c := c = ⟨max_cache_size, [], 0⟩
  step c call c' := c' = call.run c

def setFor (k : K) : CacheCall K T → Option T
  | .set key data _ _ => if key = k then some data else none
  | _ => none

def lastSet (k : K) (w : List (CacheCall K T)) : Option T := (w.filterMap (setFor k)).getLast?

/-- A `set` does what it has to do; every other call does. -/
def Meets (c : LruCache K T) : CacheCall K T → Prop
  | .set key data _ _ => c.SetMeets key data
  | _ => True

/-- Of each key that is cached, the value is that of the most recent `set`. -/
structure Latest (n : Nat) (w : List (CacheCall K T)) (c : LruCache K T) : Prop where
  ordered : Ordered c.m_cache_map
  size : c.m_max_size = n
  latest : ∀ k data, c.cached k = some data → lastSet k w = some data

theorem lastSet_snoc (k : K) (w : List (CacheCall K T)) (call : CacheCall K T) :
    lastSet k (w ++ [call]) = (setFor k call).or (lastSet k w) := by
  rw [lastSet, List.filterMap_append, lastSet]
  cases h : setFor k call with
  | none => simp [h]
  | some data => simp [h]

theorem cached_of_filter (h : Ordered c.m_cache_map) {p : K × CacheData T → Bool} {data : T}
    (hm : c'.m_cache_map = c.m_cache_map.filter p) (hk : c'.cached k = some data) :
    c.cached k = some data := by
  obtain ⟨it, hit, rfl⟩ := Option.map_eq_some_iff.1 hk
  rw [find, hm, h.lookup_filter, Option.filter_eq_some_iff] at hit
  exact Option.map_eq_some_iff.2 ⟨it, hit.1, rfl⟩

omit [LinearOrder K] in
theorem lru_expire_map (time : K → Int) : (c.lru_expire time).2.m_cache_map =
    c.m_cache_map.filter (¬ Expires time ·) := by
  simp only [LruCache.lru_expire, expireLoop_eq]

theorem ordered_get (h : Ordered c.m_cache_map) (key : K) (time : Int) :
    Ordered (c.get key time).2.m_cache_map := by
  simp only [LruCache.get]
  split
  · exact h
  · refine List.pairwise_map.2 (h.imp fun hlt => ?_)
    rw [fst_touch, fst_touch]
    exact hlt

theorem m_max_size_run (call : CacheCall K T) : (call.run c).m_max_size = c.m_max_size := by
  cases call with
  | get key time =>
    simp only [run, LruCache.get]
    split <;> rfl
  | set key data expire_time time =>
    simp only [run, set_eq, room]
    split
    · exact m_max_size_lru_remove
    · rfl
  | remove key => rfl
  | lru_expire time => rfl

theorem ordered_run (h : Ordered c.m_cache_map) (call : CacheCall K T) :
    Ordered (call.run c).m_cache_map := by
  cases call with
  | get key time => exact ordered_get h key time
  | set key data expire_time time => exact ordered_insert (ordered_room h)
  | remove key => exact h.filter _
  | lru_expire time =>
    rw [run, lru_expire_map]
    exact h.filter _

theorem Latest.step (h : Latest n w c) (hn : 1 ≤ n) {call : CacheCall K T} (hm : call.Meets c) :
    Latest n (w ++ [call]) (call.run c) where
  ordered := ordered_run h.ordered call
  size := (m_max_size_run call).trans h.size
  latest k data hk := by
    rw [lastSet_snoc]
    cases call with
    | get key time =>
      rw [run, get_cached] at hk
      exact h.latest k data hk
    | set key data' expire_time time =>
      have hpos : 1 ≤ c.m_max_size := h.size ▸ hn
      by_cases hkk : k = key
      · subst hkk
        rw [run, cached_set_self h.ordered, SetMeets.room h.ordered hpos hm] at hk
        rw [setFor, if_pos rfl, ← hk, Option.some_or]
      · rw [run, cached, find_set_of_ne h.ordered hkk] at hk
        rw [setFor, if_neg (Ne.symm hkk), Option.none_or]
        exact h.latest k data (cached_of_room h.ordered hpos hk)
    | remove key => exact h.latest k data (cached_of_filter h.ordered rfl hk)
    | lru_expire time => exact h.latest k data (cached_of_filter h.ordered (lru_expire_map time) hk)

/-- As long as every `set` meets the condition, every `get` that succeeds gives the value of the
most recent `set` of its key; and a `set` does what it has to do only if it meets it. -/
theorem latest_iff {n : Nat} (hn : 1 ≤ n)
    (h : ((system K T n).restrict fun c call _ => call.Meets c).Run w c) :
    (∀ k time data, (c.get k time).1 = some data → lastSet k w = some data) ∧
    ∀ key data expire_time time, (c.Full → c.InRange) →
      (SetsLatest c key data (c.set key data expire_time time) ↔ c.SetMeets key data) := by
  have hlatest : Latest n w c := by
    apply h.history (I := fun w c => Latest n w c)
    · rintro c rfl
      exact ⟨.nil, rfl, fun k data hk => by cases hk⟩
    · rintro w c call c' - hw ⟨rfl, hm⟩
      exact hw.step hn hm
  constructor
  · intro k time data hk
    rw [get_fst] at hk
    exact hlatest.latest k data hk
  · intro key data expire_time time hr
    exact setsLatest_iff hlatest.ordered (hlatest.size ▸ hn) hr

section Examples

def given (m_max_size : Nat) (l : List (Nat × Bool)) : LruCache Nat Bool :=
  l.foldl (fun c e => (CacheCall.set e.1 e.2 (-1) 10).run c) ⟨m_max_size, [], 0⟩

theorem latest_iff_evicts : ((given 1 [(1, true)]).cached 1 = some true →
      lastSet 1 [CacheCall.set 1 true (-1) 10] = some true) ∧
    SetsLatest (given 1 [(1, true)]) 2 false ((given 1 [(1, true)]).set 2 false (-1) 12) := by
  have hempty : CacheCall.Meets ⟨1, [], 0⟩ (.set 1 true (-1) 10) :=
    fun hf => absurd (show LruCache.Full _ from hf) (by decide)
  have hrun := System.Run.snoc (M := (system Nat Bool 1).restrict fun c call _ => call.Meets c)
    (.nil rfl) ⟨rfl, hempty⟩
  obtain ⟨hget, hset⟩ := latest_iff (by decide) hrun
  have hentry {e : Nat × CacheData Bool} (he : e ∈ (given 1 [(1, true)]).m_cache_map) :
      e = (1, ⟨10, 10, -1, 0, true⟩) := List.mem_singleton.1 he
  refine ⟨fun h => hget 1 12 true (by rw [get_fst]; exact h), (hset 2 false (-1) 12 ?_).2 ?_⟩
  · intro _ e he
    rw [hentry he]
    decide
  · intro _
    refine .inl fun e he => ?_
    rw [hentry he]
    decide

/-- A second value of a key that is cached is not stored; and where the cache is full, to set the
key takes out another one. -/
theorem set_keeps_old :
    ¬ (∀ (w : List (CacheCall Nat Bool)) (c : LruCache Nat Bool), (system Nat Bool 2).Run w c →
      ∀ k time data, (c.get k time).1 = some data → lastSet k w = some data) ∧
    (given 2 [(1, true), (1, false)]).cached 1 = some true ∧
    (given 2 [(1, true), (2, true)]).cached 1 = some true ∧
    (given 2 [(1, true), (2, true), (2, false)]).cached 1 = none := by
  refine ⟨fun h => ?_, by decide, by decide, by decide⟩
  have hrun : (system Nat Bool 2).Run ([] ++ [.set 1 true (-1) 10] ++ [.set 1 false (-1) 10])
      (given 2 [(1, true), (1, false)]) := ((System.Run.nil rfl).snoc rfl).snoc rfl
  have hlast := h _ _ hrun 1 12 true (by decide)
  revert hlast
  decide

end Examples

end CacheCall

end Galois
