import Galois.CacheValues
import Mathlib.Data.Finset.Card

namespace Galois
set_option autoImplicit true
set_option relaxedAutoImplicit false

namespace LruCache

variable {K T : Type} [LinearOrder K] {c : LruCache K T} {k key : K}
  {m : List (K × CacheData T)} {new_data : CacheData T}

def inserted (c : LruCache K T) (call : K × CacheData T) : LruCache K T :=
  { c with m_cache_map := insert call.1 call.2 c.m_cache_map }

theorem set_sections (c : LruCache K T) (key : K) (data : T) (expire_time time : Int) :
    c.set key data expire_time time =
      (if c.Full then c.lru_remove else c).inserted (key, ⟨time, time, expire_time, 0, data⟩) := rfl

def keys (c : LruCache K T) : Finset K := (c.m_cache_map.map Prod.fst).toFinset

theorem card_keys (h : Ordered c.m_cache_map) : c.keys.card = c.m_cache_map.length := by
  have hnodup : (c.m_cache_map.map Prod.fst).Nodup :=
    List.pairwise_map.2 (h.imp fun hlt => hlt.ne)
  rw [keys, List.toFinset_card_of_nodup hnodup, List.length_map]

theorem mem_map_fst_insert :
    k ∈ (insert key new_data m).map Prod.fst ↔ k = key ∨ k ∈ m.map Prod.fst := by
  induction m with
  | nil => simp [insert]
  | cons e m ih =>
    simp only [insert]
    split
    · simp
    · split
      · next he => simp [he]
      · rw [List.map_cons, List.mem_cons, ih, List.map_cons, List.mem_cons]
        exact or_left_comm

theorem keys_inserted (c : LruCache K T) (call : K × CacheData T) :
    (c.inserted call).keys = Insert.insert call.1 c.keys := by
  ext k
  rw [keys, inserted, List.mem_toFinset, mem_map_fst_insert, Finset.mem_insert, keys,
    List.mem_toFinset]

theorem keys_of_filter {c' : LruCache K T} {p : K × CacheData T → Bool}
    (hm : c'.m_cache_map = c.m_cache_map.filter p) : c'.keys ⊆ c.keys := by
  intro k hk
  simp only [keys, hm, List.mem_toFinset, List.mem_map] at hk ⊢
  obtain ⟨e, he, rfl⟩ := hk
  exact ⟨e, (List.mem_filter.1 he).1, rfl⟩

theorem keys_get (key : K) (time : Int) : (c.get key time).2.keys = c.keys := by
  simp only [LruCache.get]
  split
  · rfl
  · simp only [keys, List.map_map, Function.comp_def, fst_touch]

theorem keys_lru_remove (h : Ordered c.m_cache_map) {e : K × CacheData T} (he : c.Victim e) :
    c.lru_remove.keys = c.keys.erase e.1 := by
  obtain ⟨e', he', hr⟩ := lru_remove_spec h (List.ne_nil_of_mem he.mem)
  ext k
  rw [hr, keys, h.eraseP_eq_filter, he'.key_eq he]
  simp only [List.mem_toFinset, List.mem_map, List.mem_filter, decide_eq_true_eq, keys,
    Finset.mem_erase]
  constructor
  · rintro ⟨a, ⟨ha, hne⟩, rfl⟩
    exact ⟨hne, a, ha, rfl⟩
  · rintro ⟨hne, a, ha, rfl⟩
    exact ⟨a, ⟨ha, hne⟩, rfl⟩

theorem lru_remove_nil (h : c.m_cache_map = []) : c.lru_remove = c := by
  simp only [lru_remove, h]

end LruCache

/-- A cache between the critical sections of its callers, with the `set` calls that have found it
full and those that have come back from `lru_remove`. -/
structure SharedCache (K T : Type) where
  cache : LruCache K T
  full : List (K × CacheData T)
  evicted : List (K × CacheData T)

/-- The critical sections, those of a `set` with its key and its new entry. -/
inductive CacheSection (K T : Type) where
  | check (call : K × CacheData T)
  | evict (call : K × CacheData T)
  | insert (call : K × CacheData T)
  | get (key : K) (time : Int)
  | remove (key : K)
  | lru_expire (time : K → Int)

namespace SharedCache

open LruCache (keys_inserted keys_get keys_of_filter keys_lru_remove lru_remove_nil lru_remove_spec
  card_keys ordered_insert ordered_lru_remove m_max_size_lru_remove)

variable {K T : Type} [LinearOrder K] {s s' s'' : SharedCache K T} {a : CacheSection K T} {n : Nat}

/-- Any number of calls may be under way, and any of them goes on. -/
inductive Step : SharedCache K T → CacheSection K T → SharedCache K T → Prop
  | room {s : SharedCache K T} {call : K × CacheData T} (h : ¬ s.cache.Full) :
    Step s (.check call) { s with cache := s.cache.inserted call }
  | full {s : SharedCache K T} {call : K × CacheData T} (h : s.cache.Full) :
    Step s (.check call) { s with full := call :: s.full }
  | evict {s : SharedCache K T} {call : K × CacheData T} {l r : List (K × CacheData T)}
    (h : s.full = l ++ call :: r) :
    Step s (.evict call) ⟨s.cache.lru_remove, l ++ r, call :: s.evicted⟩
  | insert {s : SharedCache K T} {call : K × CacheData T} {l r : List (K × CacheData T)}
    (h : s.evicted = l ++ call :: r) :
    Step s (.insert call) ⟨s.cache.inserted call, s.full, l ++ r⟩
  | get {s : SharedCache K T} (key : K) (time : Int) :
    Step s (.get key time) { s with cache := (s.cache.get key time).2 }
  | remove {s : SharedCache K T} (key : K) :
    Step s (.remove key) { s with cache := s.cache.remove key }
  | lru_expire {s : SharedCache K T} (time : K → Int) :
    Step s (.lru_expire time) { s with cache := (s.cache.lru_expire time).2 }

variable (K T) in
def system (n : Nat) : System (SharedCache K T) (CacheSection K T) where
  init s := s = ⟨⟨n, [], 0⟩, [], []⟩
  step := Step

def waiting (s : SharedCache K T) : Finset K := (s.evicted.map Prod.fst).toFinset

def claimed (s : SharedCache K T) : Finset K := s.cache.keys ∪ s.waiting

/-- A key that a `set` adds at once, or announces when it takes out an entry, still has a place. -/
def Meets (s : SharedCache K T) : CacheSection K T → Prop
  | .check call => ¬ s.cache.Full → (insert call.1 s.claimed).card ≤ s.cache.m_max_size
  | .evict call =>
    (s.cache.m_cache_map = [] → (insert call.1 s.waiting).card ≤ s.cache.m_max_size) ∧
    ∀ e, s.cache.Victim e →
      (insert call.1 (s.cache.keys.erase e.1 ∪ s.waiting)).card ≤ s.cache.m_max_size
  | _ => True

theorem claimed_check (call : K × CacheData T) :
    claimed { s with cache := s.cache.inserted call } = insert call.1 s.claimed := by
  rw [claimed, keys_inserted, Finset.insert_union]
  rfl

theorem waiting_cons (c : LruCache K T) (f l : List (K × CacheData T)) (call : K × CacheData T) :
    waiting ⟨c, f, call :: l⟩ = insert call.1 (waiting ⟨c, f, l⟩) := by
  simp only [waiting, List.map_cons, List.toFinset_cons]

theorem claimed_insert {call : K × CacheData T} {l r : List (K × CacheData T)}
    (h : s.evicted = l ++ call :: r) :
    claimed ⟨s.cache.inserted call, s.full, l ++ r⟩ = s.claimed := by
  ext k
  simp only [claimed, keys_inserted, waiting, h, Finset.mem_union, Finset.mem_insert,
    List.mem_toFinset, List.map_append, List.map_cons, List.mem_append, List.mem_cons]
  tauto

theorem evict_iff (h : Ordered s.cache.m_cache_map) {call : K × CacheData T}
    {l r : List (K × CacheData T)} :
    (claimed ⟨s.cache.lru_remove, l ++ r, call :: s.evicted⟩).card ≤ s.cache.m_max_size ↔
      s.Meets (.evict call) := by
  have hclaimed : claimed ⟨s.cache.lru_remove, l ++ r, call :: s.evicted⟩ =
      insert call.1 (s.cache.lru_remove.keys ∪ s.waiting) := by
    rw [claimed, waiting_cons, Finset.union_insert]
    rfl
  rw [hclaimed, Meets]
  by_cases hm : s.cache.m_cache_map = []
  · have hkeys : s.cache.lru_remove.keys = ∅ := by
      rw [lru_remove_nil hm, LruCache.keys, hm]
      rfl
    rw [hkeys, Finset.empty_union]
    refine ⟨fun hle => ⟨fun _ => hle, fun e he => ?_⟩, fun hmeets => hmeets.1 hm⟩
    have hmem := he.mem
    rw [hm] at hmem
    cases hmem
  · obtain ⟨e, he, -⟩ := lru_remove_spec h hm
    rw [keys_lru_remove h he]
    constructor
    · intro hle
      refine ⟨fun hnil => absurd hnil hm, fun e' he' => ?_⟩
      rw [he'.key_eq he]
      exact hle
    · intro hmeets
      exact hmeets.2 e he

/-- The map is as `lru_cache` keeps it, and whatever is in it or will be has a place. -/
structure Within (n : Nat) (s : SharedCache K T) : Prop where
  ordered : Ordered s.cache.m_cache_map
  size : s.cache.m_max_size = n
  claimed : s.claimed.card ≤ n

theorem Within.length_le (h : Within n s) : s.cache.m_cache_map.length ≤ n := by
  rw [← card_keys h.ordered]
  exact (Finset.card_le_card Finset.subset_union_left).trans h.claimed

theorem ordered_step (h : Ordered s.cache.m_cache_map) (hs : Step s a s') :
    Ordered s'.cache.m_cache_map := by
  cases hs with
  | room => exact ordered_insert h
  | full => exact h
  | evict => exact ordered_lru_remove h
  | insert => exact ordered_insert h
  | get key time => exact CacheCall.ordered_run h (.get key time)
  | remove key => exact CacheCall.ordered_run h (.remove key)
  | lru_expire time => exact CacheCall.ordered_run h (.lru_expire time)

theorem m_max_size_step (hs : Step s a s') : s'.cache.m_max_size = s.cache.m_max_size := by
  cases hs with
  | evict => exact m_max_size_lru_remove
  | get key time => exact CacheCall.m_max_size_run (.get key time)
  | _ => rfl

theorem claimed_iff (h : Within n s) (hs : Step s a s') :
    s'.claimed.card ≤ n ↔ s.Meets a := by
  cases hs with
  | room hf =>
    rw [claimed_check, Meets, h.size]
    exact ⟨fun hle _ => hle, fun hmeets => hmeets hf⟩
  | full hf => exact iff_of_true h.claimed fun hnot => absurd hf hnot
  | evict => rw [← evict_iff h.ordered, h.size]
  | insert hc => exact iff_of_true (by rw [claimed_insert hc]; exact h.claimed) trivial
  | get key time =>
    refine iff_of_true ?_ trivial
    rw [claimed, keys_get]
    exact h.claimed
  | remove key =>
    refine iff_of_true (le_trans (Finset.card_le_card ?_) h.claimed) trivial
    exact Finset.union_subset_union_left (keys_of_filter rfl)
  | lru_expire time =>
    refine iff_of_true (le_trans (Finset.card_le_card ?_) h.claimed) trivial
    exact Finset.union_subset_union_left (keys_of_filter (CacheCall.lru_expire_map time))

theorem Within.step (h : Within n s) (hs : Step s a s') (hm : s.Meets a) : Within n s' where
  ordered := ordered_step h.ordered hs
  size := (m_max_size_step hs).trans h.size
  claimed := (claimed_iff h hs).2 hm

def Inserts (w : List (CacheSection K T)) : Prop := ∀ a ∈ w, ∃ call, a = .insert call

theorem inserts_all {l : List (K × CacheData T)} (hl : s.evicted = l) :
    ∃ w s', (system K T n).Steps s w s' ∧ Inserts w ∧ s'.cache.keys = s.claimed := by
  induction l generalizing s with
  | nil =>
    refine ⟨[], s, .nil, fun _ ha => absurd ha List.not_mem_nil, ?_⟩
    simp only [claimed, waiting, hl, List.map_nil, List.toFinset_nil, Finset.union_empty]
  | cons call r ih =>
    obtain ⟨w, s', hw, hinserts, hkeys⟩ := @ih ⟨s.cache.inserted call, s.full, r⟩ rfl
    have hstep : Step s (.insert call) ⟨s.cache.inserted call, s.full, [] ++ r⟩ := .insert hl
    refine ⟨[.insert call] ++ w, s', (System.Steps.single hstep).trans hw, ?_, ?_⟩
    · intro a ha
      rcases List.mem_append.1 ha with ha | ha
      · exact ⟨call, List.mem_singleton.1 ha⟩
      · exact hinserts a ha
    · rw [hkeys]
      exact claimed_insert (l := []) hl

theorem within_of_inserts {w : List (CacheSection K T)} (h : Within n s)
    (hw : (system K T n).Steps s w s') (hi : Inserts w) : Within n s' := by
  induction hw with
  | nil => exact h
  | @snoc w s₁ a s₂ hsteps hs ih =>
    obtain ⟨call, rfl⟩ := hi a (List.mem_append_right _ List.mem_cons_self)
    exact (ih fun b hb => hi b (List.mem_append_left _ hb)).step hs trivial

theorem ordered_steps {w : List (CacheSection K T)} (h : Ordered s.cache.m_cache_map)
    (hw : (system K T n).Steps s w s') : Ordered s'.cache.m_cache_map := by
  induction hw with
  | nil => exact h
  | snoc _ hs ih => exact ordered_step ih hs

/-- The map never holds more than it may as long as every key that is added or announced still has a
place; and once one has none, the calls under way insert one entry too many. -/
theorem bound_iff {w : List (CacheSection K T)}
    (h : ((system K T n).restrict fun s a _ => s.Meets a).Run w s) :
    s.cache.m_cache_map.length ≤ n ∧
    ∀ a s', Step s a s' → ((∀ v s'', (system K T n).Steps s' v s'' → Inserts v →
      s''.cache.m_cache_map.length ≤ n) ↔ s.Meets a) := by
  have hwithin : Within n s := by
    apply h.invariant (I := fun s => Within n s)
    · rintro s rfl
      exact ⟨.nil, rfl, Nat.zero_le n⟩
    · rintro s a s' hs ⟨hstep, hm⟩
      exact hs.step hstep hm
  refine ⟨hwithin.length_le, fun a s' hs => ?_⟩
  rw [← claimed_iff hwithin hs]
  constructor
  · intro hbound
    obtain ⟨v, s'', hv, hi, hkeys⟩ := inserts_all (n := n) (rfl : s'.evicted = _)
    rw [← hkeys, card_keys (ordered_steps (ordered_step hwithin.ordered hs) hv)]
    exact hbound v s'' hv hi
  · intro hcard v s'' hv hi
    have hs' : Within n s' :=
      ⟨ordered_step hwithin.ordered hs, (m_max_size_step hs).trans hwithin.size, hcard⟩
    exact (within_of_inserts hs' hv hi).length_le

section Examples

def callOf (key : Nat) : Nat × CacheData Bool := (key, ⟨10, 10, -1, 0, true⟩)

def oneSet : SharedCache Nat Bool := ⟨(⟨1, [], 0⟩ : LruCache Nat Bool).inserted (callOf 1), [], []⟩

theorem oneSet_step :
    Step (⟨⟨1, [], 0⟩, [], []⟩ : SharedCache Nat Bool) (.check (callOf 1)) oneSet :=
  .room (by decide)

theorem bound_iff_one : oneSet.cache.m_cache_map.length ≤ 1 ∧ ∀ v s'',
    (system Nat Bool 1).Steps ⟨oneSet.cache, [callOf 2], []⟩ v s'' → Inserts v →
      s''.cache.m_cache_map.length ≤ 1 := by
  have hmeets : Meets (⟨⟨1, [], 0⟩, [], []⟩ : SharedCache Nat Bool) (.check (callOf 1)) := by
    intro _
    decide
  have hrun := System.Run.snoc (M := (system Nat Bool 1).restrict fun s a _ => s.Meets a)
    (.nil rfl) ⟨oneSet_step, hmeets⟩
  obtain ⟨hle, hiff⟩ := bound_iff hrun
  have hfull : oneSet.cache.Full := by decide
  exact ⟨hle, (hiff (.check (callOf 2)) _ (.full hfull)).2 fun hnot => absurd hfull hnot⟩

/-- Key 2 finds the cache full and takes out key 1, key 3 finds room, and key 2 is inserted. -/
theorem two_entries : ¬ ∀ (w : List (CacheSection Nat Bool)) (s : SharedCache Nat Bool),
    (system Nat Bool 1).Run w s → s.cache.m_cache_map.length ≤ 1 := by
  intro h
  have hfull : Step oneSet (.check (callOf 2)) ⟨oneSet.cache, [callOf 2], []⟩ := .full (by decide)
  have hevict : Step ⟨oneSet.cache, [callOf 2], []⟩ (.evict (callOf 2))
      ⟨oneSet.cache.lru_remove, [], [callOf 2]⟩ := .evict (l := []) (r := []) rfl
  have hroom : Step ⟨oneSet.cache.lru_remove, [], [callOf 2]⟩ (.check (callOf 3))
      ⟨oneSet.cache.lru_remove.inserted (callOf 3), [], [callOf 2]⟩ := .room (by decide)
  have hinsert : Step ⟨oneSet.cache.lru_remove.inserted (callOf 3), [], [callOf 2]⟩
      (.insert (callOf 2))
      ⟨(oneSet.cache.lru_remove.inserted (callOf 3)).inserted (callOf 2), [], []⟩ :=
    .insert (l := []) (r := []) rfl
  have hrun := ((((System.Run.nil (M := system Nat Bool 1) rfl).snoc oneSet_step).snoc hfull).snoc
    hevict).snoc hroom
  have hlength := h _ _ (hrun.snoc hinsert)
  revert hlength
  decide

end Examples

end SharedCache

end Galois
