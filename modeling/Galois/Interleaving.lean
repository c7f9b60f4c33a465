import Galois.PageStore

namespace Galois
set_option autoImplicit true
set_option relaxedAutoImplicit false

open Prog ECAL PageStore

/-- A `writeBlock` in progress: its page and the node it stores to next. -/
structure Writer where
  page : Page
  next : Nat

def Writer.advance (w : Writer) : Option Writer :=
  if w.next + 1 = N then none else some { w with next := w.next + 1 }

/-- A cluster whose nodes write concurrently; `passed` records, for every index, the initial
page and those given to `writeBlock` since. -/
structure Stripes where
  cluster : Cluster
  writers : Nat → Option Writer
  passed : Nat → List Block4K

namespace Stripes

inductive Action where
  | start (me : Nat) (page : Page)
  | store (me : Nat)
  | crash (me : Nat) (lost : Mem)

def setWriter (s : Stripes) (me : Nat) (w : Option Writer) : Stripes :=
  { s with writers := fun q => if q = me then w else s.writers q }

def started (s : Stripes) (me : Nat) (page : Page) : Stripes :=
  { s.setWriter me (some ⟨page, 0⟩) with
    passed := fun i => if i = page.index then page.page :: s.passed i else s.passed i }

variable (isal : IsaL) (poolSize : Nat)

/-- One store of one block is one step; a writer may crash between two of them. -/
inductive Step : Stripes → Action → Stripes → Prop
  | start {s : Stripes} {me : Nat} {page : Page} (hme : me < N) (hup : s.cluster.up me = true)
      (hidle : s.writers me = none)
      (hindex : page.index < (node isal poolSize me).getClusterCapacity) :
      Step s (.start me page) (s.started me page)
  | store {s : Stripes} {me : Nat} {w : Writer} {c : Cluster} (hw : s.writers me = some w)
      (hr : ((node isal poolSize me).writeStep w.page w.next).run (node isal poolSize me).handle
        s.cluster = some ((), c)) :
      Step s (.store me) { s.setWriter me w.advance with cluster := c }
  | crash {s : Stripes} {me : Nat} {w : Writer} (lost : Mem) (hw : s.writers me = some w)
      (hup : ∀ p < N, s.cluster.up p = true) :
      Step s (.crash me lost) { s.setWriter me none with cluster := s.cluster.fail me lost }

/-- All nodes run and are connected, and every stripe is the encoding of its initial page. -/
structure Initial (s : Stripes) : Prop where
  up : ∀ p < N, s.cluster.up p = true
  connected : ∀ q p, (s.cluster.peers q p).connected = true
  forced : ∀ q p, (s.cluster.peers q p).forcedConnStat = 0
  slots : ∀ q, s.cluster.HasSlots q
  idle : ∀ q, s.writers q = none
  stripes : ∀ i < (node isal poolSize 0).getClusterCapacity, ∃ page, s.passed i = [page] ∧
    ∀ p < N, (node isal poolSize 0).stored s.cluster i p = (node isal poolSize 0).blockOf page p

def system : System Stripes Action := ⟨Initial isal poolSize, Step isal poolSize⟩

def Writing (s : Stripes) (i : Nat) : Prop :=
  ∃ q w, s.writers q = some w ∧ w.page.index = i

/-- Writes on index `i` do not overlap, and a node that crashes while it writes index `i` has
stored to none of the other nodes or to all of them. -/
def Orderly (i : Nat) (s : Stripes) : Action → Prop
  | .start _ page => page.index = i → ¬s.Writing i
  | .store _ => True
  | .crash me _ => ∀ w, s.writers me = some w → w.page.index = i →
      (∀ p < N, p ≠ me → w.next ≤ p) ∨ ∀ p < N, p ≠ me → p < w.next

def orderly (i : Nat) : System Stripes Action where
  init := Initial isal poolSize
  step s a s' := Step isal poolSize s a s' ∧ Orderly i s a

/-- `c'` is `c` as a reader `r` may see it that decodes from any `K` live nodes. -/
structure View (c : Cluster) (r : Nat) (c' : Cluster) : Prop where
  area : c'.area = c.area
  up : c'.up = c.up
  slots : c'.HasSlots r
  sound : c'.Sound r
  alive : K ≤ ((List.range N).filter (c'.isPeerAlive r)).length

/-- Every read of index `i` returns one and the same page, which was passed whole. -/
def Agreed (s : Stripes) (i : Nat) : Prop :=
  ∃ page ∈ s.passed i, ∀ r < N, s.cluster.up r = true → ∀ c, View s.cluster r c →
    Wp (node isal poolSize r).handle ((node isal poolSize r).readBlock i) c
      fun p _ => p = ⟨page, i⟩

variable {isal poolSize}

/-- What holds of the sockets and the writers in every run. -/
structure Sane (isal : IsaL) (poolSize : Nat) (s : Stripes) : Prop where
  slots : ∀ q, s.cluster.HasSlots q
  unforced : ∀ q p, (s.cluster.peers q p).forcedConnStat = 0
  connected : ∀ q, ∀ p < N, (s.cluster.peers q p).connected = s.cluster.up p
  running : ∀ q w, s.writers q = some w → q < N ∧ s.cluster.up q = true
  next : ∀ q w, s.writers q = some w → w.next < N
  index : ∀ q w, s.writers q = some w →
    w.page.index < (node isal poolSize 0).getClusterCapacity
  whole : ∀ q w, s.writers q = some w → w.page.page ∈ s.passed w.page.index

/-- What the stripe of index `i` holds on the nodes that run: a page passed whole, or a page
passed whole of which the first blocks are already those of the writer's page. -/
structure Consistent (isal : IsaL) (poolSize : Nat) (i : Nat) (s : Stripes) (old : Block4K) :
    Prop where
  passed : old ∈ s.passed i
  idle : ¬s.Writing i → ∀ p < N, s.cluster.up p = true →
    (node isal poolSize 0).stored s.cluster i p = (node isal poolSize 0).blockOf old p
  writing : ∀ q w, s.writers q = some w → w.page.index = i → ∀ p < N, s.cluster.up p = true →
    (node isal poolSize 0).stored s.cluster i p =
      (node isal poolSize 0).blockOf (if p < w.next then w.page.page else old) p
  single : ∀ q w q' w', s.writers q = some w → w.page.index = i → s.writers q' = some w' →
    w'.page.index = i → q = q'

theorem writers_setWriter {s : Stripes} {me q : Nat} {o : Option Writer} {w : Writer}
    (h : (s.setWriter me o).writers q = some w) :
    (q = me ∧ o = some w) ∨ (q ≠ me ∧ s.writers q = some w) := by
  simp only [setWriter] at h
  split at h
  · next hq => exact .inl ⟨hq, h⟩
  · next hq => exact .inr ⟨hq, h⟩

theorem advance_eq_some {w w' : Writer} (h : w.advance = some w') :
    w.next + 1 ≠ N ∧ w' = { w with next := w.next + 1 } := by
  rw [Writer.advance] at h
  split at h
  · cases h
  · next hne => exact ⟨hne, (Option.some.inj h).symm⟩

namespace Sane

variable {s s' : Stripes} (h : Sane isal poolSize s)
include h

theorem isPeerAlive {me p : Nat} (hup : s.cluster.up me = true) (hp : p < N) :
    s.cluster.isPeerAlive me p = s.cluster.up p := by
  rw [Cluster.isPeerAlive]
  split
  · next hme => rw [hme, hup]
  · rw [if_neg (not_not.2 (h.unforced me p)), h.connected me p hp]

theorem sound {me : Nat} (hup : s.cluster.up me = true) : s.cluster.Sound me :=
  fun _ hp _ ha => h.isPeerAlive hup hp ▸ ha

theorem store_spec (me : Nat) {w : Writer} (hw : s.writers me = some w) :
    Wp (node isal poolSize me).handle ((node isal poolSize me).writeStep w.page w.next) s.cluster
      fun _ c => Cluster.Frame s.cluster c ∧ ∀ i, ∀ p < N, s.cluster.up p = true →
        (node isal poolSize 0).stored c i p =
          if p = w.next ∧ i = w.page.index then (node isal poolSize 0).blockOf w.page.page p
          else (node isal poolSize 0).stored s.cluster i p := by
  obtain ⟨hme, hup⟩ := h.running me w hw
  have hindex : w.page.index < (node isal poolSize me).getClusterCapacity := h.index me w hw
  apply (writeStep_spec (h.next me w hw) (inPool_of_lt hindex) (h.slots me) (h.sound hup)).mono
  rintro - c ⟨hf, harea⟩
  refine ⟨hf, fun i p hp hupp => ?_⟩
  have hp' := harea p
  by_cases hpn : p = w.next
  · rw [if_pos ⟨hpn, by rw [← hpn, h.isPeerAlive hup hp, hupp]⟩] at hp'
    simp only [hpn, true_and]
    exact stored_storeBlock (hpn ▸ hp') i
  · rw [if_neg fun hc => hpn hc.1] at hp'
    rw [if_neg fun hc => hpn hc.1, stored, hp']
    rfl

theorem start {me : Nat} {page : Page} (hme : me < N) (hup : s.cluster.up me = true)
    (hindex : page.index < (node isal poolSize me).getClusterCapacity) :
    Sane isal poolSize (s.started me page) := by
  refine ⟨h.slots, h.unforced, h.connected, fun q v hv => ?_, fun q v hv => ?_, fun q v hv => ?_,
    fun q v hv => ?_⟩
  all_goals rcases writers_setWriter hv with ⟨rfl, hv'⟩ | ⟨-, hv'⟩
  · exact ⟨hme, hup⟩
  · exact h.running q v hv'
  · rw [← Option.some.inj hv']
    exact Nat.zero_lt_succ _
  · exact h.next q v hv'
  · rw [← Option.some.inj hv']
    exact hindex
  · exact h.index q v hv'
  · obtain rfl := Option.some.inj hv'
    simp only [started, ↓reduceIte, List.mem_cons_self]
  · have hmem := h.whole q v hv'
    simp only [started]
    split
    · exact List.mem_cons_of_mem _ hmem
    · exact hmem

theorem store {me : Nat} {w : Writer} {c : Cluster} (hw : s.writers me = some w)
    (hf : Cluster.Frame s.cluster c) :
    Sane isal poolSize { s.setWriter me w.advance with cluster := c } := by
  refine ⟨fun q => hf.hasSlots (h.slots q), fun q p => ?_, fun q p hp => ?_, fun q v hv => ?_,
    fun q v hv => ?_, fun q v hv => ?_, fun q v hv => ?_⟩
  · rw [hf.status]
    exact h.unforced q p
  · rw [hf.status, hf.up]
    exact h.connected q p hp
  all_goals rcases writers_setWriter hv with ⟨rfl, hv'⟩ | ⟨-, hv'⟩
  · rw [hf.up]
    exact h.running q w hw
  · rw [hf.up]
    exact h.running q v hv'
  · obtain ⟨hne, rfl⟩ := advance_eq_some hv'
    exact lt_of_le_of_ne (h.next q w hw) hne
  · exact h.next q v hv'
  · rw [(advance_eq_some hv').2]
    exact h.index q w hw
  · exact h.index q v hv'
  · rw [(advance_eq_some hv').2]
    exact h.whole q w hw
  · exact h.whole q v hv'

theorem crash {me : Nat} (lost : Mem) :
    Sane isal poolSize { s.setWriter me none with cluster := s.cluster.fail me lost } := by
  refine ⟨fun q p => ?_, fun q p => ?_, fun q p hp => ?_, fun q v hv => ?_,
    fun q v hv => ?_, fun q v hv => ?_, fun q v hv => ?_⟩
  · simp only [Cluster.fail]
    split <;> exact h.slots q p
  · simp only [Cluster.fail]
    split <;> exact h.unforced q p
  · simp only [Cluster.fail]
    split
    · rfl
    · exact h.connected q p hp
  all_goals
    obtain ⟨-, hv'⟩ | ⟨hne, hv'⟩ := writers_setWriter hv
    · cases hv'
  · refine ⟨(h.running q v hv').1, ?_⟩
    simp only [Cluster.fail, if_neg hne]
    exact (h.running q v hv').2
  · exact h.next q v hv'
  · exact h.index q v hv'
  · exact h.whole q v hv'

theorem step {a : Action} (hs : Step isal poolSize s a s') : Sane isal poolSize s' := by
  cases hs with
  | start hme hup _ hindex => exact h.start hme hup hindex
  | store hw hr => exact h.store hw ((h.store_spec _ hw).of_run hr).1
  | crash lost => exact h.crash lost

end Sane

theorem stored_fail {c : Cluster} {me p : Nat} {lost : Mem} (i : Nat) (hne : p ≠ me) :
    (node isal poolSize 0).stored (c.fail me lost) i p = (node isal poolSize 0).stored c i p := by
  simp only [stored, Cluster.fail, if_neg hne]

namespace Consistent

variable {s s' : Stripes} {i : Nat} {old : Block4K}

theorem start (hc : Consistent isal poolSize i s old) {me : Nat} {page : Page}
    (hidle : s.writers me = none) (ho : Orderly i s (.start me page)) :
    Consistent isal poolSize i (s.started me page) old := by
  constructor
  · simp only [started]
    split
    · exact List.mem_cons_of_mem _ hc.passed
    · exact hc.passed
  · intro hnot
    apply hc.idle
    rintro ⟨q, v, hv, hi⟩
    refine hnot ⟨q, v, ?_, hi⟩
    have hne : q ≠ me := by
      rintro rfl
      rw [hidle] at hv
      cases hv
    simpa only [started, setWriter, if_neg hne] using hv
  · intro q v hv hi
    rcases writers_setWriter hv with ⟨rfl, hv'⟩ | ⟨-, hv'⟩
    · obtain rfl := Option.some.inj hv'
      intro p hp hup
      rw [if_neg p.not_lt_zero]
      exact hc.idle (ho hi) p hp hup
    · exact hc.writing q v hv' hi
  · intro q v q' v' hv hi hv' hi'
    rcases writers_setWriter hv with ⟨rfl, hw⟩ | ⟨-, hw⟩ <;>
      rcases writers_setWriter hv' with ⟨rfl, hw'⟩ | ⟨-, hw'⟩
    · rfl
    · obtain rfl := Option.some.inj hw
      exact absurd ⟨q', v', hw', hi'⟩ (ho hi)
    · obtain rfl := Option.some.inj hw'
      exact absurd ⟨q, v, hw, hi⟩ (ho hi')
    · exact hc.single q v q' v' hw hi hw' hi'

theorem store_other (hc : Consistent isal poolSize i s old) {me : Nat}
    {w : Writer} {c : Cluster} (hw : s.writers me = some w) (hi : w.page.index ≠ i)
    (hup : c.up = s.cluster.up) (hst : ∀ p < N, s.cluster.up p = true →
      (node isal poolSize 0).stored c i p = (node isal poolSize 0).stored s.cluster i p) :
    Consistent isal poolSize i { s.setWriter me w.advance with cluster := c } old := by
  have hback : ∀ q v, (s.setWriter me w.advance).writers q = some v → v.page.index = i →
      s.writers q = some v := by
    intro q v hv hvi
    rcases writers_setWriter hv with ⟨rfl, hv'⟩ | ⟨-, hv'⟩
    · rw [(advance_eq_some hv').2] at hvi
      exact absurd hvi hi
    · exact hv'
  refine ⟨hc.passed, fun hnot p hp hupp => ?_, fun q v hv hvi p hp hupp => ?_,
    fun q v q' v' hv hvi hv' hvi' => ?_⟩
  · rw [hup] at hupp
    rw [hst p hp hupp]
    refine hc.idle ?_ p hp hupp
    rintro ⟨q, v, hv, hvi⟩
    refine hnot ⟨q, v, ?_, hvi⟩
    have hne : q ≠ me := by
      rintro rfl
      rw [hw, Option.some.injEq] at hv
      exact hi (hv ▸ hvi)
    simpa only [setWriter, if_neg hne] using hv
  · rw [hup] at hupp
    rw [hst p hp hupp]
    exact hc.writing q v (hback q v hv hvi) hvi p hp hupp
  · exact hc.single q v q' v' (hback q v hv hvi) hvi (hback q' v' hv' hvi') hvi'

theorem store (h : Sane isal poolSize s) (hc : Consistent isal poolSize i s old) {me : Nat}
    {w : Writer} {c : Cluster} (hw : s.writers me = some w)
    (hr : ((node isal poolSize me).writeStep w.page w.next).run (node isal poolSize me).handle
      s.cluster = some ((), c)) :
    ∃ old', Consistent isal poolSize i { s.setWriter me w.advance with cluster := c } old' := by
  obtain ⟨hf, hst⟩ := (h.store_spec _ hw).of_run hr
  by_cases hi : w.page.index = i
  · have hnew : ∀ p < N, s.cluster.up p = true → (node isal poolSize 0).stored c i p =
        (node isal poolSize 0).blockOf (if p < w.next + 1 then w.page.page else old) p := by
      intro p hp hup
      rw [hst i p hp hup, hc.writing me w hw hi p hp hup]
      rcases Nat.lt_trichotomy p w.next with hlt | rfl | hgt
      · rw [if_neg fun h => hlt.ne h.1, if_pos hlt, if_pos (hlt.trans (Nat.lt_succ_self _))]
      · rw [if_pos ⟨rfl, hi.symm⟩, if_pos (Nat.lt_succ_self _)]
      · rw [if_neg fun h => hgt.ne' h.1, if_neg hgt.not_gt, if_neg (Nat.not_lt.2 hgt)]
    have hother : ∀ q v, (s.setWriter me w.advance).writers q = some v → v.page.index = i →
        q = me ∧ w.advance = some v := by
      intro q v hv hvi
      rcases writers_setWriter hv with h | ⟨hne, hv'⟩
      · exact h
      · exact absurd (hc.single q v me w hv' hvi hw hi) hne
    by_cases hlast : w.next + 1 = N
    · have hnone : w.advance = none := if_pos hlast
      refine ⟨w.page.page, hi ▸ h.whole me w hw, fun _ p hp hup => ?_, fun q v hv hvi => ?_,
        fun q v q' v' hv hvi => ?_⟩
      · rw [hf.up] at hup
        rw [hnew p hp hup, if_pos (hlast ▸ hp)]
      · cases hnone ▸ (hother q v hv hvi).2
      · cases hnone ▸ (hother q v hv hvi).2
    · have hsome : w.advance = some { w with next := w.next + 1 } := if_neg hlast
      refine ⟨old, hc.passed, fun hnot => ?_, fun q v hv hvi p hp hup => ?_,
        fun q v q' v' hv hvi hv' hvi' => (hother q v hv hvi).1.trans (hother q' v' hv' hvi').1.symm⟩
      · refine absurd ⟨me, { w with next := w.next + 1 }, ?_, hi⟩ hnot
        simpa only [setWriter, ↓reduceIte] using hsome
      · rw [hf.up] at hup
        obtain rfl := Option.some.inj (hsome.symm.trans (hother q v hv hvi).2)
        exact hnew p hp hup
  · refine ⟨old, hc.store_other hw hi hf.up fun p hp hup => ?_⟩
    rw [hst i p hp hup, if_neg fun h => hi h.2.symm]

theorem crash (h : Sane isal poolSize s) (hc : Consistent isal poolSize i s old) {me : Nat}
    {w : Writer} {lost : Mem} (hw : s.writers me = some w)
    (ho : Orderly i s (.crash me lost)) : ∃ old', Consistent isal poolSize i
      { s.setWriter me none with cluster := s.cluster.fail me lost } old' := by
  have hback : ∀ q v, (s.setWriter me none).writers q = some v → q ≠ me ∧ s.writers q = some v := by
    intro q v hv
    obtain ⟨-, hv'⟩ | h := writers_setWriter hv
    · cases hv'
    · exact h
  have hlive : ∀ p, (s.cluster.fail me lost).up p = true → p ≠ me ∧ s.cluster.up p = true := by
    intro p hup
    simp only [Cluster.fail] at hup
    split at hup
    · cases hup
    · next hne => exact ⟨hne, hup⟩
  by_cases hi : w.page.index = i
  · have hnone : ∀ q v, (s.setWriter me none).writers q = some v → v.page.index ≠ i :=
      fun q v hv hvi => (hback q v hv).1 (hc.single q v me w (hback q v hv).2 hvi hw hi)
    have hstripe : ∃ page ∈ s.passed i, ∀ p < N, p ≠ me → s.cluster.up p = true →
        (node isal poolSize 0).stored s.cluster i p = (node isal poolSize 0).blockOf page p := by
      rcases ho w hw hi with hn | ha
      · refine ⟨old, hc.passed, fun p hp hne hup => ?_⟩
        rw [hc.writing me w hw hi p hp hup, if_neg (Nat.not_lt.2 (hn p hp hne))]
      · refine ⟨w.page.page, hi ▸ h.whole me w hw, fun p hp hne hup => ?_⟩
        rw [hc.writing me w hw hi p hp hup, if_pos (ha p hp hne)]
    obtain ⟨page, hmem, hblk⟩ := hstripe
    refine ⟨page, hmem, fun _ p hp hup => ?_, fun q v hv hvi => absurd hvi (hnone q v hv),
      fun q v _ _ hv hvi => absurd hvi (hnone q v hv)⟩
    rw [stored_fail i (hlive p hup).1]
    exact hblk p hp (hlive p hup).1 (hlive p hup).2
  · refine ⟨old, hc.passed, fun hnot p hp hup => ?_, fun q v hv hvi p hp hup => ?_,
      fun q v q' v' hv hvi hv' hvi' =>
        hc.single q v q' v' (hback q v hv).2 hvi (hback q' v' hv').2 hvi'⟩
    · rw [stored_fail i (hlive p hup).1]
      refine hc.idle ?_ p hp (hlive p hup).2
      rintro ⟨q, v, hv, hvi⟩
      refine hnot ⟨q, v, ?_, hvi⟩
      have hne : q ≠ me := by
        rintro rfl
        rw [hw, Option.some.injEq] at hv
        exact hi (hv ▸ hvi)
      simpa only [setWriter, if_neg hne] using hv
    · rw [stored_fail i (hlive p hup).1]
      exact hc.writing q v (hback q v hv).2 hvi p hp (hlive p hup).2

end Consistent

theorem Initial.idle_ne {s : Stripes} (h : Initial isal poolSize s) (q : Nat) (w : Writer) :
    s.writers q ≠ some w := by
  rw [h.idle]
  exact Option.some_ne_none w |>.symm

theorem Initial.sane {s : Stripes} (h : Initial isal poolSize s) : Sane isal poolSize s := by
  refine ⟨h.slots, h.forced, fun q p hp => ?_, fun q w hw => absurd hw (h.idle_ne q w),
    fun q w hw => absurd hw (h.idle_ne q w), fun q w hw => absurd hw (h.idle_ne q w),
    fun q w hw => absurd hw (h.idle_ne q w)⟩
  rw [h.connected, h.up p hp]

theorem run_sane (hr : (system isal poolSize).Run w s) : Sane isal poolSize s :=
  hr.invariant (I := Sane isal poolSize) (fun _ h => Initial.sane h) fun _ _ _ h hs => h.step hs

theorem orderly_inv {i : Nat} (hi : i < (node isal poolSize 0).getClusterCapacity)
    (hr : (orderly isal poolSize i).Run w s) :
    Sane isal poolSize s ∧ ∃ old, Consistent isal poolSize i s old := by
  apply hr.invariant (I := fun s => Sane isal poolSize s ∧ ∃ old, Consistent isal poolSize i s old)
  · intro s h
    obtain ⟨page, hpassed, hblk⟩ := h.stripes i hi
    refine ⟨h.sane, page, ?_, fun _ p hp _ => hblk p hp, fun q w hw => absurd hw (h.idle_ne q w),
      fun q w _ _ hw => absurd hw (h.idle_ne q w)⟩
    rw [hpassed]
    exact List.mem_singleton_self page
  · rintro s a s' ⟨h, old, hc⟩ ⟨hs, ho⟩
    refine ⟨h.step hs, ?_⟩
    cases hs with
    | start hme hup hidle hindex => exact ⟨old, hc.start hidle ho⟩
    | store hw hr => exact hc.store h hw hr
    | crash lost hw hup => exact hc.crash h hw ho

/-- In every run in which writes on `i` do not overlap and no writer of `i` crashes halfway
through the other nodes, all reads of `i` between the writes return one page passed whole. -/
theorem orderly_agreed (hd : isal.Documented) {i : Nat}
    (hi : i < (node isal poolSize 0).getClusterCapacity)
    (hr : (orderly isal poolSize i).Run w s) (hidle : ¬s.Writing i) : Agreed isal poolSize s i := by
  obtain ⟨h, page, hc⟩ := orderly_inv hi hr
  refine ⟨page, hc.passed, fun r hr hup c hv => ?_⟩
  have hblk : ∀ d ∈ (node isal poolSize r).chosen c,
      (node isal poolSize r).stored c i d = (node isal poolSize r).blockOf page d := by
    intro d hmem
    obtain ⟨hdN, ha⟩ := (select_inv (c.isPeerAlive r) N).chosen d hmem
    have hupd : s.cluster.up d = true := by
      by_cases hne : d = r
      · rwa [hne]
      · exact hv.up ▸ hv.sound d hdN hne ha
    rw [stored, hv.area]
    exact hc.idle hidle d hdN hupd
  have hindex : i < (node isal poolSize r).getClusterCapacity := hi
  exact (readBlock_spec hd (inPool_of_lt hindex) hv.slots hv.sound hv.alive hblk).mono
    fun _ _ hp => hp.1

/-- Agreed reads are those of a page whose data blocks the data nodes hold. -/
theorem Agreed.data (hd : isal.Documented) {i : Nat} (ha : Agreed isal poolSize s i)
    (h : Sane isal poolSize s) (hi : i < (node isal poolSize 0).getClusterCapacity)
    (hup : ∀ d < K, s.cluster.up d = true) : ∃ page ∈ s.passed i, ∀ d < K,
      (node isal poolSize 0).stored s.cluster i d = dataBlock page d := by
  obtain ⟨page, hmem, hread⟩ := ha
  have h0 := hup 0 (by decide)
  have halive : ∀ d < K, s.cluster.isPeerAlive 0 d = true := fun d hdK =>
    (h.isPeerAlive h0 (hdK.trans (by decide))).trans (hup d hdK)
  have hsel := select_intact halive
  have hK : K ≤ ((List.range N).filter (s.cluster.isPeerAlive 0)).length := by
    have := (select_inv (s.cluster.isPeerAlive 0) N).length
    rw [hsel, List.length_range] at this
    omega
  obtain ⟨p, c, hrun, rfl⟩ := hread 0 (by decide) h0 s.cluster
    ⟨rfl, rfl, h.slots 0, h.sound h0, hK⟩
  obtain ⟨pg, hblk, hw⟩ := readBlock_page (e := node isal poolSize 0) hd (inPool_of_lt hi)
    (h.slots 0) (h.sound h0) hK
  obtain rfl : page = pg := (Page.mk.inj (hw.of_run hrun).1).1
  refine ⟨page, hmem, fun d hdK => ?_⟩
  rw [← blockOf_data (node isal poolSize 0) page hdK]
  apply hblk d
  rw [chosen, hsel]
  exact List.mem_range.2 hdK

def fresh : Stripes := ⟨.fresh, fun _ => none, fun _ => [fun _ => 0]⟩

theorem fresh_initial (hd : isal.Documented) : Initial isal poolSize fresh :=
  ⟨fun _ _ => rfl, fun _ _ => rfl, fun _ _ => rfl, Cluster.fresh_hasSlots, fun _ => rfl,
    fun _ _ => ⟨_, rfl, fun _ hp => (blockOf_zero (e := node isal poolSize 0) hd hp).symm⟩⟩

theorem run_store (me : Nat) {v : Writer} (hr : (system isal poolSize).Run w s)
    (hw : s.writers me = some v) : ∃ c,
    (system isal poolSize).Run (w ++ [.store me]) { s.setWriter me v.advance with cluster := c } ∧
    c.up = s.cluster.up ∧ ∀ i, ∀ p < N, s.cluster.up p = true →
      (node isal poolSize 0).stored c i p =
        if p = v.next ∧ i = v.page.index then (node isal poolSize 0).blockOf v.page.page p
        else (node isal poolSize 0).stored s.cluster i p := by
  obtain ⟨_, c, hrun, hf, hst⟩ := (run_sane hr).store_spec me hw
  exact ⟨c, hr.snoc (.store hw hrun), hf.up, hst⟩

/-- Node 2 crashes when only the first block of its page of ones is stored. -/
theorem run_crash : ∃ s, (system IsaL.base 4096).Run
      [.start 2 ⟨fun _ => 1, 0⟩, .store 2, .crash 2 fun _ => 0] s ∧ (∀ q, s.writers q = none) ∧
    (∀ d < K, s.cluster.up d = true) ∧ s.passed 0 = [fun _ => 1, fun _ => 0] ∧
    (node IsaL.base 4096 0).stored s.cluster 0 0 = (fun _ => 1) ∧
    (node IsaL.base 4096 0).stored s.cluster 0 1 = fun _ => 0 := by
  have hr₀ : (system IsaL.base 4096).Run _ fresh := .nil (fresh_initial IsaL.base_documented)
  have hs₁ : Step IsaL.base 4096 fresh (.start 2 ⟨fun _ => 1, 0⟩)
      (fresh.started 2 ⟨fun _ => 1, 0⟩) := .start (by decide) rfl rfl (by decide)
  obtain ⟨c, hr₂, hup, hst⟩ := run_store 2 (hr₀.snoc hs₁) rfl
  have hr₃ := hr₂.snoc (@Step.crash _ _ _ 2 _ (fun _ => 0) rfl fun p _ => congrFun hup p)
  refine ⟨_, hr₃, fun q => ?_, fun d hd => ?_, rfl, ?_, ?_⟩
  · simp only [setWriter, started, fresh]
    split_ifs <;> rfl
  · simp only [Cluster.fail, if_neg hd.ne, hup]
    rfl
  · rw [stored_fail 0 (by decide), hst 0 0 (by decide) rfl, if_pos ⟨rfl, rfl⟩,
      blockOf_data _ _ (by decide)]
    exact dataBlock_const 1 (by decide)
  · rw [stored_fail 0 (by decide), hst 0 1 (by decide) rfl, if_neg (by decide)]
    rfl

/-- Nodes 0 and 1 write pages of ones and twos at once, in opposite orders at the data nodes. -/
theorem run_overlap : ∃ s, (system IsaL.base 4096).Run
      [.start 0 ⟨fun _ => 1, 0⟩, .start 1 ⟨fun _ => 2, 0⟩, .store 0, .store 1, .store 1, .store 0,
        .store 0, .store 1] s ∧ (∀ q, s.writers q = none) ∧
    (∀ p, s.cluster.up p = true) ∧ s.passed 0 = [fun _ => 2, fun _ => 1, fun _ => 0] ∧
    (node IsaL.base 4096 0).stored s.cluster 0 0 = (fun _ => 2) ∧
    (node IsaL.base 4096 0).stored s.cluster 0 1 = fun _ => 1 := by
  have hr₀ : (system IsaL.base 4096).Run _ fresh := .nil (fresh_initial IsaL.base_documented)
  have hs₁ : Step IsaL.base 4096 fresh (.start 0 ⟨fun _ => 1, 0⟩)
      (fresh.started 0 ⟨fun _ => 1, 0⟩) := .start (by decide) rfl rfl (by decide)
  have hs₂ : Step IsaL.base 4096 (fresh.started 0 ⟨fun _ => 1, 0⟩) (.start 1 ⟨fun _ => 2, 0⟩)
      ((fresh.started 0 ⟨fun _ => 1, 0⟩).started 1 ⟨fun _ => 2, 0⟩) :=
    .start (by decide) rfl rfl (by decide)
  obtain ⟨c₁, hr₁, hup₁, hst₁⟩ := run_store 0 ((hr₀.snoc hs₁).snoc hs₂) rfl
  obtain ⟨c₂, hr₂, hup₂, hst₂⟩ := run_store 1 hr₁ rfl
  obtain ⟨c₃, hr₃, hup₃, hst₃⟩ := run_store 1 hr₂ rfl
  obtain ⟨c₄, hr₄, hup₄, hst₄⟩ := run_store 0 hr₃ rfl
  obtain ⟨c₅, hr₅, hup₅, hst₅⟩ := run_store 0 hr₄ rfl
  obtain ⟨c₆, hr₆, hup₆, hst₆⟩ := run_store 1 hr₅ rfl
  have h₁ : c₁.up = fun _ => true := hup₁
  have h₂ : c₂.up = fun _ => true := hup₂.trans h₁
  have h₃ : c₃.up = fun _ => true := hup₃.trans h₂
  have h₄ : c₄.up = fun _ => true := hup₄.trans h₃
  have h₅ : c₅.up = fun _ => true := hup₅.trans h₄
  have h₆ : c₆.up = fun _ => true := hup₆.trans h₅
  refine ⟨_, hr₆, fun q => ?_, fun p => congrFun h₆ p, rfl, ?_, ?_⟩
  · simp only [setWriter, started, fresh]
    split_ifs <;> rfl
  · rw [hst₆ 0 0 (by decide) (congrFun h₅ 0), if_neg (by decide),
      hst₅ 0 0 (by decide) (congrFun h₄ 0), if_neg (by decide),
      hst₄ 0 0 (by decide) (congrFun h₃ 0), if_neg (by decide),
      hst₃ 0 0 (by decide) (congrFun h₂ 0), if_neg (by decide),
      hst₂ 0 0 (by decide) (congrFun h₁ 0), if_pos ⟨rfl, rfl⟩, blockOf_data _ _ (by decide)]
    exact dataBlock_const 2 (by decide)
  · rw [hst₆ 0 1 (by decide) (congrFun h₅ 1), if_neg (by decide),
      hst₅ 0 1 (by decide) (congrFun h₄ 1), if_neg (by decide),
      hst₄ 0 1 (by decide) (congrFun h₃ 1), if_pos ⟨rfl, rfl⟩, blockOf_data _ _ (by decide)]
    exact dataBlock_const 1 (by decide)

theorem not_agreed {x y : Byte} (hr : (system IsaL.base 4096).Run w s)
    (hup : ∀ d < K, s.cluster.up d = true)
    (hx : (node IsaL.base 4096 0).stored s.cluster 0 0 = fun _ => x)
    (hy : (node IsaL.base 4096 0).stored s.cluster 0 1 = fun _ => y) (hxy : x ≠ y)
    (hpassed : ∀ page ∈ s.passed 0, ∃ z, page = fun _ => z) : ¬Agreed IsaL.base 4096 s 0 := by
  intro ha
  obtain ⟨page, hmem, hblk⟩ := ha.data IsaL.base_documented (run_sane hr) (by decide) hup
  obtain ⟨z, rfl⟩ := hpassed page hmem
  have hx' := hblk 0 (by decide)
  have hy' := hblk 1 (by decide)
  rw [hx, dataBlock_const z (by decide)] at hx'
  rw [hy, dataBlock_const z (by decide)] at hy'
  exact hxy ((congrFun hx' ⟨0, by decide⟩).trans (congrFun hy' ⟨0, by decide⟩).symm)

/-- One writer that crashes and two writers at once both leave a page nobody wrote. -/
theorem torn_pages :
    (∃ s, (system IsaL.base 4096).Run
      [.start 2 ⟨fun _ => 1, 0⟩, .store 2, .crash 2 fun _ => 0] s ∧
      (∀ q, s.writers q = none) ∧ ¬Agreed IsaL.base 4096 s 0) ∧
    (∃ s, (system IsaL.base 4096).Run
      [.start 0 ⟨fun _ => 1, 0⟩, .start 1 ⟨fun _ => 2, 0⟩, .store 0, .store 1, .store 1, .store 0,
        .store 0, .store 1] s ∧
      (∀ q, s.writers q = none) ∧ ¬Agreed IsaL.base 4096 s 0) := by
  constructor
  · obtain ⟨s, hr, hidle, hup, hpassed, h0, h1⟩ := run_crash
    refine ⟨s, hr, hidle, not_agreed hr hup h0 h1 (by decide) fun page hmem => ?_⟩
    rw [hpassed] at hmem
    simp only [List.mem_cons, List.not_mem_nil, or_false] at hmem
    rcases hmem with rfl | rfl <;> exact ⟨_, rfl⟩
  · obtain ⟨s, hr, hidle, hup, hpassed, h0, h1⟩ := run_overlap
    refine ⟨s, hr, hidle, not_agreed hr (fun d _ => hup d) h0 h1 (by decide) fun page hmem => ?_⟩
    rw [hpassed] at hmem
    simp only [List.mem_cons, List.not_mem_nil, or_false] at hmem
    rcases hmem with rfl | rfl | rfl <;> exact ⟨_, rfl⟩

/-- While node 0 writes another page, node 2 crashes when the other nodes have its blocks. -/
theorem orderly_agreed_crash : ∃ s, (orderly IsaL.base 4096 0).Run
      [.start 2 ⟨fun _ => 1, 0⟩, .start 0 ⟨fun _ => 2, 1⟩, .store 2, .store 0, .store 2,
        .crash 2 fun _ => 0] s ∧
    s.Writing 1 ∧ Agreed IsaL.base 4096 s 0 := by
  have hi : 0 < (node IsaL.base 4096 0).getClusterCapacity := by decide
  have hr₀ : (orderly IsaL.base 4096 0).Run _ fresh := .nil (fresh_initial IsaL.base_documented)
  have hs₁ : (orderly IsaL.base 4096 0).step fresh (.start 2 ⟨fun _ => 1, 0⟩)
      (fresh.started 2 ⟨fun _ => 1, 0⟩) := by
    refine ⟨.start (by decide) rfl rfl hi, ?_⟩
    rintro - ⟨q, w, hw, -⟩
    cases hw
  have hs₂ : (orderly IsaL.base 4096 0).step (fresh.started 2 ⟨fun _ => 1, 0⟩)
      (.start 0 ⟨fun _ => 2, 1⟩) ((fresh.started 2 ⟨fun _ => 1, 0⟩).started 0 ⟨fun _ => 2, 1⟩) :=
    ⟨.start (by decide) rfl rfl (by decide), fun h => absurd h (by decide)⟩
  have hr₂ := (hr₀.snoc hs₁).snoc hs₂
  obtain ⟨_, c₃, hrun₃, hf₃, -⟩ := (orderly_inv hi hr₂).1.store_spec 2 rfl
  have hr₃ := hr₂.snoc ⟨.store rfl hrun₃, trivial⟩
  obtain ⟨_, c₄, hrun₄, hf₄, -⟩ := (orderly_inv hi hr₃).1.store_spec 0 rfl
  have hr₄ := hr₃.snoc ⟨.store rfl hrun₄, trivial⟩
  obtain ⟨_, c₅, hrun₅, hf₅, -⟩ := (orderly_inv hi hr₄).1.store_spec 2 rfl
  have hr₅ := hr₄.snoc ⟨.store rfl hrun₅, trivial⟩
  have hup : c₅.up = fun _ => true := hf₅.up.trans (hf₄.up.trans hf₃.up)
  have hr₆ := hr₅.snoc ⟨@Step.crash _ _ _ 2 _ (fun _ => 0) rfl fun p _ => congrFun hup p,
    fun w hw _ => .inr ?_⟩
  · refine ⟨_, hr₆, ⟨0, _, rfl, rfl⟩, orderly_agreed IsaL.base_documented hi hr₆ ?_⟩
    rintro ⟨q, w, hw, hindex⟩
    simp only [setWriter, started, fresh] at hw
    split_ifs at hw
    · cases hw
      cases hindex
  · cases hw
    decide

end Stripes

end Galois
