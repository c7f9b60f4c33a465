import Galois.Effect.System
import Galois.ReadWrite

namespace Galois
set_option autoImplicit true
set_option relaxedAutoImplicit false

open Prog ECAL

namespace Cluster

/-- Node `node` stops and loses its memory, and every socket has seen it disconnect. -/
def fail (c : Cluster) (node : Nat) (lost : Mem) : Cluster :=
  { area := fun q => if q = node then lost else c.area q
    up := fun q => if q = node then false else c.up q
    peers := fun q p =>
      if p = node then { c.peers q p with connected := false } else c.peers q p }

def setForced (c : Cluster) (me peerId : Nat) (stat : Int) : Cluster :=
  c.setPeer me peerId { c.peers me peerId with forcedConnStat := stat }

/-- `__markAsDead` -/
def markAsDead (c : Cluster) (me peerId : Nat) : Cluster := c.setForced me peerId (-1)

/-- `__cancelMarking` -/
def cancelMarking (c : Cluster) (me peerId : Nat) : Cluster := c.setForced me peerId 0

def marked (c : Cluster) (p : Nat) : Bool :=
  (List.range N).any fun q => (c.peers q p).forcedConnStat < 0

end Cluster

/-- `last` and `skipped` record, for every index, the page written last and the nodes
that this write skipped. -/
structure PageStore where
  cluster : Cluster
  last : Nat → Option Block4K
  skipped : Nat → Nat → Bool

namespace PageStore

inductive Action where
  | write (me : Nat) (page : Page)
  | read (me index : Nat)
  | fail (node : Nat) (lost : Mem)
  | markAsDead (me peerId : Nat)
  | cancelMarking (me peerId : Nat)

/-- The ECAL object of node `me` in a cluster of exactly `N` nodes. -/
abbrev node (isal : IsaL) (poolSize me : Nat) : ECAL := ⟨isal, N, me, poolSize⟩

def written (s : PageStore) (me : Nat) (page : Page) (c : Cluster) : PageStore where
  cluster := c
  last := fun i => if i = page.index then some page.page else s.last i
  skipped := fun i p =>
    if i = page.index then !s.cluster.isPeerAlive me p else s.skipped i p

variable (isal : IsaL) (poolSize : Nat)

inductive Step : PageStore → Action → PageStore → Prop
  | write {s : PageStore} {me : Nat} {page : Page} {c : Cluster}
      (hme : me < N) (hup : s.cluster.up me = true)
      (hindex : page.index < (node isal poolSize me).getClusterCapacity)
      (hr : ((node isal poolSize me).writeBlock page).run (node isal poolSize me).handle
        s.cluster = some ((), c)) :
      Step s (.write me page) (s.written me page c)
  | read {s : PageStore} {me index : Nat} {page : Page} {c : Cluster}
      (hme : me < N) (hup : s.cluster.up me = true)
      (hindex : index < (node isal poolSize me).getClusterCapacity)
      (hr : ((node isal poolSize me).readBlock index).run (node isal poolSize me).handle
        s.cluster = some (page, c)) :
      Step s (.read me index) { s with cluster := c }
  | fail {s : PageStore} {n : Nat} (lost : Mem) (hn : n < N) (hup : s.cluster.up n = true) :
      Step s (.fail n lost) { s with cluster := s.cluster.fail n lost }
  | markAsDead {s : PageStore} {me p : Nat} (hme : me < N) (hp : p < N) :
      Step s (.markAsDead me p) { s with cluster := s.cluster.markAsDead me p }
  | cancelMarking {s : PageStore} {me p : Nat} (hme : me < N) (hp : p < N) :
      Step s (.cancelMarking me p) { s with cluster := s.cluster.cancelMarking me p }

/-- All nodes run and are connected, none is marked and nothing has been written. -/
structure Initial (s : PageStore) : Prop where
  up : ∀ p < N, s.cluster.up p = true
  connected : ∀ q p, (s.cluster.peers q p).connected = true
  forced : ∀ q p, (s.cluster.peers q p).forcedConnStat = 0
  slots : ∀ q, s.cluster.HasSlots q
  last : ∀ i, s.last i = none

/-- Runs without markings, in which at most `P` nodes ever fail. -/
def failStop : System PageStore Action where
  init := Initial
  step s a s' := Step isal poolSize s a s' ∧
    (match a with | .markAsDead _ _ | .cancelMarking _ _ => False | _ => True) ∧
    ((List.range N).filter fun p => !s'.cluster.up p).length ≤ P

/-- Runs without failures, in which at most `P` nodes are marked at every moment. -/
def outage : System PageStore Action where
  init := Initial
  step s a s' := Step isal poolSize s a s' ∧
    (match a with | .fail _ _ => False | _ => True) ∧
    ((List.range N).filter s'.cluster.marked).length ≤ P

/-- What every run keeps: connections and slots are in order, and a node that was not
skipped holds its block of the page written last. -/
structure Inv (s : PageStore) : Prop where
  slots : ∀ q, s.cluster.HasSlots q
  forced : ∀ q p, (s.cluster.peers q p).forcedConnStat ≤ 0
  connected : ∀ q, ∀ p < N, (s.cluster.peers q p).connected = true → s.cluster.up p = true
  blocks : ∀ i page, s.last i = some page → i < (node isal poolSize 0).getClusterCapacity →
    ∀ p < N, s.cluster.up p = true → s.skipped i p = false →
    (node isal poolSize 0).stored s.cluster i p = (node isal poolSize 0).blockOf page p

variable {isal poolSize}

theorem getDataPos_row (me index : Nat) :
    ((node isal poolSize me).getDataPos index).row = index := by
  change index / (N / N) = index
  rw [Nat.div_self (by decide), Nat.div_one]

theorem stored_storeBlock {c c' : Cluster} {me p : Nat} {page : Page}
    (h : c'.area p = (node isal poolSize me).storeBlock page p (c.area p)) (i : Nat) :
    (node isal poolSize 0).stored c' i p =
      if i = page.index then (node isal poolSize 0).blockOf page.page p
      else (node isal poolSize 0).stored c i p := by
  rw [stored, h, storeBlock, getDataPos_row, getDataPos_row, Mem.load_store_block]
  simp only [eq_comm (a := page.index), stored, getDataPos_row]
  rfl

namespace Inv

variable {s s' : PageStore} (h : Inv isal poolSize s)
include h

theorem sound (me : Nat) : s.cluster.Sound me := by
  intro p hp hne ha
  apply h.connected me p hp
  have hle := h.forced me p
  rw [Cluster.isPeerAlive, if_neg hne] at ha
  split at ha
  · next hf => exact absurd (of_decide_eq_true ha) hle.not_gt
  · exact ha

theorem isPeerAlive_up {me p : Nat} (hup : s.cluster.up me = true) (hp : p < N)
    (ha : s.cluster.isPeerAlive me p = true) : s.cluster.up p = true := by
  by_cases hne : p = me
  · rwa [hne]
  · exact h.sound me p hp hne ha

theorem writeBlock_returns {me : Nat} {page : Page}
    (hindex : page.index < (node isal poolSize me).getClusterCapacity) :
    Wp (node isal poolSize me).handle ((node isal poolSize me).writeBlock page) s.cluster
      fun _ c => Cluster.Frame s.cluster c ∧ ∀ q, c.area q =
        if q < N ∧ s.cluster.isPeerAlive me q = true then
          (node isal poolSize me).storeBlock page q (s.cluster.area q)
        else s.cluster.area q :=
  writeBlock_spec (e := node isal poolSize me) (inPool_of_lt hindex) (h.slots me) (h.sound me)

theorem write {me : Nat} {page : Page} {c : Cluster}
    (hindex : page.index < (node isal poolSize me).getClusterCapacity)
    (hr : ((node isal poolSize me).writeBlock page).run (node isal poolSize me).handle
      s.cluster = some ((), c)) : Inv isal poolSize (s.written me page c) := by
  obtain ⟨hf, harea⟩ := (h.writeBlock_returns hindex).of_run hr
  refine ⟨fun q => hf.hasSlots (h.slots q), fun q p => ?_, fun q p hp hc => ?_,
    fun i pg hlast hi p hp hup' hskip => ?_⟩
  · rw [written, hf.status]
    exact h.forced q p
  · rw [written, hf.up]
    rw [written, hf.status] at hc
    exact h.connected q p hp hc
  · simp only [written, hf.up] at hlast hskip hup'
    by_cases ha : s.cluster.isPeerAlive me p = true
    · have hp' := harea p
      rw [if_pos ⟨hp, ha⟩] at hp'
      rw [written, stored_storeBlock hp']
      split
      · next hi' =>
        rw [if_pos hi', Option.some.injEq] at hlast
        rw [hlast]
      · next hi' =>
        rw [if_neg hi'] at hlast hskip
        exact h.blocks i pg hlast hi p hp hup' hskip
    · have hp' := harea p
      rw [if_neg fun hc => ha hc.2] at hp'
      by_cases hi' : i = page.index
      · rw [if_pos hi', Bool.not_eq_eq_eq_not, Bool.not_false] at hskip
        exact absurd hskip ha
      · rw [if_neg hi'] at hlast hskip
        rw [written, stored, hp']
        exact h.blocks i pg hlast hi p hp hup' hskip

theorem frame {c : Cluster} (hf : Cluster.Frame s.cluster c) (harea : c.area = s.cluster.area) :
    Inv isal poolSize { s with cluster := c } := by
  refine ⟨fun q => hf.hasSlots (h.slots q), fun q p => ?_, fun q p hp hc => ?_,
    fun i pg hlast hi p hp hup hskip => ?_⟩
  · rw [hf.status]
    exact h.forced q p
  · rw [hf.up]
    rw [hf.status] at hc
    exact h.connected q p hp hc
  · rw [hf.up] at hup
    rw [stored, harea]
    exact h.blocks i pg hlast hi p hp hup hskip

theorem setForced {me p : Nat} {stat : Int} (hstat : stat ≤ 0) :
    Inv isal poolSize { s with cluster := s.cluster.setForced me p stat } := by
  have hconn : ∀ q p', ((s.cluster.setForced me p stat).peers q p').connected =
      (s.cluster.peers q p').connected := by
    intro q p'
    simp only [Cluster.setForced, Cluster.setPeer]
    split
    · next hqp => rw [hqp.1, hqp.2]
    · rfl
  refine ⟨fun q p' => ?_, fun q p' => ?_, fun q p' hp' hc => ?_, h.blocks⟩
  · simp only [Cluster.setForced, Cluster.setPeer]
    split
    · next hqp => exact hqp.1 ▸ h.slots me p
    · exact h.slots q p'
  · simp only [Cluster.setForced, Cluster.setPeer]
    split
    · exact hstat
    · exact h.forced q p'
  · rw [hconn] at hc
    exact h.connected q p' hp' hc

theorem fail (n : Nat) (lost : Mem) :
    Inv isal poolSize { s with cluster := s.cluster.fail n lost } := by
  refine ⟨fun q p => ?_, fun q p => ?_, fun q p hp hc => ?_, fun i pg hlast hi p hp hup hskip => ?_⟩
  · simp only [Cluster.fail]
    split <;> exact h.slots q p
  · simp only [Cluster.fail]
    split <;> exact h.forced q p
  · simp only [Cluster.fail] at hc ⊢
    split
    · next hpn =>
      rw [if_pos hpn] at hc
      exact absurd hc Bool.false_ne_true
    · next hpn =>
      rw [if_neg hpn] at hc
      exact h.connected q p hp hc
  · simp only [Cluster.fail] at hup
    split at hup
    · exact absurd hup Bool.false_ne_true
    · next hpn =>
      simp only [stored, Cluster.fail, if_neg hpn]
      exact h.blocks i pg hlast hi p hp hup hskip

theorem read_page (hd : isal.Documented) {me index : Nat}
    (hindex : index < (node isal poolSize me).getClusterCapacity)
    (hK : K ≤ ((List.range N).filter (s.cluster.isPeerAlive me)).length) :
    ∃ page, (∀ d ∈ (node isal poolSize me).chosen s.cluster,
        (node isal poolSize me).stored s.cluster index d =
          (node isal poolSize me).blockOf page d) ∧
      Wp (node isal poolSize me).handle ((node isal poolSize me).readBlock index) s.cluster
        fun p c => p = ⟨page, index⟩ ∧ Cluster.Frame s.cluster c ∧ c.area = s.cluster.area :=
  readBlock_page (e := node isal poolSize me) hd (inPool_of_lt hindex) (h.slots me) (h.sound me) hK

/-- A read returns the page written last exactly when every node it decodes from, even one
that the last write skipped, holds its block of that page. -/
theorem read_last (hd : isal.Documented) {me index : Nat} {page : Block4K}
    (hup : s.cluster.up me = true) (hindex : index < (node isal poolSize me).getClusterCapacity)
    (hK : K ≤ ((List.range N).filter (s.cluster.isPeerAlive me)).length)
    (hlast : s.last index = some page) :
    Wp (node isal poolSize me).handle ((node isal poolSize me).readBlock index) s.cluster
      (fun p _ => p = ⟨page, index⟩) ↔
    ∀ d ∈ (node isal poolSize me).chosen s.cluster, s.skipped index d = true →
      (node isal poolSize me).stored s.cluster index d =
        (node isal poolSize me).blockOf page d := by
  obtain ⟨pg, hblk, hw⟩ := h.read_page hd hindex hK
  constructor
  · rintro hp d hmem -
    obtain ⟨p, c, hr, rfl⟩ := hp
    obtain ⟨heq, -⟩ := hw.of_run hr
    rw [hblk d hmem, (Page.mk.inj heq).1]
  · intro hskipped
    have hpg : pg = page := by
      apply page_unique (e := node isal poolSize me) hd (select_spec hK)
      intro d hmem
      rw [← hblk d hmem]
      cases hskip : s.skipped index d with
      | true => exact hskipped d hmem hskip
      | false =>
        obtain ⟨hdN, ha⟩ := (select_inv (s.cluster.isPeerAlive me) N).chosen d hmem
        exact h.blocks index page hlast hindex d hdN (h.isPeerAlive_up hup hdN ha) hskip
    exact hw.mono fun _ _ hp => hpg ▸ hp.1

theorem read (hd : isal.Documented) {me index : Nat} {page : Page} {c : Cluster}
    (hindex : index < (node isal poolSize me).getClusterCapacity)
    (hK : K ≤ ((List.range N).filter (s.cluster.isPeerAlive me)).length)
    (hr : ((node isal poolSize me).readBlock index).run (node isal poolSize me).handle
      s.cluster = some (page, c)) :
    Inv isal poolSize { s with cluster := c } ∧ Cluster.Frame s.cluster c := by
  obtain ⟨_, -, hw⟩ := h.read_page hd hindex hK
  obtain ⟨-, hf, harea⟩ := hw.of_run hr
  exact ⟨h.frame hf harea, hf⟩

end Inv

theorem setForced_forcedConnStat (c : Cluster) (me p : Nat) (stat : Int) (q p' : Nat) :
    ((c.setForced me p stat).peers q p').forcedConnStat =
      if q = me ∧ p' = p then stat else (c.peers q p').forcedConnStat := by
  simp only [Cluster.setForced, Cluster.setPeer]
  split <;> rfl

theorem Initial.inv {s : PageStore} (h : Initial s) : Inv isal poolSize s := by
  refine ⟨h.slots, fun q p => (h.forced q p).le, fun q p hp _ => h.up p hp, ?_⟩
  intro i page hlast
  rw [h.last] at hlast
  cases hlast

def fresh : PageStore := ⟨.fresh, fun _ => none, fun _ _ => false⟩

theorem fresh_initial : Initial fresh :=
  ⟨fun _ _ => rfl, fun _ _ => rfl, fun _ _ => rfl, Cluster.fresh_hasSlots, fun _ => rfl⟩

theorem alive_of_bad {alive : Nat → Bool} (bad : Nat → Bool)
    (hbad : ∀ p < N, alive p = false → bad p = true)
    (hP : ((List.range N).filter bad).length ≤ P) :
    K ≤ ((List.range N).filter alive).length := by
  have hsplit := List.length_eq_length_filter_add (l := List.range N) alive
  have hdead : ((List.range N).filter fun p => !alive p).length ≤
      ((List.range N).filter bad).length := by
    rw [← List.countP_eq_length_filter, ← List.countP_eq_length_filter]
    apply List.countP_mono_left
    intro p hp ha
    exact hbad p (List.mem_range.1 hp) (by simpa using ha)
  rw [List.length_range] at hsplit
  simp only [N, K, P] at *
  omega

end PageStore

end Galois
