import Galois.PageStore

namespace Galois
set_option autoImplicit true
set_option relaxedAutoImplicit false

open Prog ECAL

namespace PageStore

variable {isal : IsaL} {poolSize : Nat}

/-- What runs without failures keep: only a marked node is ever regarded as dead. -/
structure OutageInv (isal : IsaL) (poolSize : Nat) (s : PageStore) : Prop where
  inv : Inv isal poolSize s
  up : ∀ p < N, s.cluster.up p = true
  connected : ∀ q p, (s.cluster.peers q p).connected = true
  marked : ((List.range N).filter s.cluster.marked).length ≤ P

namespace OutageInv

variable {s s' : PageStore} (h : OutageInv isal poolSize s)
include h

theorem alive {me : Nat} (hme : me < N) :
    K ≤ ((List.range N).filter (s.cluster.isPeerAlive me)).length := by
  apply alive_of_bad s.cluster.marked ?_ h.marked
  intro p _ ha
  have hle := h.inv.forced me p
  simp only [Cluster.isPeerAlive, h.connected] at ha
  split at ha
  · cases ha
  · split at ha
    · next hne =>
      rw [Cluster.marked, List.any_eq_true]
      exact ⟨me, List.mem_range.2 hme, decide_eq_true (lt_of_le_of_ne hle hne)⟩
    · cases ha

theorem setForced {me p : Nat} {stat : Int} (hstat : stat ≤ 0)
    (hm : ((List.range N).filter (s.cluster.setForced me p stat).marked).length ≤ P) :
    OutageInv isal poolSize { s with cluster := s.cluster.setForced me p stat } := by
  refine ⟨h.inv.setForced hstat, h.up, fun q p' => ?_, hm⟩
  simp only [Cluster.setForced, Cluster.setPeer]
  split
  · exact h.connected me p
  · exact h.connected q p'

theorem step (hd : isal.Documented) {a : Action} (hs : (outage isal poolSize).step s a s') :
    OutageInv isal poolSize s' := by
  obtain ⟨hs, ha, hm⟩ := hs
  cases hs with
  | @write me page c hme hup hindex hr =>
    obtain ⟨hf, -⟩ := (h.inv.writeBlock_returns hindex).of_run hr
    refine ⟨h.inv.write hindex hr, fun p hp => ?_, fun q p => ?_, hm⟩
    · rw [written, hf.up]
      exact h.up p hp
    · rw [written, hf.status]
      exact h.connected q p
  | @read me index page c hme hup hindex hr =>
    obtain ⟨hinv, hf⟩ := h.inv.read hd hindex (h.alive hme) hr
    refine ⟨hinv, fun p hp => ?_, fun q p => ?_, hm⟩
    · rw [hf.up]
      exact h.up p hp
    · rw [hf.status]
      exact h.connected q p
  | fail => exact ha.elim
  | markAsDead => exact h.setForced (by decide) hm
  | cancelMarking => exact h.setForced le_rfl hm

end OutageInv

theorem outage_inv (hd : isal.Documented) (hr : (outage isal poolSize).Run w s) :
    OutageInv isal poolSize s := by
  apply hr.invariant (I := OutageInv isal poolSize)
  · intro s hi
    refine ⟨hi.inv, hi.up, hi.connected, ?_⟩
    have hnone : s.cluster.marked = fun _ => false := by
      funext p
      simp only [Cluster.marked, hi.forced, lt_irrefl, decide_false, List.any_eq_false]
      exact fun _ _ => Bool.false_ne_true
    rw [hnone, List.filter_false]
    exact Nat.zero_le _
  · exact fun s a s' h hs => h.step hd hs

/-- During and after an outage a read returns the last page written at an index exactly when
each node it decodes from that this write skipped happens to hold its block of the page. -/
theorem outage_read_last (hd : isal.Documented) (hr : (outage isal poolSize).Run w s)
    {me index : Nat} {page : Block4K} (hme : me < N)
    (hindex : index < (node isal poolSize me).getClusterCapacity)
    (hlast : s.last index = some page) :
    Wp (node isal poolSize me).handle ((node isal poolSize me).readBlock index) s.cluster
      (fun p _ => p = ⟨page, index⟩) ↔
    ∀ d ∈ (node isal poolSize me).chosen s.cluster, s.skipped index d = true →
      (node isal poolSize me).stored s.cluster index d =
        (node isal poolSize me).blockOf page d := by
  have h := outage_inv hd hr
  exact h.inv.read_last hd (h.up me hme) hindex (h.alive hme) hlast

theorem marked_congr {c c' : Cluster} (h : Cluster.Frame c c') : c'.marked = c.marked := by
  funext p
  simp only [Cluster.marked, h.status]

def marking (p : Nat) : PageStore := { fresh with cluster := fresh.cluster.markAsDead 0 p }

theorem outage_run {p : Nat} (hp : p = 1 ∨ p = 2) : ∃ w s,
    (outage IsaL.base 4096).Run w s ∧ s.last 0 = some (fun _ => 1) ∧
    (node IsaL.base 4096 0).chosen s.cluster = [0, 1] ∧
    (∀ d < N, s.skipped 0 d = decide (d = p)) ∧
    (node IsaL.base 4096 0).stored s.cluster 0 p = fun _ => 0 := by
  have hpN : p < N := by rcases hp with rfl | rfl <;> decide
  have hmark : ((List.range N).filter (marking p).cluster.marked).length ≤ P := by
    rcases hp with rfl | rfl <;> decide
  have halive : ∀ d < N, (marking p).cluster.isPeerAlive 0 d = !decide (d = p) := by
    rcases hp with rfl | rfl <;> decide
  have hr₁ : (outage IsaL.base 4096).Run _ (marking p) :=
    (System.Run.nil fresh_initial).snoc ⟨.markAsDead (by decide) hpN, trivial, hmark⟩
  have hindex : (⟨fun _ => 1, 0⟩ : Page).index < (node IsaL.base 4096 0).getClusterCapacity := by
    decide
  have hinv := (outage_inv IsaL.base_documented hr₁).inv
  obtain ⟨_, c, hr, hf, harea⟩ := hinv.writeBlock_returns hindex
  have hr₂ := hr₁.snoc ⟨.write (by decide) rfl hindex hr, trivial, marked_congr hf ▸ hmark⟩
  have hforced : ∀ q p', ((c.cancelMarking 0 p).peers q p').forcedConnStat = 0 := by
    intro q p'
    rw [Cluster.cancelMarking, setForced_forcedConnStat, hf.status, marking, Cluster.markAsDead,
      setForced_forcedConnStat]
    split <;> rfl
  have hnone : ((List.range N).filter (c.cancelMarking 0 p).marked).length ≤ P := by
    have hfalse : (c.cancelMarking 0 p).marked = fun _ => false := by
      funext p'
      rw [Cluster.marked, List.any_eq_false]
      intro q _
      rw [hforced]
      decide
    rw [hfalse]
    decide
  refine ⟨_, _, hr₂.snoc ⟨.cancelMarking (by decide) hpN, trivial, hnone⟩, rfl, ?_, ?_, ?_⟩
  · have hconn := (outage_inv IsaL.base_documented
      (hr₂.snoc ⟨.cancelMarking (by decide) hpN, trivial, hnone⟩)).connected
    have hall : (c.cancelMarking 0 p).isPeerAlive 0 = fun _ => true := by
      funext d
      simp only [Cluster.isPeerAlive, hforced, ne_eq, not_true, ↓reduceIte]
      split
      · rfl
      · exact hconn 0 d
    change (select ((c.cancelMarking 0 p).isPeerAlive 0) N).1 = [0, 1]
    rw [hall]
    decide
  · intro d hd
    simp only [written, ↓reduceIte, halive d hd, Bool.not_not]
  · have hp' := harea p
    rw [halive p hpN, if_neg (by simp)] at hp'
    simp only [stored, Cluster.cancelMarking, Cluster.setForced, Cluster.setPeer_area, written, hp']
    rfl

/-- The data node that missed the write is trusted again: half of the page read is stale. -/
theorem outage_read_stale : ¬∀ w s me index page, (outage IsaL.base 4096).Run w s → me < N →
    index < (node IsaL.base 4096 me).getClusterCapacity → s.last index = some page →
    Wp (node IsaL.base 4096 me).handle ((node IsaL.base 4096 me).readBlock index) s.cluster
      fun p _ => p.page = page := by
  intro hall
  obtain ⟨w, s, hr, hlast, hchosen, -, hstored⟩ := outage_run (.inl rfl)
  have h := outage_inv IsaL.base_documented hr
  have hindex : 0 < (node IsaL.base 4096 0).getClusterCapacity := by decide
  obtain ⟨p, c, hrun, hp⟩ := hall w s 0 0 _ hr (by decide) hindex hlast
  obtain ⟨pg, hblk, hw⟩ := h.inv.read_page IsaL.base_documented hindex (h.alive (by decide))
  have hpg : pg = fun _ => 1 := by rw [← hp, (hw.of_run hrun).1]
  have hone := hblk 1 (by rw [hchosen]; decide)
  rw [hstored, hpg, blockOf_data _ _ (by decide)] at hone
  have hbyte := congrFun hone ⟨0, by decide⟩
  revert hbyte
  decide

theorem outage_read_last_parity : ∃ w s, (outage IsaL.base 4096).Run w s ∧
    Wp (node IsaL.base 4096 0).handle ((node IsaL.base 4096 0).readBlock 0) s.cluster
      fun p _ => p = ⟨fun _ => 1, 0⟩ := by
  obtain ⟨w, s, hr, hlast, hchosen, hskip, -⟩ := outage_run (.inr rfl)
  refine ⟨w, s, hr, ?_⟩
  apply (outage_read_last IsaL.base_documented hr (by decide) (by decide) hlast).2
  intro d hmem hd
  rw [hchosen] at hmem
  have hlt : d < 2 := by
    revert d
    simp
  rw [hskip d (hlt.trans (by decide)), decide_eq_true_eq] at hd
  exact absurd hd hlt.ne

end PageStore

end Galois
