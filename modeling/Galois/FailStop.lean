import Galois.PageStore

namespace Galois
set_option autoImplicit true
set_option relaxedAutoImplicit false

open Prog ECAL

namespace PageStore

variable {isal : IsaL} {poolSize : Nat}

/-- What fail-stop runs keep: a socket sees exactly which nodes run, and a write skipped
only nodes that have failed. -/
structure FailStopInv (isal : IsaL) (poolSize : Nat) (s : PageStore) : Prop where
  inv : Inv isal poolSize s
  unforced : ∀ q p, (s.cluster.peers q p).forcedConnStat = 0
  connected : ∀ q, ∀ p < N, s.cluster.up p = true → (s.cluster.peers q p).connected = true
  skipped : ∀ i page, s.last i = some page → ∀ p < N, s.skipped i p = true →
    s.cluster.up p = false
  failed : ((List.range N).filter fun p => !s.cluster.up p).length ≤ P

namespace FailStopInv

variable {s s' : PageStore} (h : FailStopInv isal poolSize s)
include h

theorem isPeerAlive (me : Nat) {p : Nat} (hp : p < N) (hup : s.cluster.up p = true) :
    s.cluster.isPeerAlive me p = true := by
  simp only [Cluster.isPeerAlive, h.unforced, h.connected me p hp hup, ne_eq, not_true,
    ↓reduceIte, ite_self]

theorem alive (me : Nat) : K ≤ ((List.range N).filter (s.cluster.isPeerAlive me)).length := by
  apply alive_of_bad (fun p => !s.cluster.up p) ?_ h.failed
  intro p hp ha
  rw [Bool.not_eq_eq_eq_not, Bool.not_true, Bool.eq_false_iff]
  intro hup
  rw [h.isPeerAlive me hp hup] at ha
  cases ha

theorem step (hd : isal.Documented) {a : Action} (hs : (failStop isal poolSize).step s a s') :
    FailStopInv isal poolSize s' := by
  obtain ⟨hs, ha, hfailed⟩ := hs
  cases hs with
  | @write me page c hme hup hindex hr =>
    obtain ⟨hf, -⟩ := (h.inv.writeBlock_returns hindex).of_run hr
    refine ⟨h.inv.write hindex hr, fun q p => ?_, fun q p hp hup' => ?_,
      fun i pg hlast p hp hskip => ?_, hfailed⟩
    · rw [written, hf.status]
      exact h.unforced q p
    · rw [written, hf.status]
      rw [written, hf.up] at hup'
      exact h.connected q p hp hup'
    · simp only [written, hf.up] at hlast hskip ⊢
      split at hskip
      · rw [Bool.eq_false_iff]
        intro hup'
        rw [h.isPeerAlive me hp hup'] at hskip
        cases hskip
      · next hi =>
        rw [if_neg hi] at hlast
        exact h.skipped i pg hlast p hp hskip
  | @read me index page c hme hup hindex hr =>
    obtain ⟨hinv, hf⟩ := h.inv.read hd hindex (h.alive me) hr
    refine ⟨hinv, fun q p => ?_, fun q p hp hup' => ?_, fun i pg hlast p hp hskip => ?_, hfailed⟩
    · rw [hf.status]
      exact h.unforced q p
    · rw [hf.status]
      rw [hf.up] at hup'
      exact h.connected q p hp hup'
    · rw [hf.up]
      exact h.skipped i pg hlast p hp hskip
  | @fail n lost hn hup =>
    refine ⟨h.inv.fail n lost, fun q p => ?_, fun q p hp hup' => ?_,
      fun i pg hlast p hp hskip => ?_, hfailed⟩
    · simp only [Cluster.fail]
      split <;> exact h.unforced q p
    · simp only [Cluster.fail] at hup' ⊢
      split
      · next hpn =>
        rw [if_pos hpn] at hup'
        cases hup'
      · next hpn =>
        rw [if_neg hpn] at hup'
        exact h.connected q p hp hup'
    · simp only [Cluster.fail]
      split
      · rfl
      · exact h.skipped i pg hlast p hp hskip
  | markAsDead => exact ha.elim
  | cancelMarking => exact ha.elim

end FailStopInv

theorem failStop_inv (hd : isal.Documented) (hr : (failStop isal poolSize).Run w s) :
    FailStopInv isal poolSize s := by
  apply hr.invariant (I := FailStopInv isal poolSize)
  · intro s hi
    refine ⟨hi.inv, hi.forced, fun q p _ _ => hi.connected q p, fun i page hlast => ?_, ?_⟩
    · rw [hi.last] at hlast
      cases hlast
    · have hnone : (List.range N).filter (fun p => !s.cluster.up p) = [] := by
        rw [List.filter_eq_nil_iff]
        intro p hp
        rw [hi.up p (List.mem_range.1 hp)]
        decide
      rw [hnone]
      exact Nat.zero_le _
  · exact fun s a s' h hs => h.step hd hs

theorem FailStopInv.read_other {s s' : PageStore} (hd : isal.Documented)
    (h : FailStopInv isal poolSize s) {me q j : Nat} {page : Page}
    (hs : (failStop isal poolSize).step s (.write me page) s')
    (hj : j < (node isal poolSize q).getClusterCapacity) (hne : j ≠ page.index) : ∃ pg,
      Wp (node isal poolSize q).handle ((node isal poolSize q).readBlock j) s.cluster
        (fun p _ => p = ⟨pg, j⟩) ∧
      Wp (node isal poolSize q).handle ((node isal poolSize q).readBlock j) s'.cluster
        fun p _ => p = ⟨pg, j⟩ := by
  have h' := h.step hd hs
  obtain ⟨pg, hblk, hw⟩ := h.inv.read_page hd hj (h.alive q)
  refine ⟨pg, hw.mono fun _ _ hp => hp.1, ?_⟩
  obtain ⟨hs, -, -⟩ := hs
  cases hs with
  | @write _ _ c _ _ hindex hr =>
    obtain ⟨hf, harea⟩ := (h.inv.writeBlock_returns hindex).of_run hr
    have hchosen : (node isal poolSize q).chosen c = (node isal poolSize q).chosen s.cluster := by
      simp only [chosen, funext (hf.isPeerAlive q)]
    have hblk' : ∀ d ∈ (node isal poolSize q).chosen c,
        (node isal poolSize q).stored c j d = (node isal poolSize q).blockOf pg d := by
      intro d hmem
      rw [hchosen] at hmem
      rw [← hblk d hmem]
      have hd' := harea d
      split at hd'
      · exact (stored_storeBlock hd' j).trans (if_neg hne)
      · rw [stored, hd']
        rfl
    exact (readBlock_spec hd (inPool_of_lt hj) (h'.inv.slots q) (h'.inv.sound q) (h'.alive q)
      hblk').mono fun _ _ hp => hp.1

theorem FailStopInv.write_returns {s : PageStore} (h : FailStopInv isal poolSize s) {me : Nat}
    {page : Page} (hme : me < N) (hup : s.cluster.up me = true)
    (hindex : page.index < (node isal poolSize me).getClusterCapacity) :
    ∃ s', (failStop isal poolSize).step s (.write me page) s' := by
  obtain ⟨_, c, hr, hf, -⟩ := h.inv.writeBlock_returns hindex
  refine ⟨s.written me page c, .write hme hup hindex hr, trivial, ?_⟩
  rw [written, hf.up]
  exact h.failed

/-- In a run with at most `P` failures every live node can write, reads back the last page
written at an index, and never sees a write at one index change another. -/
theorem failStop_correct (hd : isal.Documented) (hr : (failStop isal poolSize).Run w s)
    {me : Nat} (hme : me < N) (hup : s.cluster.up me = true) :
    (∀ page : Page, page.index < (node isal poolSize me).getClusterCapacity →
      ∃ s', (failStop isal poolSize).step s (.write me page) s') ∧
    (∀ index page, index < (node isal poolSize me).getClusterCapacity →
      s.last index = some page →
      Wp (node isal poolSize me).handle ((node isal poolSize me).readBlock index) s.cluster
        fun p _ => p = ⟨page, index⟩) ∧
    (∀ writer page s' j, (failStop isal poolSize).step s (.write writer page) s' →
      j < (node isal poolSize me).getClusterCapacity → j ≠ page.index → ∃ pg,
        Wp (node isal poolSize me).handle ((node isal poolSize me).readBlock j) s.cluster
          (fun p _ => p = ⟨pg, j⟩) ∧
        Wp (node isal poolSize me).handle ((node isal poolSize me).readBlock j) s'.cluster
          fun p _ => p = ⟨pg, j⟩) := by
  have h := failStop_inv hd hr
  refine ⟨fun page hindex => h.write_returns hme hup hindex, fun index page hindex hlast => ?_,
    fun writer page s' j hs hj hne => h.read_other hd hs hj hne⟩
  apply (h.inv.read_last hd hup hindex (h.alive me) hlast).2
  intro d hmem hskip
  obtain ⟨hdN, ha⟩ := (select_inv (s.cluster.isPeerAlive me) N).chosen d hmem
  have hupd := h.inv.isPeerAlive_up hup hdN ha
  rw [h.skipped index page hlast d hdN hskip] at hupd
  cases hupd

/-- Node 0 writes a page, node 1 fails, and node 2 reads the page. -/
theorem failStop_correct_degraded : ∃ w s, (failStop IsaL.base 4096).Run w s ∧
    s.cluster.up 1 = false ∧
    Wp (node IsaL.base 4096 2).handle ((node IsaL.base 4096 2).readBlock 0) s.cluster
      fun p _ => p = ⟨fun _ => 1, 0⟩ := by
  have hd := IsaL.base_documented
  have hr₀ : (failStop IsaL.base 4096).Run [] fresh := .nil fresh_initial
  have hinv := (failStop_inv hd hr₀).inv
  have hwrite : ∃ s', (failStop IsaL.base 4096).step fresh (.write 0 ⟨fun _ => 1, 0⟩) s' :=
    (failStop_inv hd hr₀).write_returns (by decide) rfl (by decide)
  obtain ⟨s, hs⟩ := hwrite
  have hr₁ := hr₀.snoc hs
  obtain ⟨hs, -, -⟩ := hs
  cases hs with
  | @write _ _ c _ _ hindex hr =>
    obtain ⟨hf, -⟩ := (hinv.writeBlock_returns hindex).of_run hr
    have hup : c.up = fun _ => true := hf.up
    have hfail : (failStop IsaL.base 4096).step (fresh.written 0 ⟨fun _ => 1, 0⟩ c)
        (.fail 1 fun _ => 0) { fresh.written 0 ⟨fun _ => 1, 0⟩ c with
          cluster := c.fail 1 fun _ => 0 } := by
      refine ⟨.fail _ (by decide) (by simp only [written, hup]), trivial, ?_⟩
      simp only [Cluster.fail, hup]
      decide
    refine ⟨_, _, hr₁.snoc hfail, rfl, ?_⟩
    have hme : 2 < N := by decide
    have hup₂ : (c.fail 1 fun _ => 0).up 2 = true := by
      simp only [Cluster.fail, hup, OfNat.ofNat_ne_one, ↓reduceIte]
    exact (failStop_correct hd (hr₁.snoc hfail) hme hup₂).2.1 0 _ (by decide) rfl

end PageStore

end Galois
