import Galois.ReadWrite

namespace Galois
set_option autoImplicit true
set_option relaxedAutoImplicit false

open Prog

namespace ECAL

/-- The block locations, a node and a row each, of the page with the given index. -/
def locations (e : ECAL) (index : Nat) : Finset (Nat × Nat) :=
  let pos := e.getDataPos index
  (Finset.range N).image fun i => ((pos.startNodeId + i) % N, pos.row)

def blockAt (c : Cluster) (l : Nat × Nat) : BlockTy := (c.area l.1).load (l.2 * blockSize) blockSize

theorem mem_locations (e : ECAL) {index : Nat} {l : Nat × Nat} :
    l ∈ e.locations index ↔ l.1 < N ∧ l.2 = (e.getDataPos index).row := by
  simp only [locations, Finset.mem_image, Finset.mem_range]
  constructor
  · rintro ⟨i, hi, rfl⟩
    exact ⟨Nat.mod_lt _ (by decide), rfl⟩
  · rintro ⟨hl, hrow⟩
    exact ⟨l.1, hl, Prod.ext (node_lt index hl) hrow.symm⟩

theorem locations_disjoint (e : ECAL) {i j : Nat} :
    Disjoint (e.locations i) (e.locations j) ↔ (e.getDataPos i).row ≠ (e.getDataPos j).row := by
  rw [Finset.disjoint_left]
  constructor
  · intro h hrow
    have h0 : 0 < N := by decide
    exact h ((e.mem_locations (l := (0, (e.getDataPos i).row))).2 ⟨h0, rfl⟩)
      (e.mem_locations.2 ⟨h0, hrow⟩)
  · intro h l hi hj
    exact h ((e.mem_locations.1 hi).2.symm.trans (e.mem_locations.1 hj).2)

/-- Two different pages share no location. -/
def PlacedApart (e : ECAL) : Prop :=
  ∀ i < e.getClusterCapacity, ∀ j < e.getClusterCapacity, i ≠ j →
    Disjoint (e.locations i) (e.locations j)

/-- Writing one page leaves every block of every other page as it was. -/
def WritesIsolated (e : ECAL) : Prop :=
  ∀ (c : Cluster) (page : Page) (j : Nat), c.HasSlots e.me → c.Sound e.me →
    page.index < e.getClusterCapacity → j < e.getClusterCapacity → j ≠ page.index →
    Wp e.handle (e.writeBlock page) c fun _ c' => ∀ l ∈ e.locations j, blockAt c' l = blockAt c l

variable {e : ECAL}

theorem writeBlock_locations {c : Cluster} {page : Page} (hs : c.HasSlots e.me) (hl : c.Sound e.me)
    (hindex : page.index < e.getClusterCapacity) :
    Wp e.handle (e.writeBlock page) c fun _ c' => ∀ l, blockAt c' l =
      if l ∈ e.locations page.index ∧ c.isPeerAlive e.me l.1 = true then e.blockOf page.page l.1
      else blockAt c l := by
  apply (writeBlock_spec (inPool_of_lt hindex) hs hl).mono
  rintro - c' ⟨-, harea⟩ l
  rw [blockAt, harea l.1]
  simp only [mem_locations]
  by_cases ha : l.1 < N ∧ c.isPeerAlive e.me l.1 = true
  · rw [if_pos ha, storeBlock, Mem.load_store_block]
    simp only [ha.1, ha.2, true_and, and_true, eq_comm (a := l.2)]
    rfl
  · rw [if_neg ha, if_neg fun hc => ha ⟨hc.1.1, hc.2⟩]
    rfl

theorem PlacedApart.writesIsolated (h : e.PlacedApart) : e.WritesIsolated := by
  intro c page j hs hl hindex hj hne
  apply (writeBlock_locations hs hl hindex).mono
  intro _ c' hc l hmem
  have hnot : l ∉ e.locations page.index := fun hl' =>
    Finset.disjoint_left.1 (h j hj page.index hindex hne) hmem hl'
  rw [hc l, if_neg fun h => hnot h.1]

/-- All pages are placed on nodes `0` to `N - 1`, so that rows hold more than one page as soon
as the cluster has more than `N` nodes. -/
theorem placedApart_iff (h0 : 0 < e.clusterSize) (hN : N ∣ e.clusterSize) :
    e.PlacedApart ∧ e.WritesIsolated ↔ e.clusterSize = N ∨ e.getClusterCapacity ≤ 1 := by
  constructor
  · rintro ⟨h, -⟩
    by_contra hnot
    push Not at hnot
    obtain ⟨hne, hcap⟩ := hnot
    obtain ⟨m, hm⟩ := hN
    have hpages : 1 < e.clusterSize / N := by
      rw [hm, Nat.mul_div_cancel_left m (by decide)]
      rcases m with _ | _ | m
      · rw [hm, Nat.mul_zero] at h0
        exact absurd h0 (lt_irrefl 0)
      · rw [hm, Nat.zero_add, Nat.mul_one] at hne
        exact absurd rfl hne
      · omega
    apply (locations_disjoint e).1 (h 0 (by omega) 1 hcap (by decide))
    simp only [getDataPos, Nat.zero_div, Nat.div_eq_of_lt hpages]
  · intro h
    have hapart : e.PlacedApart := by
      intro i hi j hj hij
      rcases h with h | h
      · rw [locations_disjoint]
        simpa only [getDataPos, h, Nat.div_self (show 0 < N by decide), Nat.div_one] using hij
      · omega
    exact ⟨hapart, hapart.writesIsolated⟩

theorem threeNodes_apart :
    ECAL.PlacedApart ⟨IsaL.base, 3, 0, 8192⟩ ∧ ECAL.WritesIsolated ⟨IsaL.base, 3, 0, 8192⟩ :=
  (placedApart_iff (by decide) (by decide)).2 (.inl rfl)

/-- On six nodes the pages 0 and 1 are the same blocks, and a write of one destroys the other. -/
theorem sixNodes_collide : ¬(ECAL.PlacedApart ⟨IsaL.base, 6, 0, 8192⟩) ∧
    ¬(ECAL.WritesIsolated ⟨IsaL.base, 6, 0, 8192⟩) := by
  constructor
  · intro h
    exact (locations_disjoint _).1 (h 0 (by decide) 1 (by decide) (by decide)) (by decide)
  · intro h
    obtain ⟨_, c, hr, hc⟩ := h .fresh ⟨fun _ => 1, 0⟩ 1 (Cluster.fresh_hasSlots 0)
      (Cluster.fresh_sound 0) (by decide) (by decide) (by decide)
    have hw := (writeBlock_locations (Cluster.fresh_hasSlots 0) (Cluster.fresh_sound 0)
      (by decide)).of_run hr (0, 0)
    rw [hc (0, 0) (by decide), if_pos (by decide), blockOf_data _ _ (by decide)] at hw
    have hbyte := congrFun hw ⟨0, by decide⟩
    revert hbyte
    decide

end ECAL

end Galois
