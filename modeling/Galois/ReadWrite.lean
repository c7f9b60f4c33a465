import Galois.Cluster

namespace Galois
set_option autoImplicit true
set_option relaxedAutoImplicit false

open Prog

namespace ECAL

variable {e : ECAL} {c : Cluster}

/-- The area of node `q` once the block of `page` for it has been stored there. -/
def storeBlock (e : ECAL) (page : Page) (q : Nat) (m : Mem) : Mem :=
  m.store ((e.getDataPos page.index).row * blockSize) (e.blockOf page.page q)

theorem slot_fits {i n : Nat} (hi : i < NConcurrency) (hn : n ≤ 4096) :
    i * 4096 + n ≤ 4096 * NConcurrency := by
  simp only [NConcurrency] at *
  omega

theorem slot_lt {b : Bitmap 32} {i : Nat} (hi : b.getLsbD i = true) :
    i * 4096 + blockSize ≤ 4096 * NConcurrency :=
  slot_fits (BitVec.lt_of_getLsbD hi) (by decide)

theorem freeBit_addr {b : Bitmap 32} {i : Nat} (hi : b.getLsbD i = true) :
    Bitmap.freeBit (b &&& ~~~BitVec.twoPow 32 i) (i * 4096 / 4096) = b := by
  rw [Nat.mul_div_cancel i (by decide), Bitmap.freeBit_alloc hi]

theorem handle_getWriteRegion {p : Nat} (hf : (c.peers e.me p).writeBitmap ≠ 0) :
    ∃ i, (c.peers e.me p).writeBitmap.getLsbD i = true ∧
      e.handle (.getWriteRegion p) c = some (i * 4096, c.setPeer e.me p
        { c.peers e.me p with
          writeBitmap := (c.peers e.me p).writeBitmap &&& ~~~BitVec.twoPow 32 i }) := by
  obtain ⟨i, hi, ha⟩ := Bitmap.allocBit_spec hf
  refine ⟨i, hi, ?_⟩
  have hne : (i : Int) ≠ -1 := by omega
  simp only [handle, ha, hne, ↓reduceIte, Int.toNat_natCast]
  rfl

theorem handle_getReadRegion {p : Nat} (hf : (c.peers e.me p).readBitmap ≠ 0) :
    ∃ i, (c.peers e.me p).readBitmap.getLsbD i = true ∧
      e.handle (.getReadRegion p) c = some (i * 4096, c.setPeer e.me p
        { c.peers e.me p with
          readBitmap := (c.peers e.me p).readBitmap &&& ~~~BitVec.twoPow 32 i }) := by
  obtain ⟨i, hi, ha⟩ := Bitmap.allocBit_spec hf
  refine ⟨i, hi, ?_⟩
  have hne : (i : Int) ≠ -1 := by omega
  simp only [handle, ha, hne, ↓reduceIte, Int.toNat_natCast]
  rfl

def InPool (e : ECAL) (index : Nat) : Prop :=
  (e.getDataPos index).row * blockSize + blockSize ≤ e.poolSize

theorem handle_storePool {row : Nat} (blk : BlockTy)
    (h : row * blockSize + blockSize ≤ e.poolSize) : e.handle (.storePool row blk) c =
      some ((), c.setArea e.me ((c.area e.me).store (row * blockSize) blk)) := if_pos h

theorem handle_loadPool {row : Nat} (h : row * blockSize + blockSize ≤ e.poolSize) :
    e.handle (.loadPool row) c = some ((c.area e.me).load (row * blockSize) blockSize, c) :=
  if_pos h

theorem handle_postWrite {p shift src len : Nat} (hup : c.up p = true)
    (h : shift + len ≤ e.poolSize) (hr : src + len ≤ 4096 * NConcurrency) :
    e.handle (.postWrite p shift src len) c = some ((), c.setArea p
      ((c.area p).store shift ((c.peers e.me p).writeRegion.load src len))) := if_pos ⟨hup, h, hr⟩

theorem handle_postRead {p shift dst len taskId : Nat} (hup : c.up p = true)
    (h : shift + len ≤ e.poolSize) (hr : dst + len ≤ 4096 * NConcurrency) :
    e.handle (.postRead p shift dst len taskId) c = some ((), c.setPeer e.me p
      { c.peers e.me p with
        readRegion := (c.peers e.me p).readRegion.store dst ((c.area p).load shift len) }) :=
  if_pos ⟨hup, h, hr⟩

theorem inPool_of_lt {index : Nat} (h : index < e.getClusterCapacity) :
    e.InPool index := by
  have hcap : e.getClusterCapacity ≤ e.clusterSize / N * e.poolLength := by
    rw [getClusterCapacity]
    apply Nat.div_le_of_le_mul
    apply (Nat.mod_le _ _).trans
    apply le_of_eq
    simp only [blockSize, K]
    ring
  have hrow : index / (e.clusterSize / N) < e.poolLength :=
    Nat.div_lt_of_lt_mul (h.trans_le hcap)
  calc index / (e.clusterSize / N) * blockSize + blockSize
      = (index / (e.clusterSize / N) + 1) * blockSize := (Nat.succ_mul _ _).symm
    _ ≤ e.poolLength * blockSize := Nat.mul_le_mul_right _ hrow
    _ ≤ e.poolSize := Nat.div_mul_le_self _ _

theorem node_lt {i : Nat} (index : Nat) (hi : i < N) :
    ((e.getDataPos index).startNodeId + i) % N = i := by
  rw [getDataPos, Nat.zero_add, Nat.mod_eq_of_lt hi]

theorem writeStep_spec {page : Page} {i : Nat} (hi : i < N) (hrow : e.InPool page.index)
    (hs : c.HasSlots e.me) (hl : c.Sound e.me) :
    Wp e.handle (e.writeStep page i) c fun _ c' => Cluster.Frame c c' ∧
      ∀ q, c'.area q = if q = i ∧ c.isPeerAlive e.me i = true then e.storeBlock page q (c.area q)
        else c.area q := by
  simp only [writeStep, node_lt page.index hi]
  by_cases hme : i = e.me
  · have halive : c.isPeerAlive e.me i = true := by rw [Cluster.isPeerAlive, if_pos hme]
    rw [if_pos hme]
    apply Wp.call (handle_storePool _ hrow)
    apply Wp.ret
    refine ⟨⟨rfl, fun _ _ => rfl⟩, fun q => ?_⟩
    simp only [halive, and_true]
    split
    · next hq => rw [hq, hme, Cluster.setArea_self, storeBlock]
    · next hq => rw [Cluster.setArea_ne _ _ (hme ▸ hq)]
  · rw [if_neg hme]
    apply Wp.call (r := c.isPeerAlive e.me i) rfl
    cases halive : c.isPeerAlive e.me i with
    | false =>
      apply Wp.ret
      exact ⟨.refl c, fun q => by simp only [Bool.false_eq_true, and_false, ↓reduceIte]⟩
    | true =>
      have hup := hl i hi hme halive
      obtain ⟨j, hj, ha⟩ := handle_getWriteRegion (hs i).2
      apply Wp.call ha
      apply Wp.call rfl
      apply Wp.call (handle_postWrite (by exact hup) hrow (slot_lt hj))
      apply Wp.call rfl
      apply Wp.call rfl
      apply Wp.ret
      -- the slot is given back, so only the memory of node `i` has changed
      simp only [Cluster.setPeer_setPeer, Cluster.setPeer_self, Cluster.setPeer_area,
        Cluster.setArea_setPeer, and_true, freeBit_addr hj, Mem.load_store]
      constructor
      · apply Cluster.Frame.setPeer
        · exact ⟨rfl, fun _ _ => rfl⟩
        · rfl
      · intro q
        split
        · next hq =>
          rw [hq, Cluster.setArea_self]
          rfl
        · next hq => rw [Cluster.setArea_ne _ _ hq]

theorem writeBlock_spec {page : Page} (hrow : e.InPool page.index)
    (hs : c.HasSlots e.me) (hl : c.Sound e.me) :
    Wp e.handle (e.writeBlock page) c fun _ c' => Cluster.Frame c c' ∧
      ∀ q, c'.area q = if q < N ∧ c.isPeerAlive e.me q = true then e.storeBlock page q (c.area q)
        else c.area q := by
  apply Wp.foldlM_range (I := fun i _ c' => Cluster.Frame c c' ∧
    ∀ q, c'.area q = if q < i ∧ c.isPeerAlive e.me q = true then e.storeBlock page q (c.area q)
      else c.area q) N
  · exact ⟨.refl c, fun q => by simp only [Nat.not_lt_zero, false_and, ↓reduceIte]⟩
  · rintro i hi - c₁ ⟨hf, harea⟩
    apply (writeStep_spec hi hrow (hf.hasSlots hs) (hf.sound hl)).mono
    rintro - c₂ ⟨hf', harea'⟩
    refine ⟨hf.trans hf', fun q => ?_⟩
    rw [harea' q, harea q, hf.isPeerAlive]
    rcases Nat.lt_trichotomy q i with hq | rfl | hq
    · simp only [hq, hq.ne, hq.trans i.lt_succ_self, true_and, false_and, ↓reduceIte]
    · simp only [lt_irrefl, q.lt_succ_self, true_and, false_and, ↓reduceIte]
    · have hlt : ¬q < i + 1 := by omega
      simp only [hlt, hq.ne', hq.le.not_gt, false_and, ↓reduceIte]

def stored (e : ECAL) (c : Cluster) (index q : Nat) : BlockTy :=
  (c.area q).load ((e.getDataPos index).row * blockSize) blockSize

/-- The nodes `readBlock` decodes from when it finds liveness as in `c`. -/
def chosen (e : ECAL) (c : Cluster) : List Nat := (select (c.isPeerAlive e.me) N).1

/-- What `recoverSrc` holds for node `d`, and what that takes of the sockets of `c`. -/
def Holds (e : ECAL) (c c' : Cluster) (index d : Nat) : Source → Prop
  | .pool row => d = e.me ∧ row = (e.getDataPos index).row
  | .region p addr => p = d ∧ d ≠ e.me ∧ ∃ i,
      (c.peers e.me d).readBitmap.getLsbD i = true ∧ addr = i * 4096 ∧
      (c'.peers e.me d).toConnStatus = { (c.peers e.me d).toConnStatus with
        readBitmap := (c.peers e.me d).readBitmap &&& ~~~BitVec.twoPow 32 i } ∧
      (c'.peers e.me d).readRegion.load addr blockSize = e.stored c index d

/-- `c'` is `c` with the blocks of the nodes in `ds` fetched and not given back yet. -/
structure Taken (e : ECAL) (c : Cluster) (index : Nat) (ds : List Nat) (srcs : List Source)
    (c' : Cluster) : Prop where
  area : c'.area = c.area
  up : c'.up = c.up
  rest : ∀ q p, ¬(q = e.me ∧ p ≠ e.me ∧ p ∈ ds) →
    (c'.peers q p).toConnStatus = (c.peers q p).toConnStatus
  held : List.Forall₂ (e.Holds c c' index) ds srcs

namespace Taken

variable {index : Nat} {ds : List Nat} {srcs : List Source} {c' : Cluster}

theorem nil (e : ECAL) (c : Cluster) (index : Nat) : Taken e c index [] [] c :=
  ⟨rfl, rfl, fun _ _ _ => rfl, .nil⟩

theorem frame (h : Taken e c index [] srcs c') : Cluster.Frame c c' ∧ c'.area = c.area :=
  ⟨⟨h.up, fun q p => h.rest q p (by simp)⟩, h.area⟩

theorem held_setPeer {d : Nat} (conn : RDMAConnection) (hd : d ∉ ds)
    (h : List.Forall₂ (e.Holds c c' index) ds srcs) :
    List.Forall₂ (e.Holds c (c'.setPeer e.me d conn) index) ds srcs := by
  induction h with
  | nil => exact .nil
  | @cons x src xs srcs hx _ ih =>
    obtain ⟨hne, hd⟩ := List.ne_and_not_mem_of_not_mem_cons hd
    refine .cons ?_ (ih hd)
    cases src with
    | pool row => exact hx
    | region p addr =>
      obtain ⟨hp, hme, i, hi, ha, hs, hr⟩ := hx
      rw [← Cluster.setPeer_ne c' conn (fun hc => hne hc.2.symm) (q := e.me)] at hs hr
      exact ⟨hp, hme, i, hi, ha, hs, hr⟩

theorem rest_mono {xs : List Nat} (hsub : ds ⊆ xs) (h : Taken e c index ds srcs c') :
    ∀ q p, ¬(q = e.me ∧ p ≠ e.me ∧ p ∈ xs) →
      (c'.peers q p).toConnStatus = (c.peers q p).toConnStatus :=
  fun q p hp => h.rest q p fun ⟨hq, hne, hmem⟩ => hp ⟨hq, hne, hsub hmem⟩

theorem fetchBlock_spec {d i : Nat} (h : Taken e c index ds srcs c') (hrow : e.InPool index)
    (hs : c.HasSlots e.me) (hl : c.Sound e.me) (hd : d < N)
    (ha : c.isPeerAlive e.me d = true) (hn : d ∉ ds) :
    Wp e.handle (e.fetchBlock (e.getDataPos index) d i) c' fun src c'' =>
      Taken e c index (ds ++ [d]) (srcs ++ [src]) c'' := by
  have hpeer : (d + (e.getDataPos index).startNodeId) % N = d := by
    rw [Nat.add_comm, node_lt index hd]
  simp only [fetchBlock, hpeer]
  by_cases hme : d = e.me
  · rw [if_neg (not_not.2 hme)]
    apply Wp.ret
    refine ⟨h.area, h.up, h.rest_mono (List.subset_append_left _ _), ?_⟩
    exact List.rel_append h.held (.cons ⟨hme, rfl⟩ .nil)
  · rw [if_pos hme]
    have hst := h.rest e.me d fun hc => hn hc.2.2
    have hfree : (c'.peers e.me d).readBitmap ≠ 0 := by
      rw [hst]
      exact (hs d).1
    obtain ⟨j, hj, halloc⟩ := handle_getReadRegion hfree
    have hup : c'.up d = true := h.up ▸ hl d hd hme ha
    apply Wp.call halloc
    apply Wp.call (handle_postRead (by exact hup) hrow (slot_lt hj))
    apply Wp.call rfl
    apply Wp.ret
    simp only [Cluster.setPeer_setPeer, Cluster.setPeer_self, Cluster.setPeer_area]
    refine ⟨h.area, h.up, ?_, ?_⟩
    · intro q p hp
      rw [Cluster.setPeer_ne, h.rest_mono (List.subset_append_left _ _) q p hp]
      rintro ⟨rfl, rfl⟩
      exact hp ⟨rfl, hme, List.mem_append_right _ (List.mem_singleton_self _)⟩
    · refine List.rel_append (held_setPeer _ hn h.held) (.cons ?_ .nil)
      rw [hst] at hj
      refine ⟨rfl, hme, j, hj, rfl, ?_, ?_⟩
      · rw [Cluster.setPeer_self, hst]
      · rw [Cluster.setPeer_self, Mem.load_store, h.area]
        rfl

theorem freeBlock_spec {d : Nat} {src : Source} (h : Taken e c index (d :: ds) (src :: srcs) c')
    (hd : d < N) (hn : d ∉ ds) :
    Wp e.handle (e.freeBlock (e.getDataPos index) d src) c' fun _ c'' =>
      Taken e c index ds srcs c'' := by
  have hpeer : (d + (e.getDataPos index).startNodeId) % N = d := by
    rw [Nat.add_comm, node_lt index hd]
  obtain ⟨hsrc, hsrcs⟩ := List.forall₂_cons.1 h.held
  simp only [freeBlock, hpeer]
  by_cases hme : d = e.me
  · rw [if_neg (not_not.2 hme)]
    apply Wp.ret
    refine ⟨h.area, h.up, fun q p hp => h.rest q p ?_, hsrcs⟩
    rintro ⟨hq, hne, hmem⟩
    rcases List.mem_cons.1 hmem with rfl | hmem
    · exact hne hme
    · exact hp ⟨hq, hne, hmem⟩
  · rw [if_pos hme]
    cases src with
    | pool row => exact absurd hsrc.1 hme
    | region p addr =>
      obtain ⟨-, -, i, hi, rfl, hst, -⟩ := hsrc
      apply Wp.call rfl
      apply Wp.ret
      refine ⟨h.area, h.up, fun q p hp => ?_, held_setPeer _ hn hsrcs⟩
      by_cases hqp : q = e.me ∧ p = d
      · obtain ⟨rfl, rfl⟩ := hqp
        rw [Cluster.setPeer_self]
        simp only [Source.addr, hst, freeBit_addr hi]
      · rw [Cluster.setPeer_ne _ _ hqp]
        apply h.rest q p
        rintro ⟨hq, hne, hmem⟩
        rcases List.mem_cons.1 hmem with rfl | hmem
        · exact hqp ⟨hq, rfl⟩
        · exact hp ⟨hq, hne, hmem⟩

theorem load_spec {d : Nat} {src : Source} (h : e.Holds c c' index d src)
    (harea : c'.area = c.area) (hrow : e.InPool index) :
    Wp e.handle src.load c' fun b s => b = e.stored c index d ∧ s = c' := by
  cases src with
  | pool row =>
    obtain ⟨rfl, rfl⟩ := h
    apply Wp.call (handle_loadPool hrow)
    apply Wp.ret
    exact ⟨by rw [harea]; rfl, rfl⟩
  | region p addr =>
    obtain ⟨rfl, -, i, -, -, -, hr⟩ := h
    apply Wp.call rfl
    apply Wp.ret
    exact ⟨hr, rfl⟩

theorem loadAll_spec (harea : c'.area = c.area) (hrow : e.InPool index)
    (h : List.Forall₂ (e.Holds c c' index) ds srcs) :
    Wp e.handle (srcs.mapM Source.load) c' fun blks s =>
      blks = ds.map (e.stored c index) ∧ s = c' := by
  induction h with
  | nil => exact .ret ⟨rfl, rfl⟩
  | cons hx _ ih =>
    rw [List.mapM_cons]
    apply Wp.bind
    apply (load_spec hx harea hrow).mono
    rintro _ _ ⟨rfl, rfl⟩
    apply Wp.bind
    apply ih.mono
    rintro _ _ ⟨rfl, rfl⟩
    exact .ret ⟨rfl, rfl⟩

end Taken

section Loops

variable {index : Nat} {ds : List Nat} {srcs : List Source} {c' : Cluster}

theorem selectSurvivors_spec {h : Handler sig σ} {alive : Nat → Bool} (e : ECAL) (index : Nat)
    (ha : ∀ p, h (.isPeerAlive p) s = some (alive p, s)) :
    Wp h (selectSurvivors (e.getDataPos index)) s fun acc s' =>
      acc = select alive N ∧ s' = s := by
  apply Wp.foldlM_range (I := fun m acc s' => acc = select alive m ∧ s' = s) N
  · exact ⟨rfl, rfl⟩
  · rintro m hm _ s₁ ⟨rfl, rfl⟩
    have hpeer : (m + (e.getDataPos index).startNodeId) % N = m := by
      rw [Nat.add_comm, node_lt index hm]
    have hsucc := select_succ alive m
    simp only [hpeer]
    split
    · next hlt =>
      apply Wp.call (ha m)
      apply Wp.ret
      exact ⟨by rw [hsucc, if_pos hlt], rfl⟩
    · next hlt => exact .ret ⟨by rw [hsucc, if_neg hlt], rfl⟩

theorem fetchBlocks_spec (hrow : e.InPool index) (hs : c.HasSlots e.me) (hl : c.Sound e.me)
    (hlen : ds.length = K) (hn : ds.Nodup) (hds : ∀ d ∈ ds, d < N ∧ c.isPeerAlive e.me d = true) :
    Wp e.handle (e.fetchBlocks (e.getDataPos index) ds) c fun srcs c' =>
      Taken e c index ds srcs c' := by
  apply (Wp.foldlM_range (I := fun i srcs c' => Taken e c index (ds.take i) srcs c') K ?_ ?_).mono
  · intro srcs c' h
    rwa [ds.take_of_length_le hlen.le] at h
  · exact .nil e c index
  · intro i hi srcs c' h
    have hlt : i < ds.length := hi.trans_eq hlen.symm
    have hmem : ds[i] ∈ ds := List.getElem_mem hlt
    rw [entry_eq hlt, List.getD_eq_getElem _ _ hlt, ret_bind, ← List.take_append_getElem hlt]
    apply Wp.bind
    apply (h.fetchBlock_spec hrow hs hl (hds _ hmem).1 (hds _ hmem).2
      (notMem_take hn hlt)).mono
    exact fun src c'' h' => .ret h'

theorem freeBlocks_spec (h : Taken e c index ds srcs c') (hlen : ds.length = K) (hn : ds.Nodup)
    (hds : ∀ d ∈ ds, d < N) :
    Wp e.handle (e.freeBlocks (e.getDataPos index) ds srcs) c' fun _ c'' =>
      Cluster.Frame c c'' ∧ c''.area = c.area := by
  have hsrcs : srcs.length = ds.length := h.held.length_eq.symm
  apply (Wp.foldlM_range (I := fun i _ c'' =>
    Taken e c index (ds.drop i) (srcs.drop i) c'') K h ?_).mono
  · intro _ c'' h'
    rw [← hlen, List.drop_length] at h'
    exact h'.frame
  · intro i hi _ c₁ h'
    have hlt : i < ds.length := hi.trans_eq hlen.symm
    have hlt' : i < srcs.length := hlt.trans_eq hsrcs.symm
    rw [entry_eq hlt, List.getD_eq_getElem _ _ hlt, ret_bind, List.getD_eq_getElem _ _ hlt']
    rw [List.drop_eq_getElem_cons hlt, List.drop_eq_getElem_cons hlt'] at h'
    exact h'.freeBlock_spec (hds _ (List.getElem_mem hlt)) (notMem_drop hn hlt)

theorem copyIntact_spec {page : Block4K} (h : Taken e c index ds srcs c') (hrow : e.InPool index)
    (hlen : ds.length = K) (hblk : ∀ d ∈ ds, e.stored c index d = e.blockOf page d) :
    Wp e.handle (copyIntact ds srcs) c' fun data c'' => c'' = c' ∧
      ∀ j < K, j ∈ ds → data.load (j * blockSize) blockSize = dataBlock page j := by
  apply (Wp.foldlM_range (I := fun i data c'' => c'' = c' ∧ ∀ j < K, j ∈ ds.take i →
    data.load (j * blockSize) blockSize = dataBlock page j) K ?_ ?_).mono
  · rintro data c'' ⟨hc, hdata⟩
    rw [ds.take_of_length_le hlen.le] at hdata
    exact ⟨hc, hdata⟩
  · exact ⟨rfl, fun j _ hj => by simp at hj⟩
  · rintro i hi data c'' ⟨rfl, hdata⟩
    have hlt : i < ds.length := hi.trans_eq hlen.symm
    have hlt' : i < srcs.length := hlt.trans_eq h.held.length_eq
    rw [entry_eq hlt, List.getD_eq_getElem _ _ hlt, ret_bind, List.getD_eq_getElem _ _ hlt']
    have hstep : ∀ j ∈ ds.take (i + 1), j ∈ ds.take i ∨ j = ds[i] := by
      intro j hj
      rw [← List.take_append_getElem hlt, List.mem_append, List.mem_singleton] at hj
      exact hj
    split
    · next hk =>
      apply Wp.bind
      apply (Taken.load_spec (h.held.get hlt hlt') h.area hrow).mono
      rintro _ _ ⟨rfl, rfl⟩
      refine .ret ⟨rfl, fun j hj hmem => ?_⟩
      rw [Mem.load_store_block, List.get_eq_getElem, hblk _ (List.getElem_mem hlt)]
      split
      · next hd => rw [hd, blockOf_data e page hj]
      · next hd => exact hdata j hj ((hstep j hmem).resolve_right (Ne.symm hd))
    · next hk =>
      refine .ret ⟨rfl, fun j hj hmem => hdata j hj ((hstep j hmem).resolve_right ?_)⟩
      rintro rfl
      exact hk hj

end Loops

/-- `readBlock` returns the page whose blocks the chosen nodes hold, and changes no memory. -/
theorem readBlock_spec {index : Nat} {page : Block4K} (hd : e.isal.Documented)
    (hrow : e.InPool index) (hs : c.HasSlots e.me) (hl : c.Sound e.me)
    (hK : K ≤ ((List.range N).filter (c.isPeerAlive e.me)).length)
    (hblk : ∀ d ∈ e.chosen c, e.stored c index d = e.blockOf page d) :
    Wp e.handle (e.readBlock index) c fun p c' => p = ⟨page, index⟩ ∧ Cluster.Frame c c' ∧
      c'.area = c.area := by
  have hsel := select_spec hK
  have hch := (select_inv (c.isPeerAlive e.me) N).chosen
  rw [chosen] at hblk
  rw [readBlock]
  apply Wp.bind
  apply (selectSurvivors_spec e index fun _ => rfl).mono
  rintro ⟨ds, es⟩ c₁ ⟨hse, rfl⟩
  rw [← hse] at hsel hch hblk
  simp only at hsel hch hblk ⊢
  apply Wp.bind
  apply (fetchBlocks_spec hrow hs hl hsel.length hsel.nodup hch).mono
  intro srcs c₂ htaken
  apply Wp.bind
  apply (copyIntact_spec htaken hrow hsel.length hblk).mono
  rintro data _ ⟨rfl, hdata⟩
  have hfree := freeBlocks_spec htaken hsel.length hsel.nodup hsel.lt
  split
  · next hes =>
    -- both data blocks were fetched
    have hpage : data.load 0 4096 = page := by
      apply load_eq_of_blocks
      intro j hj
      rcases hsel.cover j hj with h | h
      · exact hdata j hj h
      · rw [List.length_eq_zero_iff.1 hes] at h
        exact absurd h List.not_mem_nil
    apply Wp.bind
    apply hfree.mono
    intro _ c₃ hc
    exact .ret ⟨by rw [hpage], hc⟩
  · obtain ⟨b, hb, hrows⟩ := hsel.survivorRows_eq e
    obtain ⟨A, hA, hmul⟩ := invert_survivors hd hsel hrows
    rw [hb, ret_bind]
    simp only [hA]
    apply Wp.bind
    apply (Taken.loadAll_spec htaken.area hrow htaken.held).mono
    rintro _ _ ⟨rfl, rfl⟩
    have hblks : ∀ i < K, (ds.map (e.stored c₁ index)).getD i (fun _ => 0) =
        e.blockOf page (ds.getD i 0) := by
      intro i hi
      have hlt : i < ds.length := hi.trans_eq hsel.length.symm
      rw [List.getD_eq_getElem _ _ (by rwa [List.length_map]), List.getElem_map,
        List.getD_eq_getElem _ _ hlt, hblk _ (List.getElem_mem hlt)]
    have hpage := recoverBlocks_load hd hsel hmul hblks hdata
    apply Wp.bind
    apply hfree.mono
    intro _ c₃ hc
    exact .ret ⟨by rw [hpage], hc⟩

/-- With `K` nodes alive `readBlock` returns, whatever the chosen nodes hold. -/
theorem readBlock_page {index : Nat} (hd : e.isal.Documented) (hrow : e.InPool index)
    (hs : c.HasSlots e.me) (hl : c.Sound e.me)
    (hK : K ≤ ((List.range N).filter (c.isPeerAlive e.me)).length) :
    ∃ page, (∀ d ∈ e.chosen c, e.stored c index d = e.blockOf page d) ∧
      Wp e.handle (e.readBlock index) c fun p c' => p = ⟨page, index⟩ ∧ Cluster.Frame c c' ∧
        c'.area = c.area := by
  obtain ⟨page, hpage⟩ := exists_page hd (select_spec hK) (e.stored c index)
  have hblk : ∀ d ∈ e.chosen c, e.stored c index d = e.blockOf page d :=
    fun d hmem => (hpage d hmem).symm
  exact ⟨page, hblk, readBlock_spec hd hrow hs hl hK hblk⟩

end ECAL

end Galois
