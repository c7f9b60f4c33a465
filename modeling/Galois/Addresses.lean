import Galois.Effect.Answers
import Galois.ReadWrite

namespace Galois
set_option autoImplicit true
set_option relaxedAutoImplicit false

open Prog

namespace ECAL

variable {e : ECAL}

/-- What an operation touches is registered: a node of the cluster, a place in the pools, which
are all of one size, and one in the buffers of a peer. -/
def Inside (e : ECAL) : Op → Prop
  | .isPeerAlive p | .getReadRegion p | .getWriteRegion p | .freeReadRegion p _
  | .freeWriteRegion p _ => p < e.clusterSize
  | .postRead p shift buffer len _ | .postWrite p shift buffer len =>
    p < e.clusterSize ∧ shift + len ≤ e.poolSize ∧ buffer + len ≤ 4096 * NConcurrency
  | .loadRegion p addr | .storeRegion p addr _ =>
    p < e.clusterSize ∧ addr + blockSize ≤ 4096 * NConcurrency
  | .fillWriteRegion p _ len => p < e.clusterSize ∧ len ≤ 4096 * NConcurrency
  | .loadPool row | .storePool row _ => getBlockShift row + blockSize ≤ e.poolSize
  | .pollSendCompletion | .unassigned => True

/-- A region is one of the slots; all other answers may be anything. -/
def SlotAnswer : Answers sig Unit
  | .getReadRegion _, _, r, _ | .getWriteRegion _, _, r, _ => ∃ i < NConcurrency, r = i * 4096
  | _, _, _, _ => True

def StaysInside (e : ECAL) (p : Prog sig α) (Q : α → Prop) : Prop :=
  p.AtCalls SlotAnswer (fun o _ _ => e.Inside o) (fun a _ => Q a) ()

theorem StaysInside.bind {p : Prog sig α} {f : α → Prog sig β} {Q : α → Prop} {Q' : β → Prop}
    (hp : e.StaysInside p Q) (hf : ∀ a, Q a → e.StaysInside (f a) Q') :
    e.StaysInside (p >>= f) Q' :=
  AtCalls.bind (hp.mono fun a _ => hf a)

theorem StaysInside.foldlM {f : β → γ → Prog sig β} {I : β → Prop} (l : List γ) {b : β} (hI : I b)
    (hf : ∀ x ∈ l, ∀ b, I b → e.StaysInside (f b x) I) : e.StaysInside (l.foldlM f b) I :=
  AtCalls.foldlM l hI fun x hx b _ => hf x hx b

def Source.Inside (e : ECAL) : Source → Prop
  | .region p addr => p < e.clusterSize ∧ addr + blockSize ≤ 4096 * NConcurrency
  | .pool row => getBlockShift row + blockSize ≤ e.poolSize

theorem peer_lt (hN : N ≤ e.clusterSize) (x : Nat) : x % N < e.clusterSize :=
  (Nat.mod_lt x (by decide)).trans_le hN

section Steps

variable {pos : DataPosition} {decodeIndex : List Nat} {recoverSrc : List Source}

theorem writeStep_inside (hN : N ≤ e.clusterSize) {page : Page} (hrow : e.InPool page.index)
    (i : Nat) : e.StaysInside (e.writeStep page i) fun _ => True := by
  have hpeer := peer_lt hN ((e.getDataPos page.index).startNodeId + i)
  rw [writeStep]
  split
  · exact ⟨hrow, fun _ _ _ => trivial⟩
  · refine ⟨hpeer, fun alive _ _ => ?_⟩
    cases alive with
    | false => exact trivial
    | true =>
      refine ⟨hpeer, ?_⟩
      rintro _ _ ⟨j, hj, rfl⟩
      have hfits := slot_fits (n := blockSize) hj (by decide)
      refine ⟨⟨hpeer, hfits⟩, fun _ _ _ => ⟨⟨hpeer, hrow, hfits⟩, fun _ _ _ => ?_⟩⟩
      exact ⟨trivial, fun _ _ _ => ⟨hpeer, fun _ _ _ => trivial⟩⟩

theorem entry_inside (xs : List Nat) (i : Nat) : e.StaysInside (entry xs i) fun _ => True := by
  rw [entry]
  split
  · exact trivial
  · exact ⟨trivial, fun _ _ _ => trivial⟩

theorem selectSurvivors_inside (hN : N ≤ e.clusterSize) (pos : DataPosition) :
    e.StaysInside (selectSurvivors pos) fun _ => True := by
  apply StaysInside.foldlM _ trivial
  intro j _ acc _
  split
  · exact ⟨peer_lt hN _, fun _ _ _ => trivial⟩
  · exact trivial

theorem fetchBlock_inside (hN : N ≤ e.clusterSize)
    (hrow : getBlockShift pos.row + blockSize ≤ e.poolSize) (d i : Nat) :
    e.StaysInside (e.fetchBlock pos d i) (Source.Inside e) := by
  have hpeer := peer_lt hN (d + pos.startNodeId)
  rw [fetchBlock]
  split
  · refine ⟨hpeer, ?_⟩
    rintro _ _ ⟨j, hj, rfl⟩
    have hfits := slot_fits (n := blockSize) hj (by decide)
    refine ⟨⟨hpeer, hrow, hfits⟩, fun _ _ _ => ⟨trivial, fun _ _ _ => ?_⟩⟩
    exact ⟨hpeer, hfits⟩
  · exact hrow

theorem fetchBlocks_inside (hN : N ≤ e.clusterSize)
    (hrow : getBlockShift pos.row + blockSize ≤ e.poolSize) (decodeIndex : List Nat) :
    e.StaysInside (e.fetchBlocks pos decodeIndex) fun srcs => ∀ src ∈ srcs, src.Inside e := by
  apply StaysInside.foldlM
  · exact fun src h => absurd h List.not_mem_nil
  · intro i _ srcs hsrcs
    apply (entry_inside _ _).bind
    intro d _
    apply (fetchBlock_inside hN hrow d i).bind
    intro src hsrc src' hmem
    rcases List.mem_append.1 hmem with h | h
    · exact hsrcs src' h
    · rw [List.mem_singleton.1 h]
      exact hsrc

theorem load_inside {src : Source} (h : src.Inside e) :
    e.StaysInside src.load fun _ => True := by
  cases src with
  | pool row => exact ⟨h, fun _ _ _ => trivial⟩
  | region p addr => exact ⟨h, fun _ _ _ => trivial⟩

theorem copyIntact_inside (decodeIndex : List Nat)
    (hsrcs : ∀ i, (recoverSrc.getD i (.pool 0)).Inside e) :
    e.StaysInside (copyIntact decodeIndex recoverSrc) fun _ => True := by
  apply StaysInside.foldlM _ trivial
  intro i _ data _
  apply (entry_inside _ _).bind
  intro d _
  split
  · apply (load_inside (hsrcs i)).bind
    exact fun _ _ => trivial
  · exact trivial

theorem freeBlocks_inside (hN : N ≤ e.clusterSize) (pos : DataPosition) (decodeIndex : List Nat)
    (recoverSrc : List Source) :
    e.StaysInside (e.freeBlocks pos decodeIndex recoverSrc) fun _ => True := by
  apply StaysInside.foldlM _ trivial
  intro i _ _ _
  apply (entry_inside _ _).bind
  intro d _
  rw [freeBlock]
  split
  · exact ⟨peer_lt hN _, fun _ _ _ => trivial⟩
  · exact trivial

theorem survivorRows_inside (decodeIndex : List Nat) :
    e.StaysInside (e.survivorRows decodeIndex) fun _ => True := by
  apply StaysInside.foldlM _ trivial
  intro i _ b _
  apply (entry_inside _ _).bind
  exact fun _ _ => trivial

theorem loadAll_inside (hsrcs : ∀ src ∈ recoverSrc, src.Inside e) :
    e.StaysInside (recoverSrc.mapM Source.load) fun _ => True := by
  induction recoverSrc with
  | nil => exact trivial
  | cons src srcs ih =>
    rw [List.mapM_cons]
    apply (load_inside (hsrcs src List.mem_cons_self)).bind
    intro blk _
    apply (ih fun src hsrc => hsrcs src (List.mem_cons_of_mem _ hsrc)).bind
    exact fun _ _ => trivial

end Steps

theorem writeBlock_inside (hN : N ≤ e.clusterSize) {page : Page} (hrow : e.InPool page.index) :
    e.StaysInside (e.writeBlock page) fun _ => True :=
  .foldlM _ trivial fun i _ _ _ => writeStep_inside hN hrow i

theorem readBlock_inside (hN : N ≤ e.clusterSize) {index : Nat} (hrow : e.InPool index) :
    e.StaysInside (e.readBlock index) fun _ => True := by
  rw [readBlock]
  apply (selectSurvivors_inside hN _).bind
  rintro ⟨decodeIndex, errIndex⟩ -
  apply (fetchBlocks_inside hN hrow decodeIndex).bind
  intro recoverSrc hsrcs
  have hdefault (i : Nat) : (recoverSrc.getD i (.pool 0)).Inside e := by
    rw [List.getD_eq_getElem?_getD]
    cases hi : recoverSrc[i]? with
    | none =>
      have hle : blockSize ≤ (e.getDataPos index).row * blockSize + blockSize :=
        Nat.le_add_left _ _
      simpa [Source.Inside, getBlockShift] using hle.trans hrow
    | some src => exact hsrcs src (List.mem_of_getElem? hi)
  apply (copyIntact_inside decodeIndex hdefault).bind
  intro data _
  split
  · apply (freeBlocks_inside hN _ _ _).bind
    exact fun _ _ => trivial
  · apply (survivorRows_inside decodeIndex).bind
    intro b _
    split
    · exact trivial
    · apply (loadAll_inside hsrcs).bind
      intro blks _
      apply (freeBlocks_inside hN _ _ _).bind
      exact fun _ _ => trivial

theorem allocBit_fst_lt (b : Bitmap 32) (h : b.allocBit.1 ≠ -1) :
    b.allocBit.1.toNat < NConcurrency := by
  have hb : b ≠ 0 := by
    rintro rfl
    exact h rfl
  obtain ⟨i, hi, ha⟩ := Bitmap.allocBit_spec hb
  rw [ha, Int.toNat_natCast]
  exact BitVec.lt_of_getLsbD hi

theorem handle_slotAnswer (e : ECAL) (o : Op) (c : Cluster) (r : o.Res) (c' : Cluster)
    (h : e.handle o c = some (r, c')) : SlotAnswer o () r () := by
  cases o with
  | getReadRegion p =>
    simp only [handle] at h
    split at h
    · cases h
    · next hidx =>
      cases h
      exact ⟨_, allocBit_fst_lt _ hidx, rfl⟩
  | getWriteRegion p =>
    simp only [handle] at h
    split at h
    · cases h
    · next hidx =>
      cases h
      exact ⟨_, allocBit_fst_lt _ hidx, rfl⟩
  | _ => trivial

theorem getClusterCapacity_eq (hw : e.clusterSize / N * K * e.poolLength < 2 ^ 64) :
    e.getClusterCapacity = e.clusterSize / N * e.poolLength := by
  have hhalf : e.clusterSize / N * K * e.poolLength =
      4096 / blockSize * (e.clusterSize / N * e.poolLength) := by
    simp only [blockSize, K]
    ring
  rw [getClusterCapacity, Nat.mod_eq_of_lt hw, hhalf]
  exact Nat.mul_div_cancel_left _ (by decide)

/-- All that `readBlock` and `writeBlock` touch for an index below the capacity is registered, and
only a pool without a block has no capacity. -/
theorem accesses_inside (e : ECAL) (h0 : 0 < e.clusterSize) (hN : N ∣ e.clusterSize)
    (hw : e.clusterSize / N * K * e.poolLength < 2 ^ 64) :
    (∀ index < e.getClusterCapacity,
      getBlockShift (e.getDataPos index).row + blockSize ≤ e.poolSize ∧
      (∀ i, ((e.getDataPos index).startNodeId + i) % N < e.clusterSize) ∧
      e.StaysInside (e.readBlock index) (fun _ => True) ∧
      (∀ page, page.index = index → e.StaysInside (e.writeBlock page) fun _ => True) ∧
      ∀ c : Cluster, (e.readBlock index).Asks e.handle e.Inside c ∧
        ∀ page, page.index = index → (e.writeBlock page).Asks e.handle e.Inside c) ∧
    (e.getClusterCapacity = 0 ↔ e.poolSize < blockSize) := by
  have hle : N ≤ e.clusterSize := Nat.le_of_dvd h0 hN
  constructor
  · intro index hindex
    have hrow := inPool_of_lt hindex
    have hread := readBlock_inside hle hrow
    have hwrite : ∀ page : Page, page.index = index →
        e.StaysInside (e.writeBlock page) fun _ => True := by
      rintro page rfl
      exact writeBlock_inside hle hrow
    have hslot := e.handle_slotAnswer
    exact ⟨hrow, fun i => peer_lt hle _, hread, hwrite, fun c =>
      ⟨AtCalls.asks (f := fun _ => ()) hslot hread,
        fun page hpage => AtCalls.asks (f := fun _ => ()) hslot (hwrite page hpage)⟩⟩
  · have hrows : 0 < e.clusterSize / N := Nat.div_pos hle (by decide)
    rw [getClusterCapacity_eq hw, Nat.mul_eq_zero, or_iff_right hrows.ne', poolLength,
      Nat.div_eq_zero_iff_lt (by decide)]

theorem accesses_inside_three :
    (readBlock ⟨IsaL.base, 3, 0, 4096⟩ 1).Asks (handle ⟨IsaL.base, 3, 0, 4096⟩)
      (Inside ⟨IsaL.base, 3, 0, 4096⟩) Cluster.fresh ∧
    getClusterCapacity ⟨IsaL.base, 3, 0, 4096⟩ = 2 := by
  have hinside := (accesses_inside ⟨IsaL.base, 3, 0, 4096⟩ (by decide) (by decide) (by decide)).1 1
    (by decide)
  exact ⟨(hinside.2.2.2.2 Cluster.fresh).1, by decide⟩

end ECAL

end Galois
