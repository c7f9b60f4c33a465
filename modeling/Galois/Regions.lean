import Galois.Effect.Answers
import Galois.ReadWrite

namespace Galois
set_option autoImplicit true
set_option relaxedAutoImplicit false

open Prog

/-- The bitmaps that a node keeps for its peers, and which peers it takes for alive. -/
structure Regions where
  alive : Nat → Bool
  readBitmap : Nat → Bitmap 32
  writeBitmap : Nat → Bitmap 32

namespace Regions

theorem ext {s s' : Regions} (ha : s.alive = s'.alive) (hr : s.readBitmap = s'.readBitmap)
    (hw : s.writeBitmap = s'.writeBitmap) : s = s' := by
  cases s
  cases s'
  cases ha
  cases hr
  cases hw
  rfl

def setRead (s : Regions) (p : Nat) (bitmap : Bitmap 32) : Regions :=
  { s with readBitmap := Function.update s.readBitmap p bitmap }

def setWrite (s : Regions) (p : Nat) (bitmap : Bitmap 32) : Regions :=
  { s with writeBitmap := Function.update s.writeBitmap p bitmap }

@[simp] theorem setRead_self (s : Regions) (p : Nat) (bitmap : Bitmap 32) :
    (s.setRead p bitmap).readBitmap p = bitmap := Function.update_self ..

theorem setRead_ne (s : Regions) {p q : Nat} (bitmap : Bitmap 32) (h : q ≠ p) :
    (s.setRead p bitmap).readBitmap q = s.readBitmap q := Function.update_of_ne h ..

@[simp] theorem setWrite_self (s : Regions) (p : Nat) (bitmap : Bitmap 32) :
    (s.setWrite p bitmap).writeBitmap p = bitmap := Function.update_self ..

@[simp] theorem setWrite_setWrite (s : Regions) (p : Nat) (bitmap : Bitmap 32) :
    (s.setWrite p bitmap).setWrite p (s.writeBitmap p) = s := by
  simp [setWrite]

/-- What is posted completes, and whatever is read may hold any data. -/
def Answer : Answers ECAL.sig Regions
  | .isPeerAlive p, s, r, s' => r = s.alive p ∧ s' = s
  | .getReadRegion p, s, r, s' =>
    let (idx, bitmap) := (s.readBitmap p).allocBit
    idx ≠ -1 ∧ r = idx.toNat * 4096 ∧ s' = s.setRead p bitmap
  | .getWriteRegion p, s, r, s' =>
    let (idx, bitmap) := (s.writeBitmap p).allocBit
    idx ≠ -1 ∧ r = idx.toNat * 4096 ∧ s' = s.setWrite p bitmap
  | .freeReadRegion p addr, s, _, s' => s' = s.setRead p ((s.readBitmap p).freeBit (addr / 4096))
  | .freeWriteRegion p addr, s, _, s' =>
    s' = s.setWrite p ((s.writeBitmap p).freeBit (addr / 4096))
  | .unassigned, _, _, _ => False
  | _, s, _, s' => s' = s

end Regions

def Cluster.regions (c : Cluster) (me : Nat) : Regions where
  alive := c.isPeerAlive me
  readBitmap p := (c.peers me p).readBitmap
  writeBitmap p := (c.peers me p).writeBitmap

namespace ECAL

open Regions

variable {e : ECAL} {s s' : Regions} {index : Nat} {ds : List Nat} {srcs : List Source}

theorem answer_getReadRegion {p : Nat} (hf : s.readBitmap p ≠ 0) :
    ∃ i, (s.readBitmap p).getLsbD i = true ∧ ∀ r s', Answer (.getReadRegion p) s r s' ↔
      r = (i * 4096 : Nat) ∧ s' = s.setRead p (s.readBitmap p &&& ~~~BitVec.twoPow 32 i) := by
  obtain ⟨i, hi, ha⟩ := Bitmap.allocBit_spec hf
  have hne : (i : Int) ≠ -1 := by omega
  refine ⟨i, hi, fun r s' => ?_⟩
  simp only [Answer, ha, ne_eq, hne, not_false_eq_true, Int.toNat_natCast, true_and]
  rfl

theorem answer_getWriteRegion {p : Nat} (hf : s.writeBitmap p ≠ 0) :
    ∃ i, (s.writeBitmap p).getLsbD i = true ∧ ∀ r s', Answer (.getWriteRegion p) s r s' ↔
      r = (i * 4096 : Nat) ∧ s' = s.setWrite p (s.writeBitmap p &&& ~~~BitVec.twoPow 32 i) := by
  obtain ⟨i, hi, ha⟩ := Bitmap.allocBit_spec hf
  have hne : (i : Int) ≠ -1 := by omega
  refine ⟨i, hi, fun r s' => ?_⟩
  simp only [Answer, ha, ne_eq, hne, not_false_eq_true, Int.toNat_natCast, true_and]
  rfl

theorem writeStep_returns {page : Page} {i : Nat} (hi : i < N)
    (hfree : i ≠ e.me → s.writeBitmap i ≠ 0) :
    (e.writeStep page i).Returns Answer (fun _ s' => s' = s) s := by
  simp only [writeStep, node_lt page.index hi]
  by_cases hme : i = e.me
  · rw [if_pos hme]
    exact .call_to (r := ()) rfl (fun _ _ h => h) fun _ => rfl
  · rw [if_neg hme]
    apply Returns.call_to (r := s.alive i) ⟨rfl, rfl⟩ fun _ _ h => h.2
    intro alive
    cases alive with
    | false => exact rfl
    | true =>
      obtain ⟨j, hj, hget⟩ := answer_getWriteRegion (hfree hme)
      apply Returns.call ((hget _ _).2 ⟨rfl, rfl⟩)
      intro addr s₁ haddr
      obtain ⟨rfl, rfl⟩ := (hget addr s₁).1 haddr
      apply Returns.call_to (r := ()) rfl fun _ _ h => h
      intro _
      apply Returns.call_to (r := ()) rfl fun _ _ h => h
      intro _
      apply Returns.call_to (r := ()) rfl fun _ _ h => h
      intro _
      apply Returns.call_to (r := ()) rfl fun _ _ h => h
      intro _
      rw [setWrite_self, freeBit_addr hj]
      exact setWrite_setWrite s i _

theorem writeBlock_returns (page : Page)
    (hfree : ∀ p < N, p ≠ e.me → s.writeBitmap p ≠ 0) :
    (e.writeBlock page).Returns Answer (fun _ s' => s' = s) s := by
  apply Returns.foldlM_range (I := fun _ _ s' => s' = s) N rfl
  rintro i hi _ _ rfl
  exact writeStep_returns hi (hfree i hi)

/-- What `recoverSrc` holds for node `d`: nothing, or a slot that `s'` lacks. -/
def Leased (e : ECAL) (s s' : Regions) (d : Nat) : Source → Prop
  | .pool _ => d = e.me
  | .region _ addr => d ≠ e.me ∧ ∃ i, (s.readBitmap d).getLsbD i = true ∧ addr = i * 4096 ∧
      s'.readBitmap d = s.readBitmap d &&& ~~~BitVec.twoPow 32 i

/-- `s'` is `s` with a slot taken for each node in `ds`. -/
structure Lease (e : ECAL) (s : Regions) (ds : List Nat) (srcs : List Source) (s' : Regions) :
    Prop where
  alive : s'.alive = s.alive
  writeBitmap : s'.writeBitmap = s.writeBitmap
  rest : ∀ p, ¬(p ≠ e.me ∧ p ∈ ds) → s'.readBitmap p = s.readBitmap p
  leased : List.Forall₂ (Leased e s s') ds srcs

theorem Lease.nil (e : ECAL) (s : Regions) : Lease e s [] [] s :=
  ⟨rfl, rfl, fun _ _ => rfl, .nil⟩

theorem Lease.eq (h : Lease e s [] srcs s') : s' = s := by
  obtain ⟨alive, readBitmap, writeBitmap⟩ := s'
  obtain ⟨rfl, rfl, hrest, -⟩ := h
  obtain rfl : readBitmap = s.readBitmap := funext fun p => hrest p (by simp)
  rfl

theorem leased_setRead {d : Nat} (bitmap : Bitmap 32) (hd : d ∉ ds)
    (h : List.Forall₂ (Leased e s s') ds srcs) :
    List.Forall₂ (Leased e s (s'.setRead d bitmap)) ds srcs := by
  induction h with
  | nil => exact .nil
  | @cons x src xs srcs hx _ ih =>
    obtain ⟨hne, hd⟩ := List.ne_and_not_mem_of_not_mem_cons hd
    refine .cons ?_ (ih hd)
    cases src with
    | pool row => exact hx
    | region p addr =>
      obtain ⟨hme, i, hi, ha, hs⟩ := hx
      refine ⟨hme, i, hi, ha, ?_⟩
      rw [setRead_ne _ _ hne.symm]
      exact hs

theorem Lease.rest_mono {xs : List Nat} (hsub : ds ⊆ xs) (h : Lease e s ds srcs s') :
    ∀ p, ¬(p ≠ e.me ∧ p ∈ xs) → s'.readBitmap p = s.readBitmap p := by
  intro p hp
  apply h.rest
  rintro ⟨hne, hmem⟩
  exact hp ⟨hne, hsub hmem⟩

theorem Lease.fetchBlock {d i : Nat} (h : Lease e s ds srcs s') (hd : d < N) (hn : d ∉ ds)
    (hfree : d ≠ e.me → s.readBitmap d ≠ 0) :
    (e.fetchBlock (e.getDataPos index) d i).Returns Answer
      (fun src s'' => Lease e s (ds ++ [d]) (srcs ++ [src]) s'') s' := by
  have hpeer : (d + (e.getDataPos index).startNodeId) % N = d := by
    rw [Nat.add_comm, node_lt index hd]
  simp only [ECAL.fetchBlock, hpeer]
  by_cases hme : d = e.me
  · rw [if_neg (not_not.2 hme)]
    refine ⟨h.alive, h.writeBitmap, h.rest_mono (List.subset_append_left _ _), ?_⟩
    exact List.rel_append h.leased (.cons hme .nil)
  · rw [if_pos hme]
    have hst := h.rest d fun hc => hn hc.2
    have hfree' : s'.readBitmap d ≠ 0 := by
      rw [hst]
      exact hfree hme
    obtain ⟨j, hj, hget⟩ := answer_getReadRegion hfree'
    apply Returns.call ((hget _ _).2 ⟨rfl, rfl⟩)
    intro addr s₁ haddr
    obtain ⟨rfl, rfl⟩ := (hget addr s₁).1 haddr
    apply Returns.call_to (r := ()) rfl fun _ _ h => h
    intro _
    apply Returns.call_to (r := ()) rfl fun _ _ h => h
    intro _
    rw [hst] at hj
    refine ⟨h.alive, h.writeBitmap, fun p hp => ?_, ?_⟩
    · have hpd : p ≠ d := by
        rintro rfl
        exact hp ⟨hme, List.mem_append_right _ (List.mem_singleton_self _)⟩
      rw [setRead_ne _ _ hpd]
      exact h.rest_mono (List.subset_append_left _ _) p hp
    · refine List.rel_append (leased_setRead _ hn h.leased) (.cons ?_ .nil)
      refine ⟨hme, j, hj, rfl, ?_⟩
      rw [setRead_self, hst]

theorem Lease.freeBlock {d : Nat} {src : Source} (h : Lease e s (d :: ds) (src :: srcs) s')
    (hd : d < N) (hn : d ∉ ds) :
    (e.freeBlock (e.getDataPos index) d src).Returns Answer
      (fun _ s'' => Lease e s ds srcs s'') s' := by
  have hpeer : (d + (e.getDataPos index).startNodeId) % N = d := by
    rw [Nat.add_comm, node_lt index hd]
  obtain ⟨hsrc, hsrcs⟩ := List.forall₂_cons.1 h.leased
  have hrest : ∀ p, p ≠ d → ¬(p ≠ e.me ∧ p ∈ ds) → s'.readBitmap p = s.readBitmap p := by
    intro p hpd hp
    apply h.rest
    rintro ⟨hne, hmem⟩
    rcases List.mem_cons.1 hmem with rfl | hmem
    · exact hpd rfl
    · exact hp ⟨hne, hmem⟩
  simp only [ECAL.freeBlock, hpeer]
  by_cases hme : d = e.me
  · rw [if_neg (not_not.2 hme)]
    refine ⟨h.alive, h.writeBitmap, fun p hp => ?_, hsrcs⟩
    by_cases hpd : p = d
    · exact h.rest p fun hc => hc.1 (hpd.trans hme)
    · exact hrest p hpd hp
  · rw [if_pos hme]
    cases src with
    | pool row => exact absurd hsrc hme
    | region p addr =>
      obtain ⟨-, i, hi, rfl, hst⟩ := hsrc
      apply Returns.call_to (r := ()) rfl fun _ _ h => h
      intro _
      refine ⟨h.alive, h.writeBitmap, fun p hp => ?_, leased_setRead _ hn hsrcs⟩
      by_cases hpd : p = d
      · rw [hpd, setRead_self, Source.addr, hst, freeBit_addr hi]
      · rw [setRead_ne _ _ hpd]
        exact hrest p hpd hp

section Loops

theorem selectSurvivors_returns (e : ECAL) (index : Nat) (s : Regions) :
    (selectSurvivors (e.getDataPos index)).Returns Answer
      (fun acc s' => acc = select s.alive N ∧ s' = s) s := by
  apply Returns.foldlM_range (I := fun m acc s' => acc = select s.alive m ∧ s' = s) N
  · exact ⟨rfl, rfl⟩
  · rintro m hm _ s₁ ⟨rfl, rfl⟩
    have hpeer : (m + (e.getDataPos index).startNodeId) % N = m := by
      rw [Nat.add_comm, node_lt index hm]
    have hsucc := select_succ s₁.alive m
    simp only [hpeer]
    split
    · next hlt =>
      apply Returns.call (r := s₁.alive m) ⟨rfl, rfl⟩
      rintro _ _ ⟨rfl, rfl⟩
      exact ⟨by rw [hsucc, if_pos hlt], rfl⟩
    · next hlt => exact ⟨by rw [hsucc, if_neg hlt], rfl⟩

theorem fetchBlocks_returns (hfree : ∀ p < N, p ≠ e.me → s.readBitmap p ≠ 0)
    (hlen : ds.length = K) (hn : ds.Nodup) (hds : ∀ d ∈ ds, d < N) :
    (e.fetchBlocks (e.getDataPos index) ds).Returns Answer
      (fun srcs s' => Lease e s ds srcs s') s := by
  apply (Returns.foldlM_range (I := fun i srcs s' => Lease e s (ds.take i) srcs s') K ?_ ?_).mono
  · intro srcs s' h
    rwa [ds.take_of_length_le hlen.le] at h
  · exact .nil e s
  · intro i hi srcs s' h
    have hlt : i < ds.length := hi.trans_eq hlen.symm
    have hmem : ds[i] ∈ ds := List.getElem_mem hlt
    rw [entry_eq hlt, List.getD_eq_getElem _ _ hlt, ret_bind, ← List.take_append_getElem hlt]
    apply Returns.bind
    apply (h.fetchBlock (hds _ hmem) (notMem_take hn hlt) (hfree _ (hds _ hmem))).mono
    exact fun src s'' h' => h'

theorem freeBlocks_returns (index : Nat) (h : Lease e s ds srcs s') (hlen : ds.length = K)
    (hn : ds.Nodup) (hds : ∀ d ∈ ds, d < N) :
    (e.freeBlocks (e.getDataPos index) ds srcs).Returns Answer (fun _ s'' => s'' = s) s' := by
  have hsrcs : srcs.length = ds.length := h.leased.length_eq.symm
  apply (Returns.foldlM_range (I := fun i _ s'' =>
    Lease e s (ds.drop i) (srcs.drop i) s'') K h ?_).mono
  · intro _ s'' h'
    rw [← hlen, List.drop_length] at h'
    exact h'.eq
  · intro i hi _ s₁ h'
    have hlt : i < ds.length := hi.trans_eq hlen.symm
    have hlt' : i < srcs.length := hlt.trans_eq hsrcs.symm
    rw [entry_eq hlt, List.getD_eq_getElem _ _ hlt, ret_bind, List.getD_eq_getElem _ _ hlt']
    rw [List.drop_eq_getElem_cons hlt, List.drop_eq_getElem_cons hlt'] at h'
    exact h'.freeBlock (hds _ (List.getElem_mem hlt)) (notMem_drop hn hlt)

theorem load_returns (src : Source) (s : Regions) :
    src.load.Returns Answer (fun _ s' => s' = s) s := by
  cases src with
  | pool row => exact .call_to (r := fun _ => 0) rfl (fun _ _ h => h) fun _ => rfl
  | region p addr => exact .call_to (r := fun _ => 0) rfl (fun _ _ h => h) fun _ => rfl

theorem copyIntact_returns (hlen : ds.length = K) (srcs : List Source) (s : Regions) :
    (copyIntact ds srcs).Returns Answer (fun _ s' => s' = s) s := by
  apply Returns.foldlM_range (I := fun _ _ s' => s' = s) K rfl
  rintro i hi data _ rfl
  rw [entry_eq (hi.trans_eq hlen.symm), ret_bind]
  split
  · apply Returns.bind
    exact (load_returns _ _).mono fun _ _ h => h
  · exact rfl

end Loops

/-- `readBlock` with something else to do where no inverse is found. -/
def readBlockExit (e : ECAL) (singular : Mem → Prog sig Page) (index : Nat) : Prog sig Page := do
  let pos := e.getDataPos index
  let (decodeIndex, errIndex) ← selectSurvivors pos
  let recoverSrc ← e.fetchBlocks pos decodeIndex
  let data ← copyIntact decodeIndex recoverSrc
  if errIndex.length = 0 then do
    e.freeBlocks pos decodeIndex recoverSrc
    pure ⟨data.load 0 4096, index⟩
  else do
    let b ← e.survivorRows decodeIndex
    match e.isal.gf_invert_matrix b K with
    | none => singular data
    | some invertMatrix => do
      let blks ← recoverSrc.mapM Source.load
      let data := e.recoverBlocks errIndex invertMatrix blks data
      e.freeBlocks pos decodeIndex recoverSrc
      pure ⟨data.load 0 4096, index⟩

theorem readBlock_exit (e : ECAL) (index : Nat) : e.readBlock index =
    e.readBlockExit (fun data => pure ⟨data.load 0 4096, index⟩) index := rfl

theorem readBlockExit_returns (hd : e.isal.Documented) (singular : Mem → Prog sig Page)
    (index : Nat) (hfree : ∀ p < N, p ≠ e.me → s.readBitmap p ≠ 0)
    (hK : K ≤ ((List.range N).filter s.alive).length) :
    (e.readBlockExit singular index).Returns Answer (fun _ s' => s' = s) s := by
  have hsel := select_spec hK
  rw [readBlockExit]
  apply Returns.bind
  apply (selectSurvivors_returns e index s).mono
  rintro ⟨ds, es⟩ _ ⟨hse, rfl⟩
  rw [← hse] at hsel
  simp only at hsel ⊢
  apply Returns.bind
  apply (fetchBlocks_returns hfree hsel.length hsel.nodup hsel.lt).mono
  intro srcs s₁ hlease
  apply Returns.bind
  apply (copyIntact_returns hsel.length srcs s₁).mono
  rintro data _ rfl
  have hback := freeBlocks_returns index hlease hsel.length hsel.nodup hsel.lt
  split
  · apply Returns.bind
    exact hback.mono fun _ _ h => h
  · obtain ⟨b, hb, hrows⟩ := hsel.survivorRows_eq e
    obtain ⟨A, hA, -⟩ := invert_survivors hd hsel hrows
    rw [hb, ret_bind]
    simp only [hA]
    apply Returns.bind
    apply (Returns.mapM (I := fun s' => s' = _) srcs rfl ?_).mono
    · rintro _ _ rfl
      apply Returns.bind
      exact hback.mono fun _ _ h => h
    · rintro src _ rfl
      exact load_returns src _

theorem regions_setPeer {c : Cluster} {me p : Nat} {conn : RDMAConnection}
    (hconn : conn.connected = (c.peers me p).connected)
    (hforced : conn.forcedConnStat = (c.peers me p).forcedConnStat) :
    (c.setPeer me p conn).regions me =
      ((c.regions me).setRead p conn.readBitmap).setWrite p conn.writeBitmap := by
  have hpeer (q : Nat) (hq : q ≠ p) : (c.setPeer me p conn).peers me q = c.peers me q :=
    Cluster.setPeer_ne c conn fun hc => hq hc.2
  apply Regions.ext
  · funext q
    by_cases hq : q = p
    · subst hq
      simp only [Cluster.regions, setRead, setWrite, Cluster.isPeerAlive, Cluster.setPeer_self,
        hconn, hforced]
    · simp only [Cluster.regions, setRead, setWrite, Cluster.isPeerAlive, hpeer q hq]
  · funext q
    by_cases hq : q = p
    · simp [Cluster.regions, setRead, setWrite, hq]
    · simp [Cluster.regions, setRead, setWrite, hpeer q hq, hq]
  · funext q
    by_cases hq : q = p
    · simp [Cluster.regions, setRead, setWrite, hq]
    · simp [Cluster.regions, setRead, setWrite, hpeer q hq, hq]

theorem regions_setRead (c : Cluster) (me p : Nat) (bitmap : Bitmap 32) :
    (c.setPeer me p { c.peers me p with readBitmap := bitmap }).regions me =
      (c.regions me).setRead p bitmap := by
  refine (regions_setPeer ?_ ?_).trans ?_
  · rfl
  · rfl
  · simp [setRead, setWrite, Cluster.regions]

theorem regions_setWrite (c : Cluster) (me p : Nat) (bitmap : Bitmap 32) :
    (c.setPeer me p { c.peers me p with writeBitmap := bitmap }).regions me =
      (c.regions me).setWrite p bitmap := by
  refine (regions_setPeer ?_ ?_).trans ?_
  · rfl
  · rfl
  · simp [setRead, setWrite, Cluster.regions]

theorem regions_setPeer_same {c : Cluster} {me p : Nat} {conn : RDMAConnection}
    (h : conn.toConnStatus = (c.peers me p).toConnStatus) :
    (c.setPeer me p conn).regions me = c.regions me := by
  rw [regions_setPeer (congrArg ConnStatus.connected h) (congrArg ConnStatus.forcedConnStat h), h]
  simp [Cluster.regions, setRead, setWrite]

theorem handle_answer (e : ECAL) (o : Op) (c : Cluster) (r : o.Res) (c' : Cluster)
    (h : e.handle o c = some (r, c')) : Answer o (c.regions e.me) r (c'.regions e.me) := by
  cases o with
  | isPeerAlive p =>
    cases h
    exact ⟨rfl, rfl⟩
  | getReadRegion p =>
    simp only [handle] at h
    split at h
    · cases h
    · next hidx =>
      cases h
      exact ⟨hidx, rfl, regions_setRead c e.me p _⟩
  | getWriteRegion p =>
    simp only [handle] at h
    split at h
    · cases h
    · next hidx =>
      cases h
      exact ⟨hidx, rfl, regions_setWrite c e.me p _⟩
  | freeReadRegion p addr =>
    cases h
    exact regions_setRead c e.me p _
  | freeWriteRegion p addr =>
    cases h
    exact regions_setWrite c e.me p _
  | postRead p shift dst len taskId =>
    simp only [handle] at h
    split at h
    · cases h
      exact regions_setPeer_same rfl
    · cases h
  | postWrite p shift src len =>
    simp only [handle] at h
    split at h
    · cases h
      exact rfl
    · cases h
  | pollSendCompletion =>
    cases h
    exact rfl
  | loadRegion p addr =>
    cases h
    exact rfl
  | storeRegion p addr blk =>
    cases h
    exact regions_setPeer_same rfl
  | fillWriteRegion p byte len =>
    cases h
    exact regions_setPeer_same rfl
  | loadPool row =>
    simp only [handle] at h
    split at h
    · cases h
      exact rfl
    · cases h
  | storePool row blk =>
    simp only [handle] at h
    split at h
    · cases h
      exact rfl
    · cases h
  | unassigned => cases h

/-- `readBlock` and `writeBlock` give back all the slots they take, whatever the memory holds and
whatever would be done without an inverse. -/
theorem regions_balanced (hd : e.isal.Documented) (s : Regions)
    (hfree : ∀ p < N, p ≠ e.me → s.readBitmap p ≠ 0 ∧ s.writeBitmap p ≠ 0)
    (hK : K ≤ ((List.range N).filter s.alive).length) :
    (∀ index, (e.readBlock index).Returns Answer (fun _ s' => s' = s) s) ∧
    (∀ page, (e.writeBlock page).Returns Answer (fun _ s' => s' = s) s) ∧
    (∀ singular index, (e.readBlockExit singular index).Returns Answer (fun _ s' => s' = s) s) ∧
    ∀ c : Cluster, c.regions e.me = s →
      (∀ index page c', (e.readBlock index).run e.handle c = some (page, c') →
        c'.regions e.me = s) ∧
      ∀ page c', (e.writeBlock page).run e.handle c = some ((), c') → c'.regions e.me = s := by
  have hexit (singular : Mem → Prog sig Page) (index : Nat) :
      (e.readBlockExit singular index).Returns Answer (fun _ s' => s' = s) s :=
    readBlockExit_returns hd singular index (fun p hp hne => (hfree p hp hne).1) hK
  have hread (index : Nat) : (e.readBlock index).Returns Answer (fun _ s' => s' = s) s := by
    rw [readBlock_exit]
    exact hexit _ index
  have hwrite (page : Page) : (e.writeBlock page).Returns Answer (fun _ s' => s' = s) s :=
    writeBlock_returns page fun p hp hne => (hfree p hp hne).2
  refine ⟨hread, hwrite, hexit, ?_⟩
  rintro c rfl
  have hans := e.handle_answer
  constructor
  · intro index page c' hrun
    exact (hread index).of_run (f := fun c => c.regions e.me) hans hrun
  · intro page c' hrun
    exact (hwrite page).of_run (f := fun c => c.regions e.me) hans hrun

def degraded : Regions := ⟨fun p => p ≠ 1, fun _ => .full 32, fun _ => .full 32⟩

theorem regions_balanced_degraded :
    (readBlock ⟨IsaL.base, 3, 0, 4096⟩ 1).Returns Answer (fun _ s' => s' = degraded) degraded :=
  (regions_balanced IsaL.base_documented degraded
    (fun _ _ _ => ⟨Bitmap.full_ne_zero (by decide), Bitmap.full_ne_zero (by decide)⟩)
    (by decide)).1 1

end ECAL

end Galois
