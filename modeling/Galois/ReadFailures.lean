import Galois.ReadWrite

namespace Galois
set_option autoImplicit true
set_option relaxedAutoImplicit false

open Prog

namespace ECAL

variable {e : ECAL} {c c' : Cluster} {fails : Nat → Bool} {index : Nat}

/-- A read whose node is down, or fails before it is served, completes with an error; the region
keeps its bytes, and `pollSendCompletion` drops the status. -/
def faultyHandle (e : ECAL) (fails : Nat → Bool) : Handler sig Cluster
  | .postRead p shift dst len taskId, c =>
    if c.up p = true ∧ fails taskId = false then e.handle (.postRead p shift dst len taskId) c
    else some ((), c)
  | o, c => e.handle o c

/-- The address that the next read from node `d` is given. -/
def readSlot (e : ECAL) (c : Cluster) (d : Nat) : Nat :=
  (c.peers e.me d).readBitmap.allocBit.1.toNat * 4096

/-- The bytes that are there before the read. -/
def oldBlock (e : ECAL) (c : Cluster) (d : Nat) : BlockTy :=
  (c.peers e.me d).readRegion.load (e.readSlot c d) blockSize

/-- The read of the block of node `d`, the `i`-th one, does not take place. -/
def Lost (e : ECAL) (c : Cluster) (fails : Nat → Bool) (d i : Nat) : Prop :=
  d ≠ e.me ∧ ¬ (c.up d = true ∧ fails i = false)

instance : Decidable (e.Lost c fails d i) := by
  unfold Lost
  infer_instance

/-- The memory that would have given what the reads give. -/
def patchedArea (e : ECAL) (c : Cluster) (fails : Nat → Bool) (index : Nat) (q : Nat) : Mem :=
  if q ∈ e.chosen c ∧ e.Lost c fails q ((e.chosen c).idxOf q) then
    (c.area q).store ((e.getDataPos index).row * blockSize) (e.oldBlock c q)
  else c.area q

/-- The same sockets in a cluster with that memory, where every node runs. -/
def patched (e : ECAL) (c : Cluster) (fails : Nat → Bool) (index : Nat) (c' : Cluster) :
    Cluster :=
  { c' with area := e.patchedArea c fails index, up := fun _ => true }

theorem patchedArea_me : e.patchedArea c fails index e.me = c.area e.me := by
  rw [patchedArea, if_neg]
  exact fun h => h.2.1 rfl

theorem stored_patched {d : Nat} (hd : d ∈ e.chosen c) :
    e.stored (e.patched c fails index c') index d =
      if e.Lost c fails d ((e.chosen c).idxOf d) then e.oldBlock c d else e.stored c index d := by
  simp only [stored, patched, patchedArea, hd, true_and]
  split
  · exact Mem.load_store ..
  · rfl

def Quiet : Op → Prop
  | .isPeerAlive _ | .getReadRegion _ | .freeReadRegion _ _ | .pollSendCompletion
  | .loadRegion _ _ | .loadPool _ | .unassigned => True
  | _ => False

def Same (c c' : Cluster) : Prop := c'.area = c.area ∧ c'.up = c.up

theorem handle_getReadRegion_none {p : Nat} (h : (c.peers e.me p).readBitmap.allocBit.1 = -1) :
    e.handle (.getReadRegion p) c = none := if_pos h

theorem handle_getReadRegion_some {p : Nat} (h : (c.peers e.me p).readBitmap.allocBit.1 ≠ -1) :
    e.handle (.getReadRegion p) c = some (e.readSlot c p, c.setPeer e.me p
      { c.peers e.me p with readBitmap := (c.peers e.me p).readBitmap.allocBit.2 }) := if_neg h

theorem handle_loadPool_none {row : Nat} (h : ¬ row * blockSize + blockSize ≤ e.poolSize) :
    e.handle (.loadPool row) c = none := if_neg h

theorem quiet_sim {o : Op} (ho : Quiet o) (hc : Same c c') :
    e.handle o (e.patched c fails index c') =
      (e.faultyHandle fails o c').map fun r => (r.1, e.patched c fails index r.2) := by
  cases o with
  | isPeerAlive p => rfl
  | getReadRegion p =>
    change e.handle _ (e.patched c fails index c') = (e.handle (.getReadRegion p) c').map _
    by_cases hidx : (c'.peers e.me p).readBitmap.allocBit.1 = -1
    · rw [handle_getReadRegion_none hidx, handle_getReadRegion_none (by exact hidx)]
      rfl
    · rw [handle_getReadRegion_some hidx, handle_getReadRegion_some (by exact hidx)]
      rfl
  | freeReadRegion p addr => rfl
  | pollSendCompletion => rfl
  | loadRegion p addr => rfl
  | loadPool row =>
    change e.handle _ (e.patched c fails index c') = (e.handle (.loadPool row) c').map _
    by_cases hrow : row * blockSize + blockSize ≤ e.poolSize
    · rw [handle_loadPool hrow, handle_loadPool hrow, hc.1, ← patchedArea_me (c := c)]
      rfl
    · rw [handle_loadPool_none hrow, handle_loadPool_none hrow]
      rfl
  | unassigned => rfl
  | _ => cases ho

theorem quiet_same {o : Op} {r : o.Res} {c'' : Cluster} (ho : Quiet o) (hc : Same c c')
    (hr : e.faultyHandle fails o c' = some (r, c'')) : Same c c'' := by
  cases o with
  | getReadRegion p =>
    simp only [faultyHandle, handle] at hr
    split at hr
    · cases hr
    · cases hr
      exact hc
  | loadPool row =>
    simp only [faultyHandle, handle] at hr
    split at hr
    · cases hr
      exact hc
    · cases hr
  | isPeerAlive p =>
    cases hr
    exact hc
  | freeReadRegion p addr =>
    cases hr
    exact hc
  | pollSendCompletion =>
    cases hr
    exact hc
  | loadRegion p addr =>
    cases hr
    exact hc
  | unassigned => cases hr
  | _ => cases ho

theorem quiet_prog {p : Prog sig α} (hp : p.Uses Quiet) (hc : Same c c') :
    Sim (e.faultyHandle fails) e.handle (e.patched c fails index) p c' := by
  refine Sim.of_uses (P := Quiet) (I := Same c) ?_ ?_ hp hc
  · intro o s ho hs
    exact quiet_sim ho hs
  · intro o s r s' ho hs hr
    exact quiet_same ho hs hr

theorem entry_uses (xs : List Nat) (i : Nat) : (entry xs i).Uses Quiet := by
  rw [entry]
  split
  · trivial
  · exact ⟨trivial, fun _ => trivial⟩

theorem load_uses (src : Source) : src.load.Uses Quiet := by
  cases src <;> exact ⟨trivial, fun _ => trivial⟩

theorem freeBlocks_uses (pos : DataPosition) (ds : List Nat) (srcs : List Source) :
    (e.freeBlocks pos ds srcs).Uses Quiet := by
  apply Uses.foldlM
  intro _ i _
  apply (entry_uses ds i).bind
  intro d
  rw [freeBlock]
  split
  · exact ⟨trivial, fun _ => trivial⟩
  · trivial

theorem copyIntact_uses (ds : List Nat) (srcs : List Source) :
    (copyIntact ds srcs).Uses Quiet := by
  apply Uses.foldlM
  intro data i _
  apply (entry_uses ds i).bind
  intro d
  split
  · exact (load_uses _).bind fun _ => trivial
  · trivial

theorem survivorRows_uses (ds : List Nat) : (e.survivorRows ds).Uses Quiet := by
  apply Uses.foldlM
  intro b i _
  exact (entry_uses ds i).bind fun _ => trivial

theorem selectSurvivors_uses (pos : DataPosition) : (selectSurvivors pos).Uses Quiet := by
  apply Uses.foldlM
  intro acc j _
  split
  · exact ⟨trivial, fun _ => trivial⟩
  · trivial

theorem store_load_self (m : Mem) (a n : Nat) : m.store a (m.load a n) = m := by
  funext x
  simp only [Mem.store, Mem.load]
  split
  · congr 1
    omega
  · rfl

theorem readSlot_lt {d : Nat} (h : (c.peers e.me d).readBitmap ≠ 0) :
    e.readSlot c d + blockSize ≤ 4096 * NConcurrency := by
  obtain ⟨i, hi, ha⟩ := Bitmap.allocBit_spec h
  rw [readSlot, ha, Int.toNat_natCast]
  exact slot_lt hi

theorem allocBit_ne {d : Nat} (h : (c.peers e.me d).readBitmap ≠ 0) :
    (c.peers e.me d).readBitmap.allocBit.1 ≠ -1 := by
  obtain ⟨i, -, ha⟩ := Bitmap.allocBit_spec h
  rw [ha]
  omega

theorem setPeer_same (c : Cluster) (q p : Nat) : c.setPeer q p (c.peers q p) = c := by
  simp only [Cluster.setPeer]
  congr 1
  funext q' p'
  split
  case isTrue h => rw [h.1, h.2]
  case isFalse => rfl

theorem postRead_spec {d i : Nat} (hrow : e.InPool index) (hf : (c.peers e.me d).readBitmap ≠ 0)
    (hd : d ∈ e.chosen c) (hi : (e.chosen c).idxOf d = i) (hme : d ≠ e.me) (hc : Same c c')
    (hr : (c'.peers e.me d).readRegion = (c.peers e.me d).readRegion) : ∃ c'',
      e.faultyHandle fails (.postRead d (getBlockShift (e.getDataPos index).row) (e.readSlot c d)
        blockSize i) c' = some ((), c'') ∧
      e.handle (.postRead d (getBlockShift (e.getDataPos index).row) (e.readSlot c d) blockSize i)
        (e.patched c fails index c') = some ((), e.patched c fails index c'') ∧
      Same c c'' ∧ ∀ p, p ≠ d → c''.peers e.me p = c'.peers e.me p := by
  have hslot := readSlot_lt hf
  by_cases hlost : e.Lost c fails d i
  · have hn : ¬ (c'.up d = true ∧ fails i = false) := by
      rw [hc.2]
      exact hlost.2
    refine ⟨c', if_neg hn, ?_, hc, fun p _ => rfl⟩
    refine (handle_postRead rfl hrow hslot).trans (congrArg (fun x => some ((), x)) ?_)
    have harea : e.stored (e.patched c fails index c') index d = e.oldBlock c d := by
      rw [stored_patched hd, hi, if_pos hlost]
    have hpeer : ((e.patched c fails index c').peers e.me d).readRegion =
        (c.peers e.me d).readRegion := hr
    rw [stored] at harea
    rw [harea, hpeer, oldBlock, store_load_self, ← hpeer]
    exact setPeer_same ..
  · have hserved : c'.up d = true ∧ fails i = false := by
      rw [hc.2]
      exact not_not.1 fun h => hlost ⟨hme, h⟩
    refine ⟨_, (if_pos hserved).trans (handle_postRead hserved.1 hrow hslot), ?_, hc, ?_⟩
    · refine (handle_postRead rfl hrow hslot).trans (congrArg (fun x => some ((), x)) ?_)
      have harea : e.stored (e.patched c fails index c') index d = e.stored c' index d := by
        rw [stored_patched hd, hi, if_neg hlost, stored, stored, hc.1]
      rw [stored, stored] at harea
      rw [harea]
      rfl
    · intro p hp
      exact Cluster.setPeer_ne _ _ fun h => hp h.2

theorem fetchBlock_sim {d i : Nat} (hrow : e.InPool index) (hs : c.HasSlots e.me)
    (hd : d ∈ e.chosen c) (hi : (e.chosen c).idxOf d = i) (hlt : d < N) (hc : Same c c')
    (hp : c'.peers e.me d = c.peers e.me d) :
    ∃ src c'', (e.fetchBlock (e.getDataPos index) d i).run (e.faultyHandle fails) c' =
        some (src, c'') ∧
      (e.fetchBlock (e.getDataPos index) d i).run e.handle (e.patched c fails index c') =
        some (src, e.patched c fails index c'') ∧
      Same c c'' ∧ ∀ p, p ≠ d → c''.peers e.me p = c'.peers e.me p := by
  have hpeer : (d + (e.getDataPos index).startNodeId) % N = d := by
    rw [Nat.add_comm, node_lt index hlt]
  simp only [fetchBlock, hpeer]
  by_cases hme : d = e.me
  · rw [if_neg (not_not.2 hme)]
    exact ⟨_, c', rfl, rfl, hc, fun _ _ => rfl⟩
  · rw [if_pos hme]
    have hf := (hs d).1
    have halloc : e.handle (.getReadRegion d) c' = _ :=
      handle_getReadRegion_some (by rw [hp]; exact allocBit_ne hf)
    have hslot : e.readSlot c' d = e.readSlot c d := by rw [readSlot, hp, readSlot]
    rw [hslot] at halloc
    obtain ⟨c'', hpost, hpost', hc'', hrest⟩ := @postRead_spec e c (c'.setPeer e.me d
      { c'.peers e.me d with readBitmap := (c'.peers e.me d).readBitmap.allocBit.2 }) fails index
      d i hrow hf hd hi hme hc (by rw [Cluster.setPeer_self, hp])
    have halloc' : e.handle (.getReadRegion d) (e.patched c fails index c') = some
        (e.readSlot c d, e.patched c fails index (c'.setPeer e.me d { c'.peers e.me d with
          readBitmap := (c'.peers e.me d).readBitmap.allocBit.2 })) :=
      (quiet_sim (o := .getReadRegion d) trivial hc).trans
        (congrArg (Option.map fun r => (r.1, e.patched c fails index r.2)) halloc)
    refine ⟨.region d (e.readSlot c d), c'', ?_, ?_, hc'', ?_⟩
    · exact (run_call_of halloc).trans ((run_call_of hpost).trans rfl)
    · exact (run_call_of halloc').trans ((run_call_of hpost').trans rfl)
    · intro p hpd
      rw [hrest p hpd, Cluster.setPeer_ne _ _ fun h => hpd h.2]

def fetchRound (e : ECAL) (pos : DataPosition) (ds : List Nat) (recoverSrc : List Source)
    (i : Nat) : Prog sig (List Source) := do
  let d ← entry ds i
  let src ← e.fetchBlock pos d i
  pure (recoverSrc ++ [src])

theorem fetchRounds_sim (hrow : e.InPool index) (hs : c.HasSlots e.me) (n : Nat)
    (hn : n ≤ (e.chosen c).length) : ∃ srcs c'',
      ((List.range n).foldlM (e.fetchRound (e.getDataPos index) (e.chosen c)) []).run
        (e.faultyHandle fails) c = some (srcs, c'') ∧
      ((List.range n).foldlM (e.fetchRound (e.getDataPos index) (e.chosen c)) []).run
        e.handle (e.patched c fails index c) = some (srcs, e.patched c fails index c'') ∧
      Same c c'' ∧ ∀ p, p ∉ (e.chosen c).take n → c''.peers e.me p = c.peers e.me p := by
  have hinv := select_inv (c.isPeerAlive e.me) N
  induction n with
  | zero => exact ⟨[], c, rfl, rfl, ⟨rfl, rfl⟩, fun p _ => rfl⟩
  | succ n ih =>
    obtain ⟨srcs, c₁, hrun, hrun', hc₁, hrest⟩ := ih (Nat.le_of_succ_le hn)
    have hlt : n < (e.chosen c).length := hn
    have hmem : (e.chosen c)[n] ∈ e.chosen c := List.getElem_mem hlt
    have htake := List.take_append_getElem hlt
    obtain ⟨src, c₂, hfetch, hfetch', hc₂, hothers⟩ := @fetchBlock_sim e c c₁ fails index
      (e.chosen c)[n] n hrow hs hmem (hinv.nodup.idxOf_getElem n hlt) (hinv.chosen _ hmem).1 hc₁
      (hrest _ (notMem_take hinv.nodup hlt))
    have hround : ∀ (h : Handler sig Cluster) (s s' : Cluster),
        (e.fetchBlock (e.getDataPos index) (e.chosen c)[n] n).run h s = some (src, s') →
        ([n].foldlM (e.fetchRound (e.getDataPos index) (e.chosen c)) srcs).run h s =
          some (srcs ++ [src], s') := by
      intro h s s' hr
      simp only [List.foldlM_cons, List.foldlM_nil, fetchRound, entry_eq hlt,
        List.getD_eq_getElem _ _ hlt, ret_bind, run_bind, hr, Option.bind_some, pure_eq, run_ret]
    refine ⟨srcs ++ [src], c₂, ?_, ?_, hc₂, ?_⟩
    · rw [List.range_succ, List.foldlM_append, run_bind, hrun, Option.bind_some,
        hround _ _ _ hfetch]
    · rw [List.range_succ, List.foldlM_append, run_bind, hrun', Option.bind_some,
        hround _ _ _ hfetch']
    · intro p hp
      rw [← htake] at hp
      have hpd : p ≠ (e.chosen c)[n] := fun h =>
        hp (List.mem_append_right _ (List.mem_singleton.2 h))
      rw [hothers p hpd, hrest p fun h => hp (List.mem_append_left _ h)]

def decodeBlocks (e : ECAL) (index : Nat) (decodeIndex errIndex : List Nat)
    (recoverSrc : List Source) : Prog sig Page := do
  let data ← copyIntact decodeIndex recoverSrc
  if errIndex.length = 0 then do
    e.freeBlocks (e.getDataPos index) decodeIndex recoverSrc
    pure ⟨data.load 0 4096, index⟩
  else do
    let b ← e.survivorRows decodeIndex
    match e.isal.gf_invert_matrix b K with
    | none => pure ⟨data.load 0 4096, index⟩
    | some invertMatrix => do
      let blks ← recoverSrc.mapM Source.load
      let data := e.recoverBlocks errIndex invertMatrix blks data
      e.freeBlocks (e.getDataPos index) decodeIndex recoverSrc
      pure ⟨data.load 0 4096, index⟩

theorem readBlock_eq (e : ECAL) (index : Nat) : e.readBlock index = (do
    let acc ← selectSurvivors (e.getDataPos index)
    let recoverSrc ← (List.range K).foldlM (e.fetchRound (e.getDataPos index) acc.1) []
    e.decodeBlocks index acc.1 acc.2 recoverSrc) := rfl

theorem decodeBlocks_uses (ds es : List Nat) (srcs : List Source) :
    (e.decodeBlocks index ds es srcs).Uses Quiet := by
  apply (copyIntact_uses ds srcs).bind
  intro data
  split
  · exact (freeBlocks_uses _ ds srcs).bind fun _ => trivial
  · apply (survivorRows_uses ds).bind
    intro b
    split
    · trivial
    · exact (Uses.mapM srcs load_uses).bind fun _ =>
        (freeBlocks_uses _ ds srcs).bind fun _ => trivial

theorem select_faulty : (selectSurvivors (e.getDataPos index)).run (e.faultyHandle fails) c =
    some (select (c.isPeerAlive e.me) N, c) := by
  obtain ⟨acc, c', hr, rfl, rfl⟩ :=
    @selectSurvivors_spec _ c (e.faultyHandle fails) (c.isPeerAlive e.me) e index fun _ => rfl
  exact hr

theorem readBlock_sim (hrow : e.InPool index) (hs : c.HasSlots e.me)
    (hK : (e.chosen c).length = K) :
    Sim (e.faultyHandle fails) e.handle (e.patched c fails index) (e.readBlock index) c := by
  rw [readBlock_eq]
  apply (quiet_prog (selectSurvivors_uses _) ⟨rfl, rfl⟩).bind
  intro acc s hr
  cases select_faulty.symm.trans hr
  obtain ⟨srcs, c', hrun, hrun', hc', -⟩ := fetchRounds_sim hrow hs K hK.ge
  apply Sim.bind
  · rw [Sim]
    change _ = Option.map _ (((List.range K).foldlM (e.fetchRound _ (e.chosen c)) []).run _ c)
    rw [hrun]
    exact hrun'
  · intro srcs' s' hr'
    cases hrun.symm.trans hr'
    exact quiet_prog (decodeBlocks_uses _ _ _) hc'

theorem length_chosen : (e.chosen c).length =
    min K ((List.range N).filter (c.isPeerAlive e.me)).length :=
  (select_inv (c.isPeerAlive e.me) N).length

/-- The call returns the page of the blocks it has, or has had, in its regions. -/
theorem readBlock_faulty (hd : e.isal.Documented) (hrow : e.InPool index) (hs : c.HasSlots e.me)
    (hK : K ≤ ((List.range N).filter (c.isPeerAlive e.me)).length) :
    ∃ page c', (∀ d ∈ e.chosen c, e.blockOf page d =
        if e.Lost c fails d ((e.chosen c).idxOf d) then e.oldBlock c d else e.stored c index d) ∧
      (e.readBlock index).run (e.faultyHandle fails) c = some (⟨page, index⟩, c') := by
  have hsim : Sim (e.faultyHandle fails) e.handle (e.patched c fails index) (e.readBlock index) c :=
    readBlock_sim hrow hs (length_chosen.trans (min_eq_left hK))
  have hs' : (e.patched c fails index c).HasSlots e.me := fun p => hs p
  obtain ⟨page, hblk, p, c', hrun, rfl, -⟩ := @readBlock_page e (e.patched c fails index c)
    index hd hrow hs' (fun _ _ _ _ => rfl) hK
  rw [hsim] at hrun
  obtain ⟨⟨p, c''⟩, hr, heq⟩ := Option.map_eq_some_iff.1 hrun
  refine ⟨page, c'', ?_, ?_⟩
  · intro d hmem
    rw [← stored_patched hmem]
    exact (hblk d hmem).symm
  · rw [hr]
    exact congrArg (fun x => some (x, c'')) (Prod.mk.inj heq).1

/-- With too few nodes alive the loop goes on to an entry that was never assigned. -/
theorem readBlock_unassigned (hrow : e.InPool index) (hs : c.HasSlots e.me)
    (hK : (e.chosen c).length < K) :
    ¬ (e.readBlock index).Asks (e.faultyHandle fails) (· ≠ .unassigned) c := by
  intro hasks
  obtain ⟨srcs, c', hrun, -⟩ := @fetchRounds_sim e c fails index hrow hs _ (Nat.le_refl _)
  obtain ⟨m, hm⟩ := Nat.exists_eq_add_of_lt hK
  have hrange : List.range K = List.range (e.chosen c).length ++
      (e.chosen c).length :: (List.range' ((e.chosen c).length + 1) m) := by
    rw [hm, Nat.add_assoc, List.range_eq_range', ← List.range'_append_1, Nat.zero_add,
      List.range'_succ, List.range_eq_range']
  rw [readBlock_eq, asks_bind] at hasks
  have hfound := hasks.2 _ _ select_faulty
  rw [asks_bind] at hfound
  have hfetch := hfound.1
  change (List.foldlM (e.fetchRound _ (e.chosen c)) [] (List.range K)).Asks _ _ c at hfetch
  rw [hrange, List.foldlM_append, asks_bind] at hfetch
  have hround := hfetch.2 _ _ hrun
  rw [List.foldlM_cons, asks_bind, fetchRound, asks_bind, entry,
    List.getElem?_eq_none (Nat.le_refl _)] at hround
  exact hround.1.1.1 rfl

/-- The call uses only what it has assigned, and returns nothing but the page. -/
structure NotSilent (e : ECAL) (c : Cluster) (fails : Nat → Bool) (index : Nat) (page : Block4K) :
    Prop where
  assigned : (e.readBlock index).Asks (e.faultyHandle fails) (· ≠ .unassigned) c
  returns : ∀ p c', (e.readBlock index).run (e.faultyHandle fails) c = some (p, c') →
    p.page = page

/-- Enough nodes are found alive, and a region into which a read is lost holds the block already. -/
structure Intact (e : ECAL) (c : Cluster) (fails : Nat → Bool) (page : Block4K) : Prop where
  alive : K ≤ ((List.range N).filter (c.isPeerAlive e.me)).length
  lost : ∀ d ∈ e.chosen c, e.Lost c fails d ((e.chosen c).idxOf d) →
    e.oldBlock c d = e.blockOf page d

/-- A read of a page that all nodes hold is silent about failures exactly when one of them
matters. -/
theorem read_failures_iff {page : Block4K} (hd : e.isal.Documented)
    (hindex : index < e.getClusterCapacity) (hs : c.HasSlots e.me)
    (hw : ∀ d < N, e.stored c index d = e.blockOf page d) :
    e.NotSilent c fails index page ↔ e.Intact c fails page := by
  have hrow := inPool_of_lt hindex
  constructor
  · rintro ⟨hasks, hreturns⟩
    have hK : K ≤ ((List.range N).filter (c.isPeerAlive e.me)).length := by
      by_contra hlt
      refine readBlock_unassigned hrow hs ?_ hasks
      rw [length_chosen]
      omega
    obtain ⟨page', c', hblk, hr⟩ := @readBlock_faulty e c fails index hd hrow hs hK
    refine ⟨hK, fun d hmem hlost => ?_⟩
    have hpage := hblk d hmem
    rw [if_pos hlost, show page' = page from hreturns _ _ hr] at hpage
    exact hpage.symm
  · rintro ⟨hK, hlost⟩
    obtain ⟨page', c', hblk, hr⟩ := @readBlock_faulty e c fails index hd hrow hs hK
    refine ⟨asks_of_run (fun o s ho => ?_) hr, fun p c'' hr' => ?_⟩
    · rw [not_not.1 ho]
      rfl
    · cases hr.symm.trans hr'
      refine page_unique hd (select_spec hK) fun d hmem => ?_
      rw [hblk d hmem]
      split
      case isTrue h => exact hlost d hmem h
      case isFalse => exact hw d ((select_inv _ N).chosen d hmem).1

def holding (e : ECAL) (page : Block4K) : Cluster :=
  { Cluster.fresh with area := fun d => Mem.store (fun _ => 0) 0 (e.blockOf page d) }

theorem stored_holding (page : Block4K) (d : Nat) :
    e.stored (e.holding page) 0 d = e.blockOf page d := by
  have hrow : (e.getDataPos 0).row * blockSize = 0 := by rw [getDataPos, Nat.zero_div, Nat.zero_mul]
  rw [stored, hrow]
  exact Mem.load_store ..

/-- The page of ones, once more: the regions hold its blocks from an earlier read. -/
def rereading : Cluster :=
  { holding ⟨IsaL.base, 3, 0, 4096⟩ fun _ => 1 with
    peers := fun _ _ => ⟨⟨true, 0, .full 32, .full 32⟩, fun _ => 1, fun _ => 0⟩ }

/-- The read of the second block fails, and the region holds that block. -/
theorem read_failures_iff_again : Lost ⟨IsaL.base, 3, 0, 4096⟩ rereading (fun i => i = 1) 1 1 ∧
    NotSilent ⟨IsaL.base, 3, 0, 4096⟩ rereading (fun i => i = 1) 0 (fun _ => 1) := by
  have hslots : rereading.HasSlots 0 := fun _ =>
    ⟨Bitmap.full_ne_zero (by decide), Bitmap.full_ne_zero (by decide)⟩
  have hstored : ∀ d < N, stored ⟨IsaL.base, 3, 0, 4096⟩ rereading 0 d =
      blockOf ⟨IsaL.base, 3, 0, 4096⟩ (fun _ => 1) d := fun d _ => stored_holding _ d
  refine ⟨by decide, ?_⟩
  apply (read_failures_iff IsaL.base_documented (by decide) hslots hstored).2
  refine ⟨by decide, fun d hmem hlost => ?_⟩
  have hchosen : chosen ⟨IsaL.base, 3, 0, 4096⟩ rereading = [0, 1] := by decide
  rw [hchosen] at hmem
  obtain rfl | rfl : d = 0 ∨ d = 1 := by simpa using hmem
  · exact absurd rfl hlost.1
  · rw [blockOf_data _ _ (by decide), dataBlock_const 1 (by decide)]
    rfl

/-- Node 0 of three reads a page of ones, and the read of its second block fails. -/
theorem readBlock_silent : (∀ d < N, stored ⟨IsaL.base, 3, 0, 4096⟩
      (holding ⟨IsaL.base, 3, 0, 4096⟩ fun _ => 1) 0 d =
        blockOf ⟨IsaL.base, 3, 0, 4096⟩ (fun _ => 1) d) ∧
    ¬ NotSilent ⟨IsaL.base, 3, 0, 4096⟩ (holding ⟨IsaL.base, 3, 0, 4096⟩ fun _ => 1)
      (fun i => i = 1) 0 (fun _ => 1) := by
  refine ⟨fun d _ => stored_holding _ d, fun h => ?_⟩
  obtain ⟨page, c', hblk, hr⟩ := @readBlock_faulty ⟨IsaL.base, 3, 0, 4096⟩
    (holding ⟨IsaL.base, 3, 0, 4096⟩ fun _ => 1) (fun i => i = 1) 0 IsaL.base_documented
    (inPool_of_lt (by decide)) (Cluster.fresh_hasSlots 0) (by decide)
  have hone := hblk 1 (by decide)
  rw [if_pos (by decide), show page = fun _ => 1 from h.returns _ _ hr,
    blockOf_data _ _ (by decide), dataBlock_const 1 (by decide)] at hone
  exact absurd (congrFun hone ⟨0, by decide⟩) (by decide)

end ECAL

end Galois
