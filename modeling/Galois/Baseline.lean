import Galois.Effect.System
import Galois.ReadWrite

namespace Galois
set_option autoImplicit true
set_option relaxedAutoImplicit false

open Prog

namespace Baseline

open ECAL (K N Page blockSize getBlockShift)

/-- They copy whole pages where ECAL copies blocks. -/
inductive Op where
  | socket (o : ECAL.Op)
  | loadRegion (peerId addr : Nat)
  | storeRegion (peerId addr : Nat) (page : Block4K)
  | loadPool (block : Nat)
  | storePool (block : Nat) (page : Block4K)

def Op.Res : Op → Type
  | .socket o => o.Res
  | .loadRegion _ _ | .loadPool _ => Block4K
  | .storeRegion _ _ _ | .storePool _ _ => Unit

abbrev sig : Signature := ⟨Op, Op.Res⟩

abbrev call (o : Op) : Prog sig o.Res := Prog.perform (S := sig) o

abbrev isPeerAlive (peerId : Nat) : Prog sig Bool := call (.socket (.isPeerAlive peerId))
abbrev getReadRegion (peerId : Nat) : Prog sig Nat := call (.socket (.getReadRegion peerId))
abbrev getWriteRegion (peerId : Nat) : Prog sig Nat := call (.socket (.getWriteRegion peerId))
abbrev freeReadRegion (peerId addr : Nat) : Prog sig Unit :=
  call (.socket (.freeReadRegion peerId addr))
abbrev freeWriteRegion (peerId addr : Nat) : Prog sig Unit :=
  call (.socket (.freeWriteRegion peerId addr))
abbrev postRead (peerId remoteSrcShift localDst length : Nat) : Prog sig Unit :=
  call (.socket (.postRead peerId remoteSrcShift localDst length 0))
abbrev postWrite (peerId remoteDstShift localSrc length : Nat) : Prog sig Unit :=
  call (.socket (.postWrite peerId remoteDstShift localSrc length))
abbrev pollSendCompletion : Prog sig Unit := call (.socket .pollSendCompletion)
abbrev loadRegion (peerId addr : Nat) : Prog sig Block4K := call (.loadRegion peerId addr)
abbrev storeRegion (peerId addr : Nat) (page : Block4K) : Prog sig Unit :=
  call (.storeRegion peerId addr page)
abbrev loadPool (block : Nat) : Prog sig Block4K := call (.loadPool block)
abbrev storePool (block : Nat) (page : Block4K) : Prog sig Unit := call (.storePool block page)

def poll (polls : Bool) : Prog sig Unit := if polls then pollSendCompletion else pure ()

/-- The remote branch of both `readBlock`s, one of which has the poll commented out. -/
def readRemote (polls : Bool) (peerId block : Nat) : Prog sig Block4K := do
  let base ← getReadRegion peerId
  postRead peerId (getBlockShift block) base 4096
  poll polls
  let page ← loadRegion peerId base
  freeReadRegion peerId base
  pure page

def readPage (e : ECAL) (polls : Bool) (peerId block index : Nat) : Prog sig Page :=
  if peerId = e.me then do
    let page ← loadPool block
    pure ⟨page, index⟩
  else do
    let page ← readRemote polls peerId block
    pure ⟨page, index⟩

/-- The remote branch of both `writeBlock`s, with the length that is posted. -/
def writeRemote (polls : Bool) (length peerId block : Nat) (page : Block4K) : Prog sig Unit := do
  let base ← getWriteRegion peerId
  storeRegion peerId base page
  postWrite peerId (getBlockShift block) base length
  poll polls
  freeWriteRegion peerId base

/-- The socket of node `e.me`, and the memory around it. -/
def handle (e : ECAL) : Handler sig Cluster
  | .socket o, c => e.handle o c
  | .loadRegion p addr, c => some ((c.peers e.me p).readRegion.load addr 4096, c)
  | .storeRegion p addr page, c =>
    let conn := c.peers e.me p
    some ((), c.setPeer e.me p { conn with writeRegion := conn.writeRegion.store addr page })
  | .loadPool block, c =>
    if getBlockShift block + 4096 ≤ e.poolSize then
      some ((c.area e.me).load (getBlockShift block) 4096, c)
    else none
  | .storePool block page, c =>
    if getBlockShift block + 4096 ≤ e.poolSize then
      some ((), c.setArea e.me ((c.area e.me).store (getBlockShift block) page))
    else none

/-- The offsets that an operation touches are inside the pool. -/
def Inside (e : ECAL) : Op → Prop
  | .socket (.postRead _ shift _ length _) | .socket (.postWrite _ shift _ length) =>
    shift + length ≤ e.poolSize
  | .loadPool block | .storePool block _ => getBlockShift block + 4096 ≤ e.poolSize
  | _ => True

variable {e : ECAL} {c : Cluster} {p block : Nat}

theorem handle_outside (o : Op) (c : Cluster) (h : ¬ Inside e o) : handle e o c = none := by
  cases o with
  | socket o =>
    cases o with
    | postRead p shift dst len taskId => exact if_neg fun hc => h hc.2.1
    | postWrite p shift src len => exact if_neg fun hc => h hc.2.1
    | _ => exact absurd trivial h
  | loadPool block => exact if_neg h
  | storePool block page => exact if_neg h
  | _ => exact absurd trivial h

theorem poll_bind {polls : Bool} {f : Unit → Prog sig α} {Q : α → Cluster → Prop}
    (h : Wp (handle e) (f ()) c Q) : Wp (handle e) (poll polls >>= f) c Q := by
  cases polls with
  | false => exact h
  | true => exact .call rfl h

theorem readRemote_spec (polls : Bool) (hup : c.up p = true) (hs : c.HasSlots e.me)
    (hin : getBlockShift block + 4096 ≤ e.poolSize) :
    Wp (handle e) (readRemote polls p block) c fun page c' =>
      page = (c.area p).load (getBlockShift block) 4096 ∧ Cluster.Frame c c' ∧
        c'.area = c.area := by
  obtain ⟨i, hi, halloc⟩ := ECAL.handle_getReadRegion (hs p).1
  have hfits := ECAL.slot_fits (BitVec.lt_of_getLsbD hi) (le_refl 4096)
  apply Wp.call halloc
  apply Wp.call (ECAL.handle_postRead (by exact hup) hin hfits)
  change Wp _ (poll polls >>= _) _ _
  apply poll_bind
  apply Wp.call rfl
  apply Wp.call rfl
  apply Wp.ret
  simp only [Cluster.setPeer_setPeer, Cluster.setPeer_self, Cluster.setPeer_area,
    ECAL.freeBit_addr hi, Mem.load_store, true_and, and_true]
  apply Cluster.Frame.setPeer
  · exact .refl c
  · rfl

theorem readRemote_outside (polls : Bool) (hout : ¬ getBlockShift block + 4096 ≤ e.poolSize) :
    (readRemote polls p block).run (handle e) c = none := by
  rw [readRemote, run_bind]
  cases hget : (getReadRegion p).run (handle e) c with
  | none => rfl
  | some r =>
    have hpost : handle e (.socket (.postRead p (getBlockShift block) r.1 4096 0)) r.2 = none :=
      handle_outside _ _ hout
    rw [Option.bind_some, run_bind]
    change ((handle e _ r.2).bind _).bind _ = none
    rw [hpost]
    rfl

theorem writeRemote_spec (polls : Bool) {length : Nat} {page : Block4K} (hlen : length ≤ 4096)
    (hup : c.up p = true) (hs : c.HasSlots e.me)
    (hin : getBlockShift block + length ≤ e.poolSize) :
    Wp (handle e) (writeRemote polls length p block page) c fun _ c' => Cluster.Frame c c' ∧
      ∀ q, c'.area q = if q = p then (c.area p).store (getBlockShift block)
        fun t : Fin length => page (t.castLE hlen) else c.area q := by
  obtain ⟨i, hi, halloc⟩ := ECAL.handle_getWriteRegion (hs p).2
  have hfits := ECAL.slot_fits (BitVec.lt_of_getLsbD hi) hlen
  apply Wp.call halloc
  apply Wp.call rfl
  apply Wp.call (ECAL.handle_postWrite (by exact hup) hin hfits)
  change Wp _ (poll polls >>= _) _ _
  apply poll_bind
  apply Wp.call rfl
  apply Wp.ret
  simp only [Cluster.setPeer_setPeer, Cluster.setPeer_self, Cluster.setPeer_area,
    Cluster.setArea_setPeer, ECAL.freeBit_addr hi, Mem.load_store_prefix _ _ _ hlen]
  constructor
  · apply Cluster.Frame.setPeer
    · exact ⟨rfl, fun _ _ => rfl⟩
    · rfl
  · intro q
    split
    · next hq => rw [hq, Cluster.setArea_self]
    · next hq => rw [Cluster.setArea_ne _ _ hq]

end Baseline

namespace EcalNone

open Baseline
open ECAL (K N Page blockSize)

def getClusterCapacity (e : ECAL) : Nat :=
  e.clusterSize * (e.poolLength / (4096 / blockSize)) % 2 ^ 64

def readBlock (e : ECAL) (index : Nat) : Prog sig Page :=
  let row := index / N
  let peerId := index % N
  readPage e false peerId (row * K) index

/-- To another node only `BlockTy::size` bytes are posted. -/
def writeBlock (e : ECAL) (page : Page) : Prog sig Unit :=
  let row := page.index / N
  let peerId := page.index % N
  if peerId = e.me then storePool (row * K) page.page
  else writeRemote false blockSize peerId (row * K) page.page

end EcalNone

namespace EcalRepl

open Baseline
open ECAL (K N Page blockSize)

def getClusterCapacity (e : ECAL) : Nat :=
  e.clusterSize / N * (e.poolLength / (4096 / blockSize)) % 2 ^ 64

def readBlock (e : ECAL) (index : Nat) : Prog sig Page :=
  let peerId := 0
  readPage e true peerId (index * K) index

/-- `(*clusterConf)[i].id` is `i`, as the entry of a node stands at its id. -/
def writeStep (e : ECAL) (page : Page) (i : Nat) : Prog sig Unit := do
  let peerId := i
  if peerId = e.me then storePool (page.index * K) page.page
  else do
    let alive ← isPeerAlive peerId
    if alive then writeRemote true 4096 peerId (page.index * K) page.page else pure ()

def writeBlock (e : ECAL) (page : Page) : Prog sig Unit :=
  (List.range N).foldlM (fun _ i => writeStep e page i) ()

end EcalRepl

namespace Baseline

open ECAL (K N Page blockSize getBlockShift)

/-- A replacement ECAL, as its callers see it. -/
structure Build where
  getClusterCapacity : ECAL → Nat
  readBlock : ECAL → Nat → Prog sig Page
  writeBlock : ECAL → Page → Prog sig Unit

def ecalNone : Build := ⟨EcalNone.getClusterCapacity, EcalNone.readBlock, EcalNone.writeBlock⟩

def ecalRepl : Build := ⟨EcalRepl.getClusterCapacity, EcalRepl.readBlock, EcalRepl.writeBlock⟩

/-- The node and the place there that a page is read from, and which writes store all of it. -/
structure Layout where
  node : Nat → Nat
  slot : Nat → Nat
  Whole : Cluster → Nat → Page → Prop

/-- A page without redundancy is on one node; of a page that comes from another node the second
half has to be there already. -/
def noneLayout : Layout where
  node index := index % N
  slot index := index / N
  Whole c me page := me = page.index % N ∨
    (c.area (page.index % N)).load (page.index / N * 4096 + blockSize) blockSize =
      ECAL.dataBlock page.page 1

/-- All replicas are whole, and node `0` answers the reads. -/
def replLayout : Layout := ⟨fun _ => 0, fun index => index, fun _ _ _ => True⟩

def Layout.page (L : Layout) (c : Cluster) (index : Nat) : Block4K :=
  (c.area (L.node index)).load (L.slot index * 4096) 4096

/-- What a build does to the pages of its layout. -/
structure Layout.Describes (L : Layout) (B : Build) : Prop where
  read : ∀ {e : ECAL} {c : Cluster} {index : Nat}, (∀ p < N, c.up p = true) →
    c.HasSlots e.me → L.slot index < e.poolSize / 4096 →
    Wp (handle e) (B.readBlock e index) c fun r c' =>
      r = ⟨L.page c index, index⟩ ∧ Cluster.Frame c c' ∧ c'.area = c.area
  outside : ∀ {e : ECAL} {c : Cluster} {index : Nat}, ¬ L.slot index < e.poolSize / 4096 →
    (B.readBlock e index).run (handle e) c = none
  write : ∀ {e : ECAL} {c : Cluster} {page : Page}, (∀ p < N, c.up p = true) →
    (∀ p < N, c.isPeerAlive e.me p = true) → c.HasSlots e.me →
    L.slot page.index < e.poolSize / 4096 →
    Wp (handle e) (B.writeBlock e page) c fun _ c' => Cluster.Frame c c' ∧
      (∀ i, i ≠ page.index → L.page c' i = L.page c i) ∧
      (L.page c' page.index = page.page ↔ L.Whole c e.me page)

section Pages

variable {e : ECAL} {c : Cluster} {peerId slot index : Nat}

theorem shift_eq (slot : Nat) : getBlockShift (slot * K) = slot * 4096 := by
  simp only [getBlockShift, blockSize, K]
  omega

theorem fits_iff {size : Nat} : getBlockShift (slot * K) + 4096 ≤ size ↔ slot < size / 4096 := by
  rw [shift_eq]
  omega

theorem readPage_spec (polls : Bool) (hup : c.up peerId = true) (hs : c.HasSlots e.me)
    (hslot : slot < e.poolSize / 4096) :
    Wp (handle e) (readPage e polls peerId (slot * K) index) c fun r c' =>
      r = ⟨(c.area peerId).load (slot * 4096) 4096, index⟩ ∧ Cluster.Frame c c' ∧
        c'.area = c.area := by
  have hin := fits_iff.2 hslot
  rw [readPage]
  split
  · next hme =>
    apply Wp.call (if_pos hin)
    apply Wp.ret
    refine ⟨?_, .refl c, rfl⟩
    rw [hme, shift_eq]
  · apply Wp.bind
    apply (readRemote_spec polls hup hs hin).mono
    rintro page c' ⟨rfl, hf, harea⟩
    apply Wp.ret
    refine ⟨?_, hf, harea⟩
    rw [shift_eq]

theorem readPage_outside (polls : Bool) (hslot : ¬ slot < e.poolSize / 4096) :
    (readPage e polls peerId (slot * K) index).run (handle e) c = none := by
  have hout := mt fits_iff.1 hslot
  rw [readPage]
  split
  · change (handle e (.loadPool (slot * K)) c).bind _ = none
    rw [handle_outside (.loadPool (slot * K)) c hout]
    rfl
  · rw [run_bind, readRemote_outside polls hout]
    rfl

theorem store_other {m : Mem} {b : Fin n → Byte} (hn : n ≤ 4096) {i j : Nat} (h : j ≠ i) :
    (m.store (i * 4096) b).load (j * 4096) 4096 = m.load (j * 4096) 4096 := by
  apply Mem.load_store_disjoint
  rcases Nat.lt_or_gt_of_ne h with h | h
  · exact .inl (by omega)
  · exact .inr (by omega)

theorem store_half {m : Mem} {page : Block4K} {a : Nat} (hle : blockSize ≤ 4096) :
    (m.store a fun t : Fin blockSize => page (t.castLE hle)).load a 4096 = page ↔
      m.load (a + blockSize) blockSize = ECAL.dataBlock page 1 := by
  have hfirst : ECAL.dataBlock page 0 = fun t : Fin blockSize => page (t.castLE hle) := by
    funext t
    have ht : t.val < 4096 := t.isLt.trans_le hle
    simp only [ECAL.dataBlock, DataBlock.mem, Nat.zero_mul, Nat.zero_add, ht, ↓reduceDIte]
    rfl
  have hkept : (m.store a fun t : Fin blockSize => page (t.castLE hle)).load
      (a + 1 * blockSize) blockSize = m.load (a + blockSize) blockSize := by
    rw [Nat.one_mul, Mem.load_store_disjoint _ (.inr le_rfl)]
  constructor
  · intro h
    rw [← hkept, ← ECAL.dataBlock_load _ a (by decide), h]
  · intro h
    apply ECAL.dataBlock_ext
    intro j hj
    rw [ECAL.dataBlock_load _ a hj]
    obtain rfl | rfl : j = 0 ∨ j = 1 := Nat.le_one_iff_eq_zero_or_eq_one.1 (Nat.le_of_lt_succ hj)
    · rw [Nat.zero_mul, Nat.add_zero, Mem.load_store, hfirst]
    · rw [hkept, h]

theorem writePage_spec (polls : Bool) {length : Nat} (page : Block4K) (hlen : length ≤ 4096)
    (hup : c.up peerId = true) (hs : c.HasSlots e.me) (hslot : slot < e.poolSize / 4096) :
    Wp (handle e) (if peerId = e.me then storePool (slot * K) page
      else writeRemote polls length peerId (slot * K) page) c fun _ c' => Cluster.Frame c c' ∧
        ∀ q, c'.area q = if q = peerId then
          if peerId = e.me then (c.area peerId).store (slot * 4096) page
          else (c.area peerId).store (slot * 4096) fun t : Fin length => page (t.castLE hlen)
        else c.area q := by
  have hin := fits_iff.2 hslot
  split
  · next hme =>
    apply Wp.call (if_pos hin)
    apply Wp.ret
    refine ⟨⟨rfl, fun _ _ => rfl⟩, fun q => ?_⟩
    rw [shift_eq]
    split
    · next hq => rw [hq, hme, Cluster.setArea_self]
    · next hq => rw [Cluster.setArea_ne _ _ (hme ▸ hq)]
  · have hin' : getBlockShift (slot * K) + length ≤ e.poolSize := by omega
    apply (writeRemote_spec polls hlen hup hs hin').mono
    rintro - c' ⟨hf, harea⟩
    rw [shift_eq] at harea
    exact ⟨hf, harea⟩

theorem noneLayout_describes : noneLayout.Describes ecalNone where
  read hup hs hslot := readPage_spec false (hup _ (Nat.mod_lt _ (by decide))) hs hslot
  outside hslot := readPage_outside false hslot
  write {e c page} hup _ hs hslot := by
    have hlen : blockSize ≤ 4096 := by decide
    have hnode := hup _ (Nat.mod_lt page.index (by decide))
    apply (writePage_spec false page.page hlen hnode hs hslot).mono
    rintro - c' ⟨hf, harea⟩
    refine ⟨hf, fun i hne => ?_, ?_⟩
    · rw [Layout.page, harea]
      split
      · next hnode =>
        change i % N = page.index % N at hnode
        have hrow : i / N ≠ page.index / N := by
          intro hrow
          rw [← Nat.div_add_mod i N, hrow, hnode, Nat.div_add_mod] at hne
          exact hne rfl
        have hpage : noneLayout.page c i =
            (c.area (page.index % N)).load (i / N * 4096) 4096 := by
          rw [← hnode]
          rfl
        rw [hpage]
        split
        · exact store_other le_rfl hrow
        · exact store_other hlen hrow
      · rfl
    · rw [Layout.page, harea, if_pos (by rfl)]
      split
      · next hme =>
        rw [Mem.load_store]
        exact iff_of_true rfl (.inl hme.symm)
      · next hme =>
        exact (store_half hlen).trans (or_iff_right (Ne.symm hme)).symm

theorem writeStep_spec {page : Page} {i : Nat} (hup : c.up i = true)
    (ha : c.isPeerAlive e.me i = true) (hs : c.HasSlots e.me)
    (hslot : page.index < e.poolSize / 4096) :
    Wp (handle e) (EcalRepl.writeStep e page i) c fun _ c' => Cluster.Frame c c' ∧
      ∀ q, c'.area q = if q = i then (c.area i).store (page.index * 4096) page.page
        else c.area q := by
  have hw := writePage_spec true page.page le_rfl hup hs hslot
  simp only [Fin.castLE_rfl, id_eq, ite_self] at hw
  rw [EcalRepl.writeStep]
  split at hw
  · next hme =>
    rw [if_pos hme]
    exact hw
  · next hme =>
    rw [if_neg hme]
    apply Wp.call (r := c.isPeerAlive e.me i) rfl
    rw [ha]
    exact hw

theorem writeBlock_spec {page : Page} (hup : ∀ p < N, c.up p = true)
    (ha : ∀ p < N, c.isPeerAlive e.me p = true) (hs : c.HasSlots e.me)
    (hslot : page.index < e.poolSize / 4096) :
    Wp (handle e) (EcalRepl.writeBlock e page) c fun _ c' => Cluster.Frame c c' ∧
      ∀ q, c'.area q = if q < N then (c.area q).store (page.index * 4096) page.page
        else c.area q := by
  apply Wp.foldlM_range (I := fun i _ c' => Cluster.Frame c c' ∧ ∀ q, c'.area q =
    if q < i then (c.area q).store (page.index * 4096) page.page else c.area q) N
  · exact ⟨.refl c, fun q => by rw [if_neg q.not_lt_zero]⟩
  · rintro i hi - c₁ ⟨hf, harea⟩
    have hup₁ : c₁.up i = true := by rw [hf.up, hup i hi]
    have ha₁ : c₁.isPeerAlive e.me i = true := by rw [hf.isPeerAlive, ha i hi]
    apply (writeStep_spec hup₁ ha₁ (hf.hasSlots hs) hslot).mono
    rintro - c₂ ⟨hf', harea'⟩
    refine ⟨hf.trans hf', fun q => ?_⟩
    rw [harea' q, harea q, harea i, if_neg (lt_irrefl i)]
    rcases Nat.lt_trichotomy q i with hq | rfl | hq
    · rw [if_neg hq.ne, if_pos hq, if_pos (hq.trans i.lt_succ_self)]
    · rw [if_pos rfl, if_pos q.lt_succ_self]
    · rw [if_neg hq.ne', if_neg hq.le.not_gt, if_neg (by omega)]

theorem replLayout_describes : replLayout.Describes ecalRepl where
  read hup hs hslot := readPage_spec true (hup 0 (by decide)) hs hslot
  outside hslot := readPage_outside true hslot
  write {e c page} hup ha hs hslot := by
    have h0 : 0 < N := by decide
    apply (writeBlock_spec hup ha hs hslot).mono
    rintro - c' ⟨hf, harea⟩
    refine ⟨hf, fun i hne => ?_, ?_⟩
    · simp only [Layout.page, replLayout, harea, h0, ↓reduceIte]
      exact store_other le_rfl hne
    · simp only [Layout.page, replLayout, harea, h0, ↓reduceIte, Mem.load_store]

end Pages

structure State where
  cluster : Cluster
  last : Nat → Option Block4K

inductive Action where
  | write (me : Nat) (page : Page)
  | read (me index : Nat)

def Action.me : Action → Nat
  | .write me _ | .read me _ => me

def Action.index : Action → Nat
  | .write _ page => page.index
  | .read _ index => index

/-- All nodes run, every socket sees them all, and nothing has been written. -/
structure Initial (n : Nat) (s : State) : Prop where
  up : ∀ p < n, s.cluster.up p = true
  alive : ∀ q < n, ∀ p < n, s.cluster.isPeerAlive q p = true
  slots : ∀ q < n, s.cluster.HasSlots q
  last : ∀ i, s.last i = none

section Runs

variable (B : Build) (L : Layout) (isal : IsaL) (n poolSize : Nat)

abbrev ecal (me : Nat) : ECAL := ⟨isal, n, me, poolSize⟩

/-- A node of the cluster asks for an index below the capacity. -/
def Allowed (a : Action) : Prop :=
  a.me < n ∧ a.index < B.getClusterCapacity (ecal isal n poolSize a.me)

inductive Step : State → Action → State → Prop
  | write {s : State} {me : Nat} {page : Page} {c : Cluster}
      (ha : Allowed B isal n poolSize (.write me page))
      (hr : (B.writeBlock (ecal isal n poolSize me) page).run (handle (ecal isal n poolSize me))
        s.cluster = some ((), c)) :
      Step s (.write me page) ⟨c, fun i => if i = page.index then some page.page else s.last i⟩
  | read {s : State} {me index : Nat} {page : Page} {c : Cluster}
      (ha : Allowed B isal n poolSize (.read me index))
      (hr : (B.readBlock (ecal isal n poolSize me) index).run (handle (ecal isal n poolSize me))
        s.cluster = some (page, c)) :
      Step s (.read me index) { s with cluster := c }

def system : System State Action := ⟨Initial n, Step B isal n poolSize⟩

/-- A call touches only the pool and returns; a read returns the page written last, and after a
write every node reads the page written. -/
def Right (s : State) : Action → Prop
  | .read me index =>
    (B.readBlock (ecal isal n poolSize me) index).Asks (handle (ecal isal n poolSize me))
      (Inside (ecal isal n poolSize me)) s.cluster ∧
    Wp (handle (ecal isal n poolSize me)) (B.readBlock (ecal isal n poolSize me) index) s.cluster
      fun r _ => r.index = index ∧ ∀ page, s.last index = some page → r.page = page
  | .write me page =>
    (B.writeBlock (ecal isal n poolSize me) page).Asks (handle (ecal isal n poolSize me))
      (Inside (ecal isal n poolSize me)) s.cluster ∧
    Wp (handle (ecal isal n poolSize me)) (B.writeBlock (ecal isal n poolSize me) page) s.cluster
      fun _ c => ∀ q < n, Wp (handle (ecal isal n poolSize q))
        (B.readBlock (ecal isal n poolSize q) page.index) c fun r _ => r = page

/-- The page has a place in the pools, and a write stores all of it. -/
def Meets (s : State) : Action → Prop
  | .read _ index => L.slot index < poolSize / 4096
  | .write me page => L.slot page.index < poolSize / 4096 ∧ L.Whole s.cluster me page

structure Inv (s : State) : Prop where
  up : ∀ p < n, s.cluster.up p = true
  alive : ∀ q < n, ∀ p < n, s.cluster.isPeerAlive q p = true
  slots : ∀ q < n, s.cluster.HasSlots q
  pages : ∀ i page, s.last i = some page → L.page s.cluster i = page

end Runs

section Spec

variable {B : Build} {L : Layout} {isal : IsaL} {n poolSize : Nat} {s s' : State}

theorem Initial.inv (h : Initial n s) : Inv L n s := by
  refine ⟨h.up, h.alive, h.slots, ?_⟩
  intro i page hlast
  rw [h.last] at hlast
  cases hlast

theorem Inv.frame (h : Inv L n s) {c : Cluster} {last : Nat → Option Block4K}
    (hf : Cluster.Frame s.cluster c) (hpages : ∀ i page, last i = some page → L.page c i = page) :
    Inv L n ⟨c, last⟩ := by
  refine ⟨fun p hp => ?_, fun q hq p hp => ?_, fun q hq => hf.hasSlots (h.slots q hq), hpages⟩
  · rw [hf.up, h.up p hp]
  · rw [hf.isPeerAlive, h.alive q hq p hp]

namespace Layout.Describes

variable (D : L.Describes B) (hN : N ≤ n)
include D hN

variable (isal) in
theorem read_spec (h : Inv L n s) {me index : Nat} (hme : me < n)
    (hslot : L.slot index < poolSize / 4096) :
    Wp (handle (ecal isal n poolSize me)) (B.readBlock (ecal isal n poolSize me) index) s.cluster
      fun r c => r = ⟨L.page s.cluster index, index⟩ ∧ Cluster.Frame s.cluster c ∧
        c.area = s.cluster.area :=
  D.read (fun p hp => h.up p (hp.trans_le hN)) (h.slots me hme) hslot

variable (isal) in
theorem write_spec (h : Inv L n s) {me : Nat} {page : Page} (hme : me < n)
    (hslot : L.slot page.index < poolSize / 4096) :
    Wp (handle (ecal isal n poolSize me)) (B.writeBlock (ecal isal n poolSize me) page) s.cluster
      fun _ c => Cluster.Frame s.cluster c ∧
        (∀ i, i ≠ page.index → L.page c i = L.page s.cluster i) ∧
        (L.page c page.index = page.page ↔ L.Whole s.cluster me page) :=
  D.write (e := ecal isal n poolSize me) (fun p hp => h.up p (hp.trans_le hN))
    (fun p hp => h.alive me hme p (hp.trans_le hN)) (h.slots me hme) hslot

theorem step (h : Inv L n s) {a : Action} (hs : Step B isal n poolSize s a s')
    (ha : Meets L poolSize s a) : Inv L n s' := by
  cases hs with
  | @write me page c hallowed hr =>
    obtain ⟨hf, hother, hsame⟩ := (D.write_spec isal hN h hallowed.1 ha.1).of_run hr
    apply h.frame hf
    intro i p hlast
    split at hlast
    · next hi =>
      rw [hi, hsame.2 ha.2]
      exact Option.some.inj hlast
    · next hi =>
      rw [hother i hi]
      exact h.pages i p hlast
  | @read me index page c hallowed hr =>
    obtain ⟨-, hf, harea⟩ := (D.read_spec isal hN h hallowed.1 ha).of_run hr
    apply h.frame hf
    intro i p hlast
    rw [Layout.page, harea]
    exact h.pages i p hlast

theorem run_inv (hr : ((system B isal n poolSize).restrict
    fun s a _ => Meets L poolSize s a).Run w s) : Inv L n s := by
  apply hr.invariant (I := Inv L n)
  · exact fun s hinit => Initial.inv hinit
  · exact fun s a s' h hs => D.step hN h hs.1 hs.2

theorem read_right (h : Inv L n s) {me index : Nat} (hme : me < n) :
    Right B isal n poolSize s (.read me index) ↔ Meets L poolSize s (.read me index) := by
  constructor
  · rintro ⟨-, r, c, hr, -⟩
    by_contra hslot
    rw [D.outside (by exact hslot)] at hr
    cases hr
  · intro hslot
    have hw := D.read_spec isal hN h hme hslot
    have ⟨r, c, hr, _⟩ := hw
    refine ⟨asks_of_run (fun o c => handle_outside o c) hr, hw.mono ?_⟩
    rintro _ c' ⟨rfl, -, -⟩
    exact ⟨rfl, fun page hlast => h.pages index page hlast⟩

theorem write_right (h : Inv L n s) {me : Nat} {page : Page} (hme : me < n) :
    Right B isal n poolSize s (.write me page) ↔ Meets L poolSize s (.write me page) := by
  constructor
  · rintro ⟨-, _, c, hr, hread⟩
    have hslot : L.slot page.index < poolSize / 4096 := by
      by_contra hslot
      obtain ⟨r, c', hr', -⟩ := hread me hme
      rw [D.outside (by exact hslot)] at hr'
      cases hr'
    obtain ⟨hf, -, hsame⟩ := (D.write_spec isal hN h hme hslot).of_run hr
    have hc : Inv L n ⟨c, fun _ => none⟩ := h.frame hf fun _ _ hlast => by cases hlast
    obtain ⟨r, c', hr', rfl⟩ := hread me hme
    obtain ⟨heq, -⟩ := (D.read_spec isal hN hc hme hslot).of_run hr'
    exact ⟨hslot, hsame.1 (congrArg Page.page heq).symm⟩
  · rintro ⟨hslot, hwhole⟩
    have hw := D.write_spec isal hN h hme hslot
    have ⟨u, c, hr, _⟩ := hw
    refine ⟨asks_of_run (fun o c => handle_outside o c) hr, hw.mono ?_⟩
    rintro - c' ⟨hf, -, hsame⟩ q hq
    have hc : Inv L n ⟨c', fun _ => none⟩ := h.frame hf fun _ _ hlast => by cases hlast
    apply (D.read_spec isal hN hc hq hslot).mono
    rintro _ - ⟨rfl, -, -⟩
    rw [hsame.2 hwhole]

theorem right_iff (hr : ((system B isal n poolSize).restrict
    fun s a _ => Meets L poolSize s a).Run w s) {a : Action} (ha : Allowed B isal n poolSize a) :
    Right B isal n poolSize s a ↔ Meets L poolSize s a := by
  have h := D.run_inv hN hr
  cases a with
  | write me page => exact D.write_right hN h ha.1
  | read me index => exact D.read_right hN h ha.1

end Layout.Describes

theorem Step.allowed {a : Action} (hs : Step B isal n poolSize s a s') :
    Allowed B isal n poolSize a := by
  cases hs with
  | write ha hr => exact ha
  | read ha hr => exact ha

/-- With three nodes the replicas have a place for every page, so that every call is right. -/
theorem replicas_right (hr : (system ecalRepl isal N poolSize).Run w s) {a : Action}
    (ha : Allowed ecalRepl isal N poolSize a) : Right ecalRepl isal N poolSize s a := by
  have hmeets : ∀ s a, Allowed ecalRepl isal N poolSize a → Meets replLayout poolSize s a := by
    rintro s a ⟨-, hindex⟩
    have hcap : N / N * (poolSize / blockSize / (4096 / blockSize)) % 2 ^ 64 ≤ poolSize / 4096 := by
      have hsize : blockSize * (4096 / blockSize) = 4096 := by decide
      apply (Nat.mod_le _ _).trans
      rw [Nat.div_self (by decide), Nat.one_mul, Nat.div_div_eq_div_mul, hsize]
    cases a with
    | read me index => exact hindex.trans_le hcap
    | write me page => exact ⟨hindex.trans_le hcap, trivial⟩
  have hr' := hr.restrict fun s a _ hs => hmeets s a hs.allowed
  exact (replLayout_describes.right_iff le_rfl hr' ha).2 (hmeets s a ha)

end Spec

/-- In every run of calls that meet the condition of their store, the calls that are right are
those that meet it. -/
theorem baseline_pages (isal : IsaL) (poolSize : Nat) (h0 : 0 < n) (hN : N ∣ n) :
    (∀ w s, ((system ecalNone isal n poolSize).restrict
        fun s a _ => Meets noneLayout poolSize s a).Run w s →
      ∀ a, Allowed ecalNone isal n poolSize a →
        (Right ecalNone isal n poolSize s a ↔ Meets noneLayout poolSize s a)) ∧
    ∀ w s, ((system ecalRepl isal n poolSize).restrict
        fun s a _ => Meets replLayout poolSize s a).Run w s →
      ∀ a, Allowed ecalRepl isal n poolSize a →
        (Right ecalRepl isal n poolSize s a ↔ Meets replLayout poolSize s a) := by
  have hle := Nat.le_of_dvd h0 hN
  constructor
  · intro w s hr a ha
    exact noneLayout_describes.right_iff hle hr ha
  · intro w s hr a ha
    exact replLayout_describes.right_iff hle hr ha

def fresh : State := ⟨.fresh, fun _ => none⟩

theorem fresh_initial (n : Nat) : Initial n fresh :=
  ⟨fun _ _ => rfl, fun _ _ _ _ => by simp [fresh, Cluster.fresh, Cluster.isPeerAlive],
    fun q _ => Cluster.fresh_hasSlots q, fun _ => rfl⟩

/-- A node writes a page without redundancy to itself, and another node reads it. -/
theorem baseline_pages_own : ∃ s, ((system ecalNone IsaL.base 3 4096).restrict
      fun s a _ => Meets noneLayout 4096 s a).Run [.write 1 ⟨fun _ => 1, 1⟩] s ∧
    s.last 1 = some (fun _ => 1) ∧ Right ecalNone IsaL.base 3 4096 s (.read 2 1) := by
  have hnil : ((system ecalNone IsaL.base 3 4096).restrict
      fun s a _ => Meets noneLayout 4096 s a).Run [] fresh := .nil (fresh_initial 3)
  have hallowed : Allowed ecalNone IsaL.base 3 4096 (.write 1 ⟨fun _ => 1, 1⟩) :=
    ⟨by decide, by decide⟩
  have hmeets : Meets noneLayout 4096 fresh (.write 1 ⟨fun _ => 1, 1⟩) :=
    ⟨by decide, .inl (by decide)⟩
  obtain ⟨hright, -⟩ := baseline_pages IsaL.base 4096 (n := 3) (by decide) (by decide)
  obtain ⟨-, _, c, hc, -⟩ := (hright [] fresh hnil _ hallowed).2 hmeets
  have hrun := hnil.snoc ⟨.write hallowed hc, hmeets⟩
  exact ⟨_, hrun, rfl, (hright _ _ hrun (.read 2 1) ⟨by decide, by decide⟩).2
    (by decide : 1 / 3 < 4096 / 4096)⟩

/-- Without redundancy the second half of a page from another node is lost, and from six nodes
on the capacity counts pages that have no place. -/
theorem baseline_pages_lost :
    (¬ ∀ w s, (system ecalNone IsaL.base 3 4096).Run w s →
      ∀ a, Allowed ecalNone IsaL.base 3 4096 a → Right ecalNone IsaL.base 3 4096 s a) ∧
    ¬ ∀ w s, (system ecalRepl IsaL.base 6 4096).Run w s →
      ∀ a, Allowed ecalRepl IsaL.base 6 4096 a → Right ecalRepl IsaL.base 6 4096 s a := by
  constructor
  · intro h
    have hwrite := h [] fresh (.nil (fresh_initial 3)) (.write 1 ⟨fun _ => 1, 0⟩)
      ⟨by decide, by decide⟩
    obtain ⟨-, hme | hhalf⟩ := (noneLayout_describes.write_right (le_refl 3)
      (fresh_initial 3).inv (by decide)).1 hwrite
    · exact absurd hme (by decide)
    · have hbyte := congrFun hhalf ⟨0, by decide⟩
      revert hbyte
      decide
  · intro h
    have hread := h [] fresh (.nil (fresh_initial 6)) (.read 0 1) ⟨by decide, by decide⟩
    have hslot := (replLayout_describes.read_right (by decide) (fresh_initial 6).inv
      (by decide)).1 hread
    exact absurd hslot (by decide : ¬ 1 < 4096 / 4096)

end Baseline

end Galois
