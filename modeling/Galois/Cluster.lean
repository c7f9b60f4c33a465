import Galois.Bitmap
import Galois.Stripe

namespace Galois
set_option autoImplicit true
set_option relaxedAutoImplicit false

/-- The part of a connection that is not buffer memory. -/
structure ConnStatus where
  connected : Bool
  forcedConnStat : Int
  readBitmap : Bitmap 32
  writeBitmap : Bitmap 32

/-- What a socket keeps for one peer. -/
structure RDMAConnection extends ConnStatus where
  readRegion : Mem
  writeRegion : Mem

/-- The registered memory of every node, which nodes run, and `peers` of every socket. -/
structure Cluster where
  area : Nat → Mem
  up : Nat → Bool
  peers : Nat → Nat → RDMAConnection

namespace Cluster

def isPeerAlive (c : Cluster) (me peerId : Nat) : Bool :=
  if peerId = me then true
  else if (c.peers me peerId).forcedConnStat ≠ 0 then 0 < (c.peers me peerId).forcedConnStat
  else (c.peers me peerId).connected

def setPeer (c : Cluster) (me peerId : Nat) (conn : RDMAConnection) : Cluster :=
  { c with peers := fun q p => if q = me ∧ p = peerId then conn else c.peers q p }

def setArea (c : Cluster) (node : Nat) (m : Mem) : Cluster :=
  { c with area := fun q => if q = node then m else c.area q }

@[simp] theorem setPeer_area (c : Cluster) (q p : Nat) (conn : RDMAConnection) :
    (c.setPeer q p conn).area = c.area := rfl

@[simp] theorem setPeer_up (c : Cluster) (q p : Nat) (conn : RDMAConnection) :
    (c.setPeer q p conn).up = c.up := rfl

@[simp] theorem setPeer_self (c : Cluster) (q p : Nat) (conn : RDMAConnection) :
    (c.setPeer q p conn).peers q p = conn := by
  simp only [setPeer, and_self, ↓reduceIte]

theorem setPeer_ne (c : Cluster) {q p q' p' : Nat} (conn : RDMAConnection)
    (h : ¬(q' = q ∧ p' = p)) : (c.setPeer q p conn).peers q' p' = c.peers q' p' := by
  simp only [setPeer, h, ↓reduceIte]

@[simp] theorem setPeer_setPeer (c : Cluster) (q p : Nat) (conn conn' : RDMAConnection) :
    (c.setPeer q p conn).setPeer q p conn' = c.setPeer q p conn' := by
  simp only [setPeer, mk.injEq, true_and]
  funext q' p'
  split <;> rfl

@[simp] theorem setArea_setPeer (c : Cluster) (q p a : Nat) (conn : RDMAConnection) (m : Mem) :
    (c.setPeer q p conn).setArea a m = (c.setArea a m).setPeer q p conn := rfl

@[simp] theorem setArea_peers (c : Cluster) (q : Nat) (m : Mem) :
    (c.setArea q m).peers = c.peers := rfl

@[simp] theorem setArea_up (c : Cluster) (q : Nat) (m : Mem) : (c.setArea q m).up = c.up := rfl

@[simp] theorem setArea_self (c : Cluster) (q : Nat) (m : Mem) : (c.setArea q m).area q = m := by
  simp only [setArea, ↓reduceIte]

theorem setArea_ne (c : Cluster) {q q' : Nat} (m : Mem) (h : q' ≠ q) :
    (c.setArea q m).area q' = c.area q' := by
  simp only [setArea, h, ↓reduceIte]

/-- The nodes that run and the sockets are as before; buffers and memory may differ. -/
structure Frame (c c' : Cluster) : Prop where
  up : c'.up = c.up
  status : ∀ q p, (c'.peers q p).toConnStatus = (c.peers q p).toConnStatus

theorem Frame.refl (c : Cluster) : Frame c c := ⟨rfl, fun _ _ => rfl⟩

theorem Frame.trans {c₁ c₂ c₃ : Cluster} (h : Frame c₁ c₂) (h' : Frame c₂ c₃) : Frame c₁ c₃ :=
  ⟨h'.up.trans h.up, fun q p => (h'.status q p).trans (h.status q p)⟩

theorem Frame.isPeerAlive {c c' : Cluster} (h : Frame c c') (me p : Nat) :
    c'.isPeerAlive me p = c.isPeerAlive me p := by
  simp only [Cluster.isPeerAlive, h.status]

theorem Frame.setPeer {c c' : Cluster} {conn : RDMAConnection} (h : Frame c c')
    (hs : conn.toConnStatus = (c.peers q p).toConnStatus) : Frame c (c'.setPeer q p conn) := by
  constructor
  · exact h.up
  · intro q' p'
    by_cases hp : q' = q ∧ p' = p
    · obtain ⟨rfl, rfl⟩ := hp
      rw [setPeer_self, hs]
    · rw [setPeer_ne _ _ hp, h.status]

/-- Every region of the sockets of `me` has a free slot. -/
def HasSlots (c : Cluster) (me : Nat) : Prop :=
  ∀ p, (c.peers me p).readBitmap ≠ 0 ∧ (c.peers me p).writeBitmap ≠ 0

/-- The nodes of a stripe that `me` regards as alive are running. -/
def Sound (c : Cluster) (me : Nat) : Prop :=
  ∀ p < ECAL.N, p ≠ me → c.isPeerAlive me p = true → c.up p = true

def fresh : Cluster where
  area := fun _ _ => 0
  up := fun _ => true
  peers := fun _ _ => ⟨⟨true, 0, .full 32, .full 32⟩, fun _ => 0, fun _ => 0⟩

theorem fresh_hasSlots (me : Nat) : fresh.HasSlots me := fun _ =>
  ⟨Bitmap.full_ne_zero (by decide), Bitmap.full_ne_zero (by decide)⟩

theorem fresh_sound (me : Nat) : fresh.Sound me := fun _ _ _ _ => rfl

theorem Frame.hasSlots {c c' : Cluster} {me : Nat} (h : Frame c c') (hs : c.HasSlots me) :
    c'.HasSlots me := by
  intro p
  rw [h.status]
  exact hs p

theorem Frame.sound {c c' : Cluster} {me : Nat} (h : Frame c c') (hs : c.Sound me) :
    c'.Sound me := by
  intro p hp hne ha
  rw [h.up]
  exact hs p hp hne (h.isPeerAlive me p ▸ ha)

end Cluster

namespace ECAL

/-- Slots per region, `RDMAConnection::NConcurrency`. -/
abbrev NConcurrency : Nat := 32

/-- The socket of node `e.me`: each post takes effect at once, before the poll that follows.
A call that would wait forever, or use memory outside its area, has no result. -/
def handle (e : ECAL) : Handler sig Cluster
  | .isPeerAlive p, c => some (c.isPeerAlive e.me p, c)
  | .getReadRegion p, c =>
    let conn := c.peers e.me p
    let (idx, bitmap) := conn.readBitmap.allocBit
    if idx = -1 then none
    else some (idx.toNat * 4096, c.setPeer e.me p { conn with readBitmap := bitmap })
  | .getWriteRegion p, c =>
    let conn := c.peers e.me p
    let (idx, bitmap) := conn.writeBitmap.allocBit
    if idx = -1 then none
    else some (idx.toNat * 4096, c.setPeer e.me p { conn with writeBitmap := bitmap })
  | .freeReadRegion p addr, c =>
    let conn := c.peers e.me p
    let bitmap := conn.readBitmap.freeBit (addr / 4096)
    some ((), c.setPeer e.me p { conn with readBitmap := bitmap })
  | .freeWriteRegion p addr, c =>
    let conn := c.peers e.me p
    let bitmap := conn.writeBitmap.freeBit (addr / 4096)
    some ((), c.setPeer e.me p { conn with writeBitmap := bitmap })
  | .postRead p shift dst len _, c =>
    if c.up p ∧ shift + len ≤ e.poolSize ∧ dst + len ≤ 4096 * NConcurrency then
      let conn := c.peers e.me p
      let region := conn.readRegion.store dst ((c.area p).load shift len)
      some ((), c.setPeer e.me p { conn with readRegion := region })
    else none
  | .postWrite p shift src len, c =>
    if c.up p ∧ shift + len ≤ e.poolSize ∧ src + len ≤ 4096 * NConcurrency then
      some ((), c.setArea p ((c.area p).store shift ((c.peers e.me p).writeRegion.load src len)))
    else none
  | .pollSendCompletion, c => some ((), c)
  | .loadRegion p addr, c => some ((c.peers e.me p).readRegion.load addr blockSize, c)
  | .storeRegion p addr blk, c =>
    let conn := c.peers e.me p
    some ((), c.setPeer e.me p { conn with writeRegion := conn.writeRegion.store addr blk })
  | .fillWriteRegion p byte len, c =>
    let conn := c.peers e.me p
    some ((), c.setPeer e.me p
      { conn with writeRegion := conn.writeRegion.store 0 fun _ : Fin len => byte })
  | .loadPool row, c =>
    if row * blockSize + blockSize ≤ e.poolSize then
      some ((c.area e.me).load (row * blockSize) blockSize, c)
    else none
  | .storePool row blk, c =>
    if row * blockSize + blockSize ≤ e.poolSize then
      some ((), c.setArea e.me ((c.area e.me).store (row * blockSize) blk))
    else none
  | .unassigned, _ => none

end ECAL

end Galois
