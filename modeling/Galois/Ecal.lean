import Galois.Effect.Prog
import Galois.IsaL

namespace Galois
set_option autoImplicit true
set_option relaxedAutoImplicit false

abbrev DataBlock (size : Nat) := Fin size → Byte

abbrev Block4K := DataBlock 4096

/-- The bytes of a block as the start of a memory area. -/
def DataBlock.mem (b : DataBlock n) : Mem := fun x => if h : x < n then b ⟨x, h⟩ else 0

namespace ECAL

abbrev K : Nat := 2
abbrev P : Nat := 1
abbrev N : Nat := K + P

/-- `BlockTy::size`. -/
abbrev blockSize : Nat := 4096 / K

abbrev BlockTy := DataBlock blockSize

structure Page where
  page : Block4K
  index : Nat

structure DataPosition where
  row : Nat
  startNodeId : Nat

/-- What a node asks of its RDMA socket and of the memory around it. -/
inductive Op where
  | isPeerAlive (peerId : Nat)
  | getReadRegion (peerId : Nat)
  | getWriteRegion (peerId : Nat)
  | freeReadRegion (peerId addr : Nat)
  | freeWriteRegion (peerId addr : Nat)
  | postRead (peerId remoteSrcShift localDst length taskId : Nat)
  | postWrite (peerId remoteDstShift localSrc length : Nat)
  | pollSendCompletion
  | loadRegion (peerId addr : Nat)
  | storeRegion (peerId addr : Nat) (blk : BlockTy)
  | fillWriteRegion (peerId : Nat) (byte : Byte) (length : Nat)
  | loadPool (row : Nat)
  | storePool (row : Nat) (blk : BlockTy)
  /-- An array entry is used that was never assigned. -/
  | unassigned

def Op.Res : Op → Type
  | .isPeerAlive _ => Bool
  | .getReadRegion _ | .getWriteRegion _ | .unassigned => Nat
  | .loadRegion _ _ | .loadPool _ => BlockTy
  | _ => Unit

abbrev sig : Signature := ⟨Op, Op.Res⟩

abbrev call (o : Op) : Prog sig o.Res := Prog.perform (S := sig) o

abbrev isPeerAlive (peerId : Nat) : Prog sig Bool := call (.isPeerAlive peerId)
abbrev getReadRegion (peerId : Nat) : Prog sig Nat := call (.getReadRegion peerId)
abbrev getWriteRegion (peerId : Nat) : Prog sig Nat := call (.getWriteRegion peerId)
abbrev freeReadRegion (peerId addr : Nat) : Prog sig Unit := call (.freeReadRegion peerId addr)
abbrev freeWriteRegion (peerId addr : Nat) : Prog sig Unit :=
  call (.freeWriteRegion peerId addr)
abbrev postRead (peerId remoteSrcShift localDst length taskId : Nat) : Prog sig Unit :=
  call (.postRead peerId remoteSrcShift localDst length taskId)
abbrev postWrite (peerId remoteDstShift localSrc length : Nat) : Prog sig Unit :=
  call (.postWrite peerId remoteDstShift localSrc length)
abbrev pollSendCompletion : Prog sig Unit := call .pollSendCompletion
abbrev loadRegion (peerId addr : Nat) : Prog sig BlockTy := call (.loadRegion peerId addr)
abbrev storeRegion (peerId addr : Nat) (blk : BlockTy) : Prog sig Unit :=
  call (.storeRegion peerId addr blk)
abbrev fillWriteRegion (peerId : Nat) (byte : Byte) (length : Nat) : Prog sig Unit :=
  call (.fillWriteRegion peerId byte length)
abbrev loadPool (row : Nat) : Prog sig BlockTy := call (.loadPool row)
abbrev storePool (row : Nat) (blk : BlockTy) : Prog sig Unit := call (.storePool row blk)

end ECAL

/-- An ECAL object: the library it links, its cluster, its node and the size of its pool. -/
structure ECAL where
  isal : IsaL
  clusterSize : Nat
  me : Nat
  poolSize : Nat

namespace ECAL

/-- `BlockPool::getCapacity`. -/
def poolLength (e : ECAL) : Nat := e.poolSize / blockSize

/-- `BlockPool::getShift`. -/
def getBlockShift (row : Nat) : Nat := row * blockSize

def getClusterCapacity (e : ECAL) : Nat :=
  e.clusterSize / N * K * e.poolLength % 2 ^ 64 / (4096 / blockSize)

def getDataPos (e : ECAL) (index : Nat) : DataPosition :=
  let pagePerRow := e.clusterSize / N
  ⟨index / pagePerRow, 0⟩

def encodeMatrix (e : ECAL) : Mem := e.isal.gf_gen_cauchy1_matrix N K

def gfTables (e : ECAL) : Mem := e.isal.ec_init_tables K P fun x => e.encodeMatrix (K * K + x)

/-- The block of `page` for the `i`-th node: `i < K ? data[i] : parity[i - K]`. -/
def blockOf (e : ECAL) (page : Block4K) (i : Nat) : BlockTy :=
  let data := fun j t => DataBlock.mem page (j * blockSize + t)
  let parity := e.isal.ec_encode_data blockSize K P e.gfTables data
  if i < K then fun t => data i t else fun t => parity (i - K) t

def writeStep (e : ECAL) (page : Page) (i : Nat) : Prog sig Unit := do
  let pos := e.getDataPos page.index
  let peerId := (pos.startNodeId + i) % N
  let blk := e.blockOf page.page i
  if peerId = e.me then
    storePool pos.row blk
  else do
    let alive ← isPeerAlive peerId
    if alive then do
      let base ← getWriteRegion peerId
      storeRegion peerId base blk
      postWrite peerId (getBlockShift pos.row) base blockSize
      pollSendCompletion
      freeWriteRegion peerId base
    else pure ()

def writeBlock (e : ECAL) (page : Page) : Prog sig Unit :=
  (List.range N).foldlM (fun _ i => e.writeStep page i) ()

/-- Where `recoverSrc[i]` points: into the read region of a peer, or into the own pool. -/
inductive Source where
  | region (peerId addr : Nat)
  | pool (row : Nat)

def Source.load : Source → Prog sig BlockTy
  | .region peerId addr => loadRegion peerId addr
  | .pool row => loadPool row

/-- The address `freeReadRegion` is given; the callers never pass a pool address. -/
def Source.addr : Source → Nat
  | .region _ addr => addr
  | .pool row => getBlockShift row

/-- Entry `i` of an array of which the entries in `xs` have been assigned. -/
def entry (xs : List Nat) (i : Nat) : Prog sig Nat :=
  match xs[i]? with
  | some x => .ret x
  | none => call .unassigned

/-- Add node `j` to `decodeIndex` if it is alive, else to `errIndex` if it holds data. -/
def selectNode (alive : Bool) (j : Nat) : List Nat × List Nat → List Nat × List Nat
  | (decodeIndex, errIndex) =>
    if alive then (decodeIndex ++ [j], errIndex)
    else if j < K then (decodeIndex, errIndex ++ [j])
    else (decodeIndex, errIndex)

/-- The first loop: `decodeIndex`, the first `K` live nodes, and `errIndex`. -/
def selectSurvivors (pos : DataPosition) : Prog sig (List Nat × List Nat) :=
  (List.range N).foldlM (fun acc j =>
    if acc.1.length < K then do
      let alive ← isPeerAlive ((j + pos.startNodeId) % N)
      pure (selectNode alive j acc)
    else pure acc) ([], [])

/-- Fetch the block of node `d`, unless it is the own one. -/
def fetchBlock (e : ECAL) (pos : DataPosition) (d i : Nat) : Prog sig Source := do
  let peerId := (d + pos.startNodeId) % N
  if peerId ≠ e.me then do
    let base ← getReadRegion peerId
    postRead peerId (getBlockShift pos.row) base blockSize i
    pollSendCompletion
    pure (.region peerId base)
  else pure (.pool pos.row)

/-- The second loop: `recoverSrc`, the chosen blocks one at a time. -/
def fetchBlocks (e : ECAL) (pos : DataPosition) (decodeIndex : List Nat) :
    Prog sig (List Source) :=
  (List.range K).foldlM (fun recoverSrc i => do
    let d ← entry decodeIndex i
    let src ← e.fetchBlock pos d i
    pure (recoverSrc ++ [src])) []

/-- The third loop: copy the data blocks among those fetched to their places. -/
def copyIntact (decodeIndex : List Nat) (recoverSrc : List Source) : Prog sig Mem :=
  (List.range K).foldlM (fun data i => do
    let d ← entry decodeIndex i
    if d < K then do
      let blk ← (recoverSrc.getD i (.pool 0)).load
      pure (data.store (d * blockSize) blk)
    else pure data) (fun _ => 0)

def freeBlock (e : ECAL) (pos : DataPosition) (d : Nat) (src : Source) : Prog sig Unit :=
  let peerId := (d + pos.startNodeId) % N
  if peerId ≠ e.me then freeReadRegion peerId src.addr else pure ()

def freeBlocks (e : ECAL) (pos : DataPosition) (decodeIndex : List Nat)
    (recoverSrc : List Source) : Prog sig Unit :=
  (List.range K).foldlM (fun _ i => do
    let d ← entry decodeIndex i
    e.freeBlock pos d (recoverSrc.getD i (.pool 0))) ()

/-- `memcpy(&dst[K * i], &src[K * d], K)`. -/
def copyRow (dst src : Mem) (i d : Nat) : Mem := fun x =>
  if K * i ≤ x ∧ x < K * i + K then src (K * d + (x - K * i)) else dst x

/-- The rows of the encode matrix that belong to the chosen nodes. -/
def survivorRows (e : ECAL) (decodeIndex : List Nat) : Prog sig Mem :=
  (List.range K).foldlM (fun b i => do
    let d ← entry decodeIndex i
    pure (copyRow b e.encodeMatrix i d)) (fun _ => 0)

def recoverBlocks (e : ECAL) (errIndex : List Nat) (invertMatrix : Mem) (recoverSrc : List BlockTy)
    (data : Mem) : Mem :=
  let errs := errIndex.length
  let decodeMatrix := (List.range errs).foldl
    (fun m i => copyRow m invertMatrix i (errIndex.getD i 0)) (fun _ => 0)
  let gfTbls := e.isal.ec_init_tables K errs decodeMatrix
  let recovered := e.isal.ec_encode_data blockSize K errs gfTbls fun j =>
    DataBlock.mem (recoverSrc.getD j fun _ => 0)
  (List.range errs).foldl (fun data l =>
    data.store (errIndex.getD l 0 * blockSize) fun t : Fin blockSize => recovered l t) data

def readBlock (e : ECAL) (index : Nat) : Prog sig Page := do
  let pos := e.getDataPos index
  let (decodeIndex, errIndex) ← selectSurvivors pos
  let recoverSrc ← e.fetchBlocks pos decodeIndex
  let data ← copyIntact decodeIndex recoverSrc
  if errIndex.length = 0 then do
    e.freeBlocks pos decodeIndex recoverSrc
    pure ⟨data.load 0 4096, index⟩
  else do
    let b ← e.survivorRows decodeIndex
    match e.isal.gf_invert_matrix b K with
    -- cannot do matrix invert: the page is left as it is, the regions stay taken
    | none => pure ⟨data.load 0 4096, index⟩
    | some invertMatrix => do
      let blks ← recoverSrc.mapM Source.load
      let data := e.recoverBlocks errIndex invertMatrix blks data
      e.freeBlocks pos decodeIndex recoverSrc
      pure ⟨data.load 0 4096, index⟩

end ECAL

end Galois
