import Galois.DMServer
import Galois.Ecal
import Galois.FMStore
import Galois.LruCache

namespace Galois
set_option autoImplicit true
set_option relaxedAutoImplicit false

/-- The fields of `struct stat` that the servers fill in. -/
structure Stat where
  st_mode : Int
  st_uid : Int
  st_gid : Int
  st_ctime : Int
  st_mtime : Int
  st_atime : Int
  st_size : Int

structure LocoDirStat where
  st : Stat
  uuid : BitVec 64

structure LocoFileStat where
  st : Stat
  suuid : BitVec 64
  sid : BitVec 64
  block_size : BitVec 64

/-- A `StatResponse`; without success its `stat` is left over from another message. -/
structure StatResponse (α : Type) where
  result : Int
  stat : α

/-- A `RawResponse`, with all the 4090 characters of its buffer. -/
structure RawResponse where
  len : Int
  raw : Str

def RAW_SIZE : Nat := 4089

def MAX_PATH_LEN : Nat := 255

/-- The path that arrives after `strncpy` into a request. -/
def requestPath (path : Str) : Str := (path.takeWhile (· ≠ '\x00')).take MAX_PATH_LEN

inductive Client.Op where
  | cacheGet (path : Str)
  | cacheSet (path : Str) (uuid : BitVec 64)
  | cacheRemove (path : Str)
  | dirStat (path : Str)
  | fileStat (path : Str)
  | csize (value : Int) (path : Str)
  | mkdir (path : Str)
  | rmdir (path : Str)
  | access (path : Str)
  /-- Without a `mode` the request's value is not initialised. -/
  | create (mode : Option Int) (path : Str)
  | remove (path : Str)
  | dirReaddir (path : Str)
  | fileReaddir (server : Nat) (value : BitVec 64)
  | readBlock (index : Nat)
  | writeBlock (page : ECAL.Page)
  /-- Undefined behaviour, or a loop that does not end. -/
  | undefined

def Client.Op.Res : Client.Op → Type
  | .cacheGet _ => Option (BitVec 64)
  | .dirStat _ => StatResponse LocoDirStat
  | .fileStat _ => StatResponse LocoFileStat
  | .csize _ _ | .mkdir _ | .rmdir _ | .access _ | .create _ _ | .remove _ => Int
  | .dirReaddir _ | .fileReaddir _ _ => RawResponse
  | .readBlock _ => ECAL.Page
  | .cacheSet _ _ | .cacheRemove _ | .writeBlock _ => Unit
  | .undefined => Empty

namespace Client

abbrev sig : Signature := ⟨Op, Op.Res⟩

abbrev call (o : Op) : Prog sig o.Res := Prog.perform (S := sig) o

abbrev cacheGet (path : Str) : Prog sig (Option (BitVec 64)) := call (.cacheGet path)
abbrev cacheSet (path : Str) (uuid : BitVec 64) : Prog sig Unit := call (.cacheSet path uuid)
abbrev dirStat (path : Str) : Prog sig (StatResponse LocoDirStat) := call (.dirStat path)
abbrev fileStat (path : Str) : Prog sig (StatResponse LocoFileStat) := call (.fileStat path)
abbrev csize (value : Int) (path : Str) : Prog sig Int := call (.csize value path)
abbrev cacheRemove (path : Str) : Prog sig Unit := call (.cacheRemove path)
abbrev mkdir (path : Str) : Prog sig Int := call (.mkdir path)
abbrev rmdir (path : Str) : Prog sig Int := call (.rmdir path)
abbrev access (path : Str) : Prog sig Int := call (.access path)
abbrev create (mode : Option Int) (path : Str) : Prog sig Int := call (.create mode path)
abbrev remove (path : Str) : Prog sig Int := call (.remove path)
abbrev dirReaddir (path : Str) : Prog sig RawResponse := call (.dirReaddir path)
abbrev fileReaddir (server : Nat) (value : BitVec 64) : Prog sig RawResponse :=
  call (.fileReaddir server value)
abbrev readBlock (index : Nat) : Prog sig ECAL.Page := call (.readBlock index)
abbrev writeBlock (page : ECAL.Page) : Prog sig Unit := call (.writeBlock page)

def undefined : Prog sig α := .call .undefined Empty.elim

def add64 (a b : Int) : Prog sig Int :=
  if -2 ^ 63 ≤ a + b ∧ a + b < 2 ^ 63 then pure (a + b) else undefined

end Client

/-- `hashObj(st, blkid)`, where a block number is first made an `int`. -/
def hashObj (st : LocoFileStat) (block_num : Int) : BitVec 64 :=
  let blkid := (BitVec.ofInt 32 block_num).signExtend 64
  let ret := 0 ^^^ st.sid * 2654435761
  let ret := (ret <<< 32) ^^^ ret
  let ret := ret ^^^ st.suuid * 2654435761
  let ret := (ret <<< 27) ^^^ ret
  let ret := ret ^^^ blkid * 2654435761
  (ret <<< 37) ^^^ ret

/-- The bytes behind a `char *`. -/
abbrev Buffer := Int → Byte

/-- `memcpy(page.data + block_off, buf + start, block_len)` -/
def copyIn (page : Block4K) (block_off : Int) (buf : Buffer) (start block_len : Int) : Block4K :=
  fun t =>
    if block_off ≤ t ∧ t < block_off + block_len then buf (start + (t - block_off)) else page t

/-- `memcpy(buf + start, page.data + block_off, block_len)` -/
def copyOut (buf : Buffer) (start : Int) (page : Block4K) (block_off block_len : Int) : Buffer :=
  fun i => if start ≤ i ∧ i < start + block_len then
    DataBlock.mem page (block_off + (i - start)).toNat else buf i

theorem mem_copyIn (page : Block4K) (block_off : Int) (buf : Buffer) (start block_len : Int)
    {t : Int} (h0 : 0 ≤ t) (ht : t < 4096) :
    DataBlock.mem (copyIn page block_off buf start block_len) t.toNat =
      if block_off ≤ t ∧ t < block_off + block_len then buf (start + (t - block_off))
      else DataBlock.mem page t.toNat := by
  have hlt : t.toNat < 4096 := by omega
  simp only [DataBlock.mem, hlt, ↓reduceDIte, copyIn, Int.toNat_of_nonneg h0]

/-- A client: the library it links and the capacity of its `ecal`. -/
structure LocofsClient where
  lib : Library
  capacity : BitVec 64
  capacity_ne_zero : capacity ≠ 0

namespace LocofsClient

open Client Prog

variable (c : LocofsClient)

def get_uuid (path : Str) : Prog sig (Option (BitVec 64)) := do
  match ← cacheGet path with
  | some uuid => pure (some uuid)
  | none => do
    let response ← dirStat (requestPath path)
    if response.result < 0 then pure none
    else do
      cacheSet path response.stat.uuid
      pure (some response.stat.uuid)

def get_file_key (path : Str) : Prog sig (Option Str) := do
  match ← get_uuid (c.lib.parent_path path) with
  | none => pure none
  | some uuid => pure (some (key (to_string uuid) (c.lib.filename path)))

/-- Without a key the request carries the empty string. -/
def get_file_stat (path : Str) : Prog sig (Option LocoFileStat) := do
  let Key_File ← c.get_file_key path
  let response ← fileStat (requestPath (Key_File.getD []))
  pure (if response.result = 0 then some response.stat else none)

/-- One `/` at the end is taken off; the path must not be empty. -/
def check_path (path : Str) : Prog sig Str :=
  if path = [] then undefined
  else if path.length ≠ 1 ∧ path.getLast? = some '/' then pure path.dropLast
  else pure path

def mkdir (path : Str) : Prog sig Bool := do
  let p ← check_path path
  let value ← Client.mkdir (requestPath p)
  pure (value = 0)

def rmdir (path : Str) : Prog sig Bool := do
  let p ← check_path path
  let value ← Client.rmdir (requestPath p)
  if value = 0 then do
    cacheRemove p
    pure true
  else pure false

/-- `open` -/
def openFile (path : Str) : Prog sig Bool := do
  match ← c.get_file_key path with
  | none => pure false
  | some Key_File => do
    let value ← Client.access (requestPath Key_File)
    if value = 0 then pure true
    else do
      let value ← Client.create (some 0o777) (requestPath Key_File)
      pure (value = 0)

def create (path : Str) : Prog sig Bool := do
  let p ← check_path path
  match ← c.get_file_key p with
  | none => pure false
  | some Key_File => do
    let value ← Client.create none (requestPath Key_File)
    pure (value = 0)

def unlink (path : Str) : Prog sig Bool := do
  match ← c.get_file_key path with
  | none => pure false
  | some Key_File => do
    let value ← Client.remove (requestPath Key_File)
    pure (value = 0)

/-- What `stat` fills in; `none` is the answer `false`. -/
def stat (path : Str) : Prog sig (Option Stat) := do
  match ← c.get_file_key path with
  | none => pure none
  | some Key_File => do
    let response ← fileStat (requestPath Key_File)
    pure (if response.result < 0 then none else some response.stat.st)

def S_IFDIR : BitVec 32 := 0o040000

/-- What `statdir` fills in, besides the zeros in `st_dev` and `st_ino`. -/
def statdir (path : Str) : Prog sig (Option Stat) := do
  let p ← check_path path
  let response ← dirStat (requestPath p)
  if response.result < 0 then pure none
  else
    let buf := response.stat.st
    pure (some { buf with st_mode := (S_IFDIR ||| BitVec.ofInt 32 buf.st_mode).toNat })

/-- `std::string(raw, len)`, which throws for a negative length. -/
def rawString (response : RawResponse) : Prog sig Str :=
  if 0 ≤ response.len ∧ response.len ≤ response.raw.length then
    pure (response.raw.take response.len.toNat)
  else undefined

/-- The loop of `readdir` over the file servers. -/
def readdirLoop (uuid : BitVec 64) (buf : List Str) : List Nat → Prog sig (List Str)
  | [] => pure buf
  | i :: servers => do
    let response ← fileReaddir i uuid
    let vbuf ← rawString response
    let temp := c.lib.tokens '\t' vbuf
    readdirLoop uuid (if temp.isEmpty then buf else buf ++ temp) servers

/-- The answer of `readdir` and the buffer it leaves, for a number of file servers. -/
def readdir (file_trans : Nat) (path : Str) : Prog sig (Bool × List Str) := do
  let p ← check_path path
  let response ← dirReaddir (requestPath p)
  let vbuf ← rawString response
  let buf := c.lib.tokens '\t' vbuf
  match ← get_uuid p with
  | none => pure (false, buf)
  | some uuid => do
    let buf ← c.readdirLoop uuid buf (List.range file_trans)
    pure (true, buf)

def blkno (st : LocoFileStat) (block_num : Int) : Nat :=
  (hashObj st block_num % c.capacity).toNat

/-- One round of the loop in `write`, for the `page` that the rounds share. -/
def writeSegment (loco_st : LocoFileStat) (buf : Buffer) (page : ECAL.Page)
    (start block_num block_off block_len : Int) : Prog sig ECAL.Page :=
  if 4096 < block_off + block_len then undefined
  else if block_off ≠ 0 ∨ block_off + block_len < 4096 then do
    let page ← readBlock (c.blkno loco_st block_num)
    let page := { page with page := copyIn page.page block_off buf start block_len }
    writeBlock page
    pure page
  else do
    let page := { page with page := copyIn page.page 0 buf start block_len }
    writeBlock page
    pure page

/-- The loop of `write`; a round with a positive `block_len` uses up fuel for each byte. -/
def writeLoop (loco_st : LocoFileStat) (buf : Buffer) :
    Nat → ECAL.Page → Int → Int → Int → Prog sig Unit
  | 0, _, _, len, _ => if 0 < len then undefined else pure ()
  | fuel + 1, page, start, len, offset =>
    if 0 < len then do
      let block_size := loco_st.block_size.toInt
      let block_num := offset.tdiv block_size
      let block_off := offset.tmod block_size
      let block_len := min len (block_size - block_off)
      let page ← c.writeSegment loco_st buf page start block_num block_off block_len
      let next ← add64 offset block_len
      writeLoop loco_st buf fuel page (start + block_len) (len - block_len) next
    else pure ()

/-- The bytes of the first page are written before they are read. -/
def write (path : Str) (buf : Buffer) (len off : Int) : Prog sig Bool := do
  match ← c.get_file_stat path with
  | none => pure false
  | some loco_st => do
    c.writeLoop loco_st buf len.toNat ⟨fun _ => 0, 0⟩ 0 len off
    match ← c.get_file_key path with
    | none => pure false
    | some Key_File => do
      let length ← add64 off len
      let size := if loco_st.st.st_size > length then loco_st.st.st_size else length
      let value ← csize size (requestPath Key_File)
      pure (value = 0)

def readSegment (loco_st : LocoFileStat) (buf : Buffer)
    (start block_num block_off block_len : Int) : Prog sig Buffer :=
  if 4096 < block_off + block_len then undefined
  else do
    let page ← readBlock (c.blkno loco_st block_num)
    pure (copyOut buf start page.page block_off block_len)

def readLoop (loco_st : LocoFileStat) :
    Nat → Buffer → Int → Int → Int → Prog sig (Int × Buffer)
  | 0, buf, start, len, _ => if 0 < len then undefined else pure (start, buf)
  | fuel + 1, buf, start, len, offset =>
    if 0 < len then do
      let block_size := loco_st.block_size.toInt
      let block_num := offset.tdiv block_size
      let block_off := offset.tmod block_size
      let block_len := min len (block_size - block_off)
      let buf ← c.readSegment loco_st buf start block_num block_off block_len
      let next ← add64 offset block_len
      readLoop loco_st fuel buf (start + block_len) (len - block_len) next
    else pure (start, buf)

/-- The result of `read` and the buffer it leaves. -/
def read (path : Str) (buf : Buffer) (len off : Int) : Prog sig (Int × Buffer) := do
  match ← c.get_file_stat path with
  | none => pure (0, buf)
  | some loco_st => do
    let size := loco_st.st.st_size
    let len := if size < len then size else len
    let last ← add64 off len
    if last > size then pure (-1, buf)
    else c.readLoop loco_st len.toNat buf 0 len off

section Uses

/-- Pages may be read and written, and a call may be lost. -/
structure Paged (P : Op → Prop) : Prop where
  undefined : P .undefined
  readBlock : ∀ index, P (.readBlock index)
  writeBlock : ∀ page, P (.writeBlock page)

def OnPages : Op → Prop
  | .readBlock _ | .writeBlock _ | .undefined => True
  | _ => False

theorem paged_onPages : Paged OnPages := ⟨trivial, fun _ => trivial, fun _ => trivial⟩

variable {c} {P : Op → Prop} {st : LocoFileStat} {buf : Buffer} {start len offset : Int}

theorem Paged.uses_undefined (h : Paged P) : (Client.undefined : Prog sig α).Uses P :=
  ⟨h.undefined, fun r => r.elim⟩

theorem Paged.uses_check_path (h : Paged P) {path : Str} : (check_path path).Uses P := by
  rw [check_path]
  split
  · exact h.uses_undefined
  · split <;> exact trivial

theorem Paged.uses_add64 (h : Paged P) {a b : Int} : (add64 a b).Uses P := by
  rw [add64]
  split
  · exact trivial
  · exact h.uses_undefined

theorem Paged.uses_rawString (h : Paged P) {response : RawResponse} :
    (rawString response).Uses P := by
  rw [rawString]
  split
  · exact trivial
  · exact h.uses_undefined

theorem Paged.uses_writeSegment (h : Paged P) {page : ECAL.Page}
    {block_num block_off block_len : Int} :
    (c.writeSegment st buf page start block_num block_off block_len).Uses P := by
  rw [writeSegment]
  split
  · exact h.uses_undefined
  · split
    · exact ⟨h.readBlock _, fun _ => ⟨h.writeBlock _, fun _ => trivial⟩⟩
    · exact ⟨h.writeBlock _, fun _ => trivial⟩

theorem Paged.uses_writeLoop (h : Paged P) {fuel : Nat} {page : ECAL.Page} :
    (c.writeLoop st buf fuel page start len offset).Uses P := by
  induction fuel generalizing page start len offset with
  | zero =>
    rw [writeLoop]
    split
    · exact h.uses_undefined
    · exact trivial
  | succ fuel ih =>
    rw [writeLoop]
    split
    · exact h.uses_writeSegment.bind fun _ => h.uses_add64.bind fun _ => ih
    · exact trivial

theorem Paged.uses_readLoop (h : Paged P) {fuel : Nat} :
    (c.readLoop st fuel buf start len offset).Uses P := by
  induction fuel generalizing buf start len offset with
  | zero =>
    rw [readLoop]
    split
    · exact h.uses_undefined
    · exact trivial
  | succ fuel ih =>
    rw [readLoop]
    split
    · refine Uses.bind ?_ fun _ => h.uses_add64.bind fun _ => ih
      rw [readSegment]
      split
      · exact h.uses_undefined
      · exact ⟨h.readBlock _, fun _ => trivial⟩
    · exact trivial

end Uses

end LocofsClient

end Galois
