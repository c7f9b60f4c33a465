import Galois.LocofsClient
import Mathlib.Data.Char
import Mathlib.Data.List.Lex

namespace Galois
set_option autoImplicit true
set_option relaxedAutoImplicit false

/-- What uninitialised objects and unused parts of messages happen to hold. -/
structure Garbage where
  di : DirectoryInode
  fi : FileInode
  fc : FileContentInode
  dirStat : LocoDirStat
  fileStat : LocoFileStat
  len : Int

/-- A client's cache, the two servers and the pages, with the number of clock readings so far and
the other file servers, which only `readdir` asks. -/
structure FileSystem where
  cache : LruCache Str (BitVec 64)
  dm : DMStore
  fm : FMStore
  pages : Nat → Block4K
  time : Nat
  more : List FMStore := []

variable (g : Garbage)

def dmHandleStat (lib : Library) (s : DMStore) (path : Str) (time : Int) :
    StatResponse LocoDirStat × DMStore :=
  let (di, s) := s.getAttr lib always g.di path time
  if di.error = 0 then
    (⟨0, ⟨⟨di.mode, di.uid, di.gid, di.ctime, 0, 0, g.dirStat.st.st_size⟩, di.uuid⟩⟩, s)
  else (⟨di.error, g.dirStat⟩, s)

def fmHandleStat (s : FMStore) (path : Str) : StatResponse LocoFileStat × FMStore :=
  let (fi, s) := s.getAttr always g.fi path
  if fi.error = 0 then
    (⟨0, ⟨⟨0o100744, fi.fa.uid, fi.fa.gid, fi.fa.ctime, fi.fc.mtime, fi.fc.mtime, fi.fc.size⟩,
      fi.fc.suuid, fi.fc.sid, BitVec.ofInt 64 fi.fc.block_size⟩⟩, s)
  else (⟨fi.error, g.fileStat⟩, s)

def fmHandleCsize (s : FMStore) (path : Str) (value : Int) : Int × FMStore :=
  s.csize always path { g.fc with size := value } g.fc

def dmHandleMkdir (lib : Library) (s : DMStore) (path : Str) (time : Int) : Int × DMStore :=
  s.mkdir lib always path { g.di with uid := 0o777, gid := 0o777 } time

def dmHandleRmdir (lib : Library) (s : DMStore) (path : Str) : Option (Int × DMStore) :=
  s.rmdir lib always path

/-- The buffer of a response after `strncpy`. -/
def rawBuffer (result : Str) : Str :=
  let copied := (result.takeWhile (· ≠ '\x00')).take RAW_SIZE
  copied ++ List.replicate (RAW_SIZE + 1 - copied.length) '\x00'

/-- `dmHandleReaddir`, which leaves the length as it is. -/
def dmHandleReaddir (lib : Library) (s : DMStore) (path : Str) : RawResponse :=
  ⟨g.len, rawBuffer (s.readdir lib path)⟩

def fmHandleAccess (s : FMStore) (path : Str) : Int := s.access path g.fi.fa

def fmHandleCreate (lib : Library) (s : FMStore) (mode : Option Int) (path : Str) : Int × FMStore :=
  s.create lib always path
    { g.fi.fa with mode := mode.getD g.fi.fa.mode, uid := 0o777, gid := 0o777 } g.fi.fa g.fc

def fmHandleRemove (lib : Library) (s : FMStore) (path : Str) : Option (Int × FMStore) :=
  s.remove lib always path

def intLength (result : Str) : Int := (BitVec.ofNat 32 result.length).toInt

def fmHandleReaddir (lib : Library) (s : FMStore) (value : BitVec 64) : RawResponse :=
  let result := s.readdir lib value.toInt
  ⟨intLength result, rawBuffer result⟩

namespace FileSystem

variable (lib : Library) (clock : Nat → Int)

/-- The pages are a page store: a page is read as it was written last. -/
def handle : Handler Client.sig FileSystem
  | .cacheGet path, s =>
    let (uuid, cache) := s.cache.get path (clock s.time)
    some (uuid, { s with cache, time := s.time + 1 })
  | .cacheSet path uuid, s =>
    some ((), { s with cache := s.cache.set path uuid (-1) (clock s.time), time := s.time + 1 })
  | .dirStat path, s =>
    let (response, dm) := dmHandleStat g lib s.dm path (clock s.time)
    some (response, { s with dm, time := s.time + 1 })
  | .fileStat path, s =>
    let (response, fm) := fmHandleStat g s.fm path
    some (response, { s with fm })
  | .csize value path, s =>
    let (response, fm) := fmHandleCsize g s.fm path value
    some (response, { s with fm })
  | .cacheRemove path, s => some ((), { s with cache := s.cache.remove path })
  | .mkdir path, s =>
    let (response, dm) := dmHandleMkdir g lib s.dm path (clock s.time)
    some (response, { s with dm, time := s.time + 1 })
  | .rmdir path, s =>
    (dmHandleRmdir lib s.dm path).map fun (response, dm) => (response, { s with dm })
  | .dirReaddir path, s => some (dmHandleReaddir g lib s.dm path, s)
  | .access path, s => some (fmHandleAccess g s.fm path, s)
  | .create mode path, s =>
    let (response, fm) := fmHandleCreate g lib s.fm mode path
    some (response, { s with fm })
  | .remove path, s =>
    (fmHandleRemove lib s.fm path).map fun (response, fm) => (response, { s with fm })
  | .fileReaddir server value, s =>
    ((s.fm :: s.more)[server]?).map fun fm => (fmHandleReaddir lib fm value, s)
  | .readBlock index, s => some (⟨s.pages index, index⟩, s)
  | .writeBlock page, s =>
    some ((), { s with pages := Function.update s.pages page.index page.page })
  | .undefined, _ => none

end FileSystem

end Galois
