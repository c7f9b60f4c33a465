import Galois.EntryList

namespace Galois
set_option autoImplicit true
set_option relaxedAutoImplicit false

structure FileAccessInode where
  mode : Int
  ctime : Int
  uid : Int
  gid : Int
  error : Int

structure FileContentInode where
  mtime : Int
  atime : Int
  size : Int
  block_size : Int
  origin_name : Str
  error : Int
  suuid : BitVec 64
  sid : BitVec 64

structure FileInode where
  fc : FileContentInode
  fa : FileAccessInode
  error : Int

structure FMStore where
  file_access_store : KVStore FileAccessInode
  file_content_store : KVStore FileContentInode
  ec_store : EntryList
  suuid_counter : BitVec 64
  sid_num : BitVec 64

namespace FMStore

variable (lib : Library) (ok : Nat → Bool)

/-- The archives leave out `error`, which keeps its value. -/
def getAccessValue (s : FMStore) (Key : Str) (fa : FileAccessInode) : Option FileAccessInode :=
  (s.file_access_store.getValue Key).map fun stored => { stored with error := fa.error }

def getContentValue (s : FMStore) (Key : Str) (fc : FileContentInode) : Option FileContentInode :=
  (s.file_content_store.getValue Key).map fun stored => { stored with error := fc.error }

def setAccessValue (ok : Bool) (s : FMStore) (Key : Str) (fa : FileAccessInode) : Option FMStore :=
  (s.file_access_store.setValue ok Key { fa with error := 0 }).map fun file_access_store =>
    { s with file_access_store }

def setContentValue (ok : Bool) (s : FMStore) (Key : Str) (fc : FileContentInode) :
    Option FMStore :=
  (s.file_content_store.setValue ok Key { fc with error := 0 }).map fun file_content_store =>
    { s with file_content_store }

/-- `getValue` of a `FileInode`, with what it leaves in the inode when it fails. -/
def getValue (s : FMStore) (Key : Str) (fi : FileInode) : Int × FileInode :=
  match s.getAccessValue Key fi.fa with
  | none => (-1, fi)
  | some fa =>
    match s.getContentValue Key fi.fc with
    | none => (-1, { fi with fa })
    | some fc => (0, { fi with fa, fc })

def setValue (s : FMStore) (Key : Str) (fi : FileInode) : Int × FMStore :=
  match s.setAccessValue (ok 0) Key fi.fa with
  | none => (-1, s)
  | some s =>
    match s.setContentValue (ok 1) Key fi.fc with
    | none => (-1, s)
    | some s => (0, s)

/-- `strlen` of `c_str()` -/
def strlen (s : Str) : Nat := (s.takeWhile (· ≠ '\x00')).length

/-- The access inode that `create` stores; `faa` is what the uninitialised one happens to hold. -/
def newAccess (fa faa : FileAccessInode) : FileAccessInode :=
  { faa with mode := fa.mode, gid := fa.gid, uid := fa.uid }

def newContent (s : FMStore) (Key : Str) (fcc : FileContentInode) : FileContentInode where
  mtime := fcc.mtime
  atime := fcc.atime
  size := 0
  block_size := 4096
  origin_name := Key
  error := fcc.error
  suuid := s.suuid_counter
  sid := s.sid_num

def create (s : FMStore) (Key : Str) (fa faa : FileAccessInode)
    (fcc : FileContentInode) : Int × FMStore :=
  let fcc := s.newContent Key fcc
  let s := { s with suuid_counter := s.suuid_counter + 1 }
  match s.setAccessValue (ok 0) Key (newAccess fa faa) with
  | none => (-1, s)
  | some s =>
    match s.setContentValue (ok 1) Key fcc with
    | none => (-1, s)
    | some s =>
      let vkey := if strlen Key ≠ 0 then lib.tokens ':' Key else []
      match vkey with
      | [uuid, file_name] => (0, { s with ec_store := s.ec_store.insert_entry uuid file_name })
      | _ => (0, s)

def access (s : FMStore) (Key : Str) (faa : FileAccessInode) : Int :=
  match s.getAccessValue Key faa with
  | none => -1
  | some _ => 0

/-- `none` is undefined behaviour. -/
def remove (s : FMStore) (Key : Str) : Option (Int × FMStore) :=
  match s.file_access_store.remove (ok 0) Key with
  | none => some (-1, s)
  | some file_access_store =>
    let s := { s with file_access_store }
    match s.file_content_store.remove (ok 1) Key with
    | none => some (-1, s)
    | some file_content_store =>
      let s := { s with file_content_store }
      match lib.tokens ':' Key with
      | uuid :: file_name :: _ =>
        (s.ec_store.remove_entry lib uuid file_name).map fun ec_store => (0, { s with ec_store })
      | _ => none

/-- `std::to_string` of an `int64_t` -/
def to_signed_string (value : Int) : Str :=
  if value < 0 then '-' :: Nat.toDigits 10 value.natAbs else Nat.toDigits 10 value.natAbs

def readdir (s : FMStore) (uuid : Int) : Str :=
  s.ec_store.readdir lib (to_signed_string uuid)

/-- `FMStore::FMStore` -/
def empty (sid : BitVec 64) : FMStore where
  file_access_store := fun _ => none
  file_content_store := fun _ => none
  ec_store := fun _ => none
  suuid_counter := 0
  sid_num := sid

def csize (s : FMStore) (Key : Str) (fc fcc : FileContentInode) : Int × FMStore :=
  match s.getContentValue Key fcc with
  | none => (-1, s)
  | some fcc =>
    match s.setContentValue (ok 0) Key { fcc with size := fc.size } with
    | none => (-1, s)
    | some s => (0, s)

def getAttr (s : FMStore) (_return : FileInode) (Key : Str) : FileInode × FMStore :=
  let (result, _return) := s.getValue Key _return
  if result < 0 then ({ _return with error := -1 }, s)
  else ({ _return with error := 0 }, (s.setValue ok Key _return).2)

/-- The inode keeps what it happens to hold when nothing is read into it. -/
def chown (s : FMStore) (Key : Str) (fa faa : FileAccessInode) : Int × FMStore :=
  let faa := (s.getAccessValue Key faa).getD faa
  (0, (s.setAccessValue (ok 0) Key { faa with uid := fa.uid, gid := fa.gid }).getD s)

def chmod (s : FMStore) (Key : Str) (fa faa : FileAccessInode) : Int × FMStore :=
  let faa := (s.getAccessValue Key faa).getD faa
  (0, (s.setAccessValue (ok 0) Key { faa with mode := fa.mode }).getD s)

def getContent (s : FMStore) (_return : FileContentInode) (Key : Str) :
    FileContentInode × FMStore :=
  match s.getContentValue Key _return with
  | none => ({ _return with error := -1 }, s)
  | some _return => ({ _return with error := 0 }, (s.setContentValue (ok 0) Key _return).getD s)

def getAccess (s : FMStore) (_return : FileAccessInode) (Key : Str) : FileAccessInode :=
  match s.getAccessValue Key _return with
  | none => { _return with error := -1 }
  | some _return => { _return with error := 0 }

def utimens (s : FMStore) (Key : Str) (fcc : FileContentInode) : Int × FMStore :=
  match s.getContentValue Key fcc with
  | none => (-1, s)
  | some fcc =>
    match s.setContentValue (ok 0) Key fcc with
    | none => (-1, s)
    | some s => (0, s)

def open_ (s : FMStore) (_return : FileInode) (Key : Str) (fa : FileAccessInode) : FileInode :=
  let (result, _return) := s.getValue Key _return
  if result < 0 then { _return with error := -1 }
  else { _return with fa := { _return.fa with mode := fa.mode }, error := 0 }

end FMStore

end Galois
