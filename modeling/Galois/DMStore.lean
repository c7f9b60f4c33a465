import Galois.EntryList

namespace Galois
set_option autoImplicit true
set_option relaxedAutoImplicit false

structure DirectoryInode where
  ctime : Int
  mode : Int
  uid : Int
  gid : Int
  status : Int
  old_name : Str
  error : Int
  uuid : BitVec 64
deriving DecidableEq

def ON_USE : Int := 0
def RENAMED : Int := 2

structure DMStore where
  dm_store : KVStore DirectoryInode
  uuid_store : KVStore Str
  ec_store : EntryList
  uuid_counter : BitVec 64

namespace DMStore

variable (lib : Library) (ok : Nat → Bool)

/-- The archive of an inode leaves out `error`, which keeps its value. -/
def getValue (s : DMStore) (uuid : Str) (di : DirectoryInode) : Option DirectoryInode :=
  (s.dm_store.getValue uuid).map fun stored => { stored with error := di.error }

def setValue (ok : Bool) (s : DMStore) (uuid : Str) (di : DirectoryInode) : Option DMStore :=
  (s.dm_store.setValue ok uuid { di with error := 0 }).map fun dm_store => { s with dm_store }

/-- `boost::split` of a path that is not empty -/
def components (path : Str) : List Str := if path.length ≠ 0 then lib.split path else []

/-- The loop of `get_uuid` over the components it still has to visit. -/
def follow (uuid_store : KVStore Str) (value : Str) : List Str → Option Str
  | [] => some value
  | n :: vbuf =>
    match uuid_store.getValue (key value n) with
    | none => none
    | some value => follow uuid_store value vbuf

def get_uuid (s : DMStore) (path : Str) : Option Str :=
  if path = ['/'] then some ['0'] else follow s.uuid_store ['0'] ((components lib path).drop 1)

/-- The loop of `get_2_uuid`. -/
def follow2 (uuid_store : KVStore Str) (puuid uuid : Str) : List Str → Option (Str × Str)
  | [] => some (puuid, uuid)
  | n :: vbuf =>
    match uuid_store.getValue (key uuid n) with
    | none => none
    | some value => follow2 uuid_store uuid value vbuf

def get_2_uuid (s : DMStore) (path : Str) : Option (Str × Str) :=
  if path = ['/'] then some (['0'], ['0'])
  else follow2 s.uuid_store ['0'] ['0'] ((components lib path).drop 1)

def newInode (path : Str) (di : DirectoryInode) (this_uuid : BitVec 64) (time : Int) :
    DirectoryInode where
  ctime := time
  mode := di.mode
  uid := di.uid
  gid := di.gid
  status := ON_USE
  old_name := path
  error := 0
  uuid := this_uuid

/-- The parent's uuid, which stays empty for the root, and the key of the directory. -/
def mkdirKey (s : DMStore) (path : Str) : Option (Str × Str) :=
  if path = ['/'] then some ([], ['/'])
  else (s.get_uuid lib (lib.parent_path path)).map fun puuid =>
    (puuid, key puuid (lib.filename path))

/-- `ok i` is the outcome of the `i`-th update of a database in the call. -/
def mkdir (s : DMStore) (path : Str) (di : DirectoryInode) (time : Int) : Int × DMStore :=
  let this_uuid := s.uuid_counter + 1
  let s := { s with uuid_counter := this_uuid }
  match s.mkdirKey lib path with
  | none => (-1, s)
  | some (puuid, key_uuid) =>
    if (s.uuid_store.getValue key_uuid).isSome then (-1, s) else
    match s.uuid_store.setValue (ok 0) key_uuid (to_string this_uuid) with
    | none => (-1, s)
    | some uuid_store =>
      let s := { s with uuid_store }
      match s.setValue (ok 1) (to_string this_uuid) (newInode path di this_uuid time) with
      | none => (-1, s)
      | some s =>
        if path = ['/'] then (0, s)
        else (0, { s with ec_store := s.ec_store.insert_entry puuid (lib.filename path) })

def access (s : DMStore) (path : Str) (dii : DirectoryInode) : Int :=
  match s.get_uuid lib path with
  | none => -1
  | some uuid =>
    match s.getValue uuid dii with
    | none => -1
    | some _ => 0

def opendir (s : DMStore) (path : Str) (dii : DirectoryInode) : Int :=
  match s.get_uuid lib path with
  | none => -1
  | some uuid =>
    match s.getValue uuid dii with
    | none => -1
    | some _ => 0

/-- The inode keeps what it happens to hold when nothing is read into it. -/
def chown (s : DMStore) (path : Str) (di dii : DirectoryInode) (time : Int) : Int × DMStore :=
  match s.get_uuid lib path with
  | none => (-1, s)
  | some uuid =>
    let dii := (s.getValue uuid dii).getD dii
    let dii := { dii with uid := di.uid, gid := di.gid, ctime := time }
    (0, (s.setValue (ok 0) uuid dii).getD s)

/-- The inode that is read and patched is not the one that is stored. -/
def chmod (s : DMStore) (path : Str) (di dii : DirectoryInode) (time : Int) : Int × DMStore :=
  match s.get_uuid lib path with
  | none => (-1, s)
  | some uuid =>
    let dii := (s.getValue uuid dii).getD dii
    let _dii := { dii with mode := di.mode, ctime := time }
    (0, (s.setValue (ok 0) uuid di).getD s)

/-- `none` is undefined behaviour. -/
def rmdir (s : DMStore) (path : Str) : Option (Int × DMStore) :=
  if path = ['/'] then some (1, s) else
  match s.get_2_uuid lib path with
  | none => some (-1, s)
  | some (puuid, uuid) =>
    match s.dm_store.remove (ok 0) uuid with
    | none => some (-1, s)
    | some dm_store =>
      let s := { s with dm_store }
      match s.uuid_store.remove (ok 1) (key puuid (lib.filename path)) with
      | none => some (-1, s)
      | some uuid_store =>
        let s := { s with uuid_store }
        (s.ec_store.remove_entry lib puuid (lib.filename path)).map fun ec_store =>
          (0, { s with ec_store })

/-- `dii` is what the uninitialised inode of the call happens to hold. -/
def rename (s : DMStore) (old_path new_path : Str) (dii : DirectoryInode) (time : Int) :
    Option (Int × DMStore) :=
  match s.get_2_uuid lib old_path with
  | none => some (-1, s)
  | some (puuid, uuid) =>
    let new_name := lib.filename new_path
    let old_name := lib.filename old_path
    match s.uuid_store.remove (ok 0) (key puuid old_name) with
    | none => some (-1, s)
    | some uuid_store =>
      let s := { s with uuid_store }
      match s.uuid_store.setValue (ok 1) (key puuid new_name) uuid with
      | none => some (-1, s)
      | some uuid_store =>
        let s := { s with uuid_store }
        let dii := (s.getValue uuid dii).getD dii
        let s := (s.setValue (ok 2) uuid { dii with status := RENAMED, ctime := time }).getD s
        (s.ec_store.remove_entry lib puuid old_name).map fun ec_store =>
          (0, { s with ec_store := ec_store.insert_entry puuid new_name })

/-- A `uuid` that was not found stays empty. -/
def getAttr (s : DMStore) (_return : DirectoryInode) (path : Str) (time : Int) :
    DirectoryInode × DMStore :=
  let uuid := (s.get_uuid lib path).getD []
  let _return := if (s.get_uuid lib path).isNone then { _return with error := -1 } else _return
  match s.getValue uuid _return with
  | none => ({ _return with error := -1 }, s)
  | some _return =>
    let _return := { _return with ctime := time }
    ({ _return with error := 0 }, (s.setValue (ok 0) uuid _return).getD s)

def readdir (s : DMStore) (path : Str) : Str :=
  s.ec_store.readdir lib ((s.get_uuid lib path).getD [])

/-- `DMStore::DMStore` -/
def empty : DMStore where
  dm_store := fun _ => none
  uuid_store := fun _ => none
  ec_store := fun _ => none
  uuid_counter := 0

theorem follow_grows {E E' : KVStore Str} {value : Str} {vbuf : List Str}
    (h : ∀ k v, E k = some v → E' k = some v) {w : Str}
    (hf : follow E value vbuf = some w) : follow E' value vbuf = some w := by
  induction vbuf generalizing value with
  | nil => exact hf
  | cons n vbuf ih =>
    simp only [follow, KVStore.getValue] at hf ⊢
    cases hE : E (key value n) with
    | none => simp only [hE] at hf; cases hf
    | some v =>
      simp only [hE] at hf
      simp only [h _ v hE]
      exact ih hf

end DMStore

end Galois
