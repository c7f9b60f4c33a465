import Galois.FileSystem
import Galois.Listing
import Mathlib.Data.BitVec

namespace Galois
set_option autoImplicit true
set_option relaxedAutoImplicit false

open Prog Client

namespace DMStore

variable {lib : Library} {s : DMStore} {path : Str} {di : DirectoryInode}

/-- The inode that `getAttr` finds; a path that does not resolve leaves the uuid empty. -/
def inodeAt (lib : Library) (s : DMStore) (path : Str) : Option DirectoryInode :=
  s.dm_store ((s.get_uuid lib path).getD [])

theorem getAttr_of_some (h : s.inodeAt lib path = some di) (_return : DirectoryInode)
    (time : Int) : s.getAttr lib always _return path time =
      ({ di with ctime := time, error := 0 }, { s with
        dm_store := Function.update s.dm_store ((s.get_uuid lib path).getD [])
          (some { di with ctime := time, error := 0 }) }) := by
  rw [inodeAt] at h
  simp only [getAttr, getValue, KVStore.getValue, h, Option.map_some, setValue, always,
    KVStore.setValue_true, Option.getD_some]

/-- The same directories with the same uuids. -/
structure Alike (s s' : DMStore) : Prop where
  uuid_store : s'.uuid_store = s.uuid_store
  uuid : ∀ u, (s'.dm_store u).map DirectoryInode.uuid = (s.dm_store u).map DirectoryInode.uuid

theorem Alike.refl (s : DMStore) : s.Alike s := ⟨rfl, fun _ => rfl⟩

theorem Alike.trans {s₁ s₂ s₃ : DMStore} (h : s₁.Alike s₂) (h' : s₂.Alike s₃) : s₁.Alike s₃ :=
  ⟨h'.uuid_store.trans h.uuid_store, fun u => (h'.uuid u).trans (h.uuid u)⟩

theorem Alike.inodeAt {s s' : DMStore} (h : s.Alike s') (lib : Library) (path : Str) :
    (s'.inodeAt lib path).map DirectoryInode.uuid =
      (s.inodeAt lib path).map DirectoryInode.uuid := by
  have hget : s'.get_uuid lib path = s.get_uuid lib path := by
    simp only [get_uuid, h.uuid_store]
  rw [DMStore.inodeAt, hget]
  exact h.uuid _

theorem getAttr_alike (lib : Library) (s : DMStore) (_return : DirectoryInode) (path : Str)
    (time : Int) : s.Alike (s.getAttr lib always _return path time).2 := by
  cases h : s.inodeAt lib path with
  | none =>
    rw [inodeAt] at h
    simp only [getAttr, getValue, KVStore.getValue, h, Option.map_none]
    exact .refl s
  | some di =>
    rw [getAttr_of_some h]
    refine ⟨rfl, fun u => ?_⟩
    simp only [Function.update_apply]
    split
    · next hu => rw [hu, show s.dm_store _ = some di from h]; rfl
    · rfl

theorem stat_of_some (h : s.inodeAt lib path = some di) (g : Garbage) (time : Int) :
    ∃ st dm, dmHandleStat g lib s path time = (⟨0, st⟩, dm) ∧ st.uuid = di.uuid ∧ s.Alike dm := by
  have halike := getAttr_alike lib s g.di path time
  rw [getAttr_of_some h] at halike
  simp only [dmHandleStat, getAttr_of_some h, ↓reduceIte]
  exact ⟨_, _, rfl, rfl, halike⟩

end DMStore

/-- What names the pages of a file. -/
structure File where
  suuid : BitVec 64
  sid : BitVec 64

/-- A file's `loco_file_stat`, with only the fields that do not change. -/
def File.stat (f : File) : LocoFileStat := ⟨⟨0, 0, 0, 0, 0, 0, 0⟩, f.suuid, f.sid, 4096⟩

namespace FMStore

variable {s : FMStore} {Key K : Str} {f f' : File} {size : Int}

/-- The inodes of a file of `size` bytes, in an `int64_t`, as `create` sets them up. -/
def Holds (s : FMStore) (Key : Str) (f : File) (size : Int) : Prop :=
  ∃ fa fc, s.file_access_store Key = some fa ∧ s.file_content_store Key = some fc ∧
    fc.suuid = f.suuid ∧ fc.sid = f.sid ∧ fc.block_size = 4096 ∧ fc.size = size ∧ size < 2 ^ 63

theorem Holds.size_eq (h : s.Holds Key f n) (h' : s.Holds Key f' m) : n = m := by
  obtain ⟨-, fc, -, hfc, -, -, -, rfl, -⟩ := h
  obtain ⟨-, fc', -, hfc', -, -, -, rfl, -⟩ := h'
  rw [hfc] at hfc'
  cases hfc'
  rfl

/-- The files other than `f` stay as they are. -/
def Others (f : File) (s s' : FMStore) : Prop :=
  ∀ K f' n, f' ≠ f → s.Holds K f' n → s'.Holds K f' n

theorem Holds.key_ne (h : s.Holds Key f n) (h' : s.Holds K f' m) (hne : f' ≠ f) : K ≠ Key := by
  rintro rfl
  obtain ⟨-, fc, -, hfc, hsuuid, hsid, -⟩ := h
  obtain ⟨-, fc', -, hfc', hsuuid', hsid', -⟩ := h'
  rw [hfc] at hfc'
  cases hfc'
  cases f
  cases f'
  cases hsuuid
  cases hsid
  cases hsuuid'
  cases hsid'
  exact hne rfl

theorem Holds.of_update (h : s.Holds Key f n) {s' : FMStore}
    (hfa : ∀ K, K ≠ Key → s'.file_access_store K = s.file_access_store K)
    (hfc : ∀ K, K ≠ Key → s'.file_content_store K = s.file_content_store K) : Others f s s' := by
  intro K f' m hne h'
  have hK := h.key_ne h' hne
  simp only [Holds, hfa K hK, hfc K hK]
  exact h'

theorem Holds.stat (h : s.Holds Key f size) (g : Garbage) :
    ∃ st s', fmHandleStat g s Key = (⟨0, st⟩, s') ∧ s'.Holds Key f size ∧ st.suuid = f.suuid ∧
      st.sid = f.sid ∧ st.block_size.toInt = 4096 ∧ st.st.st_size = size ∧ Others f s s' := by
  have hothers := fun s' => @Holds.of_update s Key f size h s'
  obtain ⟨fa, fc, hfa, hfc, hsuuid, hsid, hblock, hsize, hlt⟩ := h
  have hget : s.getValue Key g.fi =
      (0, ⟨{ fc with error := g.fi.fc.error }, { fa with error := g.fi.fa.error },
        g.fi.error⟩) := by
    simp only [getValue, getAccessValue, getContentValue, KVStore.getValue, hfa, hfc,
      Option.map_some]
  simp only [fmHandleStat, getAttr, hget, lt_irrefl, ↓reduceIte, setValue, setAccessValue,
    setContentValue, always, KVStore.setValue_true, Option.map_some]
  refine ⟨_, _, rfl, ⟨_, _, Function.update_self _ _ _, Function.update_self _ _ _, hsuuid, hsid,
    hblock, hsize, hlt⟩, hsuuid, hsid, ?_, hsize,
    hothers _ (fun K hK => Function.update_of_ne hK _ _)
    fun K hK => Function.update_of_ne hK _ _⟩
  show (BitVec.ofInt 64 fc.block_size).toInt = 4096
  rw [hblock]
  decide

theorem Holds.csize (h : s.Holds Key f size) (g : Garbage) {value : Int} (hv : value < 2 ^ 63) :
    ∃ s', fmHandleCsize g s Key value = (0, s') ∧ s'.Holds Key f value ∧ Others f s s' := by
  have hothers := fun s' => @Holds.of_update s Key f size h s'
  obtain ⟨fa, fc, hfa, hfc, hsuuid, hsid, hblock, -, -⟩ := h
  simp only [fmHandleCsize, FMStore.csize, getContentValue, KVStore.getValue, hfc, Option.map_some,
    setContentValue, always, KVStore.setValue_true]
  exact ⟨_, rfl, ⟨fa, _, hfa, Function.update_self _ _ _, hsuuid, hsid, hblock, rfl, hv⟩,
    hothers _ (fun K hK => rfl) fun K hK => Function.update_of_ne hK _ _⟩

end FMStore

namespace FileSystem

variable {g : Garbage} {lib : Library} {clock : Nat → Int} {s s' : FileSystem} {path : Str}

def uuidOf (lib : Library) (s : FileSystem) (path : Str) : Option (BitVec 64) :=
  match s.cache.cached path with
  | some uuid => some uuid
  | none => (s.dm.inodeAt lib (requestPath path)).map DirectoryInode.uuid

theorem get_uuid_wp {uuid : BitVec 64} (h : s.uuidOf lib path = some uuid) :
    Wp (handle g lib clock) (LocofsClient.get_uuid path) s fun r s' =>
      r = some uuid ∧ s'.uuidOf lib path = some uuid ∧ s'.fm = s.fm ∧ s'.pages = s.pages ∧
        s.dm.Alike s'.dm := by
  simp only [uuidOf] at h
  cases hc : s.cache.cached path with
  | some u =>
    rw [hc] at h
    cases h
    have hget : handle g lib clock (.cacheGet path) s = some (some uuid, { s with
        cache := (s.cache.get path (clock s.time)).2, time := s.time + 1 }) := by
      simp only [handle, s.cache.get_fst, hc]
      rfl
    apply Wp.call hget
    refine Wp.ret ⟨rfl, ?_, rfl, rfl, .refl _⟩
    simp only [uuidOf, LruCache.get_cached, hc]
  | none =>
    rw [hc] at h
    obtain ⟨di, hdi, rfl⟩ := Option.map_eq_some_iff.1 h
    have hget : handle g lib clock (.cacheGet path) s = some (none, { s with
        cache := (s.cache.get path (clock s.time)).2, time := s.time + 1 }) := by
      simp only [handle, s.cache.get_fst, hc]
      rfl
    apply Wp.call hget
    obtain ⟨st, dm, hstat, hst, halike⟩ := DMStore.stat_of_some hdi g (clock (s.time + 1))
    have hdir : handle g lib clock (.dirStat (requestPath path)) { s with
        cache := (s.cache.get path (clock s.time)).2, time := s.time + 1 } =
        some (⟨0, st⟩,
          { s with cache := (s.cache.get path (clock s.time)).2, dm, time := s.time + 2 }) := by
      simp only [handle, hstat]
    apply Wp.call hdir
    apply Wp.call rfl
    refine Wp.ret ⟨congrArg some hst, ?_, rfl, rfl, halike⟩
    simp only [uuidOf]
    rw [LruCache.set_cached, hst]
    rw [LruCache.get_cached, hc]

theorem get_uuid_none (h : s.uuidOf lib path = none) :
    Wp (handle g lib clock) (LocofsClient.get_uuid path) s fun r s' => r = none ∧ s'.fm = s.fm := by
  simp only [uuidOf] at h
  cases hc : s.cache.cached path with
  | some u =>
    rw [hc] at h
    cases h
  | none =>
    rw [hc] at h
    have hnone : s.dm.inodeAt lib (requestPath path) = none := Option.map_eq_none_iff.1 h
    have hget : handle g lib clock (.cacheGet path) s = some (none, { s with
        cache := (s.cache.get path (clock s.time)).2, time := s.time + 1 }) := by
      simp only [handle, s.cache.get_fst, hc]
      rfl
    apply Wp.call hget
    have hstat : ∃ dm, dmHandleStat g lib s.dm (requestPath path) (clock (s.time + 1)) =
        (⟨-1, g.dirStat⟩, dm) := by
      rw [DMStore.inodeAt] at hnone
      simp only [dmHandleStat, DMStore.getAttr, DMStore.getValue, KVStore.getValue, hnone,
        Option.map_none]
      exact ⟨s.dm, rfl⟩
    obtain ⟨dm, hstat⟩ := hstat
    have hdir : handle g lib clock (.dirStat (requestPath path)) { s with
        cache := (s.cache.get path (clock s.time)).2, time := s.time + 1 } =
        some (⟨-1, g.dirStat⟩, { s with
          cache := (s.cache.get path (clock s.time)).2, dm, time := s.time + 2 }) := by
      simp only [handle, hstat]
    apply Wp.call hdir
    exact Wp.ret ⟨rfl, rfl⟩

/-- Nothing but the file `f` has changed in the servers. -/
structure Untouched (f : File) (s s' : FileSystem) : Prop where
  dirs : s.dm.Alike s'.dm
  files : FMStore.Others f s.fm s'.fm

/-- The path leads this client to a file of `size` bytes. -/
def HasFile (lib : Library) (s : FileSystem) (path : Str) (f : File) (size : Int) : Prop :=
  ∃ uuid, s.uuidOf lib (lib.parent_path path) = some uuid ∧
    s.fm.Holds (requestPath (key (to_string uuid) (lib.filename path))) f size

theorem HasFile.size_eq (h : s.HasFile lib path f n) (h' : s.HasFile lib path f' m) : n = m := by
  obtain ⟨uuid, hu, hf⟩ := h
  obtain ⟨uuid', hu', hf'⟩ := h'
  rw [hu] at hu'
  cases hu'
  exact hf.size_eq hf'

end FileSystem

namespace LocofsClient

variable {c : LocofsClient} {g : Garbage} {clock : Nat → Int} {s s' : FileSystem} {f : File}
  {size : Int}

theorem get_file_key_wp {path : Str} {uuid : BitVec 64}
    (h : s.uuidOf c.lib (c.lib.parent_path path) = some uuid) :
    Wp (FileSystem.handle g c.lib clock) (c.get_file_key path) s fun r s' =>
      r = some (key (to_string uuid) (c.lib.filename path)) ∧
        s'.uuidOf c.lib (c.lib.parent_path path) = some uuid ∧ s'.fm = s.fm ∧
        s'.pages = s.pages ∧ s.dm.Alike s'.dm := by
  rw [get_file_key]
  apply Wp.bind
  apply (FileSystem.get_uuid_wp h).mono
  rintro _ s' ⟨rfl, hs⟩
  exact Wp.ret ⟨rfl, hs⟩

theorem get_file_stat_wp {path : Str} (h : s.HasFile c.lib path f size) :
    Wp (FileSystem.handle g c.lib clock) (c.get_file_stat path) s fun r s' =>
      ∃ st, r = some st ∧ st.suuid = f.suuid ∧ st.sid = f.sid ∧ st.block_size.toInt = 4096 ∧
        st.st.st_size = size ∧ s'.HasFile c.lib path f size ∧ s'.pages = s.pages ∧
        s.Untouched f s' := by
  obtain ⟨uuid, hu, hf⟩ := h
  rw [get_file_stat]
  apply Wp.bind
  apply (get_file_key_wp hu).mono
  rintro _ s₁ ⟨rfl, hu₁, hfm, hpages, halike⟩
  rw [← hfm] at hf
  obtain ⟨st, fm, hstat, hf₁, hsuuid, hsid, hblock, hsize, hothers⟩ := hf.stat g
  have hop : FileSystem.handle g c.lib clock
      (.fileStat (requestPath (key (to_string uuid) (c.lib.filename path)))) s₁ =
      some (⟨0, st⟩, { s₁ with fm }) := by
    simp only [FileSystem.handle, hstat]
  apply Wp.call hop
  exact Wp.ret ⟨st, rfl, hsuuid, hsid, hblock, hsize, ⟨uuid, hu₁, hf₁⟩, hpages, halike,
    hfm ▸ hothers⟩

section Examples

def exampleClient : LocofsClient := ⟨Library.posix, 2 ^ 20, by decide⟩

/-- The file server's id, as long as it has no configuration, is 233. -/
def exampleFile : File := ⟨0, 233⟩

def examplePath : Path := [DMServer.nameA, DMServer.nameB]

def exampleSystem : FileSystem where
  cache := ⟨5000, [], 0⟩
  dm := DMServer.oneDir
  fm :=
    { file_access_store := Function.update (fun _ => none) ['2', ':', 'b'] (some ⟨0, 0, 0, 0, 0⟩)
      file_content_store := Function.update (fun _ => none) ['2', ':', 'b']
        (some ⟨0, 0, 0, 4096, ['2', ':', 'b'], 0, 0, 233⟩)
      ec_store := Function.update (fun _ => none) ['2'] (some [['b']])
      suuid_counter := 1
      sid_num := 233 }
  pages := fun _ _ => 0
  time := 0

def exampleGarbage : Garbage :=
  ⟨DMServer.blank, ⟨⟨0, 0, 0, 0, [], 0, 0, 0⟩, ⟨0, 0, 0, 0, 0⟩, 0⟩, ⟨0, 0, 0, 0, [], 0, 0, 0⟩,
    ⟨⟨0, 0, 0, 0, 0, 0, 0⟩, 0⟩, ⟨⟨0, 0, 0, 0, 0, 0, 0⟩, 0, 0, 0⟩, 0⟩

theorem exampleSystem_file :
    exampleSystem.HasFile Library.posix examplePath.str exampleFile 0 := by
  have hkey : requestPath (key (to_string 2) (Library.posix.filename examplePath.str)) =
      ['2', ':', 'b'] := by decide
  refine ⟨2, by decide, ⟨0, 0, 0, 0, 0⟩, ⟨0, 0, 0, 4096, ['2', ':', 'b'], 0, 0, 233⟩, ?_, ?_, rfl,
    rfl, rfl, rfl, by decide⟩
  · rw [hkey]
    rfl
  · rw [hkey]
    rfl

end Examples

end LocofsClient

end Galois
