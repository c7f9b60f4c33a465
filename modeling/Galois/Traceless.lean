import Galois.FileListing

namespace Galois
set_option autoImplicit true
set_option relaxedAutoImplicit false

namespace KVStore

variable {kv kv' : KVStore β} {path : Str} {value : β} {ok : Bool}

theorem remove_eq_some : kv.remove ok path = some kv' ↔
    ok = true ∧ (kv path).isSome ∧ kv' = Function.update kv path none := by
  simp only [remove, Option.ite_none_right_eq_some, and_assoc, Option.some.injEq]
  exact and_congr_right fun _ => and_congr_right fun _ => eq_comm

theorem setValue_false : setValue false kv path value = none := rfl

theorem update_none_ne (h : (kv path).isSome) : Function.update kv path none ≠ kv := by
  intro he
  have hp := congrFun he path
  rw [Function.update_self] at hp
  rw [← hp] at h
  cases h

theorem update_some_ne (h : kv path = none) : Function.update kv path (some value) ≠ kv := by
  intro he
  have hp := congrFun he path
  rw [Function.update_self, h] at hp
  cases hp

end KVStore

namespace DMStore

variable {lib : Library} {ok : Nat → Bool} {s : DMStore} {path old_path new_path : Str} {i : Nat}

/-- The call reports its failure and leaves the stores and the lists alone. -/
def Traceless (s : DMStore) (result : Option (Int × DMStore)) : Prop :=
  ∃ value s', result = some (value, s') ∧ value ≠ 0 ∧ s'.dm_store = s.dm_store ∧
    s'.uuid_store = s.uuid_store ∧ s'.ec_store = s.ec_store

/-- `mkdir` makes its `i`-th update, which fails. -/
def MkdirFails (lib : Library) (ok : Nat → Bool) (s : DMStore) (path : Str) (i : Nat) : Prop :=
  ∃ puuid key_uuid, s.bumped.mkdirKey lib path = some (puuid, key_uuid) ∧
    s.uuid_store.getValue key_uuid = none ∧
    match i with
    | 0 => ok 0 = false
    | 1 => ok 0 = true ∧ ok 1 = false
    | _ => False

theorem mkdir_fails (di : DirectoryInode) (time : Int) (h : MkdirFails lib ok s path i) :
    ∃ puuid key_uuid, s.bumped.mkdirKey lib path = some (puuid, key_uuid) ∧
      s.uuid_store key_uuid = none ∧ s.mkdir lib ok path di time = (-1, { s.bumped with
        uuid_store := if i = 0 then s.uuid_store
          else Function.update s.uuid_store key_uuid (some s.next) }) := by
  obtain ⟨puuid, key_uuid, hkey, hfree, hfails⟩ := h
  have hstart : ({ s with uuid_counter := s.uuid_counter + 1 } : DMStore) = s.bumped := rfl
  have hnone : (s.uuid_store.getValue key_uuid).isSome = false := by
    rw [hfree]
    rfl
  refine ⟨puuid, key_uuid, hkey, hfree, ?_⟩
  match i with
  | 0 =>
    have hfirst : ok 0 = false := hfails
    simp only [mkdir, hstart, hkey, hnone, hfirst, KVStore.setValue_false, Bool.false_eq_true,
      ↓reduceIte]
    rfl
  | 1 =>
    obtain ⟨hfirst, hsecond⟩ := hfails
    simp only [mkdir, hstart, hkey, hnone, hfirst, hsecond, setValue, KVStore.setValue_false,
      KVStore.setValue_true, Bool.false_eq_true, ↓reduceIte, Option.map_none, Nat.one_ne_zero]
    rfl

theorem mkdir_traceless (di : DirectoryInode) (time : Int) (h : MkdirFails lib ok s path i) :
    s.Traceless (some (s.mkdir lib ok path di time)) ↔ i = 0 := by
  obtain ⟨puuid, key_uuid, -, hfree, hr⟩ := mkdir_fails di time h
  rw [hr]
  constructor
  · rintro ⟨value, s', he, -, -, huuid, -⟩
    by_contra hi
    cases he
    simp only [hi, ↓reduceIte] at huuid
    exact KVStore.update_some_ne hfree huuid
  · rintro rfl
    exact ⟨-1, _, rfl, by decide, rfl, rfl, rfl⟩

/-- `rmdir` makes its `i`-th update, which fails. -/
def RmdirFails (lib : Library) (ok : Nat → Bool) (s : DMStore) (path : Str) (i : Nat) : Prop :=
  path ≠ ['/'] ∧ ∃ puuid uuid, s.get_2_uuid lib path = some (puuid, uuid) ∧
    match i with
    | 0 => s.dm_store.remove (ok 0) uuid = none
    | 1 => (s.dm_store.remove (ok 0) uuid).isSome ∧
      s.uuid_store.remove (ok 1) (key puuid (lib.filename path)) = none
    | _ => False

theorem rmdir_fails (h : RmdirFails lib ok s path i) :
    ∃ puuid uuid, s.get_2_uuid lib path = some (puuid, uuid) ∧
      (i ≠ 0 → (s.dm_store uuid).isSome) ∧ s.rmdir lib ok path = some (-1, { s with
        dm_store := if i = 0 then s.dm_store else Function.update s.dm_store uuid none }) := by
  obtain ⟨hroot, puuid, uuid, hget, hfails⟩ := h
  refine ⟨puuid, uuid, hget, ?_⟩
  match i with
  | 0 =>
    refine ⟨fun h => absurd rfl h, ?_⟩
    have hfirst : s.dm_store.remove (ok 0) uuid = none := hfails
    simp only [rmdir, hroot, ↓reduceIte, hget, hfirst]
  | 1 =>
    obtain ⟨hfirst, hsecond⟩ := hfails
    obtain ⟨dm_store, hremove⟩ := Option.isSome_iff_exists.1 hfirst
    obtain ⟨-, hsome, rfl⟩ := KVStore.remove_eq_some.1 hremove
    refine ⟨fun _ => hsome, ?_⟩
    simp only [rmdir, hroot, ↓reduceIte, hget, hremove, hsecond, Nat.one_ne_zero]

theorem rmdir_traceless (h : RmdirFails lib ok s path i) :
    s.Traceless (s.rmdir lib ok path) ↔ i = 0 := by
  obtain ⟨puuid, uuid, -, hsome, hr⟩ := rmdir_fails h
  rw [hr]
  constructor
  · rintro ⟨value, s', he, -, hdm, -, -⟩
    by_contra hi
    cases he
    simp only [hi, ↓reduceIte] at hdm
    exact KVStore.update_none_ne (hsome hi) hdm
  · rintro rfl
    exact ⟨-1, _, rfl, by decide, rfl, rfl, rfl⟩

/-- `rename` makes its `i`-th update of `uuid_store`, which fails. -/
def RenameFails (lib : Library) (ok : Nat → Bool) (s : DMStore) (old_path : Str) (i : Nat) :
    Prop :=
  ∃ puuid uuid, s.get_2_uuid lib old_path = some (puuid, uuid) ∧
    match i with
    | 0 => s.uuid_store.remove (ok 0) (key puuid (lib.filename old_path)) = none
    | 1 => (s.uuid_store.remove (ok 0) (key puuid (lib.filename old_path))).isSome ∧ ok 1 = false
    | _ => False

theorem rename_fails (dii : DirectoryInode) (time : Int) (h : RenameFails lib ok s old_path i) :
    ∃ puuid uuid, s.get_2_uuid lib old_path = some (puuid, uuid) ∧
      (i ≠ 0 → (s.uuid_store (key puuid (lib.filename old_path))).isSome) ∧
      s.rename lib ok old_path new_path dii time = some (-1, { s with
        uuid_store := if i = 0 then s.uuid_store
          else Function.update s.uuid_store (key puuid (lib.filename old_path)) none }) := by
  obtain ⟨puuid, uuid, hget, hfails⟩ := h
  refine ⟨puuid, uuid, hget, ?_⟩
  match i with
  | 0 =>
    refine ⟨fun h => absurd rfl h, ?_⟩
    have hfirst : s.uuid_store.remove (ok 0) (key puuid (lib.filename old_path)) = none := hfails
    simp only [rename, hget, hfirst, ↓reduceIte]
  | 1 =>
    obtain ⟨hfirst, hsecond⟩ := hfails
    obtain ⟨uuid_store, hremove⟩ := Option.isSome_iff_exists.1 hfirst
    obtain ⟨-, hsome, rfl⟩ := KVStore.remove_eq_some.1 hremove
    refine ⟨fun _ => hsome, ?_⟩
    simp only [rename, hget, hremove, hsecond, KVStore.setValue_false, Nat.one_ne_zero, ↓reduceIte]

theorem rename_traceless (dii : DirectoryInode) (time : Int) (h : RenameFails lib ok s old_path i) :
    s.Traceless (s.rename lib ok old_path new_path dii time) ↔ i = 0 := by
  obtain ⟨puuid, uuid, -, hsome, hr⟩ := @rename_fails _ _ _ _ new_path _ dii time h
  rw [hr]
  constructor
  · rintro ⟨value, s', he, -, -, huuid, -⟩
    by_contra hi
    cases he
    simp only [hi, ↓reduceIte] at huuid
    exact KVStore.update_none_ne (hsome hi) huuid
  · rintro rfl
    exact ⟨-1, _, rfl, by decide, rfl, rfl, rfl⟩

end DMStore

namespace FMStore

variable {lib : Library} {ok : Nat → Bool} {s : FMStore} {Key : Str} {i : Nat}

def Traceless (s : FMStore) (result : Option (Int × FMStore)) : Prop :=
  ∃ value s', result = some (value, s') ∧ value ≠ 0 ∧
    s'.file_access_store = s.file_access_store ∧
    s'.file_content_store = s.file_content_store ∧ s'.ec_store = s.ec_store

/-- `create` makes its `i`-th update, which fails. -/
def CreateFails (ok : Nat → Bool) (i : Nat) : Prop :=
  match i with
  | 0 => ok 0 = false
  | 1 => ok 0 = true ∧ ok 1 = false
  | _ => False

theorem create_fails (fa faa : FileAccessInode) (fcc : FileContentInode) (h : CreateFails ok i) :
    s.create lib ok Key fa faa fcc = (-1, { s with
      file_access_store := if i = 0 then s.file_access_store
        else Function.update s.file_access_store Key (some { newAccess fa faa with error := 0 })
      suuid_counter := s.suuid_counter + 1 }) := by
  match i with
  | 0 =>
    have hfirst : ok 0 = false := h
    simp only [create, setAccessValue, hfirst, KVStore.setValue_false, Option.map_none, ↓reduceIte]
  | 1 =>
    obtain ⟨hfirst, hsecond⟩ := h
    simp only [create, setAccessValue, setContentValue, hfirst, hsecond, KVStore.setValue_true,
      KVStore.setValue_false, Option.map_some, Option.map_none, Nat.one_ne_zero, ↓reduceIte]

theorem create_traceless (fa faa : FileAccessInode) (fcc : FileContentInode)
    (h : CreateFails ok i) : s.Traceless (some (s.create lib ok Key fa faa fcc)) ↔
      i = 0 ∨ s.file_access_store Key = some { newAccess fa faa with error := 0 } := by
  rw [create_fails fa faa fcc h]
  constructor
  · rintro ⟨value, s', he, -, haccess, -⟩
    by_cases hi : i = 0
    · exact .inl hi
    · cases he
      simp only [hi, ↓reduceIte] at haccess
      rw [← haccess]
      exact .inr (Function.update_self _ _ _)
  · intro hstored
    refine ⟨-1, _, rfl, by decide, ?_, rfl, rfl⟩
    by_cases hi : i = 0
    · exact if_pos hi
    · simp only [hi, ↓reduceIte, ← hstored.resolve_left hi]
      exact Function.update_eq_self _ _

/-- `remove` makes its `i`-th update, which fails. -/
def RemoveFails (ok : Nat → Bool) (s : FMStore) (Key : Str) (i : Nat) : Prop :=
  match i with
  | 0 => s.file_access_store.remove (ok 0) Key = none
  | 1 => (s.file_access_store.remove (ok 0) Key).isSome ∧
    s.file_content_store.remove (ok 1) Key = none
  | _ => False

theorem remove_fails (h : RemoveFails ok s Key i) : (i ≠ 0 → (s.file_access_store Key).isSome) ∧
    s.remove lib ok Key = some (-1, { s with
      file_access_store := if i = 0 then s.file_access_store
        else Function.update s.file_access_store Key none }) := by
  match i with
  | 0 =>
    refine ⟨fun h => absurd rfl h, ?_⟩
    have hfirst : s.file_access_store.remove (ok 0) Key = none := h
    simp only [remove, hfirst, ↓reduceIte]
  | 1 =>
    obtain ⟨hfirst, hsecond⟩ := h
    obtain ⟨file_access_store, hremove⟩ := Option.isSome_iff_exists.1 hfirst
    obtain ⟨-, hsome, rfl⟩ := KVStore.remove_eq_some.1 hremove
    refine ⟨fun _ => hsome, ?_⟩
    simp only [remove, hremove, hsecond, Nat.one_ne_zero, ↓reduceIte]

theorem remove_traceless (h : RemoveFails ok s Key i) :
    s.Traceless (s.remove lib ok Key) ↔ i = 0 := by
  obtain ⟨hsome, hr⟩ := @remove_fails lib _ _ _ _ h
  rw [hr]
  constructor
  · rintro ⟨value, s', he, -, haccess, -⟩
    by_contra hi
    cases he
    simp only [hi, ↓reduceIte] at haccess
    exact KVStore.update_none_ne (hsome hi) haccess
  · rintro rfl
    exact ⟨-1, _, rfl, by decide, rfl, rfl, rfl⟩

end FMStore

/-- A call whose update fails answers -1 and leaves what it had updated before, which is nothing
exactly if the failed update is its first one, or stores over an inode just like it. -/
theorem failed_update (lib : Library) (ok : Nat → Bool) (i : Nat) :
    (∀ (s : DMStore) path di time, DMStore.MkdirFails lib ok s path i →
      (∃ puuid key_uuid, s.bumped.mkdirKey lib path = some (puuid, key_uuid) ∧
        s.mkdir lib ok path di time = (-1, { s.bumped with
          uuid_store := if i = 0 then s.uuid_store
            else Function.update s.uuid_store key_uuid (some s.next) })) ∧
      (s.Traceless (some (s.mkdir lib ok path di time)) ↔ i = 0)) ∧
    (∀ (s : DMStore) path, DMStore.RmdirFails lib ok s path i →
      (∃ puuid uuid, s.get_2_uuid lib path = some (puuid, uuid) ∧
        s.rmdir lib ok path = some (-1, { s with
          dm_store := if i = 0 then s.dm_store else Function.update s.dm_store uuid none })) ∧
      (s.Traceless (s.rmdir lib ok path) ↔ i = 0)) ∧
    (∀ (s : DMStore) old_path new_path dii time, DMStore.RenameFails lib ok s old_path i →
      (∃ puuid uuid, s.get_2_uuid lib old_path = some (puuid, uuid) ∧
        s.rename lib ok old_path new_path dii time = some (-1, { s with
          uuid_store := if i = 0 then s.uuid_store
            else Function.update s.uuid_store (key puuid (lib.filename old_path)) none })) ∧
      (s.Traceless (s.rename lib ok old_path new_path dii time) ↔ i = 0)) ∧
    (∀ (s : FMStore) Key fa faa fcc, FMStore.CreateFails ok i →
      s.create lib ok Key fa faa fcc = (-1, { s with
        file_access_store := if i = 0 then s.file_access_store
          else Function.update s.file_access_store Key
            (some { FMStore.newAccess fa faa with error := 0 })
        suuid_counter := s.suuid_counter + 1 }) ∧
      (s.Traceless (some (s.create lib ok Key fa faa fcc)) ↔ i = 0 ∨
        s.file_access_store Key = some { FMStore.newAccess fa faa with error := 0 })) ∧
    ∀ (s : FMStore) Key, FMStore.RemoveFails ok s Key i →
      s.remove lib ok Key = some (-1, { s with
        file_access_store := if i = 0 then s.file_access_store
          else Function.update s.file_access_store Key none }) ∧
      (s.Traceless (s.remove lib ok Key) ↔ i = 0) := by
  refine ⟨?_, ?_, ?_, ?_, ?_⟩
  · intro s path di time h
    obtain ⟨puuid, key_uuid, hkey, -, hr⟩ := DMStore.mkdir_fails di time h
    exact ⟨⟨puuid, key_uuid, hkey, hr⟩, DMStore.mkdir_traceless di time h⟩
  · intro s path h
    obtain ⟨puuid, uuid, hget, -, hr⟩ := DMStore.rmdir_fails h
    exact ⟨⟨puuid, uuid, hget, hr⟩, DMStore.rmdir_traceless h⟩
  · intro s old_path new_path dii time h
    obtain ⟨puuid, uuid, hget, -, hr⟩ := DMStore.rename_fails dii time h
    exact ⟨⟨puuid, uuid, hget, hr⟩, DMStore.rename_traceless dii time h⟩
  · intro s Key fa faa fcc h
    exact ⟨FMStore.create_fails fa faa fcc h, FMStore.create_traceless fa faa fcc h⟩
  · intro s Key h
    exact ⟨(FMStore.remove_fails h).2, FMStore.remove_traceless h⟩

section Examples

open DMServer

def allBut (i : Nat) : Nat → Bool := fun j => j ≠ i

theorem mkdirFails_a (hi : i < 2) :
    DMStore.MkdirFails Library.posix (allBut i) (start Library.posix blank 0)
      (Path.str [nameA]) i := by
  refine ⟨['0'], key ['0'] ['a'], by decide, by decide, ?_⟩
  match i with
  | 0 => rfl
  | 1 => exact ⟨rfl, rfl⟩

/-- The first update of `mkdir` of `/a`, the second one, and the second one of `rmdir` of `/a`. -/
theorem failed_update_a :
    (start Library.posix blank 0).Traceless (some
      ((start Library.posix blank 0).mkdir Library.posix (allBut 0) (Path.str [nameA]) blank 0)) ∧
    (∃ s, (start Library.posix blank 0).mkdir Library.posix (allBut 1) (Path.str [nameA]) blank 0 =
      (-1, s) ∧ s.uuid_store (key ['0'] ['a']) = some ['2'] ∧ s.dm_store ['2'] = none) ∧
    ∃ s, oneDir.rmdir Library.posix (allBut 1) (Path.str [nameA]) = some (-1, s) ∧
      s.uuid_store (key ['0'] ['a']) = some ['2'] ∧ s.dm_store ['2'] = none := by
  refine ⟨?_, ?_, ?_⟩
  · have hfirst := (failed_update Library.posix (allBut 0) 0).1 _ _ blank 0
      (mkdirFails_a (by decide))
    exact hfirst.2.2 rfl
  · obtain ⟨⟨puuid, key_uuid, hkey, hr⟩, -⟩ := (failed_update Library.posix (allBut 1) 1).1 _ _
      blank 0 (mkdirFails_a (by decide))
    have hkeyA : (start Library.posix blank 0).bumped.mkdirKey Library.posix (Path.str [nameA]) =
        some (['0'], key ['0'] ['a']) := by decide
    cases hkeyA.symm.trans hkey
    exact ⟨_, hr, by decide, by decide⟩
  · have hgetA : oneDir.get_2_uuid Library.posix (Path.str [nameA]) = some (['0'], ['2']) := by
      decide
    have hremoved : (oneDir.dm_store.remove (allBut 1 0) ['2']).isSome := by decide
    obtain ⟨-, hrmdir, -⟩ := failed_update Library.posix (allBut 1) 1
    obtain ⟨⟨puuid, uuid, hget, hr⟩, -⟩ := hrmdir oneDir (Path.str [nameA])
      ⟨by decide, ['0'], ['2'], hgetA, hremoved, by decide⟩
    cases hgetA.symm.trans hget
    exact ⟨_, hr, by decide, by decide⟩

theorem mkdir_leaves_trace : ¬ ∀ (w : List Call) (s : DMStore), (system Library.posix).Run w s →
    ∀ (i : Nat) (path : Path) (di : DirectoryInode) (time : Int),
      DMStore.MkdirFails Library.posix (allBut i) s path.str i →
        s.Traceless (some (s.mkdir Library.posix (allBut i) path.str di time)) := by
  intro h
  have hrun : (system Library.posix).Run [] (start Library.posix blank 0) := .nil ⟨blank, 0, rfl⟩
  have htrace := h [] _ hrun 1 [nameA] blank 0 (mkdirFails_a (by decide))
  exact Nat.one_ne_zero ((DMStore.mkdir_traceless blank 0 (mkdirFails_a (by decide))).1 htrace)

end Examples

end Galois
