import Galois.DMServer

namespace Galois
set_option autoImplicit true
set_option relaxedAutoImplicit false

namespace DMStore

/-- Each uuid's list holds the names of its keys, each of them once. -/
structure Listed (uuid_store : KVStore Str) (ec_store : EntryList) : Prop where
  plain : Plain uuid_store
  nodup : ∀ u, ':' ∉ u → (ec_store.names u).Nodup
  mem : ∀ u n, ':' ∉ u → (n ∈ ec_store.names u ↔ (uuid_store (key u n)).isSome)

variable {lib : Library} {s s' : DMStore} {kv : KVStore Str} {ec : EntryList} {u v w : Str}

theorem Plain.update (h : Plain kv) (hv : ':' ∉ v) (k : Str) :
    Plain (Function.update kv k (some v)) := by
  intro k' v' hk
  rw [Function.update_apply] at hk
  split at hk
  · cases hk; exact hv
  · exact h k' v' hk

theorem Plain.erase (h : Plain kv) (k : Str) : Plain (Function.update kv k none) := by
  intro k' v' hk
  rw [Function.update_apply] at hk
  split at hk
  · cases hk
  · exact h k' v' hk

theorem Listed.exact (h : Listed kv ec) : ec.Exact kv := ⟨h.nodup, h.mem⟩

theorem Listed.of_exact (hkv : Plain kv) (h : ec.Exact kv) : Listed kv ec := ⟨hkv, h.nodup, h.mem⟩

theorem Listed.root (h : Listed kv ec) (hv : ':' ∉ v) :
    Listed (Function.update kv ['/'] (some v)) ec := by
  apply Listed.of_exact (h.plain.update hv _)
  apply h.exact.congr
  intro u n hu
  rw [Function.update_of_ne (key_ne_root u n)]

theorem Listed.insert (h : Listed kv ec) (hu : ':' ∉ u) (hv : ':' ∉ v) {n : Str}
    (hn : kv (key u n) = none) :
    Listed (Function.update kv (key u n) (some v)) (ec.insert_entry u n) :=
  .of_exact (h.plain.update hv _) (h.exact.insert hu hn v)

theorem Listed.remove (hlib : lib.Documented) (h : Listed kv ec) (hu : ':' ∉ u) {n : Str}
    (hn : (kv (key u n)).isSome) :
    ∃ ec', ec.remove_entry lib u n = some ec' ∧ Listed (Function.update kv (key u n) none) ec' := by
  obtain ⟨ec', hec, hexact⟩ := h.exact.remove hlib.leftover hu hn
  exact ⟨ec', hec, .of_exact (h.plain.erase _) hexact⟩

theorem colon_notMem_get_2_uuid (hlib : lib.Documented) (hs : Plain s.uuid_store) {p : Path}
    (h : s.get_2_uuid lib p.str = some (u, v)) : ':' ∉ u ∧ ':' ∉ v := by
  cases p using List.reverseRecOn with
  | nil =>
    cases h
    exact ⟨colon_notMem_zero, colon_notMem_zero⟩
  | append_singleton p n =>
    rw [get_2_uuid_str hlib hs] at h
    obtain ⟨w, hw, hn⟩ := Option.bind_eq_some_iff.1 h
    have hpw : ':' ∉ w := plain_walk hs colon_notMem_zero hw
    rw [links_of_plain hpw] at hn
    obtain ⟨x, hx, he⟩ := Option.map_eq_some_iff.1 hn
    cases he
    exact ⟨hpw, hs _ _ hx⟩

theorem mkdir_listed (hlib : lib.Documented) (h : Listed s.uuid_store s.ec_store) (p : Path)
    (di : DirectoryInode) (time : Int) :
    Listed (s.mkdir lib always p.str di time).2.uuid_store
      (s.mkdir lib always p.str di time).2.ec_store := by
  cases p using List.reverseRecOn with
  | nil =>
    simp only [mkdir, mkdirKey, Path.str, KVStore.getValue, ↓reduceIte]
    cases hroot : s.uuid_store ['/'] with
    | some v => exact h
    | none => exact h.root (colon_notMem_to_string _)
  | append_singleton p n =>
    rw [mkdir_str hlib h.plain]
    cases hw : (links s.uuid_store).walk ['0'] p with
    | none => exact h
    | some u =>
      cases hn : s.uuid_store (key u n.chars) with
      | some v => simp only [Option.isSome_some, ↓reduceIte, hn]; exact h
      | none =>
        simp only [Option.isSome_none, Bool.false_eq_true, ↓reduceIte, hn]
        exact h.insert (plain_walk h.plain colon_notMem_zero hw) (colon_notMem_to_string _) hn

theorem rmdir_listed (hlib : lib.Documented) (h : Listed s.uuid_store s.ec_store) (p : Path) :
    ∃ r s', s.rmdir lib always p.str = some (r, s') ∧ Listed s'.uuid_store s'.ec_store := by
  cases p using List.reverseRecOn with
  | nil => exact ⟨1, s, rfl, h⟩
  | append_singleton p n =>
    cases hw : (links s.uuid_store).walk ['0'] (p ++ [n]) with
    | none => exact ⟨-1, s, rmdir_of_missing hlib h.plain hw, h⟩
    | some v =>
      obtain ⟨u, hu, hn⟩ := Option.bind_eq_some_iff.1 (Links.walk_concat ▸ hw)
      have hpu : ':' ∉ u := plain_walk h.plain colon_notMem_zero hu
      rw [links_of_plain hpu] at hn
      rw [rmdir_of_some hlib h.plain hu hpu hn]
      split
      · obtain ⟨ec', hec, hl⟩ := h.remove hlib hpu (by rw [hn]; rfl)
        exact ⟨0, s.unmade u n.chars v ec', by rw [hec]; rfl, hl⟩
      · exact ⟨-1, s, rfl, h⟩

/-- The name that the directory gets is free in its own parent, or it is the old name. -/
def RenameClear (lib : Library) (s : DMStore) (old_path new_path : Str) : Prop :=
  ∀ puuid uuid, s.get_2_uuid lib old_path = some (puuid, uuid) →
    (s.uuid_store (key puuid (lib.filename old_path))).isSome →
    lib.filename new_path = lib.filename old_path ∨
      s.uuid_store (key puuid (lib.filename new_path)) = none

def moved (s : DMStore) (u old_name new_name v : Str) (dii : DirectoryInode) (time : Int)
    (ec_store : EntryList) : DMStore where
  dm_store := Function.update s.dm_store v (some
    { (s.getValue v dii).getD dii with ctime := time, status := RENAMED, error := 0 })
  uuid_store := Function.update (Function.update s.uuid_store (key u old_name) none)
    (key u new_name) (some v)
  ec_store := ec_store.insert_entry u new_name
  uuid_counter := s.uuid_counter

theorem rename_of_some {old_path new_path : Str} (hget : s.get_2_uuid lib old_path = some (u, v))
    (hold : (s.uuid_store (key u (lib.filename old_path))).isSome)
    (dii : DirectoryInode) (time : Int) :
    s.rename lib always old_path new_path dii time =
      (s.ec_store.remove_entry lib u (lib.filename old_path)).map fun ec_store =>
        (0, s.moved u (lib.filename old_path) (lib.filename new_path) v dii time ec_store) := by
  obtain ⟨x, hx⟩ := Option.isSome_iff_exists.1 hold
  simp only [rename, hget, always, KVStore.remove_true_of_some hx, KVStore.setValue_true, setValue,
    Option.map_some, Option.getD_some]
  rfl

theorem rename_listed (hlib : lib.Documented) (h : Listed s.uuid_store s.ec_store)
    {old_path : Path} {new_path : Str} (hc : s.RenameClear lib old_path.str new_path)
    (dii : DirectoryInode) (time : Int) :
    ∃ r s', s.rename lib always old_path.str new_path dii time = some (r, s') ∧
      Listed s'.uuid_store s'.ec_store := by
  cases hget : s.get_2_uuid lib old_path.str with
  | none => exact ⟨-1, s, by simp only [rename, hget], h⟩
  | some uv =>
    obtain ⟨u, v⟩ := uv
    obtain ⟨hu, hv⟩ := colon_notMem_get_2_uuid hlib h.plain hget
    cases hold : s.uuid_store (key u (lib.filename old_path.str)) with
    | none =>
      exact ⟨-1, s, by simp only [rename, hget, KVStore.remove_of_none hold], h⟩
    | some x =>
      have hsome : (s.uuid_store (key u (lib.filename old_path.str))).isSome := by
        rw [hold]
        rfl
      obtain ⟨ec', hec, hl⟩ := h.remove hlib hu hsome
      have hfree : Function.update s.uuid_store (key u (lib.filename old_path.str)) none
          (key u (lib.filename new_path)) = none := by
        rw [update_key hu hu]
        split
        · rfl
        · rename_i hne
          exact (hc u v hget hsome).resolve_left fun he => hne ⟨rfl, he⟩
      exact ⟨0, s.moved u (lib.filename old_path.str) (lib.filename new_path) v dii time ec',
        by rw [rename_of_some hget hsome, hec]; rfl, hl.insert hu hv hfree⟩

/-- Any other `rename` that finds its directory lists a name twice. -/
theorem rename_duplicates (hlib : lib.Documented) (h : Listed s.uuid_store s.ec_store)
    {old_path : Path} {new_path : Str} (hget : s.get_2_uuid lib old_path.str = some (u, v))
    (hold : (s.uuid_store (key u (lib.filename old_path.str))).isSome)
    (hnew : (s.uuid_store (key u (lib.filename new_path))).isSome)
    (hne : lib.filename new_path ≠ lib.filename old_path.str) (dii : DirectoryInode) (time : Int) :
    ∃ s', s.rename lib always old_path.str new_path dii time = some (0, s') ∧
      ¬ (s'.ec_store.names u).Nodup := by
  obtain ⟨hu, -⟩ := colon_notMem_get_2_uuid hlib h.plain hget
  obtain ⟨ec', hec, hl⟩ := h.remove hlib hu hold
  refine ⟨_, by rw [rename_of_some hget hold, hec]; rfl, fun hnodup => ?_⟩
  have hmem : lib.filename new_path ∈ ec'.names u := by
    rw [hl.mem u _ hu, update_key hu hu, if_neg fun h => hne h.2]
    exact hnew
  exact EntryList.not_nodup_insert_entry hmem hnodup

theorem getAttr_cases (_return : DirectoryInode) (path : Str) (time : Int) :
    (s.getAttr lib always _return path time).2 = s ∨ ∃ uuid inode,
      (s.getAttr lib always _return path time).2 =
        { s with dm_store := Function.update s.dm_store uuid (some inode) } := by
  simp only [getAttr]
  split
  · exact .inl rfl
  · exact .inr ⟨_, _, rfl⟩

end DMStore

namespace DMServer

open DMStore

variable {lib : Library} {s s' : DMStore}

def Clear (lib : Library) (s : DMStore) : Call → Prop
  | .rename old_path new_path _ _ => s.RenameClear lib old_path.str new_path.str
  | _ => True

theorem run_listed (hlib : lib.Documented) (h : Listed s.uuid_store s.ec_store) {call : Call}
    (hc : Clear lib s call) : ∃ response s', run lib s call = some (response, s') ∧
      Listed s'.uuid_store s'.ec_store := by
  cases call with
  | mkdir path di time => exact ⟨_, _, rfl, mkdir_listed hlib h path di time⟩
  | rmdir path =>
    obtain ⟨r, s', hr, hl⟩ := rmdir_listed hlib h path
    exact ⟨.value r, s', by rw [run, hr]; rfl, hl⟩
  | rename old_path new_path dii time =>
    obtain ⟨r, s', hr, hl⟩ := rename_listed hlib h hc dii time
    exact ⟨.value r, s', by rw [run, hr]; rfl, hl⟩
  | access path dii => exact ⟨_, s, rfl, h⟩
  | opendir path dii => exact ⟨_, s, rfl, h⟩
  | getAttr _return path time =>
    refine ⟨_, (s.getAttr lib always _return path.str time).2, rfl, ?_⟩
    obtain he | ⟨uuid, inode, he⟩ := @getAttr_cases lib s _return path.str time
    · rw [he]
      exact h
    · rw [he]
      exact h
  | readdir path => exact ⟨_, s, rfl, h⟩

theorem start_listed (lib : Library) (dii : DirectoryInode) (time : Int) :
    Listed (start lib dii time).uuid_store (start lib dii time).ec_store := by
  have hempty : Listed (fun _ => none) (fun _ => none) := by
    constructor
    · intro k v hk
      cases hk
    · intro u hu
      exact List.nodup_nil
    · intro u n hu
      exact iff_of_false List.not_mem_nil Bool.false_ne_true
  exact hempty.root (colon_notMem_to_string _)

/-- The server as long as every `rename` is clear. -/
def clearSystem (lib : Library) : System DMStore Call :=
  (system lib).restrict fun s call _ => Clear lib s call

theorem reachable_listed (hlib : lib.Documented) (h : (clearSystem lib).Run w s) :
    Listed s.uuid_store s.ec_store := by
  apply h.invariant (I := fun s => Listed s.uuid_store s.ec_store)
  · rintro s ⟨dii, time, rfl⟩
    exact start_listed lib dii time
  · rintro s call s' hl ⟨⟨response, hr⟩, hc⟩
    obtain ⟨response', s'', hr', hl'⟩ := run_listed hlib hl hc
    rw [hr] at hr'
    cases hr'
    exact hl'

def nameA : Name := ⟨['a'], by decide, by decide, by decide⟩
def nameB : Name := ⟨['b'], by decide, by decide, by decide⟩
def nameC : Name := ⟨['c'], by decide, by decide, by decide⟩

def blank : DirectoryInode := ⟨0, 0, 0, 0, 0, [], 0, 0⟩

def oneDir : DMStore :=
  ((start Library.posix blank 0).mkdir Library.posix always (Path.str [nameA]) blank 0).2

def twoDirs : DMStore := (oneDir.mkdir Library.posix always (Path.str [nameB]) blank 0).2

theorem twoDirs_run : (clearSystem Library.posix).Run
    [.mkdir [nameA] blank 0, .mkdir [nameB] blank 0] twoDirs := by
  have h0 : (clearSystem Library.posix).Run [] (start Library.posix blank 0) :=
    .nil ⟨blank, 0, rfl⟩
  have h1 : (clearSystem Library.posix).Run [.mkdir [nameA] blank 0] oneDir :=
    h0.snoc ⟨⟨_, rfl⟩, trivial⟩
  exact h1.snoc ⟨⟨_, rfl⟩, trivial⟩

/-- As long as no directory is renamed onto another one, the list of every directory is exact. -/
theorem listing_exact (hlib : lib.Documented)
    (h : (clearSystem lib).Run w s) {p : Path} {u : Str} (hu : s.get_uuid lib p.str = some u) :
    (s.ec_store.names u).Nodup ∧
      (∀ n, n ∈ s.ec_store.names u ↔ (s.uuid_store (key u n)).isSome) ∧
      ∀ call, Clear lib s call → (run lib s call).isSome := by
  have hl := reachable_listed hlib h
  have hplain : ':' ∉ u := plain_walk hl.plain colon_notMem_zero (get_uuid_str hlib hl.plain p ▸ hu)
  refine ⟨hl.nodup u hplain, fun n => hl.mem u n hplain, fun call hc => ?_⟩
  obtain ⟨response, s', hr, -⟩ := run_listed hlib hl hc
  rw [hr]
  rfl

theorem listing_exact_renamed : ∃ s, (clearSystem Library.posix).Run [.mkdir [nameA] blank 0,
    .mkdir [nameB] blank 0, .rename [nameA] [nameC] blank 0] s ∧
      (s.ec_store.names ['0']).Nodup := by
  have hclear : Clear Library.posix twoDirs (.rename [nameA] [nameC] blank 0) := by
    intro puuid uuid hget hold
    have he : twoDirs.get_2_uuid Library.posix (Path.str [nameA]) = some (['0'], ['2']) := by decide
    cases he.symm.trans hget
    exact .inr (by decide)
  obtain ⟨r, s, hr, -⟩ := run_listed Library.posix_documented
    (reachable_listed Library.posix_documented twoDirs_run) hclear
  have hrun := twoDirs_run.snoc ⟨⟨r, hr⟩, hclear⟩
  exact ⟨s, hrun, (listing_exact Library.posix_documented hrun (p := []) rfl).1⟩

theorem rename_duplicates_b : ¬ ∀ (w : List Call) (s : DMStore),
    (system Library.posix).Run w s → ∀ (p : Path) (u : Str),
      s.get_uuid Library.posix p.str = some u → (s.ec_store.names u).Nodup ∧
        ∀ n, n ∈ s.ec_store.names u ↔ (s.uuid_store (key u n)).isSome := by
  intro h
  have hl := reachable_listed Library.posix_documented twoDirs_run
  obtain ⟨s', hs', hdup⟩ := @rename_duplicates _ _ ['0'] ['2'] Library.posix_documented hl
    [nameA] (Path.str [nameB]) (by decide) (by decide) (by decide) (by decide) blank 0
  have hr : (system Library.posix).Run _ s' :=
    twoDirs_run.of_restrict.snoc (a := .rename [nameA] [nameB] blank 0)
      ⟨.value 0, by simp only [run, hs', Option.map_some]⟩
  exact hdup (h _ s' hr [] ['0'] rfl).1

end DMServer

end Galois
