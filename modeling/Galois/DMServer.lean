import Galois.Effect.System
import Galois.Path

namespace Galois
set_option autoImplicit true
set_option relaxedAutoImplicit false

/-- Every update of a finite map succeeds. -/
def always : Nat → Bool := fun _ => true

namespace DMStore

variable {lib : Library} {s s' : DMStore} {p : Path} {n : Name} {u v w : Str}

/-- The store after a `mkdir` that took a number and found nothing to do. -/
def bumped (s : DMStore) : DMStore := { s with uuid_counter := s.uuid_counter + 1 }

def next (s : DMStore) : Str := to_string (s.uuid_counter + 1)

def made (s : DMStore) (u n : Str) (inode : DirectoryInode) : DMStore where
  dm_store := Function.update s.dm_store s.next (some inode)
  uuid_store := Function.update s.uuid_store (key u n) (some s.next)
  ec_store := s.ec_store.insert_entry u n
  uuid_counter := s.uuid_counter + 1

theorem mkdir_root (h : (s.uuid_store ['/']).isSome) (di : DirectoryInode) (time : Int) :
    s.mkdir lib always (Path.str []) di time = (-1, s.bumped) := by
  simp only [mkdir, mkdirKey, Path.str, KVStore.getValue, h, ↓reduceIte, bumped]

theorem mkdir_str (hlib : lib.Documented) (hs : Plain s.uuid_store) (p : Path) (n : Name)
    (di : DirectoryInode) (time : Int) :
    s.mkdir lib always (Path.str (p ++ [n])) di time =
      match (links s.uuid_store).walk ['0'] p with
      | none => (-1, s.bumped)
      | some u =>
        if (s.uuid_store (key u n.chars)).isSome then (-1, s.bumped)
        else (0, s.made u n.chars
          (newInode (Path.str (p ++ [n])) di (s.uuid_counter + 1) time)) := by
  have hparent : s.bumped.get_uuid lib (lib.parent_path (Path.str (p ++ [n]))) =
      (links s.uuid_store).walk ['0'] p := by
    rw [hlib.parent_path]
    exact get_uuid_str hlib (s := s.bumped) hs p
  simp only [mkdir, mkdirKey, Path.str_concat_ne_root p n, ↓reduceIte]
  rw [show ({ s with uuid_counter := s.uuid_counter + 1 } : DMStore) = s.bumped from rfl, hparent,
    hlib.filename]
  cases (links s.uuid_store).walk ['0'] p with
  | none => rfl
  | some u =>
    simp only [Option.map_some, KVStore.getValue]
    rfl

theorem mkdir_cases (hlib : lib.Documented) (hs : Plain s.uuid_store)
    (hroot : (s.uuid_store ['/']).isSome) (p : Path) (di : DirectoryInode) (time : Int) :
    (s.mkdir lib always p.str di time = (-1, s.bumped) ∧ ∀ q (n : Name) u, p = q ++ [n] →
      (links s.uuid_store).walk ['0'] q = some u → s.uuid_store (key u n.chars) ≠ none) ∨
    ∃ q u, ∃ n : Name, p = q ++ [n] ∧ (links s.uuid_store).walk ['0'] q = some u ∧ ':' ∉ u ∧
      s.uuid_store (key u n.chars) = none ∧ s.mkdir lib always p.str di time =
        (0, s.made u n.chars (newInode p.str di (s.uuid_counter + 1) time)) := by
  cases p using List.reverseRecOn with
  | nil =>
    refine .inl ⟨mkdir_root hroot di time, fun q n _ he => ?_⟩
    exact absurd he.symm (List.append_ne_nil_of_right_ne_nil q (List.cons_ne_nil n []))
  | append_singleton p n =>
    have hlast {q m} (he : p ++ [n] = q ++ [m]) : p = q ∧ n = m :=
      (List.append_inj' he rfl).imp_right fun hm => List.cons.inj hm |>.1
    rw [mkdir_str hlib hs]
    cases hp : (links s.uuid_store).walk ['0'] p with
    | none =>
      refine .inl ⟨rfl, fun q m u he hq => ?_⟩
      obtain ⟨rfl, rfl⟩ := hlast he
      cases hp.symm.trans hq
    | some u =>
      cases hn : s.uuid_store (key u n.chars) with
      | some v =>
        refine .inl ⟨by simp only [hn, Option.isSome_some, ↓reduceIte], fun q m w he hq => ?_⟩
        obtain ⟨rfl, rfl⟩ := hlast he
        cases hp.symm.trans hq
        rw [hn]
        exact Option.some_ne_none v
      | none =>
        refine .inr ⟨p, u, n, rfl, hp, plain_walk hs colon_notMem_zero hp, hn, ?_⟩
        simp only [hn, Option.isSome_none, Bool.false_eq_true, ↓reduceIte]

def unmade (s : DMStore) (u n v : Str) (ec_store : EntryList) : DMStore where
  dm_store := Function.update s.dm_store v none
  uuid_store := Function.update s.uuid_store (key u n) none
  ec_store := ec_store
  uuid_counter := s.uuid_counter

theorem rmdir_root (s : DMStore) : s.rmdir lib always (Path.str []) = some (1, s) := rfl

theorem rmdir_of_missing (hlib : lib.Documented) (hs : Plain s.uuid_store)
    (h : (links s.uuid_store).walk ['0'] (p ++ [n]) = none) :
    s.rmdir lib always (Path.str (p ++ [n])) = some (-1, s) := by
  have hget : s.get_2_uuid lib (Path.str (p ++ [n])) = none := by
    rw [get_2_uuid_str hlib hs]
    rw [Links.walk_concat] at h
    cases hw : (links s.uuid_store).walk ['0'] p with
    | none => rfl
    | some u =>
      rw [hw, Option.bind_some] at h
      rw [Option.bind_some, h]
      rfl
  simp only [rmdir, Path.str_concat_ne_root p n, ↓reduceIte, hget]

theorem rmdir_of_some (hlib : lib.Documented) (hs : Plain s.uuid_store)
    (hp : (links s.uuid_store).walk ['0'] p = some u) (hu : ':' ∉ u)
    (hn : s.uuid_store (key u n.chars) = some v) :
    s.rmdir lib always (Path.str (p ++ [n])) =
      if (s.dm_store v).isSome then
        (s.ec_store.remove_entry lib u n.chars).map fun ec_store =>
          (0, s.unmade u n.chars v ec_store)
      else some (-1, s) := by
  have hget : s.get_2_uuid lib (Path.str (p ++ [n])) = some (u, v) := by
    rw [get_2_uuid_str hlib hs, hp, Option.bind_some, links_of_plain hu, hn]
    rfl
  simp only [rmdir, Path.str_concat_ne_root p n, ↓reduceIte, hget, hlib.filename, always]
  cases hv : s.dm_store v with
  | none =>
    simp only [KVStore.remove_of_none hv, Option.isSome_none, Bool.false_eq_true, ↓reduceIte]
  | some di =>
    simp only [KVStore.remove_true_of_some hv, KVStore.remove_true_of_some hn, Option.isSome_some,
      ↓reduceIte, unmade]

theorem rmdir_cases (hlib : lib.Documented) (hs : Plain s.uuid_store) {r : Int}
    (h : s.rmdir lib always p.str = some (r, s')) :
    (r ≠ 0 ∧ s' = s ∧ ∀ v, p ≠ [] → (links s.uuid_store).walk ['0'] p = some v →
      s.dm_store v = none) ∨
    ∃ q u, ∃ n : Name, ∃ v ec, r = 0 ∧ p = q ++ [n] ∧
      (links s.uuid_store).walk ['0'] q = some u ∧ ':' ∉ u ∧
      s.uuid_store (key u n.chars) = some v ∧ (links s.uuid_store).walk ['0'] p = some v ∧
      s.ec_store.remove_entry lib u n.chars = some ec ∧ s' = s.unmade u n.chars v ec := by
  cases p using List.reverseRecOn with
  | nil =>
    cases (rmdir_root s).symm.trans h
    exact .inl ⟨by decide, rfl, fun v hp => absurd rfl hp⟩
  | append_singleton q n =>
    cases hw : (links s.uuid_store).walk ['0'] (q ++ [n]) with
    | none =>
      cases (rmdir_of_missing hlib hs hw).symm.trans h
      exact .inl ⟨by decide, rfl, nofun⟩
    | some v =>
      obtain ⟨u, hq, hn⟩ := Option.bind_eq_some_iff.1 (Links.walk_concat ▸ hw)
      have hu := plain_walk hs colon_notMem_zero hq
      rw [links_of_plain hu] at hn
      rw [rmdir_of_some hlib hs hq hu hn] at h
      split at h
      case isTrue =>
        obtain ⟨ec, hec, he⟩ := Option.map_eq_some_iff.1 h
        cases he
        exact .inr ⟨q, u, n, v, ec, rfl, rfl, hq, hu, hn, rfl, hec, rfl⟩
      case isFalse hdm =>
        cases h
        refine .inl ⟨by decide, rfl, fun w _ he => ?_⟩
        cases he
        exact Option.not_isSome_iff_eq_none.1 hdm

end DMStore

/-- A request to the directory server, with the clock reading and the uninitialised inodes that
the call uses. -/
inductive Call where
  | mkdir (path : Path) (di : DirectoryInode) (time : Int)
  | rmdir (path : Path)
  | rename (old_path new_path : Path) (dii : DirectoryInode) (time : Int)
  | access (path : Path) (dii : DirectoryInode)
  | opendir (path : Path) (dii : DirectoryInode)
  | getAttr (_return : DirectoryInode) (path : Path) (time : Int)
  | readdir (path : Path)

inductive Response where
  | value (value : Int)
  | stat (di : DirectoryInode)
  | raw (raw : Str)

namespace DMServer

variable (lib : Library)

/-- `none` is undefined behaviour. -/
def run (s : DMStore) : Call → Option (Response × DMStore)
  | .mkdir path di time =>
    let (value, s) := s.mkdir lib always path.str di time
    some (.value value, s)
  | .rmdir path => (s.rmdir lib always path.str).map fun (value, s) => (.value value, s)
  | .rename old_path new_path dii time =>
    (s.rename lib always old_path.str new_path.str dii time).map fun (value, s) => (.value value, s)
  | .access path dii => some (.value (s.access lib path.str dii), s)
  | .opendir path dii => some (.value (s.opendir lib path.str dii), s)
  | .getAttr _return path time =>
    let (di, s) := s.getAttr lib always _return path.str time
    some (.stat di, s)
  | .readdir path => some (.raw (s.readdir lib path.str), s)

/-- The inode that `DMServer::DMServer` passes, whose other fields are not initialised. -/
def rootInode (dii : DirectoryInode) (time : Int) : DirectoryInode :=
  { dii with mode := 0o755, ctime := time, gid := 0o777, uid := 0o777, old_name := ['/'] }

/-- `DMServer::DMServer` -/
def start (dii : DirectoryInode) (time : Int) : DMStore :=
  (DMStore.empty.mkdir lib always ['/'] (rootInode dii time) time).2

def system : System DMStore Call where
  init s := ∃ dii time, s = start lib dii time
  step s call s' := ∃ response, run lib s call = some (response, s')

end DMServer

end Galois
