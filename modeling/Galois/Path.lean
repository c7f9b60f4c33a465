import Galois.DMStore
import Galois.Tree.Walk

namespace Galois
set_option autoImplicit true
set_option relaxedAutoImplicit false

/-- A component of a canonical path. -/
structure Name where
  chars : Str
  ne_nil : chars ≠ []
  slash_notMem : '/' ∉ chars
  nul_notMem : '\x00' ∉ chars
deriving DecidableEq

theorem Name.ext_chars {n m : Name} (h : n.chars = m.chars) : n = m := by
  cases n
  cases m
  cases h
  rfl

/-- A canonical absolute path; the empty one is the root. -/
abbrev Path := List Name

namespace Path

def str : Path → Str
  | [] => ['/']
  | n :: p => ['/'].intercalate ([] :: (n :: p).map Name.chars)

theorem splitOn_str (n : Name) (p : Path) :
    (str (n :: p)).splitOn '/' = [] :: (n :: p).map Name.chars := by
  apply List.splitOn_intercalate '/' _ (List.cons_ne_nil _ _)
  intro l hl
  cases hl with
  | head => exact List.not_mem_nil
  | tail _ hl =>
    obtain ⟨m, -, rfl⟩ := List.mem_map.1 hl
    exact m.slash_notMem

@[simp] theorem str_eq_root {p : Path} : p.str = ['/'] ↔ p = [] := by
  constructor
  · intro h
    cases p with
    | nil => rfl
    | cons n p =>
      have hs := splitOn_str n p
      rw [h] at hs
      exact absurd (List.cons.inj (List.cons.inj hs).2).1.symm n.ne_nil
  · rintro rfl
    rfl

theorem str_concat_ne_root (p : Path) (n : Name) : str (p ++ [n]) ≠ ['/'] := by
  intro h
  exact List.append_ne_nil_of_right_ne_nil p (List.cons_ne_nil n []) (str_eq_root.1 h)

@[simp] theorem str_ne_nil (p : Path) : p.str ≠ [] := by
  cases p with
  | nil => exact List.cons_ne_nil _ _
  | cons n p => simp [str, List.intercalate_cons_cons]

end Path

namespace Library

/-- The documented behaviour on canonical paths. -/
structure Documented (lib : Library) : Prop where
  filename : ∀ (p : Path) n, lib.filename (Path.str (p ++ [n])) = n.chars
  parent_path : ∀ (p : Path) n, lib.parent_path (Path.str (p ++ [n])) = p.str
  split : ∀ n (p : Path), lib.split (Path.str (n :: p)) = [] :: (n :: p).map Name.chars
  leftover : ∀ fl value, (lib.leftover fl value).length = fl.count value
  tokens : lib.tokens.Documented

def posix : Library where
  filename path := if path = ['/'] then ['/'] else (path.splitOn '/').getLastD []
  parent_path path :=
    let parent := ['/'].intercalate (path.splitOn '/').dropLast
    if parent = [] then ['/'] else parent
  split path := path.splitOn '/'
  tokens := Splitter.runs
  join fl sep := sep.intercalate fl
  leftover fl value := List.replicate (fl.count value) value

theorem posix_documented : posix.Documented where
  filename p n := by
    have hne : p ++ [n] ≠ [] := List.append_ne_nil_of_right_ne_nil p (List.cons_ne_nil n [])
    simp only [posix, Path.str_eq_root, hne, ↓reduceIte]
    cases p with
    | nil => rw [List.nil_append, Path.splitOn_str]; rfl
    | cons m p =>
      rw [List.cons_append, Path.splitOn_str, ← List.cons_append, List.map_append]
      rw [List.getLastD_eq_getLast?, ← List.cons_append]
      exact congrArg (Option.getD · []) List.getLast?_concat
  parent_path p n := by
    simp only [posix]
    cases p with
    | nil => rw [List.nil_append, Path.splitOn_str]; rfl
    | cons m p =>
      have hd : ([] :: (m :: (p ++ [n])).map Name.chars).dropLast =
          [] :: (m :: p).map Name.chars := by
        rw [← List.cons_append, List.map_append, ← List.cons_append]
        exact List.dropLast_concat
      rw [List.cons_append, Path.splitOn_str, hd]
      exact if_neg (Path.str_ne_nil (m :: p))
  split n p := Path.splitOn_str n p
  leftover fl value := List.length_replicate
  tokens := Splitter.runs_documented

end Library

namespace DMStore

variable {lib : Library} {s : DMStore} {p : Path} {n : Name} {u v w : Str}

/-- No value has a colon in it. -/
def Plain (uuid_store : KVStore Str) : Prop := ∀ k v, uuid_store k = some v → ':' ∉ v

/-- The directories of a uuid by their names, as `uuid_store` has them. -/
def links (uuid_store : KVStore Str) : Links Str Name := fun u n =>
  if ':' ∈ u then none else uuid_store (key u n.chars)

theorem links_of_plain {kv : KVStore Str} (hu : ':' ∉ u) : links kv u n = kv (key u n.chars) :=
  if_neg hu

theorem follow_eq_walk {kv : KVStore Str} (hkv : Plain kv) (hu : ':' ∉ u) (p : Path) :
    follow kv u (p.map Name.chars) = (links kv).walk u p := by
  induction p generalizing u with
  | nil => rfl
  | cons n p ih =>
    simp only [List.map_cons, follow, Links.walk, links_of_plain hu, KVStore.getValue]
    cases h : kv (key u n.chars) with
    | none => rfl
    | some v => exact ih (hkv _ v h)

theorem follow2_eq_walk {kv : KVStore Str} (hkv : Plain kv) (hu : ':' ∉ u) (w : Str) (p : Path)
    (n : Name) : follow2 kv w u ((p ++ [n]).map Name.chars) =
      ((links kv).walk u p).bind fun u => (links kv u n).map fun v => (u, v) := by
  induction p generalizing w u with
  | nil =>
    simp only [List.nil_append, List.map_cons, List.map_nil, follow2, KVStore.getValue,
      Links.walk_nil, Option.bind_some, links_of_plain hu]
    cases kv (key u n.chars) with
    | none => rfl
    | some v => rfl
  | cons m p ih =>
    simp only [List.cons_append, List.map_cons, follow2, Links.walk, KVStore.getValue,
      links_of_plain hu]
    cases h : kv (key u m.chars) with
    | none => rfl
    | some v => exact ih (hkv _ v h) u

theorem plain_walk {kv : KVStore Str} (hkv : Plain kv) (hu : ':' ∉ u)
    (h : (links kv).walk u p = some v) : ':' ∉ v := by
  induction p generalizing u with
  | nil => cases h; exact hu
  | cons n p ih =>
    obtain ⟨w, hw, hp⟩ := Option.bind_eq_some_iff.1 h
    rw [links_of_plain hu] at hw
    exact ih (hkv _ w hw) hp

theorem colon_notMem_zero : ':' ∉ ['0'] := by decide

theorem components_str (hlib : lib.Documented) (n : Name) (p : Path) :
    (components lib (Path.str (n :: p))).drop 1 = (n :: p).map Name.chars := by
  have hne : (Path.str (n :: p)).length ≠ 0 := by
    intro h
    exact Path.str_ne_nil _ (List.eq_nil_of_length_eq_zero h)
  rw [components, if_pos hne, hlib.split]
  rfl

theorem get_uuid_str (hlib : lib.Documented) (hs : Plain s.uuid_store) (p : Path) :
    s.get_uuid lib p.str = (links s.uuid_store).walk ['0'] p := by
  cases p with
  | nil => rfl
  | cons n p =>
    have hroot : Path.str (n :: p) ≠ ['/'] := fun h => List.cons_ne_nil n p (Path.str_eq_root.1 h)
    rw [get_uuid, if_neg hroot, components_str hlib]
    exact follow_eq_walk hs colon_notMem_zero (n :: p)

theorem get_2_uuid_str (hlib : lib.Documented) (hs : Plain s.uuid_store) (p : Path) (n : Name) :
    s.get_2_uuid lib (Path.str (p ++ [n])) = ((links s.uuid_store).walk ['0'] p).bind fun u =>
      (links s.uuid_store u n).map fun v => (u, v) := by
  obtain ⟨m, q, hq⟩ : ∃ m q, p ++ [n] = m :: q := List.exists_cons_of_ne_nil (by simp)
  rw [get_2_uuid, if_neg (Path.str_concat_ne_root p n), hq, components_str hlib, ← hq]
  exact follow2_eq_walk hs colon_notMem_zero ['0'] p n

end DMStore

end Galois
