import Galois.Directory
import Mathlib.Data.List.DropRight

namespace Galois
set_option autoImplicit true
set_option relaxedAutoImplicit false

/-- A path with a slash, taken apart at its last run of slashes. -/
structure Spelling where
  dir : Str
  more : Nat
  name : Str
  dir_end : dir.getLast? ≠ some '/'
  slash_notMem : '/' ∉ name

namespace Spelling

def str (x : Spelling) : Str := x.dir ++ '/' :: (List.replicate x.more '/' ++ x.name)

theorem str_ne_nil (x : Spelling) : x.str ≠ [] :=
  List.append_ne_nil_of_right_ne_nil _ (List.cons_ne_nil _ _)

theorem exists_str {p : Str} (h : '/' ∈ p) : ∃ x : Spelling, p = x.str := by
  induction p using List.reverseRecOn with
  | nil => cases h
  | append_singleton p c ih =>
    by_cases hc : c = '/'
    · subst hc
      by_cases hp : p.getLast? = some '/'
      · obtain ⟨x, rfl⟩ := ih (List.mem_of_mem_getLast? hp)
        have hname : x.name = [] := by
          cases hn : x.name using List.reverseRecOn with
          | nil => rfl
          | append_singleton n d =>
            have hx : x.str = x.dir ++ '/' :: (List.replicate x.more '/' ++ n) ++ [d] := by
              simp [str, hn]
            rw [hx, List.getLast?_concat] at hp
            cases hp
            exact absurd (hn ▸ List.mem_append_right n List.mem_cons_self) x.slash_notMem
        refine ⟨⟨x.dir, x.more + 1, [], x.dir_end, List.not_mem_nil⟩, ?_⟩
        simp [str, hname, List.replicate_succ']
      · exact ⟨⟨p, 0, [], hp, List.not_mem_nil⟩, rfl⟩
    · have hp : '/' ∈ p := by
        rcases List.mem_append.1 h with hp | hp
        · exact hp
        · exact absurd (List.mem_singleton.1 hp).symm hc
      obtain ⟨x, rfl⟩ := ih hp
      refine ⟨⟨x.dir, x.more, x.name ++ [c], x.dir_end, ?_⟩, ?_⟩
      · simp [x.slash_notMem, Ne.symm hc]
      · simp [str]

theorem tokens_str {split : Splitter} (h : split.Documented) (x : Spelling) :
    split '/' x.str = split '/' x.dir ++ [x.name] := by
  have hrun (k : Nat) : split '/' (x.dir ++ '/' :: (List.replicate k '/' ++ x.name)) =
      split '/' (x.dir ++ '/' :: x.name) := by
    induction k with
    | zero => rfl
    | succ k ih => rw [List.replicate_succ, List.cons_append, h.merge, ih]
  rw [str, hrun, h.concat x.slash_notMem x.dir_end]

end Spelling

/-- `//net` -/
def RootName (dir : Str) : Prop := ∃ net : Str, net ≠ [] ∧ '/' ∉ net ∧ dir = '/' :: '/' :: net

theorem RootName.ne_nil {dir : Str} (h : RootName dir) : dir ≠ [] := by
  obtain ⟨net, -, -, rfl⟩ := h
  exact List.cons_ne_nil _ _

/-- A path that came in a `char` array. -/
def CStr (path : Str) : Prop := '\x00' ∉ path

instance : DecidablePred CStr := fun path => inferInstanceAs (Decidable ('\x00' ∉ path))

namespace Library

/-- The documented behaviour of `boost::filesystem::path` on the paths with a last component, also
on those that are, or begin with, a root name such as `//net`. -/
structure Boost (lib : Library) : Prop where
  filename_ne_nil : ∀ {path}, CStr path → path ≠ [] → lib.filename path ≠ []
  root_name : ∀ {path}, CStr path → RootName path → lib.filename path = path
  filename : ∀ {x : Spelling}, CStr x.str → x.name ≠ [] → ¬ RootName x.str →
    lib.filename x.str = x.name
  parent_path : ∀ {x : Spelling}, CStr x.str → x.name ≠ [] → ¬ RootName x.str → x.dir ≠ [] →
    ¬ RootName x.dir → lib.parent_path x.str = x.dir
  root_directory : ∀ {x : Spelling}, CStr x.str → x.name ≠ [] → ¬ RootName x.str → x.dir = [] →
    lib.parent_path x.str = ['/']
  net : ∀ {x : Spelling}, CStr x.str → x.name ≠ [] → RootName x.dir →
    lib.parent_path x.str = x.dir ++ ['/']
  split : ∀ {path}, path ≠ [] → lib.split path = lib.tokens '/' path
  tokens : lib.tokens.Documented
  leftover : ∀ fl value, (lib.leftover fl value).length = fl.count value

end Library

namespace DMStore

variable {lib : Library} {kv : KVStore Str} {s s' : DMStore} {l : List Str} {u v k n : Str}

theorem follow_concat (kv : KVStore Str) (v : Str) (l : List Str) (n : Str) :
    follow kv v (l ++ [n]) = (follow kv v l).bind fun u => kv (key u n) := by
  induction l generalizing v with
  | nil =>
    simp only [List.nil_append, follow, KVStore.getValue, Option.bind_some]
    cases kv (key v n) <;> rfl
  | cons m l ih =>
    simp only [List.cons_append, follow, KVStore.getValue]
    cases kv (key v m) with
    | none => rfl
    | some w => exact ih w

theorem follow2_concat (kv : KVStore Str) (w v : Str) (l : List Str) (n : Str) :
    follow2 kv w v (l ++ [n]) =
      (follow kv v l).bind fun u => (kv (key u n)).map fun x => (u, x) := by
  induction l generalizing w v with
  | nil =>
    simp only [List.nil_append, follow2, follow, KVStore.getValue, Option.bind_some]
    cases kv (key v n) <;> rfl
  | cons m l ih =>
    simp only [List.cons_append, follow2, follow, KVStore.getValue]
    cases kv (key v m) with
    | none => rfl
    | some x => exact ih v x

theorem follow_of_insert (hk : kv k = none) (h : follow kv v l = some u) (x : Str) :
    follow (Function.update kv k (some x)) v l = some u := by
  refine follow_grows (fun k' w hk' => ?_) h
  have hne : k' ≠ k := by
    rintro rfl
    cases hk.symm.trans hk'
  rw [Function.update_of_ne hne]
  exact hk'

theorem uuid_of_erase {k' : Str} (h : Function.update kv k none k' = some v) : kv k' = some v := by
  rw [Function.update_apply] at h
  split at h
  · cases h
  · exact h

theorem follow_of_erase (h : follow (Function.update kv k none) v l = some u) :
    follow kv v l = some u :=
  follow_grows (fun _ _ => uuid_of_erase) h

/-- Every uuid that a key stands for has been handed out, or is that of the root. -/
def Counted (s : DMStore) : Prop := ∀ k v, s.uuid_store k = some v → Issued s.uuid_counter v

theorem Counted.follow (h : s.Counted) (hv : Issued s.uuid_counter v)
    (hf : follow s.uuid_store v l = some u) : Issued s.uuid_counter u := by
  induction l generalizing v with
  | nil =>
    cases hf
    exact hv
  | cons n l ih =>
    simp only [DMStore.follow, KVStore.getValue] at hf
    cases hn : s.uuid_store (key v n) with
    | none => simp [hn] at hf
    | some w =>
      rw [hn] at hf
      exact ih (h _ w hn) hf

theorem Counted.get_uuid (h : s.Counted) {path : Str} (hu : s.get_uuid lib path = some u) :
    Issued s.uuid_counter u := by
  rw [DMStore.get_uuid] at hu
  split at hu
  · cases hu
    exact issued_zero _
  · exact h.follow (issued_zero _) hu

theorem follow2_snd (kv : KVStore Str) (w v : Str) (l : List Str) :
    (follow2 kv w v l).map Prod.snd = follow kv v l := by
  induction l generalizing w v with
  | nil => rfl
  | cons n l ih =>
    simp only [follow2, DMStore.follow]
    cases kv.getValue (key v n) with
    | none => rfl
    | some x => exact ih v x

theorem get_2_uuid_snd (lib : Library) (s : DMStore) (path : Str) :
    (s.get_2_uuid lib path).map Prod.snd = s.get_uuid lib path := by
  rw [DMStore.get_2_uuid, DMStore.get_uuid]
  split
  · rfl
  · exact follow2_snd ..

def walked (lib : Library) (path : Str) : List Str :=
  if path = ['/'] then [] else (components lib path).drop 1

theorem get_uuid_eq (lib : Library) (s : DMStore) (path : Str) :
    s.get_uuid lib path = follow s.uuid_store ['0'] (walked lib path) := by
  rw [DMStore.get_uuid, walked]
  split <;> rfl

theorem get_2_uuid_eq (lib : Library) (s : DMStore) (path : Str) :
    s.get_2_uuid lib path = follow2 s.uuid_store ['0'] ['0'] (walked lib path) := by
  rw [DMStore.get_2_uuid, walked]
  split <;> rfl

theorem follow2_fst (h : follow2 kv v v l = some (u, n)) : follow kv v l.dropLast = some u := by
  cases l using List.reverseRecOn with
  | nil =>
    cases h
    rfl
  | append_singleton l m =>
    rw [follow2_concat] at h
    obtain ⟨w, hw, hm⟩ := Option.bind_eq_some_iff.1 h
    obtain ⟨_, -, he⟩ := Option.map_eq_some_iff.1 hm
    cases he
    rw [List.dropLast_concat]
    exact hw

theorem walked_parent (hlib : lib.Documented) (p : Path) (n : Name) :
    (walked lib (Path.str (p ++ [n]))).dropLast = walked lib p.str := by
  obtain ⟨m, q, hq⟩ : ∃ m q, p ++ [n] = m :: q := List.exists_cons_of_ne_nil (by simp)
  rw [walked, if_neg (Path.str_concat_ne_root p n), hq, components_str hlib, ← hq, List.map_append,
    List.map_singleton, List.dropLast_concat]
  cases p with
  | nil => rfl
  | cons m p =>
    have hroot : Path.str (m :: p) ≠ ['/'] := fun h => List.cons_ne_nil m p (Path.str_eq_root.1 h)
    rw [walked, if_neg hroot, components_str hlib]

/-- The two walks succeed for the same paths, with the same uuid, and the parent of `get_2_uuid`
is where the walk is before its last component. -/
theorem walks_agree (lib : Library) (s : DMStore) (path : Str) :
    ((s.get_2_uuid lib path).isSome ↔ (s.get_uuid lib path).isSome) ∧
    ∀ puuid uuid, s.get_2_uuid lib path = some (puuid, uuid) →
      s.get_uuid lib path = some uuid ∧
      follow s.uuid_store ['0'] (walked lib path).dropLast = some puuid ∧
      ((walked lib path).length ≤ 1 → puuid = ['0']) ∧
      (lib.Documented → ∀ (p : Path) (n : Name), path = Path.str (p ++ [n]) →
        s.get_uuid lib p.str = some puuid) := by
  constructor
  · rw [← get_2_uuid_snd, Option.isSome_map]
  · intro puuid uuid h
    have huuid : s.get_uuid lib path = some uuid := by
      rw [← get_2_uuid_snd, h]
      rfl
    have hparent : follow s.uuid_store ['0'] (walked lib path).dropLast = some puuid := by
      rw [get_2_uuid_eq] at h
      exact follow2_fst h
    refine ⟨huuid, hparent, fun hlength => ?_, ?_⟩
    · have hnil : (walked lib path).dropLast = [] := by
        apply List.eq_nil_of_length_eq_zero
        rw [List.length_dropLast]
        omega
      rw [hnil] at hparent
      cases hparent
      rfl
    · rintro hlib p n rfl
      rw [get_uuid_eq, ← walked_parent hlib p n]
      exact hparent

def nested : DMStore :=
  ⟨fun _ => none, Function.update (Function.update (fun _ => none) ['0', ':', 'a'] (some ['1']))
    ['1', ':', 'b'] (some ['2']), fun _ => none, 2⟩

theorem walks_agree_nested : nested.get_2_uuid Library.posix ['/', 'a', '/', 'b'] =
      some (['1'], ['2']) ∧
    nested.get_uuid Library.posix ['/', 'a', '/', 'b'] = some ['2'] ∧
    nested.get_uuid Library.posix ['/', 'a'] = some ['1'] := by
  have hget : nested.get_2_uuid Library.posix ['/', 'a', '/', 'b'] = some (['1'], ['2']) := by
    decide
  obtain ⟨huuid, -, -, hparent⟩ := (walks_agree Library.posix nested _).2 _ _ hget
  exact ⟨hget, huuid, hparent Library.posix_documented [⟨['a'], by decide, by decide, by decide⟩]
    ⟨['b'], by decide, by decide, by decide⟩ rfl⟩

theorem Counted.get_2_uuid (h : s.Counted) {path : Str}
    (hu : s.get_2_uuid lib path = some (v, u)) : Issued s.uuid_counter u := by
  have hget : s.get_uuid lib path = some u := by
    rw [← get_2_uuid_snd, hu]
    rfl
  exact h.get_uuid hget

section Walks

variable {x : Spelling}

/-- What `get_uuid` finds for the part of a path before the last slashes. -/
def dirUuid (lib : Library) (kv : KVStore Str) (x : Spelling) : Option Str :=
  follow kv ['0'] ((lib.tokens '/' x.dir).drop 1)

theorem components_spelling (hlib : lib.Boost) (x : Spelling) :
    (components lib x.str).drop 1 = (lib.tokens '/' x.dir).drop 1 ++ [x.name] := by
  have hlength : x.str.length ≠ 0 := fun h => x.str_ne_nil (List.eq_nil_of_length_eq_zero h)
  rw [components, if_pos hlength, hlib.split x.str_ne_nil, x.tokens_str hlib.tokens]
  cases ht : lib.tokens '/' x.dir with
  | nil => exact absurd ht (hlib.tokens.ne_nil _ _)
  | cons t l => rfl

theorem get_uuid_spelling (hlib : lib.Boost) (hx : x.str ≠ ['/']) :
    s.get_uuid lib x.str =
      (dirUuid lib s.uuid_store x).bind fun u => s.uuid_store (key u x.name) := by
  rw [get_uuid, if_neg hx, components_spelling hlib, follow_concat, dirUuid]

theorem get_2_uuid_spelling (hlib : lib.Boost) (hx : x.str ≠ ['/']) :
    s.get_2_uuid lib x.str = (dirUuid lib s.uuid_store x).bind fun u =>
      (s.uuid_store (key u x.name)).map fun v => (u, v) := by
  rw [get_2_uuid, if_neg hx, components_spelling hlib, follow2_concat, dirUuid]

theorem get_uuid_dir (hlib : lib.Boost) (hx : x.dir ≠ []) :
    s.get_uuid lib x.dir = dirUuid lib s.uuid_store x := by
  have hroot : x.dir ≠ ['/'] := by
    intro he
    exact x.dir_end (by rw [he]; rfl)
  have hlength : x.dir.length ≠ 0 := fun h => hx (List.eq_nil_of_length_eq_zero h)
  rw [get_uuid, if_neg hroot, components, if_pos hlength, hlib.split hx, dirUuid]

theorem dirUuid_root (hlib : lib.Boost) (hx : x.dir = []) :
    dirUuid lib kv x = some ['0'] := by
  rw [dirUuid, hx, hlib.tokens.single List.not_mem_nil]
  rfl

end Walks

/-- Boost and the split walk take the path apart in the same way; in front of `//net` that depends
on what the empty name stands for in the directory `net`. -/
structure WellSpelled (lib : Library) (s : DMStore) (x : Spelling) : Prop where
  name : x.name ≠ []
  root : ¬ RootName x.str
  net : RootName x.dir → s.get_uuid lib (x.dir ++ ['/']) = s.get_uuid lib x.dir

theorem WellSpelled.parent (hlib : lib.Boost) {x : Spelling} (hx : WellSpelled lib s x)
    (hc : CStr x.str) : s.get_uuid lib (lib.parent_path x.str) = dirUuid lib s.uuid_store x := by
  by_cases hnet : RootName x.dir
  · rw [hlib.net hc hx.name hnet, hx.net hnet, get_uuid_dir hlib hnet.ne_nil]
  · by_cases hdir : x.dir = []
    · rw [hlib.root_directory hc hx.name hx.root hdir, dirUuid_root hlib hdir]
      rfl
    · rw [hlib.parent_path hc hx.name hx.root hdir hnet, get_uuid_dir hlib hdir]

section Mkdir

variable {p : Str} {ok : Nat → Bool} {di : DirectoryInode} {time : Int}

theorem mkdir_eq_zero (hp : p ≠ ['/']) (h : (s.mkdir lib ok p di time).1 = 0) :
    ∃ u inode, s.get_uuid lib (lib.parent_path p) = some u ∧
      s.uuid_store (key u (lib.filename p)) = none ∧
      (s.mkdir lib ok p di time).2 = s.made u (lib.filename p) inode := by
  have hparent : ({ s with uuid_counter := s.uuid_counter + 1 } : DMStore).get_uuid lib
      (lib.parent_path p) = s.get_uuid lib (lib.parent_path p) := rfl
  simp only [mkdir, mkdirKey, if_neg hp, hparent, KVStore.getValue] at h ⊢
  cases hu : s.get_uuid lib (lib.parent_path p) with
  | none => simp [hu] at h
  | some u =>
    simp only [hu, Option.map_some] at h ⊢
    cases hk : s.uuid_store (key u (lib.filename p)) with
    | some v => simp [hk] at h
    | none =>
      simp only [hk, Option.isSome_none, Bool.false_eq_true, ↓reduceIte, KVStore.setValue,
        setValue] at h ⊢
      cases hok : ok 0 with
      | false => simp [hok] at h
      | true =>
        cases hok' : ok 1 with
        | false => simp [hok, hok'] at h
        | true => exact ⟨u, _, rfl, hk, rfl⟩

end Mkdir

section Steps

variable {p : Str} {ok : Nat → Bool} {di dii : DirectoryInode} {time : Int}

/-- No value is new but those of `P`. -/
def Adds (s s' : DMStore) (P : Str → Prop) : Prop :=
  ∀ k v, s'.uuid_store k = some v → s.uuid_store k = some v ∨ P v

theorem Adds.refl (s : DMStore) (P : Str → Prop) : Adds s s P := fun _ _ hk => .inl hk

theorem adds_mkdir (s : DMStore) : (s.mkdir lib ok p di time).2.uuid_counter = s.uuid_counter + 1 ∧
    Adds s (s.mkdir lib ok p di time).2 (· = s.next) := by
  have hnew (k k' v : Str) (hk : Function.update s.uuid_store k (some s.next) k' = some v) :
      s.uuid_store k' = some v ∨ v = s.next := by
    rw [Function.update_apply] at hk
    split at hk
    · exact .inr (Option.some.inj hk).symm
    · exact .inl hk
  simp only [mkdir, setValue, KVStore.setValue]
  split
  case h_1 => exact ⟨rfl, Adds.refl s _⟩
  case h_2 u k _ =>
    split
    case isTrue => exact ⟨rfl, Adds.refl s _⟩
    case isFalse =>
      cases ok 0
      case false => exact ⟨rfl, Adds.refl s _⟩
      case true =>
        cases ok 1
        case false => exact ⟨rfl, hnew k⟩
        case true =>
          by_cases hp : p = ['/']
          · simp only [↓reduceIte, Option.map_some, hp, true_and]
            exact hnew k
          · simp only [↓reduceIte, Option.map_some, hp, true_and]
            exact hnew k

theorem getD_setValue (ok : Bool) (s : DMStore) (u : Str) (di : DirectoryInode) :
    ((s.setValue ok u di).getD s).uuid_counter = s.uuid_counter ∧
      ((s.setValue ok u di).getD s).uuid_store = s.uuid_store := by
  cases ok <;> exact ⟨rfl, rfl⟩

theorem remove_uuid {kv kv' : KVStore Str} {ok : Bool} (h : kv.remove ok k = some kv') :
    ∀ k' v, kv' k' = some v → kv k' = some v := by
  intro k' v hk
  obtain ⟨-, he⟩ := Option.ite_none_right_eq_some.1 h
  cases he
  exact uuid_of_erase hk

theorem adds_rmdir {r : Int} (h : s.rmdir lib ok p = some (r, s')) :
    s'.uuid_counter = s.uuid_counter ∧ Adds s s' fun _ => False := by
  have hsame {r r' : Int} (h : some (r, s) = some (r', s')) :
      s'.uuid_counter = s.uuid_counter ∧ Adds s s' fun _ => False := by
    cases h
    exact ⟨rfl, Adds.refl s _⟩
  simp only [rmdir] at h
  split at h
  · exact hsame h
  · split at h
    · exact hsame h
    · split at h
      · exact hsame h
      · split at h
        · cases h
          exact ⟨rfl, Adds.refl s _⟩
        · next uuid_store hremove =>
          obtain ⟨ec, -, he⟩ := Option.map_eq_some_iff.1 h
          cases he
          exact ⟨rfl, fun k v hk => .inl (remove_uuid hremove k v hk)⟩

theorem adds_rename {old_path new_path : Str} {r : Int}
    (h : s.rename lib ok old_path new_path dii time = some (r, s')) :
    s'.uuid_counter = s.uuid_counter ∧
      Adds s s' fun v => ∃ u, s.get_2_uuid lib old_path = some (u, v) := by
  simp only [rename] at h
  split at h
  case h_1 =>
    cases h
    exact ⟨rfl, Adds.refl s _⟩
  case h_2 u v hu =>
    split at h
    case h_1 =>
      cases h
      exact ⟨rfl, Adds.refl s _⟩
    case h_2 uuid_store hremove =>
      split at h
      case h_1 =>
        cases h
        exact ⟨rfl, fun k v hk => .inl (remove_uuid hremove k v hk)⟩
      case h_2 uuid_store' hset =>
        obtain ⟨ec, -, he⟩ := Option.map_eq_some_iff.1 h
        cases he
        obtain ⟨hcount, huuid⟩ := getD_setValue (ok 2) { s with uuid_store := uuid_store' } v
          { ((DMStore.getValue { s with uuid_store := uuid_store' } v dii).getD dii) with
            status := RENAMED, ctime := time }
        refine ⟨hcount, fun k w hk => ?_⟩
        obtain ⟨-, he⟩ := Option.ite_none_right_eq_some.1 hset
        simp only [huuid] at hk
        cases he
        rw [Function.update_apply] at hk
        split at hk
        · cases hk
          exact .inr ⟨u, hu⟩
        · exact .inl (remove_uuid hremove k w hk)

end Steps

/-- The directory that a `mkdir` made under the path is the one that `get_uuid` and `rmdir` find
there. -/
def Agrees (lib : Library) (s s' : DMStore) (path : Str) : Prop :=
  s'.get_uuid lib path = some s.next ∧
    ∃ s'', s'.rmdir lib always path = some (0, s'') ∧ s''.get_uuid lib path = none

theorem WellSpelled.agrees (hlib : lib.Boost) {x : Spelling} (hx : WellSpelled lib s x)
    (hc : CStr x.str) {ok : Nat → Bool} {di : DirectoryInode} {time : Int}
    (h : (s.mkdir lib ok x.str di time).1 = 0) :
    Agrees lib s (s.mkdir lib ok x.str di time).2 x.str := by
  have hroot : x.str ≠ ['/'] := by
    intro he
    have hlength := congrArg List.length he
    have hpos := List.length_pos_of_ne_nil hx.name
    simp only [Spelling.str, List.length_append, List.length_cons, List.length_nil] at hlength
    omega
  obtain ⟨u, inode, hu, hk, he⟩ := mkdir_eq_zero hroot h
  rw [hx.parent hlib hc] at hu
  rw [hlib.filename hc hx.name hx.root] at hk he
  have hdir : dirUuid lib (s.made u x.name inode).uuid_store x = some u := follow_of_insert hk hu _
  have hkey : (s.made u x.name inode).uuid_store (key u x.name) = some s.next :=
    Function.update_self ..
  rw [he]
  constructor
  · rw [get_uuid_spelling hlib hroot, hdir]
    exact hkey
  · have hget : (s.made u x.name inode).get_2_uuid lib x.str = some (u, s.next) := by
      rw [get_2_uuid_spelling hlib hroot, hdir, Option.bind_some, hkey]
      rfl
    have hinode : (s.made u x.name inode).dm_store s.next = some inode := Function.update_self ..
    obtain ⟨ec, hec⟩ := EntryList.remove_entry_of_mem (hlib.leftover _ _)
      (@EntryList.mem_insert_entry_self s.ec_store u x.name)
    refine ⟨(s.made u x.name inode).unmade u x.name s.next ec, ?_, ?_⟩
    · simp only [rmdir, if_neg hroot, hget, hlib.filename hc hx.name hx.root, always,
        KVStore.remove_true_of_some hinode, KVStore.remove_true_of_some hkey]
      rw [show (s.made u x.name inode).ec_store = s.ec_store.insert_entry u x.name from rfl, hec]
      rfl
    · rw [get_uuid_spelling hlib hroot]
      cases hv : dirUuid lib ((s.made u x.name inode).unmade u x.name s.next ec).uuid_store x with
      | none => rfl
      | some v =>
        cases (follow_of_erase hv).symm.trans hdir
        exact Function.update_self ..

theorem get_uuid_file (hlib : lib.Boost) {p : Str} (hp : '/' ∉ p) :
    s.get_uuid lib p = some ['0'] := by
  have hroot : p ≠ ['/'] := by
    rintro rfl
    exact hp List.mem_cons_self
  rw [get_uuid, if_neg hroot, components]
  split
  · next hlength =>
    have hne : p ≠ [] := fun he => hlength (congrArg List.length he)
    rw [hlib.split hne, hlib.tokens.single hp]
    rfl
  · rfl

theorem Counted.mkdir (h : s.Counted) (hc : s.uuid_counter.toNat + 1 < 2 ^ 64)
    (ok : Nat → Bool) (p : Str) (di : DirectoryInode) (time : Int) :
    (s.mkdir lib ok p di time).2.Counted := by
  obtain ⟨hcount, hadds⟩ := @adds_mkdir lib p ok di time s
  intro k v hk
  rw [hcount]
  rcases hadds k v hk with hold | rfl
  · exact (h k v hold).mono (BitVec.le_of_lt (lt_succ_of_toNat hc))
  · exact ⟨_, BitVec.le_refl _, rfl⟩

/-- Where `get_uuid` comes to the new directory, Boost has taken the path apart as it does. -/
theorem Counted.wellSpelled (hlib : lib.Boost) (h : s.Counted)
    (hcount : s.uuid_counter.toNat + 1 < 2 ^ 64) {p : Str} (hc : CStr p) (hp : p ≠ ['/'])
    {ok : Nat → Bool} {di : DirectoryInode} {time : Int} (hz : (s.mkdir lib ok p di time).1 = 0)
    (hnext : (s.mkdir lib ok p di time).2.get_uuid lib p = some s.next) :
    ∃ x : Spelling, p = x.str ∧ WellSpelled lib s x := by
  have hnew : ¬ Issued s.uuid_counter s.next := not_issued_succ hcount
  have h' := @Counted.mkdir lib s h hcount ok p di time
  obtain ⟨u, inode, hu, hk, he⟩ := mkdir_eq_zero hp hz
  have hissued := h.get_uuid hu
  rw [he] at h' hnext
  by_cases hslash : '/' ∈ p
  · obtain ⟨x, rfl⟩ := Spelling.exists_str hslash
    rw [get_uuid_spelling hlib hp] at hnext
    obtain ⟨w, hw, hkey⟩ := Option.bind_eq_some_iff.1 hnext
    have hsame : key w x.name = key u (lib.filename x.str) := by
      obtain ⟨he, -⟩ | ⟨-, hold⟩ := made_cases hkey
      · exact he
      · exact absurd (h _ _ hold) hnew
    have hwcolon : ':' ∉ w := (h'.follow (issued_zero _) hw).colon_notMem
    obtain ⟨rfl, hname⟩ := (key_inj hwcolon hissued.colon_notMem).1 hsame
    refine ⟨x, rfl, ?_, ?_, ?_⟩
    case refine_1 =>
      rw [hname]
      exact hlib.filename_ne_nil hc x.str_ne_nil
    case refine_2 =>
      intro hroot
      rw [hlib.root_name hc hroot] at hname
      have hlength := congrArg List.length hname
      simp only [Spelling.str, List.length_append, List.length_cons] at hlength
      omega
    case refine_3 =>
      intro hnet
      rw [hlib.net hc (hname ▸ hlib.filename_ne_nil hc x.str_ne_nil) hnet] at hu
      rw [hu, get_uuid_dir hlib hnet.ne_nil]
      obtain ⟨net, hne, hns, hdir⟩ := hnet
      have htokens : (lib.tokens '/' x.dir).drop 1 = [net] := by
        have hpair : lib.tokens '/' ('/' :: '/' :: net) = [[], net] :=
          (hlib.tokens.merge (t := [])).trans (hlib.tokens.pair List.not_mem_nil hns)
        rw [hdir, hpair]
        rfl
      have hdirUuid (kv : KVStore Str) : dirUuid lib kv x = kv (key ['0'] net) := by
        rw [dirUuid, htokens]
        exact (follow_concat kv ['0'] [] net).trans rfl
      rw [hdirUuid] at hw ⊢
      obtain ⟨-, he⟩ | ⟨-, hold⟩ := made_cases hw
      · exact absurd (he ▸ hissued) hnew
      · exact hold.symm
  · rw [get_uuid_file hlib hslash] at hnext
    exact absurd (Option.some.inj hnext ▸ issued_zero _) hnew

end DMStore

/-- A call of the directory store, with any strings for the paths, with the outcomes of its updates,
the clock reading and the uninitialised inodes that it uses. -/
inductive PathCall where
  | mkdir (ok : Nat → Bool) (path : Str) (di : DirectoryInode) (time : Int)
  | rmdir (ok : Nat → Bool) (path : Str)
  | rename (ok : Nat → Bool) (old_path new_path : Str) (dii : DirectoryInode) (time : Int)
  | access (path : Str) (dii : DirectoryInode)
  | opendir (path : Str) (dii : DirectoryInode)
  | chown (ok : Nat → Bool) (path : Str) (di dii : DirectoryInode) (time : Int)
  | chmod (ok : Nat → Bool) (path : Str) (di dii : DirectoryInode) (time : Int)
  | getAttr (ok : Nat → Bool) (_return : DirectoryInode) (path : Str) (time : Int)
  | readdir (path : Str)

namespace PathCall

def isMkdir : PathCall → Bool
  | .mkdir .. => true
  | _ => false

/-- The store after a call; `none` is undefined behaviour. -/
def run (lib : Library) (s : DMStore) : PathCall → Option DMStore
  | .mkdir ok path di time => some (s.mkdir lib ok path di time).2
  | .rmdir ok path => (s.rmdir lib ok path).map Prod.snd
  | .rename ok old_path new_path dii time =>
    (s.rename lib ok old_path new_path dii time).map Prod.snd
  | .access _ _ => some s
  | .opendir _ _ => some s
  | .chown ok path di dii time => some (s.chown lib ok path di dii time).2
  | .chmod ok path di dii time => some (s.chmod lib ok path di dii time).2
  | .getAttr ok _return path time => some (s.getAttr lib ok _return path time).2
  | .readdir _ => some s

def system (lib : Library) : System DMStore PathCall where
  init s := ∃ dii time, s = DMServer.start lib dii time
  step s call s' := run lib s call = some s'

end PathCall

namespace DMStore

variable {lib : Library} {s s' : DMStore}

theorem start_counted (lib : Library) (dii : DirectoryInode) (time : Int) :
    (DMServer.start lib dii time).Counted := by
  refine Counted.mkdir (fun k v hk => ?_) (by decide) always ['/'] _ time
  cases hk

theorem Counted.same (h : s.Counted)
    (hs : s'.uuid_counter = s.uuid_counter ∧ s'.uuid_store = s.uuid_store) :
    s'.Counted ∧ s'.uuid_counter = s.uuid_counter := by
  obtain ⟨hcount, huuid⟩ := hs
  refine ⟨fun k v hk => ?_, hcount⟩
  rw [huuid] at hk
  rw [hcount]
  exact h k v hk

theorem Counted.step (h : s.Counted) {call : PathCall}
    (hc : call.isMkdir → s.uuid_counter.toNat + 1 < 2 ^ 64) (hs : call.run lib s = some s') :
    s'.Counted ∧
      s'.uuid_counter = if call.isMkdir then s.uuid_counter + 1 else s.uuid_counter := by
  cases call with
  | mkdir ok path di time =>
    cases hs
    exact ⟨h.mkdir (hc rfl) ok path di time, adds_mkdir s |>.1⟩
  | rmdir ok path =>
    obtain ⟨⟨r, s''⟩, hr, rfl⟩ := Option.map_eq_some_iff.1 hs
    obtain ⟨hcount, hadds⟩ := adds_rmdir hr
    refine ⟨fun k v hk => ?_, hcount⟩
    rw [hcount]
    exact h k v ((hadds k v hk).resolve_right id)
  | rename ok old_path new_path dii time =>
    obtain ⟨⟨r, s''⟩, hr, rfl⟩ := Option.map_eq_some_iff.1 hs
    obtain ⟨hcount, hadds⟩ := adds_rename hr
    refine ⟨fun k v hk => ?_, hcount⟩
    rw [hcount]
    rcases hadds k v hk with hold | ⟨u, hu⟩
    · exact h k v hold
    · exact h.get_2_uuid hu
  | access path dii =>
    cases hs
    exact ⟨h, rfl⟩
  | opendir path dii =>
    cases hs
    exact ⟨h, rfl⟩
  | chown ok path di dii time =>
    cases hs
    apply h.same
    simp only [chown]
    split
    · exact ⟨rfl, rfl⟩
    · exact getD_setValue ..
  | chmod ok path di dii time =>
    cases hs
    apply h.same
    simp only [chmod]
    split
    · exact ⟨rfl, rfl⟩
    · exact getD_setValue ..
  | getAttr ok _return path time =>
    cases hs
    apply h.same
    simp only [getAttr]
    split
    · exact ⟨rfl, rfl⟩
    · exact getD_setValue ..
  | readdir path =>
    cases hs
    exact ⟨h, rfl⟩

/-- A `mkdir` makes the directory that `get_uuid` and `rmdir` find under the path exactly if the
path is spelled well; the number must be new. -/
theorem agrees_iff (hlib : lib.Boost) {w : List PathCall} (h : (PathCall.system lib).Run w s)
    {p : Str} (hc : CStr p) (hp : p ≠ ['/']) {ok : Nat → Bool} {di : DirectoryInode} {time : Int}
    (hz : (s.mkdir lib ok p di time).1 = 0) :
    ((∃ x : Spelling, p = x.str ∧ WellSpelled lib s x) →
      Agrees lib s (s.mkdir lib ok p di time).2 p) ∧
    (w.countP PathCall.isMkdir + 1 < 2 ^ 64 - 1 →
      Agrees lib s (s.mkdir lib ok p di time).2 p →
        ∃ x : Spelling, p = x.str ∧ WellSpelled lib s x) := by
  constructor
  · rintro ⟨x, rfl, hx⟩
    exact hx.agrees hlib hc hz
  · intro hw hagrees
    obtain ⟨hcounted, hcount⟩ : s.Counted ∧
        s.uuid_counter.toNat = w.countP PathCall.isMkdir + 1 := by
      refine DMServer.reachable_counted PathCall.isMkdir ?_ ?_ h (by omega)
      · rintro s ⟨dii, time, rfl⟩
        exact ⟨start_counted lib dii time, rfl⟩
      · intro s call s' hs hc hstep
        exact hs.step hc hstep
    exact hcounted.wellSpelled hlib (by omega) hc hp hz hagrees.1

end DMStore

section Boost

instance : DecidablePred RootName := fun dir =>
  decidable_of_iff (dir.take 2 = ['/', '/'] ∧ dir.drop 2 ≠ [] ∧ '/' ∉ dir.drop 2) <| by
    constructor
    · rintro ⟨htake, hne, hns⟩
      exact ⟨dir.drop 2, hne, hns, (List.take_append_drop 2 dir).symm.trans (by rw [htake]; rfl)⟩
    · rintro ⟨net, hne, hns, rfl⟩
      exact ⟨rfl, hne, hns⟩

namespace Library

def lastName (path : Str) : Str := path.rtakeWhile (· ≠ '/')

/-- What stands before the last run of slashes. -/
def lastDir (path : Str) : Str := (path.rdropWhile (· ≠ '/')).rdropWhile (· = '/')

def boost : Library where
  filename path :=
    if RootName path then path
    else if lastName path ≠ [] ∨ path = [] then lastName path
    else if lastDir path = [] then ['/'] else ['.']
  parent_path path :=
    if '/' ∉ path ∨ RootName path then []
    else if lastDir path = [] then ['/']
    else if RootName (lastDir path) then lastDir path ++ ['/'] else lastDir path
  split path := Splitter.runs '/' path
  tokens := Splitter.runs
  join fl sep := sep.intercalate fl
  leftover fl value := List.replicate (fl.count value) value

theorem str_eq (x : Spelling) :
    x.str = x.dir ++ List.replicate (x.more + 1) '/' ++ x.name := by
  rw [Spelling.str, List.replicate_succ, List.append_assoc, List.cons_append]

theorem ne_slash_of_mem_name (x : Spelling) : ∀ c ∈ x.name.reverse, decide (c ≠ '/') = true := by
  intro c hc
  refine decide_eq_true fun he => x.slash_notMem ?_
  exact he ▸ List.mem_reverse.1 hc

theorem lastName_str (x : Spelling) : lastName x.str = x.name := by
  rw [str_eq, List.replicate_succ', ← List.append_assoc, lastName, List.rtakeWhile,
    List.reverse_append, List.takeWhile_append_of_pos (ne_slash_of_mem_name x), List.reverse_append]
  simp

theorem lastDir_str (x : Spelling) : lastDir x.str = x.dir := by
  have hslashes : ∀ c ∈ (List.replicate (x.more + 1) '/').reverse, decide (c = '/') = true := by
    intro c hc
    exact decide_eq_true (List.eq_of_mem_replicate (List.mem_reverse.1 hc))
  have hfirst : x.str.rdropWhile (· ≠ '/') = x.dir ++ List.replicate (x.more + 1) '/' := by
    rw [str_eq, List.rdropWhile, List.reverse_append,
      List.dropWhile_append_of_pos (ne_slash_of_mem_name x), List.replicate_succ',
      ← List.append_assoc, List.reverse_append]
    simp
  rw [lastDir, hfirst, List.rdropWhile, List.reverse_append, List.dropWhile_append_of_pos hslashes]
  refine List.rdropWhile_eq_self_iff.2 fun hne hlast => x.dir_end ?_
  rw [List.getLast?_eq_some_getLast hne, of_decide_eq_true hlast]

theorem slash_mem_str (x : Spelling) : '/' ∈ x.str :=
  List.mem_append_right _ List.mem_cons_self

theorem not_rootName_str {x : Spelling} (h : RootName x.dir) : ¬ RootName x.str := by
  rintro ⟨net', -, hns, he⟩
  obtain ⟨net, -, -, hdir⟩ := h
  rw [Spelling.str, hdir] at he
  obtain rfl := (List.cons.inj (List.cons.inj he).2).2
  exact hns (List.mem_append_right _ List.mem_cons_self)

theorem boost_parent_path (x : Spelling) (hroot : ¬ RootName x.str) : boost.parent_path x.str =
    if x.dir = [] then ['/'] else if RootName x.dir then x.dir ++ ['/'] else x.dir := by
  have hnot : ¬ ('/' ∉ x.str ∨ RootName x.str) :=
    not_or.2 ⟨not_not.2 (slash_mem_str x), hroot⟩
  simp only [boost, if_neg hnot, lastDir_str]

theorem boost_boost : boost.Boost where
  filename_ne_nil {path} _ hpath := by
    simp only [boost]
    split
    · exact hpath
    · split
      case isTrue h => exact h.resolve_right hpath
      case isFalse => split <;> exact List.cons_ne_nil _ _
  root_name _ hroot := if_pos hroot
  filename {x} _ hname hroot := by
    simp only [boost, if_neg hroot, lastName_str]
    exact if_pos (.inl hname)
  parent_path {x} _ _ hroot hdir hnet := by
    rw [boost_parent_path x hroot, if_neg hdir, if_neg hnet]
  root_directory {x} _ _ hroot hdir := by
    rw [boost_parent_path x hroot, if_pos hdir]
  net {x} _ _ hnet := by
    rw [boost_parent_path x (not_rootName_str hnet), if_neg hnet.ne_nil, if_pos hnet]
  split _ := rfl
  tokens := Splitter.runs_documented
  leftover fl value := List.length_replicate

end Library

namespace DMStore

open Library

def someInode : DirectoryInode := ⟨0, 0, 0, 0, 0, [], 0, 0⟩

theorem agrees_iff_a : Agrees boost (DMServer.start boost someInode 0)
    ((DMServer.start boost someInode 0).mkdir boost always ['/', 'a'] someInode 0).2 ['/', 'a'] :=
  (agrees_iff (s := DMServer.start boost someInode 0) (p := ['/', 'a']) (w := []) boost_boost
    (.nil ⟨someInode, 0, rfl⟩) (by decide) (by decide) rfl).1
      ⟨⟨[], 0, ['a'], by decide, by decide⟩, rfl, by decide, by decide, by decide⟩

/-- `mkdir("a")` makes a directory under the key `0:a`, but `get_uuid("a")` is that of the root. -/
theorem relative_path_lost : ¬ ∀ (w : List PathCall) (s : DMStore),
    (PathCall.system boost).Run w s → ∀ p, CStr p → p ≠ ['/'] → ∀ ok di time,
      (s.mkdir boost ok p di time).1 = 0 → Agrees boost s (s.mkdir boost ok p di time).2 p := by
  intro h
  have ha :=
    (h [] _ (.nil ⟨someInode, 0, rfl⟩) ['a'] (by decide) (by decide) always someInode 0 rfl).1
  exact absurd ha (by decide)

end DMStore

end Boost

end Galois
