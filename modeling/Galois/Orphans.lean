import Galois.Directory

namespace Galois
set_option autoImplicit true
set_option relaxedAutoImplicit false

namespace DMStore

variable {lib : Library} {s s' : DMStore} {p : Path} {n : Name} {u v w k : Str}

/-- No directory is kept under the uuid. -/
def Childless (s : DMStore) (u : Str) : Prop := ∀ n, s.uuid_store (key u n) = none

/-- Some path leads to every directory. -/
def NoOrphans (lib : Library) (s : DMStore) : Prop :=
  ∀ k v, k ≠ ['/'] → s.uuid_store k = some v → ∃ p : Path, s.get_uuid lib p.str = some v

/-- Every key but that of the root belongs to a name in a directory that a path leads to. -/
structure Attached (s : DMStore) : Prop where
  plain : Plain s.uuid_store
  parent : ∀ {k v}, s.uuid_store k = some v → k = ['/'] ∨ ∃ p u, ∃ n : Name,
    (links s.uuid_store).walk ['0'] p = some u ∧ k = key u n.chars

theorem Attached.noOrphans (h : s.Attached) (hlib : lib.Documented) : s.NoOrphans lib := by
  intro k v hroot hk
  obtain ⟨p, u, n, hp, rfl⟩ := (h.parent hk).resolve_left hroot
  have hu := plain_walk h.plain colon_notMem_zero hp
  refine ⟨p ++ [n], ?_⟩
  rw [get_uuid_str hlib h.plain, Links.walk_concat, hp, Option.bind_some, links_of_plain hu, hk]

theorem Attached.made (h : s.Attached) (hp : (links s.uuid_store).walk ['0'] p = some u)
    (hn : s.uuid_store (key u n.chars) = none) (inode : DirectoryInode) :
    (s.made u n.chars inode).Attached := by
  have hu := plain_walk h.plain colon_notMem_zero hp
  have hlinks : links (s.made u n.chars inode).uuid_store =
      (links s.uuid_store).link u n s.next := links_update hu n _
  have hfree : links s.uuid_store u n = none := (links_of_plain hu).trans hn
  constructor
  case plain => exact h.plain.update (colon_notMem_to_string _) _
  case parent =>
    intro k v hk
    rw [hlinks]
    simp only [DMStore.made, Function.update_apply] at hk
    split at hk
    · rename_i he
      exact .inr ⟨p, u, n, Links.walk_link_of_some hfree hp, he⟩
    · cases h.parent hk with
      | inl hroot => exact .inl hroot
      | inr hparent =>
        obtain ⟨q, w, m, hq, he⟩ := hparent
        exact .inr ⟨q, w, m, Links.walk_link_of_some hfree hq, he⟩

theorem Attached.unmade (h : s.Attached) (hu : ':' ∉ u)
    (hn : s.uuid_store (key u n.chars) = some v) (hv : s.Childless v) (ec : EntryList) :
    (s.unmade u n.chars v ec).Attached := by
  have hlinks : links (s.unmade u n.chars v ec).uuid_store =
      (links s.uuid_store).unlink u n := links_update hu n _
  have hleaf m : links s.uuid_store v m = none := by
    rw [links_of_plain (h.plain _ v hn)]
    exact hv m.chars
  have hedge : links s.uuid_store u n = some v := (links_of_plain hu).trans hn
  constructor
  case plain => exact h.plain.erase _
  case parent =>
    intro k w hk
    rw [hlinks]
    simp only [DMStore.unmade, Function.update_apply] at hk
    split at hk
    · cases hk
    · cases h.parent hk with
      | inl hroot => exact .inl hroot
      | inr hparent =>
        obtain ⟨q, x, m, hq, rfl⟩ := hparent
        have hx : x ≠ v := by
          rintro rfl
          rw [hv m.chars] at hk
          cases hk
        exact .inr ⟨q, x, m, Links.walk_unlink_of_leaf hedge hleaf hx hq, rfl⟩

theorem mkdir_attached (hlib : lib.Documented) (h : s.Attached)
    (hroot : (s.uuid_store ['/']).isSome) (p : Path) (di : DirectoryInode) (time : Int) :
    (s.mkdir lib always p.str di time).2.Attached ∧
      ((s.mkdir lib always p.str di time).2.uuid_store ['/']).isSome := by
  obtain ⟨he, -⟩ | ⟨q, u, n, -, hq, -, hn, he⟩ := mkdir_cases hlib h.plain hroot p di time
  · rw [he]
    exact ⟨⟨h.plain, h.parent⟩, hroot⟩
  · rw [he]
    refine ⟨h.made hq hn _, ?_⟩
    simp only [DMStore.made, Function.update_of_ne (key_ne_root u n.chars).symm]
    exact hroot

/-- A directory that loses its parent is an orphan. -/
theorem rmdir_orphan (hlib : lib.Documented) (h : s.Inv)
    (hr : s.rmdir lib always p.str = some (0, s')) {m : Name}
    (hm : s.get_uuid lib (Path.str (p ++ [m])) = some w) : ¬ s'.NoOrphans lib := by
  obtain ⟨r, s₁, hr₁, -, h', hcases⟩ := rmdir_tree hlib h p
  cases hr.symm.trans hr₁
  have hcut : h.tree.Cut p h'.tree := by
    obtain ⟨-, -, hcut⟩ | ⟨hne, -⟩ := hcases
    · exact hcut
    · exact absurd rfl hne
  have hfind : h.tree.find (p ++ [m]) = some w := (h.get_uuid hlib _).symm.trans hm
  obtain ⟨hne, -⟩ | ⟨q, u, n, v, ec, -, rfl, -, hu, hn, hv, -, rfl⟩ :=
    rmdir_cases hlib h.listed.plain hr
  · exact absurd rfl hne
  · have hv : h.tree.find (q ++ [n]) = some v := hv
    have hedge : links s.uuid_store v m = some w := by
      rw [← hfind]
      exact (Links.walk_concat.trans (by rw [show Links.walk _ _ _ = some v from hv]; rfl)).symm
    obtain ⟨-, hkey⟩ := links_eq_some.1 hedge
    have hkept : key v m.chars ≠ key u n.chars := by
      intro he
      rw [he, hn] at hkey
      cases hkey
      have hlen := congrArg List.length (h.tree.inj hfind hv)
      rw [List.length_append] at hlen
      exact Nat.succ_ne_self _ hlen
    intro hno
    obtain ⟨r, hr'⟩ := hno (key v m.chars) w (key_ne_root v m.chars) (by
      simp only [DMStore.unmade, Function.update_of_ne hkept, hkey])
    rw [h'.get_uuid hlib] at hr'
    by_cases hpre : q ++ [n] <+: r
    · rw [hcut.1 r hpre] at hr'
      cases hr'
    · rw [hcut.2 r hpre] at hr'
      obtain rfl := h.tree.inj hr' hfind
      exact hpre (List.prefix_append _ _)

end DMStore

namespace Call

def isRmdir : Call → Bool
  | .rmdir _ => true
  | _ => false

end Call

namespace DMServer

open DMStore

variable {lib : Library} {s s' : DMStore} {w : List Call}

def dirSystem (lib : Library) : System DMStore Call :=
  (system lib).restrict fun _ call _ => call.isMkdir ∨ call.isRmdir

/-- An `rmdir` finds no directory that has another one in it. -/
def Emptied (lib : Library) (s : DMStore) : Call → Prop
  | .rmdir p => p ≠ [] → ∀ u, s.get_uuid lib p.str = some u → s.Childless u
  | _ => True

def emptiedSystem (lib : Library) : System DMStore Call :=
  (dirSystem lib).restrict fun s call _ => Emptied lib s call

theorem start_attached (lib : Library) (dii : DirectoryInode) (time : Int) :
    (start lib dii time).Attached where
  plain := (start_inv lib dii time).listed.plain
  parent {k v} hk := by
    change Function.update (fun _ => none) ['/'] (some (to_string 1)) k = some v at hk
    rw [Function.update_apply] at hk
    split at hk
    · rename_i he
      exact .inl he
    · cases hk

theorem emptied_attached (hlib : lib.Documented) (h : (emptiedSystem lib).Run w s) :
    s.Attached ∧ (s.uuid_store ['/']).isSome := by
  apply h.invariant (I := fun s => s.Attached ∧ (s.uuid_store ['/']).isSome)
  · rintro s ⟨dii, time, rfl⟩
    exact ⟨start_attached lib dii time, rfl⟩
  · rintro s call s' ⟨hs, hroot⟩ ⟨⟨⟨response, hr⟩, hcall⟩, hempty⟩
    cases call with
    | mkdir p di time =>
      cases hr
      exact mkdir_attached hlib hs hroot p di time
    | rmdir p =>
      obtain ⟨⟨r, s₁⟩, hrmdir, he⟩ := Option.map_eq_some_iff.1 hr
      cases he
      obtain ⟨-, rfl, -⟩ | ⟨q, u, n, v, ec, rfl, rfl, hq, hu, hn, hw, -, rfl⟩ :=
        rmdir_cases hlib hs.plain hrmdir
      · exact ⟨hs, hroot⟩
      · have hget := (get_uuid_str hlib hs.plain _).trans hw
        have hv := hempty (List.append_ne_nil_of_right_ne_nil q (List.cons_ne_nil n [])) v hget
        refine ⟨hs.unmade hu hn hv ec, ?_⟩
        simp only [DMStore.unmade, Function.update_of_ne (key_ne_root u n.chars).symm]
        exact hroot
    | _ => simp [Call.isMkdir, Call.isRmdir] at hcall

/-- As long as only empty directories are removed, no directory is lost. -/
theorem no_orphans (hlib : lib.Documented) (h : (emptiedSystem lib).Run w s) :
    s.NoOrphans lib ∧ ∀ p s', (emptiedSystem lib).step s (.rmdir p) s' →
      s.rmdir lib always p.str = some (0, s') →
      ∃ u, s.get_uuid lib p.str = some u ∧ s.Childless u := by
  obtain ⟨hs, -⟩ := emptied_attached hlib h
  refine ⟨hs.noOrphans hlib, ?_⟩
  rintro p s' ⟨-, hempty⟩ hr
  obtain ⟨hne, -⟩ | ⟨q, u, n, v, ec, -, rfl, -, -, -, hw, -⟩ := rmdir_cases hlib hs.plain hr
  · exact absurd rfl hne
  · have hget := (get_uuid_str hlib hs.plain _).trans hw
    exact ⟨v, hget, hempty (List.append_ne_nil_of_right_ne_nil q (List.cons_ne_nil n [])) v hget⟩

def nested : DMStore :=
  (oneDir.mkdir Library.posix always (Path.str [nameA, nameB]) blank 0).2

theorem nested_run : (emptiedSystem Library.posix).Run
    [.mkdir [nameA] blank 0, .mkdir [nameA, nameB] blank 0] nested := by
  have h0 : (emptiedSystem Library.posix).Run [] (start Library.posix blank 0) :=
    .nil ⟨blank, 0, rfl⟩
  have h1 : (emptiedSystem Library.posix).Run [.mkdir [nameA] blank 0] oneDir :=
    h0.snoc ⟨⟨⟨_, rfl⟩, .inl rfl⟩, trivial⟩
  exact h1.snoc ⟨⟨⟨_, rfl⟩, .inl rfl⟩, trivial⟩

def cleared : DMStore :=
  ((nested.rmdir Library.posix always (Path.str [nameA, nameB])).map Prod.snd).getD nested

theorem nested_rmdir :
    nested.rmdir Library.posix always (Path.str [nameA, nameB]) = some (0, cleared) := rfl

theorem cleared_step :
    (emptiedSystem Library.posix).step nested (.rmdir [nameA, nameB]) cleared := by
  refine ⟨⟨⟨.value 0, by rw [run, nested_rmdir]; rfl⟩, .inr rfl⟩, fun _ u hu => ?_⟩
  have hb : nested.get_uuid Library.posix (Path.str [nameA, nameB]) = some ['3'] := by decide
  cases hb.symm.trans hu
  exact fun _ => rfl

/-- The empty directory `/a/b` is removed, and `/a/c` is made. -/
theorem cleared_found :
    (∃ u, nested.get_uuid Library.posix (Path.str [nameA, nameB]) = some u ∧ nested.Childless u) ∧
    ∃ p : Path, (cleared.mkdir Library.posix always (Path.str [nameA, nameC]) blank 0).2.get_uuid
      Library.posix p.str = some ['4'] := by
  have hmkdir : (emptiedSystem Library.posix).step cleared (.mkdir [nameA, nameC] blank 0)
      (cleared.mkdir Library.posix always (Path.str [nameA, nameC]) blank 0).2 :=
    ⟨⟨⟨_, rfl⟩, .inl rfl⟩, trivial⟩
  have hrun := (nested_run.snoc cleared_step).snoc hmkdir
  exact ⟨(no_orphans Library.posix_documented nested_run).2 _ _ cleared_step nested_rmdir,
    (no_orphans Library.posix_documented hrun).1 (key ['2'] ['c']) ['4'] (by decide) (by decide)⟩

theorem rmdir_loses_nested : ¬ ∀ (w : List Call) (s : DMStore),
    (dirSystem Library.posix).Run w s → s.NoOrphans Library.posix ∧
      ∀ (p : Path) s', s.rmdir Library.posix always p.str = some (0, s') →
        ∃ u, s.get_uuid Library.posix p.str = some u ∧ s.Childless u := by
  intro h
  have htree : (treeSystem Library.posix).Run _ nested :=
    oneDir_run.snoc (a := .mkdir [nameA, nameB] blank 0) ⟨⟨_, rfl⟩, rfl⟩
  obtain ⟨hinv, -⟩ := reachable_inv Library.posix_documented htree (by decide)
  obtain ⟨r, s', hr, -, hinv', ⟨rfl, -⟩ | ⟨-, hmissing, -⟩⟩ :=
    rmdir_tree Library.posix_documented hinv [nameA]
  · have hrun : (dirSystem Library.posix).Run _ s' :=
      nested_run.of_restrict.snoc (a := .rmdir [nameA]) ⟨⟨.value 0, by rw [run, hr]; rfl⟩, .inr rfl⟩
    have hb : nested.get_uuid Library.posix (Path.str ([nameA] ++ [nameB])) = some ['3'] := by
      decide
    exact rmdir_orphan Library.posix_documented hinv hr hb (h _ s' hrun).1
  · refine hmissing ⟨List.cons_ne_nil _ _, ?_⟩
    rw [← hinv.get_uuid Library.posix_documented]
    decide

end DMServer

end Galois
