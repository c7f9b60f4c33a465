import Galois.Attributes

namespace Galois
set_option autoImplicit true
set_option relaxedAutoImplicit false

namespace DMStore

/-- What a client needs of a directory: it can be accessed, opened, and its inode has its uuid. -/
structure Usable (lib : Library) (s : DMStore) (p : Path) : Prop where
  access : ∀ dii, s.access lib p.str dii = 0
  opendir : ∀ dii, s.opendir lib p.str dii = 0
  getAttr : ∀ _return time, (s.getAttr lib always _return p.str time).1.error = 0 ∧
    s.get_uuid lib p.str = some (to_string (s.getAttr lib always _return p.str time).1.uuid)

variable {lib : Library} {s s' : DMStore} {p : Path} {u : Str}

theorem Described.usable (hd : Described lib s) (hp : p ≠ [])
    (hu : s.get_uuid lib p.str = some u) : Usable lib s p := by
  obtain ⟨inode, hi, -⟩ := hd p u hp hu
  constructor
  · intro dii
    simp only [DMStore.access, hu, getValue, KVStore.getValue, hi, Option.map_some]
  · intro dii
    simp only [DMStore.opendir, hu, getValue, KVStore.getValue, hi, Option.map_some]
  · intro _return time
    obtain ⟨herror, -, huuid⟩ := hd.getAttr hp hu _return time
    exact ⟨herror, by rw [huuid, hu]⟩

/-- The uuid `0`, to which the root resolves, has no inode: `mkdir` gave the root the uuid `1`. -/
theorem not_usable_root (h : s.dm_store ['0'] = none) : ¬ Usable lib s [] := by
  intro hroot
  have haccess := hroot.access ⟨0, 0, 0, 0, 0, [], 0, 0⟩
  have hget : s.get_uuid lib (Path.str []) = some ['0'] := rfl
  simp only [DMStore.access, hget, getValue, KVStore.getValue, h, Option.map_none] at haccess
  exact absurd haccess (by decide)

theorem mkdir_rootless (hlib : lib.Documented) (h : s.Inv) (hs : s.dm_store ['0'] = none)
    (hc : s.uuid_counter.toNat + 1 < 2 ^ 64) (p : Path) (di : DirectoryInode) (time : Int) :
    (s.mkdir lib always p.str di time).2.dm_store ['0'] = none := by
  obtain ⟨he, -⟩ | ⟨q, u, n, -, -, -, -, he⟩ := mkdir_cases hlib h.listed.plain h.root p di time
  · rw [he]
    exact hs
  · rw [he]
    have hne : ['0'] ≠ s.next := by
      intro he
      exact not_issued_succ hc (by rw [show to_string _ = _ from he.symm]; exact issued_zero _)
    exact (Function.update_of_ne hne ..).trans hs

theorem rmdir_rootless (hlib : lib.Documented) (h : s.Inv) (hs : s.dm_store ['0'] = none) {r : Int}
    (hr : s.rmdir lib always p.str = some (r, s')) : s'.dm_store ['0'] = none := by
  obtain ⟨-, rfl, -⟩ | ⟨q, u, n, v, ec, -, -, -, -, hn, -, -, rfl⟩ :=
    rmdir_cases hlib h.listed.plain hr
  · exact hs
  · exact (Function.update_of_ne (h.ne_zero hn).symm ..).trans hs

theorem getAttr_rootless (hs : s.dm_store ['0'] = none) (_return : DirectoryInode) (path : Str)
    (time : Int) : (s.getAttr lib always _return path time).2.dm_store ['0'] = none := by
  cases hv : s.dm_store ((s.get_uuid lib path).getD []) with
  | none =>
    simp only [DMStore.getAttr, getValue, KVStore.getValue, hv, Option.map_none]
    exact hs
  | some di =>
    simp only [DMStore.getAttr, getValue, KVStore.getValue, hv, Option.map_some]
    refine (Function.update_of_ne ?_ ..).trans hs
    intro he
    rw [← he, hs] at hv
    cases hv

end DMStore

namespace DMServer

open DMStore

variable {lib : Library} {s s' : DMStore} {p : Path} {w : List Call}

theorem attrRun_of_treeRun (h : (treeSystem lib).Run w s) :
    (attrSystem lib).Run (w.map .tree) s := by
  induction h with
  | nil h => exact .nil h
  | snoc _ hs ih =>
    rw [List.map_append]
    exact ih.snoc hs

theorem reachable_rootless (hlib : lib.Documented) (h : (treeSystem lib).Run w s)
    (hw : mkdirs w < 2 ^ 64 - 1) : s.dm_store ['0'] = none := by
  refine (reachable_counted (I := fun s => s.Inv ∧ s.dm_store ['0'] = none) Call.isMkdir ?_ ?_
    h hw).1.2
  · rintro s ⟨dii, time, rfl⟩
    exact ⟨⟨start_inv lib dii time, rfl⟩, rfl⟩
  · rintro s call s' ⟨hs, hroot⟩ hc ⟨⟨response, hr⟩, hren⟩
    obtain ⟨response', s'', hr', hnext, hs', -⟩ := run_tree hlib hs hren hc
    cases hr.symm.trans hr'
    refine ⟨⟨hs', ?_⟩, hnext⟩
    apply run_keeps hr fun _ => hroot
    · rintro path di time rfl
      exact mkdir_rootless hlib hs hroot (hc rfl) path di time
    · rintro path r s₁ rfl hrun
      exact rmdir_rootless hlib hs hroot hrun
    · rintro old new dii time r s₁ rfl -
      cases hren
    · exact fun _ => getAttr_rootless hroot

/-- Of the directories that resolve all can be used but the root. -/
theorem usable_iff (hlib : lib.Documented) (h : (treeSystem lib).Run w s)
    (hw : mkdirs w < 2 ^ 64 - 1) (hu : (s.get_uuid lib p.str).isSome) :
    Usable lib s p ↔ p ≠ [] := by
  constructor
  · rintro husable rfl
    exact not_usable_root (reachable_rootless hlib h hw) husable
  · intro hp
    have hcount : (w.map AttrCall.tree).countP AttrCall.isMkdir = mkdirs w := by
      rw [List.countP_map]
      rfl
    obtain ⟨-, hd⟩ := reachable_described hlib (attrRun_of_treeRun h) (hcount ▸ hw)
    obtain ⟨u, hu⟩ := Option.isSome_iff_exists.1 hu
    exact hd.usable hp hu

theorem usable_iff_a : Usable Library.posix oneDir [nameA] :=
  (usable_iff Library.posix_documented oneDir_run (by decide) (by decide)).2 (by decide)

/-- The root of a server just started. -/
theorem root_unusable : (treeSystem Library.posix).Run [] (start Library.posix blank 0) ∧
    (start Library.posix blank 0).get_uuid Library.posix (Path.str []) = some ['0'] ∧
    ¬ Usable Library.posix (start Library.posix blank 0) [] := by
  refine ⟨.nil ⟨blank, 0, rfl⟩, rfl, fun h => ?_⟩
  exact absurd (h.access blank) (by decide)

end DMServer

end Galois
