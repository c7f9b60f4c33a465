import Galois.Directory

namespace Galois
set_option autoImplicit true
set_option relaxedAutoImplicit false

namespace DMStore

variable {lib : Library} {s s' : DMStore} {p q old new : Path} {n m : Name} {u v : Str} {r : Int}

def Linked.tree (h : s.Linked) : DirTree Name Str := h.rooted.tree

theorem Linked.get_uuid (h : s.Linked) (hlib : lib.Documented) (p : Path) :
    s.get_uuid lib p.str = h.tree.find p := get_uuid_str hlib h.plain p

theorem mkdir_linked (hlib : lib.Documented) (h : s.Linked)
    (hc : s.uuid_counter.toNat + 1 < 2 ^ 64) (p : Path) (di : DirectoryInode) (time : Int) :
    (s.mkdir lib always p.str di time).2.Linked ∧
      (s.mkdir lib always p.str di time).2.uuid_counter = s.uuid_counter + 1 := by
  obtain ⟨he, -⟩ | ⟨q, u, n, -, hq, -, -, he⟩ := mkdir_cases hlib h.plain h.root p di time
  · rw [he]
    exact ⟨h.bumped hc, rfl⟩
  · rw [he]
    exact ⟨h.made hc (h.walk_issued hq) _ _, rfl⟩

theorem rmdir_linked (hlib : lib.Documented) (h : s.Linked) (p : Path)
    (hr : s.rmdir lib always p.str = some (r, s')) :
    s'.Linked ∧ s'.uuid_counter = s.uuid_counter := by
  obtain ⟨-, rfl, -⟩ | ⟨q, u, n, v, ec, -, -, -, hu, -, -, hec, rfl⟩ := rmdir_cases hlib h.plain hr
  · exact ⟨h, rfl⟩
  · exact ⟨h.unmade (h.covered.remove hu hec), rfl⟩

theorem getAttr_linked (h : s.Linked) (_return : DirectoryInode) (path : Str) (time : Int) :
    (s.getAttr lib always _return path time).2.Linked ∧
      (s.getAttr lib always _return path time).2.uuid_counter = s.uuid_counter := by
  obtain he | ⟨uuid, inode, he⟩ := @getAttr_cases lib s _return path time
  · rw [he]
    exact ⟨h, rfl⟩
  · rw [he]
    exact ⟨⟨h.plain, h.covered, h.root, h.issued, h.ne_zero, h.unique⟩, rfl⟩

theorem rename_of_missing (hlib : lib.Documented) (h : s.Linked)
    (hold : h.tree.find (p ++ [n]) = none) (new : Path) (dii : DirectoryInode) (time : Int) :
    s.rename lib always (Path.str (p ++ [n])) new.str dii time = some (-1, s) := by
  have hget : s.get_2_uuid lib (Path.str (p ++ [n])) = none := by
    have hw : ((links s.uuid_store).walk ['0'] p).bind (links s.uuid_store · n) = none :=
      Links.walk_concat.symm.trans hold
    rw [get_2_uuid_str hlib h.plain]
    cases hp : (links s.uuid_store).walk ['0'] p with
    | none => rfl
    | some u =>
      rw [hp, Option.bind_some] at hw
      rw [Option.bind_some, hw]
      rfl
  simp only [rename, hget]

/-- A directory that resolves is always renamed, in its own parent. -/
theorem rename_of_found (hlib : lib.Documented) (h : s.Linked) (hp : h.tree.find p = some u)
    (hn : links s.uuid_store u n = some v) (new : Path) (dii : DirectoryInode) (time : Int) :
    ∃ ec, s.ec_store.remove_entry lib u n.chars = some ec ∧
      s.rename lib always (Path.str (p ++ [n])) new.str dii time =
        some (0, s.moved u n.chars (lib.filename new.str) v dii time ec) := by
  obtain ⟨hu, hkey⟩ := links_eq_some.1 hn
  have hget : s.get_2_uuid lib (Path.str (p ++ [n])) = some (u, v) := by
    rw [get_2_uuid_str hlib h.plain, show (links s.uuid_store).walk ['0'] p = some u from hp,
      Option.bind_some, hn]
    rfl
  have hsome : (s.uuid_store (key u (lib.filename (Path.str (p ++ [n]))))).isSome := by
    rw [hlib.filename, hkey]
    rfl
  have hmem : n.chars ∈ s.ec_store.names u := h.covered u n.chars hu (by rw [hkey]; rfl)
  obtain ⟨ec, hec⟩ := EntryList.remove_entry_of_mem (hlib.leftover _ _) hmem
  refine ⟨ec, hec, ?_⟩
  rw [rename_of_some hget hsome, hlib.filename, hec]
  rfl

theorem rename_root (h : s.uuid_store (key ['0'] (lib.filename ['/'])) = none) (new : Path)
    (dii : DirectoryInode) (time : Int) :
    s.rename lib always (Path.str []) new.str dii time = some (-1, s) := by
  have hget : s.get_2_uuid lib ['/'] = some (['0'], ['0']) := rfl
  simp only [rename, Path.str, hget, KVStore.remove_of_none h]

theorem rename_linked (hlib : lib.Documented) (h : s.Linked)
    (hold : old = [] → s.uuid_store (key ['0'] (lib.filename ['/'])) = none) (new : Path)
    {dii : DirectoryInode} {time : Int}
    (hr : s.rename lib always old.str new.str dii time = some (r, s')) :
    s'.Linked ∧ s'.uuid_counter = s.uuid_counter := by
  cases old using List.reverseRecOn with
  | nil =>
    cases (rename_root (hold rfl) new dii time).symm.trans hr
    exact ⟨h, rfl⟩
  | append_singleton p n =>
    cases hw : h.tree.find (p ++ [n]) with
    | none =>
      cases (rename_of_missing hlib h hw new dii time).symm.trans hr
      exact ⟨h, rfl⟩
    | some v =>
      obtain ⟨u, hp, hn⟩ := Option.bind_eq_some_iff.1 (Links.walk_concat.symm.trans hw)
      obtain ⟨ec, hec, hfound⟩ := rename_of_found hlib h hp hn new dii time
      cases hfound.symm.trans hr
      obtain ⟨hu, hkey⟩ := links_eq_some.1 hn
      exact ⟨h.moved hu hkey _ dii time (h.covered.remove hu hec), rfl⟩

theorem links_moved (hu : ':' ∉ u) (n m : Name) (dii : DirectoryInode) (time : Int)
    (ec : EntryList) : links (s.moved u n.chars m.chars v dii time ec).uuid_store =
      ((links s.uuid_store).unlink u n).link u m v := by
  simp only [DMStore.moved, links_update hu]
  rfl

theorem Linked.moved_tree (h : s.Linked) (hp : h.tree.find p = some u)
    (hn : links s.uuid_store u n = some v) (hne : n ≠ m) {dii : DirectoryInode} {time : Int}
    {ec : EntryList} (h' : (s.moved u n.chars m.chars v dii time ec).Linked) :
    h.tree.Moved (p ++ [n]) (p ++ [m]) h'.tree := by
  have hu := (links_eq_some.1 hn).1
  have hfind : ∀ q, h'.tree.find q =
      (((links s.uuid_store).unlink u n).link u m v).walk ['0'] q := fun q =>
    congrArg (Links.walk · ['0'] q) (links_moved hu n m dii time ec)
  refine ⟨fun t => ?_, fun t => ?_, fun q hq hq' => ?_⟩
  · rw [hfind, List.append_assoc, List.append_assoc]
    exact Links.walk_renamed h.rooted hp hn
  · rw [hfind, List.append_assoc]
    exact Links.walk_renamed_old h.rooted hp hne
  · rw [hfind]
    exact Links.walk_renamed_of_apart h.rooted hp hq hq'

/-- `rename` answers 0 exactly when it should, and moves the directory with all that is below. -/
def RenameMoves (lib : Library) (s : DMStore) (old new : Path) : Prop :=
  ∀ dii time, ∃ r s', s.rename lib always old.str new.str dii time = some (r, s') ∧
    (r = 0 ↔ (s.get_uuid lib old.str).isSome ∧ (s.get_uuid lib (Path.str new.dropLast)).isSome ∧
      s.get_uuid lib new.str = none) ∧
    (r = 0 → (∀ t, s'.get_uuid lib (Path.str (new ++ t)) = s.get_uuid lib (Path.str (old ++ t))) ∧
      (∀ t, s'.get_uuid lib (Path.str (old ++ t)) = none) ∧
      ∀ q : Path, ¬ old <+: q → ¬ new <+: q → s'.get_uuid lib q.str = s.get_uuid lib q.str) ∧
    (r ≠ 0 → ∀ q : Path, s'.get_uuid lib q.str = s.get_uuid lib q.str)

end DMStore

namespace DMServer

open DMStore

variable {lib : Library} {s s' : DMStore} {old new : Path}

/-- A `rename` of the root finds nothing that was given the root's own name. -/
def RootKept (lib : Library) (s : DMStore) : Call → Prop
  | .rename [] _ _ _ => s.uuid_store (key ['0'] (lib.filename ['/'])) = none
  | _ => True

/-- The server as long as its root is not given another name. -/
def renameSystem (lib : Library) : System DMStore Call :=
  (system lib).restrict fun s call _ => RootKept lib s call

theorem run_linked (hlib : lib.Documented) (h : s.Linked) {call : Call} {response : Response}
    (hroot : RootKept lib s call) (hc : call.isMkdir → s.uuid_counter.toNat + 1 < 2 ^ 64)
    (hr : run lib s call = some (response, s')) :
    s'.Linked ∧ s'.uuid_counter = counted s.uuid_counter call := by
  have hcount : call.isMkdir = false → counted s.uuid_counter call = s.uuid_counter := by
    intro hm
    rw [counted, hm]
    rfl
  apply run_keeps (I := fun s' => s'.Linked ∧ s'.uuid_counter = counted s.uuid_counter call) hr
  · exact fun hm => ⟨h, (hcount hm).symm⟩
  · rintro path di time rfl
    exact mkdir_linked hlib h (hc rfl) path di time
  · rintro path r s₁ rfl hrun
    exact rmdir_linked hlib h path hrun
  · rintro old new dii time r s₁ rfl hrun
    refine rename_linked hlib h ?_ new hrun
    rintro rfl
    exact hroot
  · intro hm
    rw [hcount hm]
    exact getAttr_linked h

theorem reachable_linked (hlib : lib.Documented) (h : (renameSystem lib).Run w s)
    (hw : mkdirs w < 2 ^ 64 - 1) : s.Linked := by
  refine (reachable_counted Call.isMkdir ?_ ?_ h hw).1
  · rintro s ⟨dii, time, rfl⟩
    exact ⟨(start_inv lib dii time).linked, rfl⟩
  · rintro s call s' hs hc ⟨⟨response, hr⟩, hroot⟩
    exact run_linked hlib hs hroot hc hr

/-- A directory that is renamed to a path under its own parent, where nothing is, moves. -/
theorem renameMoves_of_clear (hlib : lib.Documented) (h : s.Linked) (hold : old ≠ [])
    (hnew : new ≠ []) (hapart : ¬ old <+: new)
    (hclear : (s.get_uuid lib old.str).isSome →
      new.dropLast = old.dropLast ∧ s.get_uuid lib new.str = none) : RenameMoves lib s old new := by
  intro dii time
  obtain ⟨p, n, rfl⟩ : ∃ p n, old = p ++ [n] := ⟨_, _, (List.dropLast_append_getLast hold).symm⟩
  obtain ⟨q, m, rfl⟩ : ∃ q m, new = q ++ [m] := ⟨_, _, (List.dropLast_append_getLast hnew).symm⟩
  simp only [h.get_uuid hlib, List.dropLast_concat] at hclear ⊢
  cases hw : h.tree.find (p ++ [n]) with
  | none =>
    refine ⟨-1, s, rename_of_missing hlib h hw _ dii time, ?_, nofun, fun _ q => ?_⟩
    · exact iff_of_false (by decide) fun hsome => Bool.false_ne_true hsome.1
    · exact h.get_uuid hlib q
  | some v =>
    rw [hw] at hclear
    obtain ⟨rfl, hfree⟩ := hclear rfl
    obtain ⟨u, hp, hn⟩ := Option.bind_eq_some_iff.1 (Links.walk_concat.symm.trans hw)
    obtain ⟨ec, hec, hrun⟩ := rename_of_found hlib h hp hn (q ++ [m]) dii time
    rw [hlib.filename] at hrun
    obtain ⟨hu, hkey⟩ := links_eq_some.1 hn
    have h' := h.moved hu hkey m.chars dii time (h.covered.remove hu hec)
    have hne : n ≠ m := by
      rintro rfl
      exact hapart (List.prefix_refl _)
    obtain ⟨hbelow, hgone, hrest⟩ := h.moved_tree hp hn hne h'
    refine ⟨0, _, hrun, ?_, fun _ => ?_, fun h0 => absurd rfl h0⟩
    · refine iff_of_true rfl ⟨rfl, ?_, hfree⟩
      rw [show h.tree.find q = some u from hp]
      rfl
    · simp only [h'.get_uuid hlib]
      exact ⟨hbelow, hgone, hrest⟩

/-- `rename` puts the new name into the old parent, whatever is there. -/
theorem rename_moves_iff (hlib : lib.Documented) (h : (renameSystem lib).Run w s)
    (hw : mkdirs w < 2 ^ 64 - 1) (hold : old ≠ []) (hnew : new ≠ []) (hapart : ¬ old <+: new) :
    RenameMoves lib s old new ↔ ((s.get_uuid lib old.str).isSome →
      new.dropLast = old.dropLast ∧ s.get_uuid lib new.str = none) := by
  have hs := reachable_linked hlib h hw
  refine ⟨fun hmoves hsome => ?_, renameMoves_of_clear hlib hs hold hnew hapart⟩
  obtain ⟨p, n, rfl⟩ : ∃ p n, old = p ++ [n] := ⟨_, _, (List.dropLast_append_getLast hold).symm⟩
  obtain ⟨q, m, rfl⟩ : ∃ q m, new = q ++ [m] := ⟨_, _, (List.dropLast_append_getLast hnew).symm⟩
  obtain ⟨r, s', hrun, hanswer, hmoved, -⟩ := hmoves blank 0
  obtain ⟨v, hv⟩ := Option.isSome_iff_exists.1 hsome
  obtain ⟨u, hp, hn⟩ := Option.bind_eq_some_iff.1
    (Links.walk_concat.symm.trans ((hs.get_uuid hlib _).symm.trans hv))
  obtain ⟨ec, hec, hfound⟩ := rename_of_found hlib hs hp hn (q ++ [m]) blank 0
  rw [hlib.filename] at hfound
  cases hfound.symm.trans hrun
  obtain ⟨-, -, hfree⟩ := hanswer.1 rfl
  refine ⟨?_, hfree⟩
  obtain ⟨hu, hkey⟩ := links_eq_some.1 hn
  have h' := hs.moved hu hkey m.chars blank 0 (hs.covered.remove hu hec)
  -- the directory is found under its old parent, so that this must be the new one
  have hfind : h'.tree.find (p ++ [m]) = some v := by
    refine Eq.trans ?_ ((Links.walk_renamed (q := []) (m := m) hs.rooted hp hn).trans
      ((hs.get_uuid hlib _).symm.trans hv))
    exact congrArg (Links.walk · ['0'] (p ++ [m])) (links_moved hu n m blank 0 ec)
  have hnew' := (hmoved rfl).1 []
  rw [List.append_nil, List.append_nil, hv, h'.get_uuid hlib] at hnew'
  rw [List.dropLast_concat, List.dropLast_concat]
  exact (List.append_inj' (h'.tree.inj hnew' hfind) rfl).1

theorem oneDir_renameRun : (renameSystem Library.posix).Run [.mkdir [nameA] blank 0] oneDir := by
  have h0 : (renameSystem Library.posix).Run [] (start Library.posix blank 0) :=
    .nil ⟨blank, 0, rfl⟩
  exact h0.snoc ⟨⟨_, rfl⟩, trivial⟩

theorem rename_moves_iff_oneDir : RenameMoves Library.posix oneDir [nameA] [nameB] := by
  apply (rename_moves_iff Library.posix_documented oneDir_renameRun (by decide) (by decide)
    (by decide) (by decide)).2
  exact fun _ => ⟨rfl, by decide⟩

/-- Of the directories `/a` and `/b`, the first is to become `/b/c`. -/
theorem rename_stays : (renameSystem Library.posix).Run
      [.mkdir [nameA] blank 0, .mkdir [nameB] blank 0] twoDirs ∧
    ¬ RenameMoves Library.posix twoDirs [nameA] [nameB, nameC] := by
  refine ⟨oneDir_renameRun.snoc ⟨⟨_, rfl⟩, trivial⟩, fun h => ?_⟩
  obtain ⟨r, s', hrun, hanswer, hmoved, -⟩ := h blank 0
  have hzero : r = 0 := hanswer.2 (by decide)
  have hlost : (twoDirs.rename Library.posix always (Path.str [nameA]) (Path.str [nameB, nameC])
      blank 0).map (fun x => x.2.get_uuid Library.posix (Path.str [nameB, nameC])) =
      some none := by decide
  rw [hrun, Option.map_some] at hlost
  have hnew := ((hmoved hzero).1 []).symm.trans (Option.some.inj hlost)
  exact absurd hnew (by decide)

end DMServer

end Galois
