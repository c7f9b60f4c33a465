import Galois.Linked
import Mathlib.Algebra.Ring.Nat

namespace Galois
set_option autoImplicit true
set_option relaxedAutoImplicit false

namespace DMStore

variable {lib : Library} {s s' : DMStore} {p q : Path} {n m : Name} {u v w k k' : Str}

/-- What keeps the flat keys a tree. -/
structure Inv (s : DMStore) : Prop where
  listed : Listed s.uuid_store s.ec_store
  root : (s.uuid_store ['/']).isSome
  issued : ∀ {k v}, s.uuid_store k = some v → Issued s.uuid_counter v
  ne_zero : ∀ {k v}, s.uuid_store k = some v → v ≠ ['0']
  unique : ∀ {k k' v}, s.uuid_store k = some v → s.uuid_store k' = some v → k = k'
  inode : ∀ {k v}, s.uuid_store k = some v → (s.dm_store v).isSome
  parent : ∀ {u n}, ':' ∉ u → (s.uuid_store (key u n)).isSome → Issued s.uuid_counter u

theorem Inv.linked (h : s.Inv) : s.Linked where
  plain := h.listed.plain
  covered u n hu hn := (h.listed.mem u n hu).2 hn
  root := h.root
  issued := h.issued
  ne_zero := h.ne_zero
  unique := h.unique

theorem Inv.rooted (h : s.Inv) : (links s.uuid_store).Rooted ['0'] := h.linked.rooted

theorem Inv.walk_issued (h : s.Inv) (hp : (links s.uuid_store).walk ['0'] p = some u) :
    Issued s.uuid_counter u := h.linked.walk_issued hp

theorem Inv.bumped (h : s.Inv) (hc : s.uuid_counter.toNat + 1 < 2 ^ 64) : s.bumped.Inv where
  listed := h.listed
  root := h.root
  issued := (h.linked.bumped hc).issued
  ne_zero := h.ne_zero
  unique := h.unique
  inode := h.inode
  parent hu hn := (h.parent hu hn).mono (BitVec.le_of_lt (lt_succ_of_toNat hc))

theorem Inv.made (h : s.Inv) (hc : s.uuid_counter.toNat + 1 < 2 ^ 64)
    (hu : Issued s.uuid_counter u) {n : Str} (hn : s.uuid_store (key u n) = none)
    (inode : DirectoryInode) : (s.made u n inode).Inv := by
  have hl := h.linked.made hc hu n inode
  refine ⟨h.listed.insert hu.colon_notMem (colon_notMem_to_string _) hn, hl.root, hl.issued,
    hl.ne_zero, hl.unique, ?_, ?_⟩
  · intro k v hk
    simp only [DMStore.made, Function.update_apply]
    split
    · rfl
    · rename_i hne
      obtain ⟨-, he⟩ | ⟨-, hk⟩ := made_cases hk
      · exact absurd he hne
      · exact h.inode hk
  · intro w m hw hm
    obtain ⟨x, hx⟩ := Option.isSome_iff_exists.1 hm
    obtain ⟨he, -⟩ | ⟨-, hk⟩ := made_cases hx
    · obtain ⟨rfl, -⟩ := (key_inj hw hu.colon_notMem).1 he
      exact hu.mono (BitVec.le_of_lt (lt_succ_of_toNat hc))
    · exact (h.parent hw (by rw [hk]; rfl)).mono (BitVec.le_of_lt (lt_succ_of_toNat hc))

theorem Inv.unmade (h : s.Inv) {n : Str} (hn : s.uuid_store (key u n) = some v) {ec : EntryList}
    (hl : Listed (Function.update s.uuid_store (key u n) none) ec) : (s.unmade u n v ec).Inv := by
  have hlinked : (s.unmade u n v ec).Linked := h.linked.unmade fun w m hw hm => (hl.mem w m hw).2 hm
  refine ⟨hl, hlinked.root, hlinked.issued, hlinked.ne_zero, hlinked.unique, ?_, ?_⟩
  · intro k w hk
    obtain ⟨hne, hs⟩ := unmade_cases hk
    have hw : w ≠ v := by
      intro he
      exact hne (h.unique hs (he ▸ hn))
    simp only [DMStore.unmade, Function.update_of_ne hw]
    exact h.inode hs
  · intro w m hw hm
    obtain ⟨x, hx⟩ := Option.isSome_iff_exists.1 hm
    exact h.parent hw (by rw [(unmade_cases hx).2]; rfl)

def Inv.tree (h : s.Inv) : DirTree Name Str := h.rooted.tree

theorem Inv.get_uuid (h : s.Inv) (hlib : lib.Documented) (p : Path) :
    s.get_uuid lib p.str = h.tree.find p := get_uuid_str hlib h.listed.plain p

theorem Inv.made_added (h : s.Inv) {inode : DirectoryInode} (h' : (s.made u n.chars inode).Inv)
    (hc : s.uuid_counter.toNat + 1 < 2 ^ 64) (hp : h.tree.find p = some u)
    (hn : s.uuid_store (key u n.chars) = none) : h.tree.Added (p ++ [n]) s.next h'.tree := by
  have hu : Issued s.uuid_counter u := h.walk_issued hp
  have hnew : s.next ≠ u := fun he => not_issued_succ hc (by rw [← he] at hu; exact hu)
  have hleaf m : links s.uuid_store s.next m = none := by
    rw [links_of_plain (u := s.next) (colon_notMem_to_string _)]
    by_contra hm
    exact not_issued_succ hc (h.parent (colon_notMem_to_string _) (Option.isSome_iff_ne_none.2 hm))
  have hwalk q : h'.tree.find q = if q = p ++ [n] then some s.next else h.tree.find q := by
    have hl := Links.walk_link h.rooted (q := q) hp
      ((links_of_plain hu.colon_notMem).trans hn) hnew hleaf
    exact (congrArg (Links.walk · ['0'] q) (links_update hu.colon_notMem n _)).trans hl
  constructor
  · rw [hwalk, if_pos rfl]
  · intro q hq
    rw [hwalk, if_neg hq]

theorem Inv.unmade_cut (h : s.Inv) {ec : EntryList} (h' : (s.unmade u n.chars v ec).Inv)
    (hp : h.tree.find p = some u) : h.tree.Cut (p ++ [n]) h'.tree := by
  have hu := (h.walk_issued hp).colon_notMem
  have hwalk q : h'.tree.find q = if p ++ [n] <+: q then none else h.tree.find q := by
    have hl := Links.walk_unlink h.rooted (q := q) (n := n) hp
    exact (congrArg (Links.walk · ['0'] q) (links_update hu n _)).trans hl
  constructor
  · intro q hq
    rw [hwalk, if_pos hq]
  · intro q hq
    rw [hwalk, if_neg hq]

theorem mkdir_tree (hlib : lib.Documented) (h : s.Inv) (hc : s.uuid_counter.toNat + 1 < 2 ^ 64)
    (p : Path) (di : DirectoryInode) (time : Int) :
    ∃ r s', s.mkdir lib always p.str di time = (r, s') ∧
      s'.uuid_counter = s.uuid_counter + 1 ∧ ∃ h' : s'.Inv,
        r = 0 ∧ h.tree.Free p ∧ h.tree.Added p s.next h'.tree ∨
        r = -1 ∧ ¬ h.tree.Free p ∧ h'.tree = h.tree := by
  have hfind {q u} {n : Name} (hq : (links s.uuid_store).walk ['0'] q = some u) :
      h.tree.find (q ++ [n]) = s.uuid_store (key u n.chars) := by
    rw [← @links_of_plain n u s.uuid_store (h.walk_issued hq).colon_notMem]
    exact Links.walk_concat.trans (by rw [hq]; rfl)
  obtain ⟨he, htaken⟩ | ⟨q, u, n, rfl, hq, -, hn, he⟩ :=
    mkdir_cases hlib h.listed.plain h.root p di time
  · refine ⟨-1, s.bumped, he, rfl, h.bumped hc, .inr ⟨rfl, fun hfree => ?_, rfl⟩⟩
    obtain ⟨q, n, rfl⟩ := (List.eq_nil_or_concat' p).resolve_left hfree.1
    obtain ⟨hparent, hn⟩ := DirTree.free_concat.1 hfree
    obtain ⟨u, hq⟩ := Option.isSome_iff_exists.1 hparent
    exact htaken q n u rfl hq ((hfind hq).symm.trans hn)
  · refine ⟨0, _, he, rfl, h.made hc (h.walk_issued hq) hn _, .inl ⟨rfl, ?_, ?_⟩⟩
    · rw [DirTree.free_concat, show h.tree.find q = some u from hq, hfind hq]
      exact ⟨rfl, hn⟩
    · exact h.made_added _ hc hq hn

theorem rmdir_tree (hlib : lib.Documented) (h : s.Inv) (p : Path) :
    ∃ r s', s.rmdir lib always p.str = some (r, s') ∧
      s'.uuid_counter = s.uuid_counter ∧ ∃ h' : s'.Inv,
        r = 0 ∧ (p ≠ [] ∧ (h.tree.find p).isSome) ∧ h.tree.Cut p h'.tree ∨
        r ≠ 0 ∧ ¬ (p ≠ [] ∧ (h.tree.find p).isSome) ∧ h'.tree = h.tree := by
  obtain ⟨r, s', hr, hl⟩ := rmdir_listed hlib h.listed p
  refine ⟨r, s', hr, ?_⟩
  obtain ⟨hne, rfl, hmissing⟩ | ⟨q, u, n, v, ec, rfl, rfl, hq, -, hn, hw, -, rfl⟩ :=
    rmdir_cases hlib h.listed.plain hr
  · refine ⟨rfl, h, .inr ⟨hne, fun hf => ?_, rfl⟩⟩
    obtain ⟨v, hv⟩ := Option.isSome_iff_exists.1 hf.2
    obtain ⟨q, n, rfl⟩ := (List.eq_nil_or_concat' p).resolve_left hf.1
    obtain ⟨u, -, hn⟩ := Option.bind_eq_some_iff.1 (Links.walk_concat.symm.trans hv)
    have hinode := h.inode (links_eq_some.1 hn).2
    rw [hmissing v hf.1 hv] at hinode
    cases hinode
  · have h' : (s.unmade u n.chars v ec).Inv := h.unmade hn hl
    refine ⟨rfl, h', .inl ⟨rfl, ⟨?_, ?_⟩, h.unmade_cut h' hq⟩⟩
    · exact List.append_ne_nil_of_right_ne_nil q (List.cons_ne_nil n [])
    · rw [show h.tree.find (q ++ [n]) = some v from hw]
      rfl

theorem Inv.touched (h : s.Inv) (uuid : Str) (inode : DirectoryInode) :
    Inv { s with dm_store := Function.update s.dm_store uuid (some inode) } where
  listed := h.listed
  root := h.root
  issued := h.issued
  ne_zero := h.ne_zero
  unique := h.unique
  inode {k v} hk := by
    simp only [Function.update_apply]
    split
    · rfl
    · exact h.inode hk
  parent := h.parent

theorem getAttr_tree (h : s.Inv) (_return : DirectoryInode) (path : Str) (time : Int) :
    ∃ di s', s.getAttr lib always _return path time = (di, s') ∧
      s'.uuid_counter = s.uuid_counter ∧ ∃ h' : s'.Inv, h'.tree = h.tree := by
  refine ⟨_, (s.getAttr lib always _return path time).2, rfl, ?_⟩
  obtain he | ⟨uuid, inode, he⟩ := @getAttr_cases lib s _return path time
  · rw [he]
    exact ⟨rfl, h, rfl⟩
  · rw [he]
    exact ⟨rfl, h.touched uuid inode, rfl⟩

end DMStore

namespace Call

def isRename : Call → Bool
  | .rename _ _ _ _ => true
  | _ => false

def isMkdir : Call → Bool
  | .mkdir _ _ _ => true
  | _ => false

end Call

namespace DMServer

open DMStore

variable {lib : Library} {s s' : DMStore}

/-- The server without `rename`. -/
def treeSystem (lib : Library) : System DMStore Call :=
  (system lib).restrict fun _ call _ => call.isRename = false

def mkdirs (w : List Call) : Nat := w.countP Call.isMkdir

theorem mkdirs_concat (w : List Call) (call : Call) :
    mkdirs (w ++ [call]) = mkdirs w + if call.isMkdir then 1 else 0 := by
  simp only [mkdirs, List.countP_append, List.countP_singleton]

theorem start_inv (lib : Library) (dii : DirectoryInode) (time : Int) :
    (start lib dii time).Inv := by
  have hold {k v} (hk : (start lib dii time).uuid_store k = some v) :
      k = ['/'] ∧ v = to_string 1 := by
    change Function.update (fun _ => none) ['/'] (some (to_string 1)) k = some v at hk
    rw [Function.update_apply] at hk
    split at hk
    · rename_i he
      exact ⟨he, (Option.some.inj hk).symm⟩
    · cases hk
  constructor
  case listed => exact start_listed lib dii time
  case root => rfl
  case issued =>
    intro k v hk
    obtain ⟨-, rfl⟩ := hold hk
    exact ⟨1, BitVec.le_refl _, rfl⟩
  case ne_zero =>
    intro k v hk
    obtain ⟨-, rfl⟩ := hold hk
    decide
  case unique =>
    intro k k' v hk hk'
    rw [(hold hk).1, (hold hk').1]
  case inode =>
    intro k v hk
    obtain ⟨-, rfl⟩ := hold hk
    rfl
  case parent =>
    intro u n hu hn
    obtain ⟨v, hv⟩ := Option.isSome_iff_exists.1 hn
    exact absurd (hold hv).1 (key_ne_root u n)

def counted (c : BitVec 64) (call : Call) : BitVec 64 := if call.isMkdir then c + 1 else c

/-- What a call does to the tree, and what it answers. -/
def TreeStep (s : DMStore) (T T' : DirTree Name Str) (response : Response) : Call → Prop
  | .mkdir p _ _ =>
    response = .value 0 ∧ T.Free p ∧ T.Added p s.next T' ∨
      response = .value (-1) ∧ ¬ T.Free p ∧ T' = T
  | .rmdir p =>
    response = .value 0 ∧ (p ≠ [] ∧ (T.find p).isSome) ∧ T.Cut p T' ∨
      response ≠ .value 0 ∧ ¬ (p ≠ [] ∧ (T.find p).isSome) ∧ T' = T
  | _ => T' = T

theorem run_keeps {I : DMStore → Prop} {call : Call} {response : Response}
    (hr : run lib s call = some (response, s')) (h : call.isMkdir = false → I s)
    (hmkdir : ∀ path di time, call = .mkdir path di time →
      I (s.mkdir lib always path.str di time).2)
    (hrmdir : ∀ path r s₁, call = .rmdir path → s.rmdir lib always path.str = some (r, s₁) → I s₁)
    (hrename : ∀ old new dii time r s₁, call = .rename old new dii time →
      s.rename lib always old.str new.str dii time = some (r, s₁) → I s₁)
    (hgetAttr : call.isMkdir = false → ∀ _return path time,
      I (s.getAttr lib always _return path time).2) : I s' := by
  cases call with
  | mkdir path di time =>
    cases hr
    exact hmkdir path di time rfl
  | rmdir path =>
    obtain ⟨⟨r, s₁⟩, hrun, he⟩ := Option.map_eq_some_iff.1 hr
    cases he
    exact hrmdir path r _ rfl hrun
  | rename old new dii time =>
    obtain ⟨⟨r, s₁⟩, hrun, he⟩ := Option.map_eq_some_iff.1 hr
    cases he
    exact hrename old new dii time r _ rfl hrun
  | access path dii =>
    cases hr
    exact h rfl
  | opendir path dii =>
    cases hr
    exact h rfl
  | getAttr _return path time =>
    have he : (s.getAttr lib always _return path.str time).2 = s' :=
      congrArg Prod.snd (Option.some.inj hr)
    exact he ▸ hgetAttr rfl _return path.str time
  | readdir path =>
    cases hr
    exact h rfl

theorem run_tree (hlib : lib.Documented) (h : s.Inv) {call : Call} (hr : call.isRename = false)
    (hc : call.isMkdir → s.uuid_counter.toNat + 1 < 2 ^ 64) :
    ∃ response s', run lib s call = some (response, s') ∧
      s'.uuid_counter = counted s.uuid_counter call ∧ ∃ h' : s'.Inv,
        TreeStep s h.tree h'.tree response call := by
  cases call with
  | mkdir path di time =>
    obtain ⟨r, s', hrun, hcount, h', hres⟩ := mkdir_tree hlib h (hc rfl) path di time
    refine ⟨.value r, s', by rw [run, hrun], hcount, h', ?_⟩
    obtain ⟨rfl, hres⟩ | ⟨rfl, hres⟩ := hres
    · exact .inl ⟨rfl, hres⟩
    · exact .inr ⟨rfl, hres⟩
  | rmdir path =>
    obtain ⟨r, s', hrun, hcount, h', hres⟩ := rmdir_tree hlib h path
    refine ⟨.value r, s', by rw [run, hrun]; rfl, hcount, h', ?_⟩
    obtain ⟨rfl, hres⟩ | ⟨hne, hres⟩ := hres
    · exact .inl ⟨rfl, hres⟩
    · exact .inr ⟨fun he => hne (Response.value.inj he), hres⟩
  | rename old_path new_path dii time => cases hr
  | access path dii => exact ⟨_, s, rfl, rfl, h, rfl⟩
  | opendir path dii => exact ⟨_, s, rfl, rfl, h, rfl⟩
  | getAttr _return path time =>
    obtain ⟨di, s', hrun, hcount, h', hres⟩ := @getAttr_tree lib s h _return path.str time
    exact ⟨.stat di, s', by rw [run, hrun], hcount, h', hres⟩
  | readdir path => exact ⟨_, s, rfl, rfl, h, rfl⟩

/-- An invariant that `mkdir` keeps as long as there are numbers left. -/
theorem reachable_counted {M : System DMStore α} {I : DMStore → Prop} (isMkdir : α → Bool)
    (hinit : ∀ s, M.init s → I s ∧ s.uuid_counter = 1)
    (hstep : ∀ s a s', I s → (isMkdir a → s.uuid_counter.toNat + 1 < 2 ^ 64) → M.step s a s' →
      I s' ∧ s'.uuid_counter = if isMkdir a then s.uuid_counter + 1 else s.uuid_counter)
    (h : M.Run w s) (hw : w.countP isMkdir < 2 ^ 64 - 1) :
    I s ∧ s.uuid_counter.toNat = w.countP isMkdir + 1 := by
  apply h.history (I := fun w s => w.countP isMkdir < 2 ^ 64 - 1 →
    I s ∧ s.uuid_counter.toNat = w.countP isMkdir + 1) _ _ hw
  · rintro s hs -
    obtain ⟨hI, hone⟩ := hinit s hs
    exact ⟨hI, by rw [hone]; rfl⟩
  · rintro w s a s' - ih hs hw
    rw [List.countP_append, List.countP_singleton] at hw ⊢
    obtain ⟨hinv, hcount⟩ := ih (by omega)
    have hc : isMkdir a → s.uuid_counter.toNat + 1 < 2 ^ 64 := by
      intro hm
      rw [if_pos hm] at hw
      omega
    obtain ⟨hinv', hnext⟩ := hstep s a s' hinv hc hs
    refine ⟨hinv', ?_⟩
    rw [hnext]
    split
    · rename_i hm
      have := hc hm
      rw [BitVec.toNat_add_of_lt (by simpa using this), hcount]
      simp
    · exact hcount

theorem reachable_inv (hlib : lib.Documented) (h : (treeSystem lib).Run w s)
    (hw : mkdirs w < 2 ^ 64 - 1) : s.Inv ∧ s.uuid_counter.toNat = mkdirs w + 1 := by
  refine reachable_counted Call.isMkdir ?_ ?_ h hw
  · rintro s ⟨dii, time, rfl⟩
    exact ⟨start_inv lib dii time, rfl⟩
  · rintro s call s' hinv hc ⟨⟨response, hr⟩, hren⟩
    obtain ⟨response', s'', hr', hnext, hinv', -⟩ := run_tree hlib hinv hren hc
    cases hr.symm.trans hr'
    exact ⟨hinv', hnext⟩

/-- No directory had the uuid in any state that the run passed through. -/
def NeverGiven (lib : Library) (w : List Call) (u : Str) : Prop :=
  u ≠ ['0'] ∧ ∀ w₁ s₁, w₁ <+: w → (treeSystem lib).Run w₁ s₁ → ∀ k, s₁.uuid_store k ≠ some u

/-- The answer to a call after the run `w`, and what paths resolve to before and after it. -/
def Answers (lib : Library) (w : List Call) (s s' : DMStore) (response : Response) : Call → Prop
  | .mkdir p _ _ =>
    (response = .value 0 ↔ p ≠ [] ∧ (s.get_uuid lib (Path.str p.dropLast)).isSome ∧
      s.get_uuid lib p.str = none) ∧
    (response = .value 0 → ∃ u, s'.get_uuid lib p.str = some u ∧ NeverGiven lib w u ∧
      ∀ q : Path, p <+: q → q ≠ p → s'.get_uuid lib q.str = none) ∧
    ∀ q : Path, response ≠ .value 0 ∨ ¬ p <+: q → s'.get_uuid lib q.str = s.get_uuid lib q.str
  | .rmdir p =>
    (response = .value 0 ↔ p ≠ [] ∧ (s.get_uuid lib p.str).isSome) ∧
    (response = .value 0 → ∀ q : Path, p <+: q → s'.get_uuid lib q.str = none) ∧
    ∀ q : Path, response ≠ .value 0 ∨ ¬ p <+: q → s'.get_uuid lib q.str = s.get_uuid lib q.str
  | _ => ∀ q : Path, s'.get_uuid lib q.str = s.get_uuid lib q.str

theorem next_neverGiven (hlib : lib.Documented) (h : (treeSystem lib).Run w s)
    (hw : mkdirs w + 1 < 2 ^ 64 - 1) : NeverGiven lib w s.next := by
  obtain ⟨hinv, hcount⟩ := reachable_inv hlib h (by omega)
  have hnew : ¬ Issued s.uuid_counter s.next := not_issued_succ (by omega)
  constructor
  · intro he
    exact hnew (he ▸ issued_zero _)
  · intro w₁ s₁ hpre h₁ k hk
    have hle : mkdirs w₁ ≤ mkdirs w := hpre.sublist.countP_le
    obtain ⟨hinv₁, hcount₁⟩ := reachable_inv hlib h₁ (by omega)
    exact hnew ((hinv₁.issued hk).mono (by rw [BitVec.le_def]; omega))

theorem answers_of_treeStep (hlib : lib.Documented) (h : s.Inv) (h' : s'.Inv)
    {response : Response} {call : Call}
    (hnew : call.isMkdir → NeverGiven lib w s.next)
    (hstep : TreeStep s h.tree h'.tree response call) (hren : call.isRename = false) :
    Answers lib w s s' response call := by
  have hsame (ht : h'.tree = h.tree) (q : Path) : s'.get_uuid lib q.str = s.get_uuid lib q.str := by
    rw [h.get_uuid hlib, h'.get_uuid hlib, ht]
  cases call with
  | mkdir p di time =>
    simp only [Answers, h.get_uuid hlib, h'.get_uuid hlib]
    obtain ⟨rfl, hfree, hadd⟩ | ⟨rfl, hfree, ht⟩ := hstep
    · refine ⟨iff_of_true rfl hfree, fun _ => ?_, ?_⟩
      · exact ⟨s.next, hadd.1, hnew rfl, fun q hq hne => hadd.below hfree.2.2 hq hne⟩
      · intro q hq
        exact hadd.other (hq.resolve_left fun hne => hne rfl)
    · have hne : Response.value (-1) ≠ .value 0 := by
        intro he
        exact absurd (Response.value.inj he) (by decide)
      exact ⟨iff_of_false hne hfree, fun he => absurd he hne, fun q _ => by rw [ht]⟩
  | rmdir p =>
    simp only [Answers, h.get_uuid hlib, h'.get_uuid hlib]
    obtain ⟨rfl, hfound, hcut⟩ | ⟨hne, hfound, ht⟩ := hstep
    · refine ⟨iff_of_true rfl hfound, fun _ => hcut.1, fun q hq => ?_⟩
      exact hcut.2 q (hq.resolve_left fun hne => hne rfl)
    · exact ⟨iff_of_false hne hfound, fun he => absurd he hne, fun q _ => by rw [ht]⟩
  | rename old_path new_path dii time => cases hren
  | access path dii => exact hsame hstep
  | opendir path dii => exact hsame hstep
  | getAttr _return path time => exact hsame hstep
  | readdir path => exact hsame hstep

/-- As long as the counter does not wrap around, the flat store is a tree of directories. -/
theorem tree_refined (hlib : lib.Documented) (h : (treeSystem lib).Run w s) {call : Call}
    (hren : call.isRename = false) (hw : mkdirs (w ++ [call]) < 2 ^ 64 - 1) :
    ∃ response s', run lib s call = some (response, s') ∧ Answers lib w s s' response call := by
  rw [mkdirs_concat] at hw
  obtain ⟨hinv, hcount⟩ := reachable_inv hlib h (by omega)
  have hc : call.isMkdir → mkdirs w + 1 < 2 ^ 64 - 1 := by
    intro hm
    rw [if_pos hm] at hw
    exact hw
  obtain ⟨response, s', hr, -, hinv', hstep⟩ :=
    run_tree hlib hinv hren fun hm => by have := hc hm; omega
  exact ⟨response, s', hr,
    answers_of_treeStep hlib hinv hinv' (fun hm => next_neverGiven hlib h (hc hm)) hstep hren⟩

theorem oneDir_run : (treeSystem Library.posix).Run [.mkdir [nameA] blank 0] oneDir := by
  have h0 : (treeSystem Library.posix).Run [] (start Library.posix blank 0) := .nil ⟨blank, 0, rfl⟩
  exact h0.snoc ⟨⟨_, rfl⟩, rfl⟩

theorem tree_refined_nested : ∃ response s',
    run Library.posix oneDir (.mkdir [nameA, nameB] blank 0) = some (response, s') ∧
      Answers Library.posix [.mkdir [nameA] blank 0] oneDir s' response
        (.mkdir [nameA, nameB] blank 0) :=
  tree_refined Library.posix_documented oneDir_run rfl (by decide)

def startAt (c : BitVec 64) : DMStore := { start Library.posix blank 0 with uuid_counter := c }

theorem startAt_run (k : Nat) : (treeSystem Library.posix).Run
    (List.replicate k (.mkdir [] blank 0)) (startAt (BitVec.ofNat 64 (1 + k))) := by
  induction k with
  | zero => exact .nil ⟨blank, 0, rfl⟩
  | succ k ih =>
    have hnext : (startAt (BitVec.ofNat 64 (1 + k))).bumped =
        startAt (BitVec.ofNat 64 (1 + (k + 1))) := by
      rw [← Nat.add_assoc, BitVec.ofNat_add (1 + k)]
      rfl
    rw [List.replicate_succ', ← hnext]
    exact ih.snoc ⟨⟨.value (-1), by rw [run, mkdir_root rfl]⟩, rfl⟩

theorem startAt_mkdir (c : BitVec 64) :
    ∃ s', run Library.posix (startAt c) (.mkdir [nameA] blank 0) = some (.value 0, s') ∧
      s'.get_uuid Library.posix (Path.str [nameA]) = some (to_string (c + 1)) := by
  have hs : Plain (startAt c).uuid_store := (start_inv Library.posix blank 0).listed.plain
  have hmkdir : (startAt c).mkdir Library.posix always (Path.str [nameA]) blank 0 =
      (0, (startAt c).made ['0'] nameA.chars (newInode (Path.str [nameA]) blank (c + 1) 0)) :=
    mkdir_str Library.posix_documented hs [] nameA blank 0
  refine ⟨_, by rw [run, hmkdir], ?_⟩
  rw [get_uuid_str Library.posix_documented (hs.update (colon_notMem_to_string _) _)]
  rfl

theorem counter_wraps : ¬ ∀ (w : List Call) (s : DMStore) (call : Call),
    (treeSystem Library.posix).Run w s → call.isRename = false →
      ∃ response s', run Library.posix s call = some (response, s') ∧
        Answers Library.posix w s s' response call := by
  intro h
  obtain ⟨k, hk⟩ : ∃ k, BitVec.ofNat 64 (1 + k) + 1 = 0 := ⟨2 ^ 64 - 2, by decide⟩
  obtain ⟨response, s', hr, -, hmade, -⟩ :=
    h _ _ (.mkdir [nameA] blank 0) (startAt_run k) rfl
  obtain ⟨s'', hr', hget⟩ := startAt_mkdir (BitVec.ofNat 64 (1 + k))
  cases hr.symm.trans hr'
  obtain ⟨u, hu, hnew, -⟩ := hmade rfl
  rw [hk] at hget
  cases hget.symm.trans hu
  exact hnew.1 (by decide)

end DMServer

end Galois
