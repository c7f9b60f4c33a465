import Galois.Directory

namespace Galois
set_option autoImplicit true
set_option relaxedAutoImplicit false

/-- A change of the archived fields that `chmod` is for. -/
structure ModeChange (old new : DirectoryInode) : Prop where
  gid : new.gid = old.gid
  uid : new.uid = old.uid
  status : new.status = old.status
  old_name : new.old_name = old.old_name
  uuid : new.uuid = old.uuid

/-- A change of the archived fields that `chown` is for. -/
structure OwnerChange (old new : DirectoryInode) : Prop where
  mode : new.mode = old.mode
  status : new.status = old.status
  old_name : new.old_name = old.old_name
  uuid : new.uuid = old.uuid

namespace DMStore

variable {lib : Library} {s s' : DMStore} {p : Path} {u : Str}

def withInode (s : DMStore) (u : Str) (inode : DirectoryInode) : DMStore :=
  { s with dm_store := Function.update s.dm_store u (some inode) }

theorem chmod_of_some (hu : s.get_uuid lib p.str = some u) (di dii : DirectoryInode) (time : Int) :
    s.chmod lib always p.str di dii time = (0, s.withInode u { di with error := 0 }) := by
  simp only [chmod, hu]
  rfl

theorem chown_of_some (hu : s.get_uuid lib p.str = some u) (di dii : DirectoryInode) (time : Int) :
    s.chown lib always p.str di dii time = (0, s.withInode u
      { (s.getValue u dii).getD dii with
        uid := di.uid, gid := di.gid, ctime := time, error := 0 }) := by
  simp only [chown, hu]
  rfl

/-- The inode of every directory but the root has the name it was made under and its uuid. -/
def Described (lib : Library) (s : DMStore) : Prop :=
  ∀ (p : Path) u, p ≠ [] → s.get_uuid lib p.str = some u → ∃ inode, s.dm_store u = some inode ∧
    inode.old_name = p.str ∧ to_string inode.uuid = u

theorem Described.withInode (h : Described lib s) (u : Str) (inode : DirectoryInode)
    (hinode : ∀ p : Path, p ≠ [] → s.get_uuid lib p.str = some u →
      inode.old_name = p.str ∧ to_string inode.uuid = u) : Described lib (s.withInode u inode) := by
  intro p v hp hv
  by_cases huv : v = u
  · subst huv
    exact ⟨inode, Function.update_self .., hinode p hp hv⟩
  · obtain ⟨old, hold, hdesc⟩ := h p v hp hv
    exact ⟨old, (Function.update_of_ne huv ..).trans hold, hdesc⟩

theorem mkdir_described (hlib : lib.Documented) (h : s.Inv) (hd : Described lib s)
    (hc : s.uuid_counter.toNat + 1 < 2 ^ 64) (p : Path) (di : DirectoryInode) (time : Int) :
    Described lib (s.mkdir lib always p.str di time).2 := by
  obtain ⟨he, -⟩ | ⟨p, u, n, rfl, hp, -, hn, he⟩ :=
    mkdir_cases hlib h.listed.plain h.root p di time
  · rw [he]
    exact hd
  · rw [he]
    have h' := h.made hc (h.walk_issued hp) hn
      (newInode (Path.str (p ++ [n])) di (s.uuid_counter + 1) time)
    obtain ⟨hnew, hold⟩ := h.made_added h' hc hp hn
    intro q w hq hw
    rw [h'.get_uuid hlib] at hw
    by_cases hqp : q = p ++ [n]
    · rw [hqp, hnew] at hw
      cases hw
      exact ⟨_, Function.update_self .., congrArg Path.str hqp.symm, rfl⟩
    · rw [hold q hqp] at hw
      obtain ⟨inode, hi, hdesc⟩ := hd q w hq ((h.get_uuid hlib q).trans hw)
      have hne : w ≠ s.next := by
        rintro rfl
        exact not_issued_succ hc (h.walk_issued hw)
      exact ⟨inode, (Function.update_of_ne hne ..).trans hi, hdesc⟩

theorem rmdir_described (hlib : lib.Documented) (h : s.Inv) (hd : Described lib s) {r : Int}
    (hr : s.rmdir lib always p.str = some (r, s')) : Described lib s' := by
  obtain ⟨-, rfl, -⟩ | ⟨p, u, n, v, ec, -, rfl, hp, hu, hn, hw, hec, rfl⟩ :=
    rmdir_cases hlib h.listed.plain hr
  · exact hd
  · obtain ⟨ec', hec', hl⟩ := h.listed.remove hlib hu (n := n.chars) (by rw [hn]; rfl)
    cases hec.symm.trans hec'
    have h' : (s.unmade u n.chars v ec).Inv := h.unmade hn hl
    obtain ⟨hcut, hrest⟩ := h.unmade_cut h' hp
    intro q x hq hx
    rw [h'.get_uuid hlib] at hx
    by_cases hqp : p ++ [n] <+: q
    · rw [hcut q hqp] at hx
      cases hx
    · rw [hrest q hqp] at hx
      obtain ⟨inode, hi, hdesc⟩ := hd q x hq ((h.get_uuid hlib q).trans hx)
      have hne : x ≠ v := by
        rintro rfl
        rw [h.tree.inj hx hw] at hqp
        exact hqp (List.prefix_refl _)
      exact ⟨inode, (Function.update_of_ne hne ..).trans hi, hdesc⟩

theorem getAttr_described (hd : Described lib s) (_return : DirectoryInode) (path : Str)
    (time : Int) : Described lib (s.getAttr lib always _return path time).2 := by
  cases hv : s.dm_store ((s.get_uuid lib path).getD []) with
  | none =>
    simp only [getAttr, getValue, KVStore.getValue, hv, Option.map_none]
    exact hd
  | some di =>
    simp only [getAttr, getValue, KVStore.getValue, hv, Option.map_some]
    refine hd.withInode _ { di with ctime := time, error := 0 } fun q hq hu => ?_
    obtain ⟨inode, hi, hdesc⟩ := hd q _ hq hu
    cases hv.symm.trans hi
    exact hdesc

theorem Described.getAttr (hd : Described lib s) (hp : p ≠ [])
    (hu : s.get_uuid lib p.str = some u) (_return : DirectoryInode) (time : Int) :
    (s.getAttr lib always _return p.str time).1.error = 0 ∧
      (s.getAttr lib always _return p.str time).1.old_name = p.str ∧
      to_string (s.getAttr lib always _return p.str time).1.uuid = u := by
  obtain ⟨inode, hi, hdesc⟩ := hd p u hp hu
  simp only [DMStore.getAttr, getValue, KVStore.getValue, hu, Option.getD_some, hi, Option.map_some]
  exact ⟨trivial, hdesc⟩

/-- The call changes what is stored of the directory as `R` says, and nothing else of any. -/
structure Updates (lib : Library) (R : DirectoryInode → DirectoryInode → Prop) (p : Path)
    (s s' : DMStore) : Prop where
  changed : ∃ u old new, s.get_uuid lib p.str = some u ∧ s.dm_store u = some old ∧
    s'.dm_store u = some new ∧ R old new
  resolves : ∀ q : Path, s'.get_uuid lib q.str = s.get_uuid lib q.str
  others : ∀ (q : Path) v, q ≠ p → s.get_uuid lib q.str = some v → s'.dm_store v = s.dm_store v

theorem updates_withInode (hlib : lib.Documented) (h : s.Inv) {old : DirectoryInode}
    (hu : s.get_uuid lib p.str = some u) (hold : s.dm_store u = some old)
    {R : DirectoryInode → DirectoryInode → Prop} (new : DirectoryInode) :
    Updates lib R p s (s.withInode u new) ↔ R old new := by
  have hself : (s.withInode u new).dm_store u = some new := Function.update_self ..
  constructor
  · rintro ⟨⟨u', old', new', hu', hold', hnew', hR⟩, -, -⟩
    cases hu.symm.trans hu'
    cases hold.symm.trans hold'
    cases hself.symm.trans hnew'
    exact hR
  · intro hR
    refine ⟨⟨u, old, new, hu, hold, hself, hR⟩, fun q => rfl, fun q v hq hv => ?_⟩
    refine Function.update_of_ne ?_ ..
    rintro rfl
    rw [h.get_uuid hlib] at hu hv
    exact hq (h.tree.inj hv hu)

end DMStore

/-- A request to the directory server, or one that changes the attributes of a directory. -/
inductive AttrCall where
  | tree (call : Call)
  | chmod (path : Path) (di dii : DirectoryInode) (time : Int)
  | chown (path : Path) (di dii : DirectoryInode) (time : Int)

def AttrCall.isMkdir : AttrCall → Bool
  | .tree call => call.isMkdir
  | _ => false

namespace DMServer

open DMStore

variable {lib : Library} {s s' : DMStore} {p : Path} {u : Str} {w : List AttrCall}

/-- The stored inode and the argument of a `chmod` differ only in what it is to change. -/
def Carries (lib : Library) (s : DMStore) (p : Path) (di : DirectoryInode) : Prop :=
  ∀ u inode, s.get_uuid lib p.str = some u → s.dm_store u = some inode → ModeChange inode di

/-- The server without `rename`, as long as every `chmod` but those of the root is given an
inode that carries the stored one. -/
def attrSystem (lib : Library) : System DMStore AttrCall where
  init := (system lib).init
  step s a s' := match a with
    | .tree call => (treeSystem lib).step s call s'
    | .chmod p di dii time =>
      s' = (s.chmod lib always p.str di dii time).2 ∧ (p = [] ∨ Carries lib s p di)
    | .chown p di dii time => s' = (s.chown lib always p.str di dii time).2

theorem start_described (hlib : lib.Documented) (dii : DirectoryInode) (time : Int) :
    Described lib (start lib dii time) := by
  intro p u hp hu
  rw [(start_inv lib dii time).get_uuid hlib] at hu
  obtain ⟨n, q, rfl⟩ := List.exists_cons_of_ne_nil hp
  have hwalk : (links (start lib dii time).uuid_store ['0'] n).bind
      (Links.walk (links (start lib dii time).uuid_store) · q) = some u := hu
  obtain ⟨v, hv, -⟩ := Option.bind_eq_some_iff.1 hwalk
  have hkey : (Function.update (fun _ => none) ['/'] (some (to_string 1)) : KVStore Str)
      (key ['0'] n.chars) = some v := (links_eq_some.1 hv).2
  rw [Function.update_of_ne (key_ne_root _ _)] at hkey
  cases hkey

theorem chmod_described (hlib : lib.Documented) (h : s.Inv) (hd : Described lib s)
    {di : DirectoryInode} (hdi : p = [] ∨ Carries lib s p di) (dii : DirectoryInode) (time : Int) :
    ((s.chmod lib always p.str di dii time).2.Inv ∧
      Described lib (s.chmod lib always p.str di dii time).2) ∧
      (s.chmod lib always p.str di dii time).2.uuid_counter = s.uuid_counter := by
  cases hu : s.get_uuid lib p.str with
  | none =>
    simp only [chmod, hu]
    exact ⟨⟨h, hd⟩, trivial⟩
  | some u =>
    rw [chmod_of_some hu]
    refine ⟨⟨h.touched _ _, hd.withInode u _ fun q hq hqu => ?_⟩, rfl⟩
    have hpq : p = q := by
      rw [h.get_uuid hlib] at hu hqu
      exact h.tree.inj hu hqu
    subst hpq
    obtain ⟨inode, hi, hname, huuid⟩ := hd p u hq hu
    have hmode := hdi.resolve_left hq u inode hu hi
    exact ⟨hmode.old_name.trans hname, (congrArg to_string hmode.uuid).trans huuid⟩

theorem chown_described (h : s.Inv) (hd : Described lib s) (p : Path)
    (di dii : DirectoryInode) (time : Int) : ((s.chown lib always p.str di dii time).2.Inv ∧
      Described lib (s.chown lib always p.str di dii time).2) ∧
      (s.chown lib always p.str di dii time).2.uuid_counter = s.uuid_counter := by
  cases hu : s.get_uuid lib p.str with
  | none =>
    simp only [chown, hu]
    exact ⟨⟨h, hd⟩, trivial⟩
  | some u =>
    rw [chown_of_some hu]
    refine ⟨⟨h.touched _ _, hd.withInode u _ fun q hq hqu => ?_⟩, rfl⟩
    obtain ⟨inode, hi, hdesc⟩ := hd q u hq hqu
    simp only [getValue, KVStore.getValue, hi, Option.map_some, Option.getD_some]
    exact hdesc

theorem reachable_described (hlib : lib.Documented) (h : (attrSystem lib).Run w s)
    (hw : w.countP AttrCall.isMkdir < 2 ^ 64 - 1) : s.Inv ∧ Described lib s := by
  refine (reachable_counted (I := fun s => s.Inv ∧ Described lib s) AttrCall.isMkdir ?_ ?_ h hw).1
  · rintro s ⟨dii, time, rfl⟩
    exact ⟨⟨start_inv lib dii time, start_described hlib dii time⟩, rfl⟩
  · rintro s a s' ⟨hs, hd⟩ hc hstep
    cases a with
    | chmod p di dii time =>
      obtain ⟨rfl, hdi⟩ := hstep
      exact chmod_described hlib hs hd hdi dii time
    | chown p di dii time =>
      cases hstep
      exact chown_described hs hd p di dii time
    | tree call =>
      obtain ⟨⟨response, hr⟩, hren⟩ := hstep
      obtain ⟨response', s'', hr', hnext, hs', -⟩ := run_tree hlib hs hren hc
      cases hr.symm.trans hr'
      refine ⟨⟨hs', ?_⟩, hnext⟩
      apply run_keeps hr fun _ => hd
      · rintro path di time rfl
        exact mkdir_described hlib hs hd (hc rfl) path di time
      · rintro path r s₁ rfl hrun
        exact rmdir_described hlib hs hd hrun
      · rintro old new dii time r s₁ rfl -
        cases hren
      · exact fun _ => getAttr_described hd

/-- `chmod` stores its argument as it is; where every argument carries the stored inode, the
attributes that name a directory stay. -/
theorem attributes_iff (hlib : lib.Documented) (h : (attrSystem lib).Run w s)
    (hw : w.countP AttrCall.isMkdir < 2 ^ 64 - 1) (hp : p ≠ [])
    (hu : s.get_uuid lib p.str = some u) (di dii : DirectoryInode) (time : Int) :
    (Updates lib ModeChange p s (s.chmod lib always p.str di dii time).2 ↔ Carries lib s p di) ∧
      Updates lib OwnerChange p s (s.chown lib always p.str di dii time).2 ∧
      (s.getAttr lib always dii p.str time).1.error = 0 ∧
      (s.getAttr lib always dii p.str time).1.old_name = p.str ∧
      to_string (s.getAttr lib always dii p.str time).1.uuid = u := by
  obtain ⟨hs, hd⟩ := reachable_described hlib h hw
  obtain ⟨inode, hi, -⟩ := hd p u hp hu
  refine ⟨?_, ?_, hd.getAttr hp hu dii time⟩
  · rw [chmod_of_some hu, updates_withInode hlib hs hu hi]
    constructor
    · intro hR u' inode' hu' hi'
      cases hu.symm.trans hu'
      cases hi.symm.trans hi'
      exact ⟨hR.gid, hR.uid, hR.status, hR.old_name, hR.uuid⟩
    · intro hcarries
      obtain ⟨hgid, huid, hstatus, hname, huuid⟩ := hcarries u inode hu hi
      exact ⟨hgid, huid, hstatus, hname, huuid⟩
  · rw [chown_of_some hu, updates_withInode hlib hs hu hi]
    simp only [getValue, KVStore.getValue, hi, Option.map_some, Option.getD_some]
    exact ⟨rfl, rfl, rfl, rfl⟩

def openA : DirectoryInode := newInode (Path.str [nameA]) { blank with mode := 7 } 2 0

theorem attributes_iff_open : Updates Library.posix ModeChange [nameA] oneDir
    (oneDir.chmod Library.posix always (Path.str [nameA]) openA blank 0).2 := by
  have h0 : (attrSystem Library.posix).Run [] (start Library.posix blank 0) := .nil ⟨blank, 0, rfl⟩
  have hrun : (attrSystem Library.posix).Run [.tree (.mkdir [nameA] blank 0)] oneDir :=
    h0.snoc ⟨⟨_, rfl⟩, rfl⟩
  have hu : oneDir.get_uuid Library.posix (Path.str [nameA]) = some ['2'] := by decide
  apply (attributes_iff Library.posix_documented hrun (by decide) (by decide) hu openA blank 0).1.2
  intro u inode hu' hi
  cases hu.symm.trans hu'
  cases hi
  exact ⟨rfl, rfl, rfl, rfl, rfl⟩

/-- A `chmod` of `/a` with an inode that has nothing but a mode. -/
theorem chmod_loses_uuid : (treeSystem Library.posix).Run [.mkdir [nameA] blank 0] oneDir ∧
    oneDir.get_uuid Library.posix (Path.str [nameA]) = some ['2'] ∧
    ¬ Updates Library.posix ModeChange [nameA] oneDir (oneDir.chmod Library.posix always
      (Path.str [nameA]) { blank with mode := 7 } blank 0).2 ∧
    to_string ((oneDir.chmod Library.posix always (Path.str [nameA]) { blank with mode := 7 } blank
      0).2.getAttr Library.posix always blank (Path.str [nameA]) 0).1.uuid = ['0'] := by
  have hu : oneDir.get_uuid Library.posix (Path.str [nameA]) = some ['2'] := by decide
  refine ⟨oneDir_run, hu, fun h => ?_, by decide⟩
  obtain ⟨u, old, new, hu', hold, hnew, hmode⟩ := h.changed
  cases hu.symm.trans hu'
  rw [chmod_of_some hu] at hnew
  cases hold
  cases hnew
  exact absurd hmode.old_name (by decide)

end DMServer

end Galois
