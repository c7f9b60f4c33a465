import Galois.FileListing
import Galois.Metadata

namespace Galois
set_option autoImplicit true
set_option relaxedAutoImplicit false

theorem FMStore.create_spec (lib : Library) (s : FMStore) (Key : Str) (fa faa : FileAccessInode)
    (fcc : FileContentInode) : ∃ s', s.create lib always Key fa faa fcc = (0, s') ∧
      s'.file_content_store Key = some { s.newContent Key fcc with error := 0 } ∧
      s'.suuid_counter = s.suuid_counter + 1 ∧ s'.sid_num = s.sid_num := by
  simp only [create, always, setAccessValue, setContentValue, KVStore.setValue_true,
    Option.map_some]
  split
  · exact ⟨_, rfl, Function.update_self .., rfl, rfl⟩
  · exact ⟨_, rfl, Function.update_self .., rfl, rfl⟩

namespace FMServer

/-- The globals of a process that runs the file server: the id in `myNodeConf`, and `inst`. -/
structure Process where
  myNodeConf : Option Int
  inst : Option FMStore

namespace Process

/-- `FMServer::getInstance` -/
def getInstance (p : Process) : FMStore × Process :=
  match p.inst with
  | some fm => (fm, p)
  | none =>
    let id := p.myNodeConf.getD 233
    let fm := FMStore.empty (BitVec.ofInt 64 id)
    (fm, { p with inst := some fm })

/-- What the constructor of `ECAL` does with the id that `findMyself` gives; `none` is `exit`. -/
def ecal (p : Process) (id : Int) : Option Process :=
  match p.myNodeConf with
  | some _ => some p
  | none => if id ≥ 0 then some { p with myNodeConf := some id } else none

/-- `main`, up to `startServer`. -/
def main (id : Int) : Option Process :=
  let p : Process := ⟨none, none⟩
  let (_, p) := p.getInstance
  p.ecal id

def create (g : Garbage) (lib : Library) (p : Process) (mode : Option Int) (path : Str) :
    Int × Process :=
  let (fm, p) := p.getInstance
  let (value, fm) := fmHandleCreate g lib fm mode path
  (value, { p with inst := some fm })

end Process

/-- A process of the cluster starts, or it serves a `create` that makes an inode. -/
inductive Turn (ι : Type) where
  | start (i : ι)
  | create (i : ι) (mode : Option Int) (path : Str) (made : FileContentInode)

def servers (w : List (Turn ι)) : List ι :=
  w.filterMap fun
    | .start _ => none
    | .create i _ _ _ => some i

def identities (w : List (Turn ι)) : List (ι × BitVec 64 × BitVec 64) :=
  w.filterMap fun
    | .start _ => none
    | .create i _ _ made => some (i, made.sid, made.suuid)

variable {i j : ι} {w : List (Turn ι)}

@[simp] theorem identities_start : identities (w ++ [.start i]) = identities w := by
  simp [identities]

@[simp] theorem identities_create {mode : Option Int} {path : Str} {made : FileContentInode} :
    identities (w ++ [.create i mode path made]) =
      identities w ++ [(i, made.sid, made.suuid)] := by
  simp [identities]

theorem map_fst_identities (w : List (Turn ι)) : (identities w).map Prod.fst = servers w := by
  rw [identities, servers, List.map_filterMap]
  congr 1
  funext turn
  cases turn <;> rfl

theorem mem_identities {x : ι × BitVec 64 × BitVec 64} (h : x ∈ identities w) :
    x.1 ∈ servers w := by
  rw [← map_fst_identities]
  exact List.mem_map_of_mem h

def numbered (i : ι) (m : Nat) : List (ι × BitVec 64 × BitVec 64) :=
  (List.range m).map fun n => (i, 233, BitVec.ofNat 64 n)

theorem numbered_nodup {m : Nat} : ((numbered i m).map Prod.snd).Nodup ↔ m ≤ 2 ^ 64 := by
  simp only [numbered, List.map_map]
  constructor
  · intro h
    by_contra hm
    have h0 : 0 ∈ List.range m := List.mem_range.2 (by omega)
    have h1 : 2 ^ 64 ∈ List.range m := List.mem_range.2 (by omega)
    have hne := List.inj_on_of_nodup_map h h0 h1 rfl
    cases hne
  · intro hm
    refine List.Nodup.map_on ?_ List.nodup_range
    intro a ha b hb hab
    have hnat := congrArg BitVec.toNat (Prod.mk.inj hab).2
    simp only [BitVec.toNat_ofNat] at hnat
    have := List.mem_range.1 ha
    have := List.mem_range.1 hb
    omega

section Cluster

variable [DecidableEq ι] (g : Garbage) (lib : Library) (id : ι → Int)

/-- The file servers of a cluster, on nodes with the given ids. -/
def cluster : System (ι → Option Process) (Turn ι) where
  init s := s = fun _ => none
  step s turn s' :=
    match turn with
    | .start i => s i = none ∧ ∃ p, Process.main (id i) = some p ∧ s' = Function.update s i (some p)
    | .create i mode path made => ∃ p p', s i = some p ∧ p.create g lib mode path = (0, p') ∧
        s' = Function.update s i (some p') ∧ (p'.getInstance.1).file_content_store path = some made

variable {g lib id} {s s' : ι → Option Process}

theorem main_inst {p : Process} {i : Int} (h : Process.main i = some p) :
    p.inst = some (FMStore.empty 233) := by
  simp only [Process.main, Process.getInstance, Process.ecal] at h
  obtain ⟨-, hp⟩ := Option.ite_none_right_eq_some.1 h
  cases hp
  rfl

/-- Each server has given the identities from 0 on, all with the same `sid`. -/
structure Numbered (w : List (Turn ι)) (s : ι → Option Process) (i : ι) (m : Nat) : Prop where
  given : (identities w).filter (·.1 = i) = numbered i m
  fresh : s i = none → m = 0
  next : ∀ p, s i = some p → ∃ fm, p.inst = some fm ∧ fm.sid_num = 233 ∧
    fm.suuid_counter = BitVec.ofNat 64 m

theorem numbered_start {mj : Nat} (hj : Numbered w s j mj) (hi : s i = none)
    {p : Process} (hp : Process.main (id i) = some p) :
    Numbered (w ++ [.start i]) (Function.update s i (some p)) j mj where
  given := by rw [identities_start, hj.given]
  fresh hs := by
    by_cases hji : j = i
    · simp [hji] at hs
    · exact hj.fresh (by rwa [Function.update_of_ne hji] at hs)
  next q hq := by
    by_cases hji : j = i
    · subst hji
      rw [Function.update_self, Option.some.injEq] at hq
      subst hq
      refine ⟨_, main_inst hp, rfl, ?_⟩
      rw [hj.fresh hi]
      rfl
    · exact hj.next q (by rwa [Function.update_of_ne hji] at hq)

theorem numbered_create {mi mj : Nat} (hi : Numbered w s i mi) (hj : Numbered w s j mj)
    {mode : Option Int} {path : Str} {made : FileContentInode}
    (hs : (cluster g lib id).step s (.create i mode path made) s') :
    Numbered (w ++ [.create i mode path made]) s' j (if j = i then mi + 1 else mj) := by
  obtain ⟨p, p', hp, hcreate, rfl, hmade⟩ := hs
  obtain ⟨fm, hfm, hsid, hnext⟩ := hi.next p hp
  obtain ⟨fm', hcreate', hcontent, hcounter, hsid'⟩ := FMStore.create_spec lib fm path
    { g.fi.fa with mode := mode.getD g.fi.fa.mode, uid := 0o777, gid := 0o777 } g.fi.fa g.fc
  have hp' : p' = { p with inst := some fm' } := by
    simp only [Process.create, Process.getInstance, hfm, fmHandleCreate, hcreate'] at hcreate
    exact (Prod.mk.inj hcreate).2.symm
  have hid : (made.sid, made.suuid) = (233, BitVec.ofNat 64 mi) := by
    rw [hp'] at hmade
    cases hcontent.symm.trans hmade
    simp only [FMStore.newContent, hsid, hnext]
  by_cases hji : j = i
  · subst hji
    rw [if_pos rfl]
    constructor
    · rw [identities_create, List.filter_append, hi.given, hid, numbered, numbered,
        List.range_succ, List.map_append]
      simp
    · intro hnone
      rw [Function.update_self] at hnone
      cases hnone
    · intro q hq
      rw [Function.update_self, Option.some.injEq] at hq
      refine ⟨fm', by rw [← hq, hp'], by rw [hsid', hsid], ?_⟩
      rw [hcounter, hnext, BitVec.ofNat_add]
      rfl
  · rw [if_neg hji]
    constructor
    · rw [identities_create, List.filter_append, hj.given]
      simp [Ne.symm hji]
    · intro hnone
      exact hj.fresh (by rwa [Function.update_of_ne hji] at hnone)
    · intro q hq
      exact hj.next q (by rwa [Function.update_of_ne hji] at hq)

theorem run_numbered (h : (cluster g lib id).Run w s) : ∀ i, ∃ m, Numbered w s i m := by
  apply h.history (I := fun w s => ∀ i, ∃ m, Numbered w s i m)
  · rintro s rfl i
    exact ⟨0, rfl, fun _ => rfl, fun p hp => absurd hp.symm (Option.some_ne_none p)⟩
  · intro w s turn s' _ ih hs j
    obtain ⟨mj, hj⟩ := ih j
    cases turn with
    | start i =>
      obtain ⟨hi, p, hp, rfl⟩ := hs
      exact ⟨mj, numbered_start hj hi hp⟩
    | create i mode path made =>
      obtain ⟨mi, hi⟩ := ih i
      exact ⟨_, numbered_create hi hj hs⟩

/-- Every server that was asked has given the same first identity. -/
theorem Numbered.first_mem {m : Nat} (h : Numbered w s i m) (hi : i ∈ servers w) :
    (i, 233, 0) ∈ identities w := by
  rw [← map_fst_identities] at hi
  obtain ⟨x, hx, rfl⟩ := List.mem_map.1 hi
  have hmem : x ∈ numbered x.1 m := by
    rw [← h.given]
    exact List.mem_filter.2 ⟨hx, decide_eq_true rfl⟩
  obtain ⟨n, hn, -⟩ := List.mem_map.1 hmem
  have h0 : (x.1, 233, 0) ∈ numbered x.1 m :=
    List.mem_map.2 ⟨0, List.mem_range.2 (by have := List.mem_range.1 hn; omega), rfl⟩
  rw [← h.given] at h0
  exact List.mem_of_mem_filter h0

theorem Numbered.alone {m : Nat} (h : Numbered w s i m) (hi : ∀ j ∈ servers w, j = i) :
    identities w = numbered i m := by
  rw [← h.given, List.filter_eq_self.2]
  intro x hx
  exact decide_eq_true (hi _ (mem_identities hx))

theorem one_server (h : (cluster g lib id).Run w s) (hnodup : ((identities w).map Prod.snd).Nodup)
    (hi : i ∈ servers w) (hj : j ∈ servers w) : i = j := by
  obtain ⟨mi, hmi⟩ := run_numbered h i
  obtain ⟨mj, hmj⟩ := run_numbered h j
  have hsame := List.inj_on_of_nodup_map hnodup (hmi.first_mem hi) (hmj.first_mem hj) rfl
  exact (Prod.mk.inj hsame).1

/-- The identities are different as long as one server alone creates files, and does not come
through its counter. -/
theorem identity_unique_iff (h : (cluster g lib id).Run w s) :
    ((identities w).map Prod.snd).Nodup ↔
      (∀ i ∈ servers w, ∀ j ∈ servers w, i = j) ∧ (servers w).length ≤ 2 ^ 64 := by
  have hlength : ∀ {i m}, identities w = numbered i m → (servers w).length = m := by
    intro i m hw
    rw [← map_fst_identities, hw, List.length_map, numbered, List.length_map, List.length_range]
  constructor
  · intro hnodup
    have hone : ∀ i ∈ servers w, ∀ j ∈ servers w, i = j :=
      fun i hi j hj => one_server h hnodup hi hj
    refine ⟨hone, ?_⟩
    cases hw : servers w with
    | nil => exact Nat.zero_le _
    | cons i rest =>
      obtain ⟨m, hm⟩ := run_numbered h i
      have hi : i ∈ servers w := by
        rw [hw]
        exact List.mem_cons_self
      have halone := hm.alone fun j hj => hone j hj i hi
      rw [halone] at hnodup
      rw [← hw, hlength halone]
      exact numbered_nodup.1 hnodup
  · rintro ⟨hone, hle⟩
    cases hw : servers w with
    | nil =>
      rw [← map_fst_identities, List.map_eq_nil_iff] at hw
      rw [hw]
      exact List.nodup_nil
    | cons i rest =>
      obtain ⟨m, hm⟩ := run_numbered h i
      have hi : i ∈ servers w := by
        rw [hw]
        exact List.mem_cons_self
      have halone := hm.alone fun j hj => hone j hj i hi
      rw [halone]
      exact numbered_nodup.2 (hlength halone ▸ hle)

theorem main_of_nonneg {i : Int} (hi : 0 ≤ i) :
    Process.main i = some ⟨some i, some (FMStore.empty 233)⟩ := by
  simp only [Process.main, Process.getInstance, Process.ecal]
  rw [if_pos hi]
  rfl

theorem create_step {p : Process} (hp : s i = some p) {fm : FMStore} (hfm : p.inst = some fm)
    (mode : Option Int) (path : Str) :
    ∃ p' made, (cluster g lib id).step s (.create i mode path made)
      (Function.update s i (some p')) := by
  obtain ⟨fm', hcreate, hcontent, -⟩ := FMStore.create_spec lib fm path
    { g.fi.fa with mode := mode.getD g.fi.fa.mode, uid := 0o777, gid := 0o777 } g.fi.fa g.fc
  refine ⟨{ p with inst := some fm' }, _, p, _, hp, ?_, rfl, hcontent⟩
  simp only [Process.create, Process.getInstance, hfm, fmHandleCreate, hcreate]

end Cluster

section Examples

open LocofsClient (exampleGarbage)

def path : Str := ['2', ':', 'f']

def ids (b : Bool) : Int := if b then 2 else 1

def running (b : Bool) : Process := ⟨some (ids b), some (FMStore.empty 233)⟩

theorem running_main (b : Bool) : Process.main (ids b) = some (running b) :=
  main_of_nonneg (by cases b <;> decide)

theorem start_step {s : Bool → Option Process} {b : Bool} (hs : s b = none) :
    (cluster exampleGarbage Library.posix ids).step s (.start b)
      (Function.update s b (some (running b))) :=
  ⟨hs, running b, running_main b, rfl⟩

theorem running_run : (cluster exampleGarbage Library.posix ids).Run [.start false, .start true]
    (fun b => some (running b)) := by
  have h0 : (cluster exampleGarbage Library.posix ids).Run [] fun _ => none := .nil rfl
  have h2 := (h0.snoc (start_step (b := false) rfl)).snoc (start_step (b := true) rfl)
  have hs : Function.update (Function.update (fun _ => none) false (some (running false))) true
      (some (running true)) = fun b => some (running b) := by
    funext b
    cases b <;> rfl
  rw [hs] at h2
  exact h2

theorem running_create (s : Bool → Option Process) (b : Bool) (hs : s b = some (running b)) :
    ∃ p made, (cluster exampleGarbage Library.posix ids).step s (.create b none path made)
      (Function.update s b (some p)) :=
  create_step hs rfl none path

theorem identity_unique_iff_one : ∃ made : FileContentInode,
    ((identities [.start false, .start true, .create false none path made]).map
      Prod.snd).Nodup := by
  obtain ⟨p, made, hs⟩ := running_create (fun b => some (running b)) false rfl
  refine ⟨made, (identity_unique_iff (running_run.snoc hs)).2 ⟨?_, by simp [servers]⟩⟩
  intro i hi j hj
  rw [List.mem_singleton.1 hi, List.mem_singleton.1 hj]

theorem identity_shared : ¬ ∀ (ι : Type) [DecidableEq ι] (g : Garbage) (lib : Library)
    (id : ι → Int), Function.Injective id → ∀ w s, (cluster g lib id).Run w s →
      ((identities w).map Prod.snd).Nodup := by
  intro h
  obtain ⟨p, made, hs⟩ := running_create (fun b => some (running b)) false rfl
  have hr := running_run.snoc hs
  obtain ⟨p', made', hs'⟩ :=
    running_create (Function.update (fun b => some (running b)) false (some p)) true rfl
  have hnodup := h Bool _ _ ids (by decide) _ _ (hr.snoc hs')
  have hsame := one_server (hr.snoc hs') hnodup (i := false) (j := true) (by simp [servers])
    (by simp [servers])
  cases hsame

end Examples

end FMServer

end Galois
