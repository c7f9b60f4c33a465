import Galois.Clients

namespace Galois
set_option autoImplicit true
set_option relaxedAutoImplicit false

open Prog Client LocofsClient

namespace DMStore

variable {lib : Library} {s s' : DMStore} {E : KVStore Str} {path value k : Str}
  {vbuf : List Str}

/-- The keys that `follow` looks up. -/
def trail (uuid_store : KVStore Str) (value : Str) : List Str → List Str
  | [] => []
  | n :: vbuf =>
    key value n :: match uuid_store.getValue (key value n) with
      | none => []
      | some value => trail uuid_store value vbuf

def Through (lib : Library) (s : DMStore) (path k : Str) : Prop :=
  path ≠ ['/'] ∧ k ∈ trail s.uuid_store ['0'] ((components lib path).drop 1)

/-- Every inode is stored under its own uuid. -/
def Tagged (s : DMStore) : Prop := ∀ v di, s.dm_store v = some di → v = to_string di.uuid

theorem follow_erase (h : k ∉ trail E value vbuf) :
    follow (Function.update E k none) value vbuf = follow E value vbuf := by
  induction vbuf generalizing value with
  | nil => rfl
  | cons n vbuf ih =>
    simp only [trail, KVStore.getValue, List.mem_cons, not_or] at h
    obtain ⟨hne, h⟩ := h
    simp only [follow, KVStore.getValue, Function.update_of_ne (Ne.symm hne)]
    cases hE : E (key value n) with
    | none => rfl
    | some v =>
      simp only [hE] at h
      exact ih h

theorem mkdir_adds (lib : Library) (s : DMStore) (path : Str) (di : DirectoryInode) (time : Int)
    (h : (s.mkdir lib always path di time).2 = s') :
    (s'.uuid_store = s.uuid_store ∧ s'.dm_store = s.dm_store) ∨ ∃ k inode, s.uuid_store k = none ∧
      s'.uuid_store = Function.update s.uuid_store k (some (to_string inode.uuid)) ∧
      s'.dm_store = Function.update s.dm_store (to_string inode.uuid) (some inode) := by
  subst h
  rw [mkdir]
  split
  · exact .inl ⟨rfl, rfl⟩
  · rename_i puuid key_uuid hkey
    cases hfree : s.uuid_store key_uuid with
    | some v =>
      simp only [KVStore.getValue, hfree, Option.isSome_some, ↓reduceIte, true_and, true_or]
    | none =>
      refine .inr ⟨key_uuid, newInode path di (s.uuid_counter + 1) time, hfree, ?_⟩
      simp only [KVStore.getValue, hfree, Option.isSome_none, Bool.false_eq_true, ↓reduceIte,
        always, KVStore.setValue_true, setValue, Option.map_some]
      split <;> exact ⟨rfl, rfl⟩

theorem mkdir_grows {di : DirectoryInode} {time : Int}
    (h : (s.mkdir lib always path di time).2 = s') (hk : s.uuid_store k = some v) :
    s'.uuid_store k = some v := by
  obtain ⟨hu, -⟩ | ⟨k', inode, hfree, hu, -⟩ := mkdir_adds lib s path di time h
  · rw [hu]
    exact hk
  · have hne : k ≠ k' := by
      rintro rfl
      rw [hfree] at hk
      cases hk
    rw [hu, Function.update_of_ne hne]
    exact hk

theorem Tagged.mkdir (hs : s.Tagged) {di : DirectoryInode} {time : Int}
    (h : (s.mkdir lib always path di time).2 = s') : s'.Tagged := by
  obtain ⟨-, hd⟩ | ⟨k, inode, -, -, hd⟩ := mkdir_adds lib s path di time h
  · intro v di hdi
    rw [hd] at hdi
    exact hs v di hdi
  · intro v di hdi
    rw [hd, Function.update_apply] at hdi
    split at hdi
    · rename_i hv
      cases hdi
      exact hv
    · exact hs v di hdi

theorem rmdir_erases {r : Int} (h : s.rmdir lib always path = some (r, s')) :
    (∀ v di, s'.dm_store v = some di → s.dm_store v = some di) ∧
      ((r ≠ 0 ∧ s'.uuid_store = s.uuid_store) ∨ r = 0 ∧ ∃ puuid uuid,
        s.get_2_uuid lib path = some (puuid, uuid) ∧
        s'.uuid_store = Function.update s.uuid_store (key puuid (lib.filename path)) none) := by
  rw [rmdir] at h
  split at h
  · cases h
    exact ⟨fun v di hdi => hdi, .inl ⟨by decide, rfl⟩⟩
  · split at h
    · cases h
      exact ⟨fun v di hdi => hdi, .inl ⟨by decide, rfl⟩⟩
    · rename_i puuid uuid hget
      split at h
      · cases h
        exact ⟨fun v di hdi => hdi, .inl ⟨by decide, rfl⟩⟩
      · rename_i dm_store hdm
        obtain ⟨-, he⟩ := Option.ite_none_right_eq_some.1 hdm
        have hkept : ∀ v di, dm_store v = some di → s.dm_store v = some di := by
          intro v di hdi
          rw [← Option.some.inj he, Function.update_apply] at hdi
          split at hdi
          · cases hdi
          · exact hdi
        dsimp only at h
        split at h
        · cases h
          exact ⟨hkept, .inl ⟨by decide, rfl⟩⟩
        · rename_i uuid_store huuid
          obtain ⟨ec, -, he⟩ := Option.map_eq_some_iff.1 h
          cases he
          obtain ⟨-, he⟩ := Option.ite_none_right_eq_some.1 huuid
          cases he
          exact ⟨hkept, .inr ⟨rfl, puuid, uuid, hget, rfl⟩⟩

theorem Tagged.rmdir (hs : s.Tagged) {r : Int} (h : s.rmdir lib always path = some (r, s')) :
    s'.Tagged :=
  fun v di hdi => hs v di ((rmdir_erases h).1 v di hdi)

theorem Tagged.getAttr (hs : s.Tagged) (lib : Library) (_return : DirectoryInode) (path : Str)
    (time : Int) : (s.getAttr lib always _return path time).2.Tagged := by
  have halike := getAttr_alike lib s _return path time
  intro v di hdi
  have huuid := halike.uuid v
  rw [hdi] at huuid
  obtain ⟨di', hdi', he⟩ := Option.map_eq_some_iff.1 huuid.symm
  exact (hs v di' hdi').trans (congrArg to_string he)

theorem Tagged.stat (hs : s.Tagged) {g : Garbage} {time : Int}
    (h : ¬(dmHandleStat g lib s path time).1.result < 0) :
    s.get_uuid lib path = some (to_string (dmHandleStat g lib s path time).1.stat.uuid) := by
  cases hdi : s.inodeAt lib path with
  | none =>
    rw [inodeAt] at hdi
    simp only [dmHandleStat, DMStore.getAttr, getValue, KVStore.getValue, hdi, Option.map_none] at h
    exact absurd (show (-1 : Int) < 0 by decide) h
  | some di =>
    rw [dmHandleStat, getAttr_of_some hdi]
    have huuid := hs _ di hdi
    cases hget : s.get_uuid lib path with
    | none =>
      rw [hget] at huuid
      exact absurd huuid.symm Nat.toDigits_ne_nil
    | some v =>
      rw [hget] at huuid
      exact congrArg some huuid

theorem stat_snd (g : Garbage) (lib : Library) (s : DMStore) (path : Str) (time : Int) :
    (dmHandleStat g lib s path time).2 = (s.getAttr lib always g.di path time).2 := by
  simp only [dmHandleStat]
  split <;> rfl

theorem get_uuid_grows (h : ∀ k v, s.uuid_store k = some v → s'.uuid_store k = some v) {w : Str}
    (hg : s.get_uuid lib path = some w) : s'.get_uuid lib path = some w := by
  rw [get_uuid] at hg ⊢
  split at hg
  · next he => rw [if_pos he]; exact hg
  · next he => rw [if_neg he]; exact follow_grows h hg

theorem get_uuid_erase (h : s'.uuid_store = Function.update s.uuid_store k none)
    (hk : ¬ s.Through lib path k) : s'.get_uuid lib path = s.get_uuid lib path := by
  rw [get_uuid, get_uuid]
  split
  · rfl
  · rename_i hroot
    rw [h]
    exact follow_erase fun hmem => hk ⟨hroot, hmem⟩

end DMStore

namespace FileSystem

theorem handle_grows {g : Garbage} {lib : Library} {clock : Nat → Int} {s s' : FileSystem}
    {o : Op} {r : o.Res} (h : handle g lib clock o s = some (r, s'))
    (ho : ∀ path, o ≠ .rmdir path) :
    (∀ k v, s.dm.uuid_store k = some v → s'.dm.uuid_store k = some v) ∧
      (s.dm.Tagged → s'.dm.Tagged) := by
  cases o with
  | rmdir path => exact absurd rfl (ho path)
  | mkdir path =>
    cases h
    exact ⟨fun k v hk => DMStore.mkdir_grows rfl hk, fun hs => hs.mkdir rfl⟩
  | dirStat path =>
    have hdm : s'.dm = (s.dm.getAttr lib always g.di path (clock s.time)).2 := by
      rw [← DMStore.stat_snd]
      cases h
      rfl
    have halike := DMStore.getAttr_alike lib s.dm g.di path (clock s.time)
    rw [hdm]
    exact ⟨fun k v hk => halike.uuid_store ▸ hk, fun hs => hs.getAttr lib _ _ _⟩
  | remove path =>
    obtain ⟨⟨r', fm⟩, -, he⟩ := Option.map_eq_some_iff.1 h
    cases he
    exact ⟨fun k v hk => hk, id⟩
  | fileReaddir server value =>
    obtain ⟨fm, -, he⟩ := Option.map_eq_some_iff.1 h
    cases he
    exact ⟨fun k v hk => hk, id⟩
  | undefined => cases h
  | _ =>
    cases h
    exact ⟨fun k v hk => hk, id⟩

end FileSystem

namespace Deployment

variable {ι : Type} {lib : Library} {clock : Nat → Int} {g : Garbage} {s s' : Deployment ι}
  {i j : ι} {o : Op} {r : o.Res} {path : Str} {u : BitVec 64}

/-- Every uuid in a cache is the one that its path resolves to. -/
structure Coherent (lib : Library) (s : Deployment ι) : Prop where
  tagged : s.servers.dm.Tagged
  cached : ∀ {i q u}, (s.cache i).Holds q u →
    s.servers.dm.get_uuid lib (requestPath q) = some (to_string u)

/-- The entries of a cache that an `rmdir` of a client forgets. -/
def Forgets (i : ι) (call : ClientCall) (j : ι) (q : Str) : Prop :=
  j = i ∧ ∃ path, call = .rmdir path ∧ q = checkedPath path

/-- An `rmdir` that succeeds leaves no path in a cache that is looked up through the key it
takes away. -/
def Spares (lib : Library) (s : Deployment ι) (i : ι) (call : ClientCall) : Op → Prop
  | .rmdir p => ∀ dm puuid uuid, dmHandleRmdir lib s.servers.dm p = some (0, dm) →
      s.servers.dm.get_2_uuid lib p = some (puuid, uuid) →
      ∀ j q u, (s.cache j).Holds q u → ¬ Forgets i call j q →
        ¬ s.servers.dm.Through lib (requestPath q) (key puuid (lib.filename p))
  | _ => True

variable [DecidableEq ι]

theorem Coherent.request (hs : s.Coherent lib) (h : handle lib clock g i o s = some (r, s'))
    (hl : Client.isLocal o = false) (ho : ∀ path, o ≠ .rmdir path) : s'.Coherent lib := by
  have hcache := handle_request h hl
  obtain ⟨fs, hfs, rfl⟩ := handle_eq_some h
  obtain ⟨hgrows, htagged⟩ := FileSystem.handle_grows hfs ho
  refine ⟨htagged hs.tagged, fun {j q u} hq => ?_⟩
  rw [hcache] at hq
  exact DMStore.get_uuid_grows hgrows (hs.cached hq)

theorem Coherent.cacheGet (hs : s.Coherent lib) {r : Option (BitVec 64)}
    (h : handle lib clock g i (.cacheGet path) s = some (r, s')) :
    s'.Coherent lib ∧ s'.servers.dm = s.servers.dm ∧ ∀ u, r = some u →
      s.servers.dm.get_uuid lib (requestPath path) = some (to_string u) := by
  obtain ⟨fs, hfs, rfl⟩ := handle_eq_some h
  cases hfs
  refine ⟨⟨hs.tagged, fun {j q u} hq => ?_⟩, rfl, fun u hu => ?_⟩
  · dsimp only at hq
    rw [Function.update_apply] at hq
    split at hq
    · exact hs.cached hq.of_get
    · exact hs.cached hq
  · have hcached : (s.cache i).cached path = some u :=
      (LruCache.get_fst (s.cache i) path (clock s.servers.time)).symm.trans hu
    exact hs.cached (.of_cached hcached)

theorem Coherent.cacheSet (hs : s.Coherent lib)
    (hu : s.servers.dm.get_uuid lib (requestPath path) = some (to_string u)) {r : Unit}
    (h : handle lib clock g i (.cacheSet path u) s = some (r, s')) :
    s'.Coherent lib ∧ s'.servers.dm = s.servers.dm := by
  obtain ⟨fs, hfs, rfl⟩ := handle_eq_some h
  cases hfs
  refine ⟨⟨hs.tagged, fun {j q v} hq => ?_⟩, rfl⟩
  dsimp only at hq
  rw [Function.update_apply] at hq
  split at hq
  · cases hq.of_set with
    | inl he =>
      obtain ⟨rfl, rfl⟩ := he
      exact hu
    | inr hq => exact hs.cached hq
  · exact hs.cached hq

theorem Coherent.dirStat (hs : s.Coherent lib) {response : StatResponse LocoDirStat}
    (h : handle lib clock g i (.dirStat path) s = some (response, s'))
    (hresult : ¬ response.result < 0) :
    s.servers.dm.get_uuid lib path = some (to_string response.stat.uuid) ∧
      s'.servers.dm.get_uuid lib path = some (to_string response.stat.uuid) := by
  obtain ⟨fs, hfs, rfl⟩ := handle_eq_some h
  have hgrows := (FileSystem.handle_grows hfs nofun).1
  have hfound : s.servers.dm.get_uuid lib path = some (to_string response.stat.uuid) := by
    cases hfs
    exact hs.tagged.stat hresult
  exact ⟨hfound, DMStore.get_uuid_grows hgrows hfound⟩

theorem Coherent.rmdir (hs : s.Coherent lib) {r : Int} {call : ClientCall}
    (h : handle lib clock g i (.rmdir path) s = some (r, s'))
    (hspares : Spares lib s i call (.rmdir path)) :
    s'.servers.dm.Tagged ∧ s'.cache = s.cache ∧ ∀ {j q u}, (s.cache j).Holds q u →
      (r = 0 → ¬ Forgets i call j q) →
      s'.servers.dm.get_uuid lib (requestPath q) = some (to_string u) := by
  have hcache := handle_request h rfl
  obtain ⟨fs, hfs, rfl⟩ := handle_eq_some h
  obtain ⟨⟨r', dm⟩, hdm, he⟩ := Option.map_eq_some_iff.1 hfs
  cases he
  refine ⟨hs.tagged.rmdir hdm, hcache, fun {j q u} hq hforget => ?_⟩
  obtain ⟨-, ⟨-, hsame⟩ | ⟨rfl, puuid, uuid, hget, herase⟩⟩ := DMStore.rmdir_erases hdm
  · exact DMStore.get_uuid_grows (fun k v hk => hsame ▸ hk) (hs.cached hq)
  · rw [DMStore.get_uuid_erase herase (hspares dm puuid uuid hdm hget j q u hq (hforget rfl))]
    exact hs.cached hq

theorem Coherent.cacheRemove {q : Str} (htagged : s.servers.dm.Tagged)
    (hs : ∀ {j p u}, (s.cache j).Holds p u → ¬(j = i ∧ p = q) →
      s.servers.dm.get_uuid lib (requestPath p) = some (to_string u)) {r : Unit}
    (h : handle lib clock g i (.cacheRemove q) s = some (r, s')) : s'.Coherent lib := by
  obtain ⟨fs, hfs, rfl⟩ := handle_eq_some h
  cases hfs
  refine ⟨htagged, fun {j p u} hp => ?_⟩
  dsimp only at hp
  rw [Function.update_apply] at hp
  split at hp
  · next hj =>
    obtain ⟨hne, hp⟩ := hp.of_remove
    subst hj
    exact hs hp fun he => hne he.2
  · next hj => exact hs hp fun he => hj he.1

end Deployment

namespace ClientCall

/-- The file that a call looks up, by its path as the client sends it. -/
def target : ClientCall → Option Str
  | .openFile path => some path
  | .create path => some (checkedPath path)
  | _ => none

def Names : ClientCall → Prop
  | .mkdir _ | .rmdir _ | .openFile _ | .create _ => True
  | .unlink _ | .write _ _ _ _ => False

instance : DecidablePred Names
  | .mkdir _ | .rmdir _ | .openFile _ | .create _ => .isTrue trivial
  | .unlink _ | .write _ _ _ _ => .isFalse id

/-- The path of the parent arrives whole. -/
def Whole (lib : Library) (call : ClientCall) : Prop :=
  ∀ path, call.target = some path → requestPath (lib.parent_path path) = lib.parent_path path

end ClientCall

namespace Deployment

variable {ι : Type} {lib : Library} {clock : Nat → Int} {i : ι} {call : ClientCall} {path : Str}

/-- The parent of the path was found in one of the states, with the uuid that is in the keys. -/
def Resolved (lib : Library) (seen : List (Deployment ι)) (sent : List Op) (path : Str) : Prop :=
  ∃ s ∈ seen, ∃ u, s.servers.dm.get_uuid lib (lib.parent_path path) = some (to_string u) ∧
    sentKeys sent ≠ [] ∧
    ∀ k ∈ sentKeys sent, k = requestPath (key (to_string u) (lib.filename path))

def coherence (ι : Type) (lib : Library) : Outline sig ι ClientCall Bool (Deployment ι) where
  inv := Coherent lib
  pre _ call := call.Names ∧ call.Whole lib
  rely _ _ _ _ _ := True
  clear i call o s := s.Spares lib i call o
  guar _ _ _ _ _ := True
  post _ call b seen sent _ :=
    b = true → ∀ path, call.target = some path → Resolved lib seen sent path

theorem coherence_compatible : (coherence ι lib).Compatible fun q i call o =>
    q.state.Spares lib i call o where
  refl _ := trivial
  trans _ _ := trivial
  start _ _ _ := trivial
  clear h := h
  turn _ _ _ _ _ := trivial
  keep _ h := h

variable {m : Moment sig (Deployment ι)}

theorem ends (h : m.now.Coherent lib) : m.Ends ((coherence ι lib).contract i call) := ⟨h, trivial⟩

theorem final_of_resolved (hm : m.now.Coherent lib) {b : Bool}
    (hb : b = true → ∀ path, call.target = some path →
      Resolved lib (m.now :: m.seen) m.sent path) : (coherence ι lib).Final i call b m :=
  ⟨ends hm, hb⟩

theorem resolved_of_found {seen seen' : List (Deployment ι)} {sent : List Op} {k : Str}
    (hk : ∃ s ∈ seen, ∃ u, s.servers.dm.get_uuid lib (lib.parent_path path) = some (to_string u) ∧
      k = key (to_string u) (lib.filename path))
    (hseen : seen ⊆ seen') (hne : sentKeys sent ≠ [])
    (hsent : ∀ k' ∈ sentKeys sent, k' = requestPath k) : Resolved lib seen' sent path := by
  obtain ⟨s, hs, u, hu, rfl⟩ := hk
  exact ⟨s, hseen hs, u, hu, hne, hsent⟩

section Safe

variable [DecidableEq ι]

variable (i call) in
/-- A program of a client that keeps the caches coherent. -/
abbrev Coheres (lib : Library) (clock : Nat → Int) (Q : α → Moment sig (Deployment ι) → Prop)
    (p : Prog sig α) (m : Moment sig (Deployment ι)) : Prop :=
  p.Safe Client.isLocal (fun g => handle lib clock g i) ((coherence ι lib).contract i call) Q m

theorem coheres_request {Q : α → Moment sig (Deployment ι) → Prop} {o : Op} {k : o.Res → Prog sig α}
    (hl : Client.isLocal o = false) (ho : ∀ path, o ≠ .rmdir path) (hm : m.now.Coherent lib)
    (hk : ∀ s seen g r s', s.Coherent lib → s ∈ seen → m.now :: m.seen ⊆ seen →
      handle lib clock g i o s = some (r, s') → s'.Coherent lib →
      Coheres i call lib clock Q (k r) ⟨some o, s, s', seen, o :: m.sent⟩) :
    Coheres i call lib clock Q (.call o k) m := by
  apply Safe.request hl (ends hm)
  intro s seen hs _ hmem hseen _ g r s' h
  exact hk s seen g r s' hs hmem hseen h (Coherent.request hs h hl ho)

theorem get_uuid_coheres {Q : Option (BitVec 64) → Moment sig (Deployment ι) → Prop}
    (hm : m.now.Coherent lib) (hmem : m.now ∈ m.seen)
    (hQ : ∀ r m', m'.now.Coherent lib → sentKeys m'.sent = sentKeys m.sent →
      (∀ u, r = some u → ∃ s ∈ m'.seen,
        s.servers.dm.get_uuid lib (requestPath path) = some (to_string u)) → Q r m') :
    Coheres i call lib clock Q (get_uuid path) m := by
  apply Safe.local rfl
  intro g r s hget
  obtain ⟨hs, -, hcached⟩ := hm.cacheGet hget
  cases r with
  | some u =>
    apply Safe.ret
    refine hQ _ _ hs rfl fun v hv => ⟨m.now, hmem, ?_⟩
    cases hv
    exact hcached u rfl
  | none =>
    have hne (p : Str) : Op.dirStat (requestPath path) ≠ .rmdir p := nofun
    apply coheres_request rfl hne hs
    intro s₁ seen g₁ response s₂ hs₁ hmem₁ hseen hstat hs₂
    change Coheres i call lib clock Q (if response.result < 0 then .ret none else
      .call (.cacheSet path response.stat.uuid) fun _ => .ret (some response.stat.uuid)) _
    by_cases hresult : response.result < 0
    · rw [if_pos hresult]
      exact Safe.ret (hQ _ _ hs₂ rfl fun v hv => by cases hv)
    · rw [if_neg hresult]
      obtain ⟨hfound, hfound'⟩ := hs₁.dirStat hstat hresult
      apply Safe.local rfl
      intro g₂ r s₃ hset
      obtain ⟨hs₃, -⟩ := hs₂.cacheSet hfound' hset
      apply Safe.ret
      refine hQ _ _ hs₃ rfl fun v hv => ⟨s₁, hmem₁, ?_⟩
      cases hv
      exact hfound

theorem get_file_key_coheres {c : LocofsClient} {Q : Option Str → Moment sig (Deployment ι) → Prop}
    (hm : m.now.Coherent c.lib) (hmem : m.now ∈ m.seen)
    (hwhole : requestPath (c.lib.parent_path path) = c.lib.parent_path path)
    (hQ : ∀ r m', m'.now.Coherent c.lib → sentKeys m'.sent = sentKeys m.sent →
      (∀ k, r = some k → ∃ s ∈ m'.seen, ∃ u,
        s.servers.dm.get_uuid c.lib (c.lib.parent_path path) = some (to_string u) ∧
        k = key (to_string u) (c.lib.filename path)) → Q r m') :
    Coheres i call c.lib clock Q (c.get_file_key path) m := by
  apply Safe.bind
  apply get_uuid_coheres hm hmem
  intro r m' hm' hsent hfound
  cases r with
  | none => exact Safe.ret (hQ _ _ hm' hsent fun k hk => by cases hk)
  | some u =>
    apply Safe.ret
    refine hQ _ _ hm' hsent fun k hk => ?_
    obtain ⟨s, hs, hu⟩ := hfound u rfl
    cases hk
    exact ⟨s, hs, u, hwhole ▸ hu, rfl⟩

theorem check_path_coheres {Q : α → Moment sig (Deployment ι) → Prop} {f : Str → Prog sig α}
    (hm : m.now.Coherent lib) (hf : Coheres i call lib clock Q (f (checkedPath path)) m) :
    Coheres i call lib clock Q (check_path path >>= f) m := by
  by_cases hp : path = []
  · rw [check_path, if_pos hp]
    apply Safe.request rfl (ends hm)
    intro s seen _ _ _ _ _ g r s' h
    cases r
  · rw [check_path_of_ne_nil hp]
    exact hf

theorem create_coheres {c : LocofsClient} (hm : m.now.Coherent c.lib) (hmem : m.now ∈ m.seen)
    (hsent : m.sent = []) (hwhole : (ClientCall.create path).Whole c.lib) :
    Coheres i (.create path) c.lib clock ((coherence ι c.lib).Final i (.create path))
      (c.create path) m := by
  apply check_path_coheres hm
  apply Safe.bind
  apply get_file_key_coheres hm hmem (hwhole _ rfl)
  intro r m₁ hm₁ hsent₁ hfound
  rw [hsent] at hsent₁
  cases r with
  | none => exact Safe.ret (final_of_resolved hm₁ fun hb => by cases hb)
  | some k =>
    have hne (p : Str) : Op.create none (requestPath k) ≠ .rmdir p := nofun
    apply coheres_request rfl hne hm₁
    intro s seen g value s' _ _ hseen _ hs'
    refine Safe.ret (final_of_resolved hs' fun _ p hp => ?_)
    cases hp
    apply resolved_of_found (hfound k rfl)
    · exact fun x hx => List.mem_cons_of_mem _ (hseen (List.mem_cons_of_mem _ hx))
    · exact List.cons_ne_nil _ _
    · intro k' hk'
      rw [sentKeys_create, hsent₁] at hk'
      exact List.mem_singleton.1 hk'

theorem openFile_coheres {c : LocofsClient} (hm : m.now.Coherent c.lib) (hmem : m.now ∈ m.seen)
    (hsent : m.sent = []) (hwhole : (ClientCall.openFile path).Whole c.lib) :
    Coheres i (.openFile path) c.lib clock ((coherence ι c.lib).Final i (.openFile path))
      (c.openFile path) m := by
  apply Safe.bind
  apply get_file_key_coheres hm hmem (hwhole _ rfl)
  intro r m₁ hm₁ hsent₁ hfound
  rw [hsent] at hsent₁
  cases r with
  | none => exact Safe.ret (final_of_resolved hm₁ fun hb => by cases hb)
  | some k =>
    have hne (p : Str) : Op.access (requestPath k) ≠ .rmdir p := nofun
    apply coheres_request rfl hne hm₁
    intro s seen g (value : Int) s' _ _ hseen _ hs'
    change Coheres _ _ _ _ _ (if value = 0 then .ret true else
      .call (.create (some 0o777) (requestPath k)) fun (value : Int) => .ret (decide (value = 0))) _
    by_cases hvalue : value = 0
    · rw [if_pos hvalue]
      refine Safe.ret (final_of_resolved hs' fun _ p hp => ?_)
      cases hp
      apply resolved_of_found (hfound k rfl)
      · exact fun x hx => List.mem_cons_of_mem _ (hseen (List.mem_cons_of_mem _ hx))
      · exact List.cons_ne_nil _ _
      · intro k' hk'
        rw [sentKeys_access, hsent₁] at hk'
        exact List.mem_singleton.1 hk'
    · rw [if_neg hvalue]
      have hne (p : Str) : Op.create (some 0o777) (requestPath k) ≠ .rmdir p := nofun
      apply coheres_request rfl hne hs'
      intro s₂ seen₂ g₂ value₂ s₂' _ _ hseen₂ _ hs₂'
      refine Safe.ret (final_of_resolved hs₂' fun _ p hp => ?_)
      cases hp
      apply resolved_of_found (hfound k rfl)
      · exact fun x hx => List.mem_cons_of_mem _ (hseen₂ (List.mem_cons_of_mem _
          (hseen (List.mem_cons_of_mem _ hx))))
      · exact List.cons_ne_nil _ _
      · intro k' hk'
        rw [sentKeys_create, sentKeys_access, hsent₁] at hk'
        cases List.mem_cons.1 hk' with
        | inl he => exact he
        | inr he => exact List.mem_singleton.1 he

theorem mkdir_coheres (hm : m.now.Coherent lib) :
    Coheres i (.mkdir path) lib clock ((coherence ι lib).Final i (.mkdir path))
      (LocofsClient.mkdir path) m := by
  apply check_path_coheres hm
  have hne (p : Str) : Op.mkdir (requestPath (checkedPath path)) ≠ .rmdir p := nofun
  apply coheres_request rfl hne hm
  intro s seen g value s' _ _ _ _ hs'
  exact Safe.ret (final_of_resolved hs' fun _ p hp => by cases hp)

theorem rmdir_coheres (hm : m.now.Coherent lib) :
    Coheres i (.rmdir path) lib clock ((coherence ι lib).Final i (.rmdir path))
      (LocofsClient.rmdir path) m := by
  apply check_path_coheres hm
  apply Safe.request rfl (ends hm)
  intro s seen hs _ _ _ hspares g (value : Int) s₁ h
  obtain ⟨htagged, hcache, hkept⟩ := Coherent.rmdir hs h hspares
  change Coheres _ _ _ _ _ (if value = 0 then .call (.cacheRemove (checkedPath path)) fun _ =>
    .ret true else .ret false) _
  by_cases hvalue : value = 0
  · rw [if_pos hvalue]
    apply Safe.local rfl
    intro g' r s₂ hremove
    have hs₂ : s₂.Coherent lib := by
      apply Coherent.cacheRemove htagged _ hremove
      intro j q u hq hother
      rw [hcache] at hq
      apply hkept hq
      rintro - ⟨rfl, p, hp, rfl⟩
      cases hp
      exact hother ⟨rfl, rfl⟩
    exact Safe.ret (final_of_resolved hs₂ fun _ p hp => by cases hp)
  · rw [if_neg hvalue]
    have hs₁ : s₁.Coherent lib := by
      refine ⟨htagged, fun {j q u} hq => ?_⟩
      rw [hcache] at hq
      exact hkept hq fun h => absurd h hvalue
    exact Safe.ret (final_of_resolved hs₁ fun hb => by cases hb)

end Safe

/-- The servers as they start and empty caches. -/
def Fresh (lib : Library) (s : Deployment ι) : Prop :=
  (∃ dii time, s.servers.dm = DMServer.start lib dii time) ∧ ∀ i, (s.cache i).m_cache_map = []

theorem Fresh.coherent {s : Deployment ι} (h : s.Fresh lib) : s.Coherent lib := by
  obtain ⟨⟨dii, time, hdm⟩, hcache⟩ := h
  constructor
  case tagged =>
    rw [hdm]
    apply DMStore.Tagged.mkdir (s := DMStore.empty) (fun v di hdi => by cases hdi) rfl
  case cached =>
    intro i q u hq
    obtain ⟨it, hit, -⟩ := hq
    rw [hcache i] at hit
    cases hit

variable [DecidableEq ι]

/-- The calls of `mkdir`, `rmdir`, `create` and `open` in any order. -/
def namingSystem (ι : Type) [DecidableEq ι] (c : LocofsClient) (clock : Nat → Int) :
    System (Pool sig ι ClientCall Bool (Deployment ι)) (Pool.Event ι ClientCall Garbage) :=
  ((calls ι c clock).system (Fresh c.lib)).restrict fun q e _ =>
    Calls.Meets (fun _ call => call.Names) (fun _ _ _ _ => True) q e

/-- The same with whole paths of parents, as long as no `rmdir` catches a cached path. -/
def sparingSystem (ι : Type) [DecidableEq ι] (c : LocofsClient) (clock : Nat → Int) :
    System (Pool sig ι ClientCall Bool (Deployment ι)) (Pool.Event ι ClientCall Garbage) :=
  ((calls ι c clock).system (Fresh c.lib)).restrict fun q e _ =>
    Calls.Meets (fun _ call => call.Names ∧ call.Whole c.lib)
      (fun q i call o => q.state.Spares c.lib i call o) q e

/-- A file is made or found only below the directory that its path names. -/
theorem create_resolved {c : LocofsClient} {w : List (Pool.Event ι ClientCall Garbage)}
    {q : Pool sig ι ClientCall Bool (Deployment ι)} (h : (sparingSystem ι c clock).Run w q) :
    ∀ r ∈ q.returned, r.answer = true → ∀ path, r.call.target = some path →
      Resolved c.lib r.seen r.sent path := by
  have hprog : ∀ i call (s : Deployment ι), (coherence ι c.lib).pre i call → s.Coherent c.lib →
      Coheres i call c.lib clock ((coherence ι c.lib).Final i call) (call.prog c)
        ⟨none, s, s, [s], []⟩ := by
    intro i call s hpre hs
    cases call with
    | mkdir path => exact mkdir_coheres hs
    | rmdir path => exact rmdir_coheres hs
    | openFile path => exact openFile_coheres hs List.mem_cons_self rfl hpre.2
    | create path => exact create_coheres hs List.mem_cons_self rfl hpre.2
    | unlink path => exact absurd hpre.1 id
    | write path buf len off => exact absurd hpre.1 id
  exact (Outline.safe_run coherence_compatible hprog (fun _ => Fresh.coherent) h).post

section Examples

def freshDeployment : Deployment Bool where
  servers :=
    { cache := ⟨5000, [], 0⟩
      dm := DMServer.start Library.posix DMServer.blank 0
      fm := FMStore.empty 233
      pages := fun _ _ => 0
      time := 0 }
  cache _ := ⟨5000, [], 0⟩

theorem freshDeployment_fresh : freshDeployment.Fresh Library.posix :=
  ⟨⟨DMServer.blank, 0, rfl⟩, fun _ => rfl⟩

abbrev freshPool : Pool sig Bool ClientCall Bool (Deployment Bool) :=
  ⟨freshDeployment, fun _ => none, []⟩

theorem freshPool_init :
    ((calls Bool exampleClient fun _ => 0).system (Fresh Library.posix)).init freshPool :=
  ⟨freshDeployment_fresh, fun _ => rfl, rfl⟩

def dirA : Str := Path.str [DMServer.nameA]
def fileB : Str := Path.str [DMServer.nameA, DMServer.nameB]
def fileC : Str := Path.str [DMServer.nameA, DMServer.nameC]
def dirD : Str := Path.str [DMServer.nameA, ⟨['d'], by decide, by decide, by decide⟩]

def createAlone (i : Bool) (path : Str) : List (Pool.Event Bool ClientCall Garbage) :=
  [.start i (.create path) exampleGarbage, .turn i exampleGarbage, .turn i exampleGarbage]

def madeA : List (Pool.Event Bool ClientCall Garbage) :=
  [.start false (.mkdir dirA) exampleGarbage, .turn false exampleGarbage]

/-- No path in a cache is looked up through the key that an `rmdir` takes away. -/
def spared (s : Deployment Bool) (p : Str) : Bool :=
  (s.servers.dm.get_2_uuid Library.posix p).all fun (puuid, _) =>
    [false, true].all fun j => (s.cache j).m_cache_map.all fun e =>
      requestPath e.1 = ['/'] ∨ key puuid (Library.posix.filename p) ∉ DMStore.trail
        s.servers.dm.uuid_store ['0'] ((DMStore.components Library.posix (requestPath e.1)).drop 1)

theorem spares_of_spared {s : Deployment Bool} {i : Bool} {call : ClientCall} {p : Str}
    (h : spared s p = true) : s.Spares Library.posix i call (.rmdir p) := by
  intro dm puuid uuid _ hget j q u ⟨it, hit, _⟩ _ ⟨hroot, hmem⟩
  rw [spared, hget] at h
  have hj := List.all_eq_true.1 h j (by cases j <;> decide)
  obtain hpath | hkey := of_decide_eq_true (List.all_eq_true.1 hj (q, it) hit)
  · exact hroot hpath
  · exact hkey hmem

def makes (q : Pool sig Bool ClientCall Bool (Deployment Bool)) :
    Pool.Event Bool ClientCall Garbage → Bool
  | .start _ (.mkdir _) _ | .start _ (.rmdir _) _ => true
  | .start _ (.create p) _ => requestPath (Library.posix.parent_path (checkedPath p)) =
      Library.posix.parent_path (checkedPath p)
  | .start _ _ _ => false
  | .turn i _ =>
    match q.thread i with
    | some ⟨_, .call (.rmdir p) _, _, _⟩ => spared q.state p
    | _ => true

theorem makes_meets {q : Pool sig Bool ClientCall Bool (Deployment Bool)}
    {e : Pool.Event Bool ClientCall Garbage} (h : makes q e = true) :
    Calls.Meets (fun _ call => call.Names ∧ call.Whole Library.posix)
      (fun q i call o => q.state.Spares Library.posix i call o) q e := by
  cases e with
  | start i call g =>
    cases call with
    | mkdir p | rmdir p => exact ⟨trivial, nofun⟩
    | create p =>
      refine ⟨trivial, fun path hp => ?_⟩
      cases hp
      exact of_decide_eq_true h
    | _ => cases h
  | turn i g =>
    intro x o k hx hrest
    obtain ⟨call, rest, seen, sent⟩ := x
    cases hrest
    cases o with
    | rmdir p =>
      simp only [makes, hx] at h
      exact spares_of_spared h
    | _ => trivial

/-- The other client makes a directory below `/a` and removes it again. -/
def clearedD : List (Pool.Event Bool ClientCall Garbage) :=
  madeA ++ createAlone false fileB ++
    [.start true (.mkdir dirD) exampleGarbage, .turn true exampleGarbage,
      .start true (.rmdir dirD) exampleGarbage, .turn true exampleGarbage,
      .start false (.create fileC) exampleGarbage, .turn false exampleGarbage]

/-- The second `create` takes the uuid of `/a` from the cache, after an `rmdir` below it. -/
theorem create_resolved_cached : ∃ q, ∃ r ∈ q.returned, r.answer = true ∧
    (sparingSystem Bool exampleClient fun _ => 0).Run clearedD q ∧
    Resolved Library.posix r.seen r.sent fileC := by
  have hanswer : (exampleCalls.follow makes freshPool clearedD).map
      (fun q => q.returned.map fun r => (r.answer, r.call.target)) =
        some [(true, some fileC), (true, none), (true, none), (true, some fileB),
          (true, none)] := by
    decide +kernel
  obtain ⟨q, hq, hreturned⟩ := Option.map_eq_some_iff.1 hanswer
  have hrun : (sparingSystem Bool exampleClient fun _ => 0).Run clearedD q :=
    Calls.run_of_follow (v := []) (fun _ _ _ _ => makes_meets) (.nil freshPool_init) hq
  obtain ⟨r, hr, he⟩ := List.mem_map.1 (hreturned ▸ List.mem_cons_self :
    (true, some fileC) ∈ q.returned.map fun r => (r.answer, r.call.target))
  obtain ⟨htrue, htarget⟩ := Prod.mk.inj he
  exact ⟨q, r, hr, htrue, hrun, create_resolved hrun r hr htrue fileC htarget⟩

def naming : Pool.Event Bool ClientCall Garbage → Bool
  | .start _ call _ => call.Names
  | .turn _ _ => true

theorem naming_meets {q : Pool sig Bool ClientCall Bool (Deployment Bool)}
    {e : Pool.Event Bool ClientCall Garbage} (h : naming e = true) :
    Calls.Meets (fun _ call => call.Names) (fun _ _ _ _ => True) q e := by
  cases e with
  | start i call g => exact of_decide_eq_true (p := call.Names) h
  | turn i g => exact fun _ _ _ _ _ => trivial

def staleA : List (Pool.Event Bool ClientCall Garbage) :=
  madeA ++ createAlone false fileB ++
    [.start true (.rmdir dirA) exampleGarbage, .turn true exampleGarbage,
      .start false (.create fileC) exampleGarbage, .turn false exampleGarbage]

theorem create_below_removed : ¬ ∀ (w : List (Pool.Event Bool ClientCall Garbage))
    (q : Pool sig Bool ClientCall Bool (Deployment Bool)),
    (namingSystem Bool exampleClient fun _ => 0).Run w q →
    ∀ r ∈ q.returned, r.answer = true → ∀ path, r.call.target = some path →
      Resolved Library.posix r.seen r.sent path := by
  intro h
  have hanswer : (exampleCalls.follow (fun _ => naming) freshPool staleA).map
      (fun q => (q.returned.map fun r => (r.answer, r.call.target,
        r.seen.all fun s => (s.servers.dm.get_uuid Library.posix dirA).isNone)).head?) =
        some (some (true, some fileC, true)) := by decide +kernel
  obtain ⟨q, hq, hreturned⟩ := Option.map_eq_some_iff.1 hanswer
  have hrun : (namingSystem Bool exampleClient fun _ => 0).Run staleA q :=
    Calls.run_of_follow (v := []) (fun _ _ _ _ => naming_meets) (.nil freshPool_init) hq
  obtain ⟨r, hr, he⟩ := List.mem_map.1 (List.mem_of_head? hreturned)
  simp only [Prod.mk.injEq] at he
  obtain ⟨htrue, htarget, hseen⟩ := he
  obtain ⟨s, hs, u, hu, -⟩ := h staleA q hrun r hr htrue fileC htarget
  have hnone := List.all_eq_true.1 hseen s hs
  have hparent : Library.posix.parent_path fileC = dirA := by decide
  rw [hparent] at hu
  rw [hu] at hnone
  cases hnone

end Examples

end Deployment

end Galois
