import Galois.Clients

namespace Galois
set_option autoImplicit true
set_option relaxedAutoImplicit false

open Prog Client LocofsClient

/-- A file that every client reaches by the same path. -/
structure Target where
  path : Str
  uuid : BitVec 64
  file : File

def Target.key (F : Target) (lib : Library) : Str :=
  requestPath (Galois.key (to_string F.uuid) (lib.filename F.path))

namespace Deployment

variable {ι : Type} {lib : Library} {F : Target} {s s' s'' : Deployment ι}

def sizeAt (s : Deployment ι) (Key : Str) : Int :=
  (s.servers.fm.file_content_store Key).elim 0 FileContentInode.size

theorem sizeAt_of_holds {Key : Str} (h : s.servers.fm.Holds Key f n) : s.sizeAt Key = n := by
  obtain ⟨-, fc, -, hfc, -, -, -, hsize, -⟩ := h
  rw [sizeAt, hfc]
  exact hsize

/-- The file is there, and no cache says otherwise. -/
structure HasFile (lib : Library) (F : Target) (s : Deployment ι) : Prop where
  dir : (s.servers.dm.inodeAt lib (requestPath (lib.parent_path F.path))).map DirectoryInode.uuid =
    some F.uuid
  cached : ∀ {i u}, (s.cache i).Holds (lib.parent_path F.path) u → u = F.uuid
  file : s.servers.fm.Holds (F.key lib) F.file (s.sizeAt (F.key lib))

/-- Neither a page nor the size of the file has changed. -/
structure Unchanged (Key : Str) (s s' : Deployment ι) : Prop where
  pages : s'.servers.pages = s.servers.pages
  size : s'.sizeAt Key = s.sizeAt Key

theorem HasFile.of_fm (hs : s.HasFile lib F) (hcache : s'.cache = s.cache)
    (hdm : s'.servers.dm = s.servers.dm)
    (hfile : s'.servers.fm.Holds (F.key lib) F.file n) : s'.HasFile lib F where
  dir := by
    rw [hdm]
    exact hs.dir
  cached {j u} hu := by
    rw [hcache] at hu
    exact hs.cached hu
  file := (sizeAt_of_holds hfile).symm ▸ hfile

/-- A contract that only looks at the pages and at the size of the file. -/
structure Tolerant (lib : Library) (F : Target) (K : Contract sig (Deployment ι)) : Prop where
  file : ∀ {s}, K.inv s → s.HasFile lib F
  inv : ∀ {s s'}, K.inv s → s'.HasFile lib F → Unchanged (F.key lib) s s' → K.inv s'
  guar : ∀ {act s₀ s s'}, K.guar act s₀ s → Unchanged (F.key lib) s s' → K.guar act s₀ s'
  refl : ∀ act s, K.guar act s s

/-- What stays true while a call waits. -/
structure Lasting (lib : Library) (F : Target) (K : Contract sig (Deployment ι))
    (P : Deployment ι → Prop) : Prop where
  rely : ∀ {o s s'}, K.rely o s s' → P s → P s'
  same : ∀ {s s'}, Unchanged (F.key lib) s s' → P s → P s'

theorem Tolerant.ends {K : Contract sig (Deployment ι)} {m : Moment sig (Deployment ι)}
    (hK : Tolerant lib F K) (hm : m.Ends K) (hs : s.HasFile lib F)
    (hu : Unchanged (F.key lib) m.now s) : Moment.Ends K { m with now := s } :=
  ⟨hK.inv hm.inv hs hu, hK.guar hm.guar hu⟩

variable [DecidableEq ι] {clock : Nat → Int} {g : Garbage} {i : ι}

theorem HasFile.cacheGet (hs : s.HasFile lib F) {r : Option (BitVec 64)}
    (h : handle lib clock g i (.cacheGet (lib.parent_path F.path)) s = some (r, s')) :
    s'.HasFile lib F ∧ Unchanged (F.key lib) s s' ∧ ∀ u, r = some u → u = F.uuid := by
  obtain ⟨fs, hfs, rfl⟩ := handle_eq_some h
  cases hfs
  refine ⟨⟨hs.dir, fun {j u} hu => ?_, hs.file⟩, ⟨rfl, rfl⟩, fun u hu => ?_⟩
  · dsimp only at hu
    rw [Function.update_apply] at hu
    split at hu
    · exact hs.cached hu.of_get
    · exact hs.cached hu
  · have hcached : (s.cache i).cached (lib.parent_path F.path) = some u :=
      (LruCache.get_fst (s.cache i) _ (clock s.servers.time)).symm.trans hu
    exact hs.cached (.of_cached hcached)

theorem HasFile.cacheSet (hs : s.HasFile lib F) {r : Unit}
    (h : handle lib clock g i (.cacheSet (lib.parent_path F.path) F.uuid) s = some (r, s')) :
    s'.HasFile lib F ∧ Unchanged (F.key lib) s s' := by
  obtain ⟨fs, hfs, rfl⟩ := handle_eq_some h
  cases hfs
  refine ⟨⟨hs.dir, fun {j u} hu => ?_, hs.file⟩, ⟨rfl, rfl⟩⟩
  dsimp only at hu
  rw [Function.update_apply] at hu
  split at hu
  · cases hu.of_set with
    | inl he => exact he.2
    | inr hu => exact hs.cached hu
  · exact hs.cached hu

theorem HasFile.dirStat (hs : s.HasFile lib F) {response : StatResponse LocoDirStat}
    (h : handle lib clock g i (.dirStat (requestPath (lib.parent_path F.path))) s =
      some (response, s')) : s'.HasFile lib F ∧ Unchanged (F.key lib) s s' ∧ response.result = 0 ∧
      response.stat.uuid = F.uuid := by
  have hcache := handle_request h rfl
  obtain ⟨di, hdi, hu⟩ := Option.map_eq_some_iff.1 hs.dir
  obtain ⟨st, dm, hstat, hst, halike⟩ := DMStore.stat_of_some hdi g (clock s.servers.time)
  have hs' : response = ⟨0, st⟩ ∧ s'.servers.dm = dm ∧ s'.servers.fm = s.servers.fm ∧
      s'.servers.pages = s.servers.pages := by
    obtain ⟨fs, hfs, rfl⟩ := handle_eq_some h
    simp only [FileSystem.handle, view, hstat, Option.some.injEq] at hfs
    obtain ⟨rfl, rfl⟩ := hfs
    exact ⟨rfl, rfl, rfl, rfl⟩
  obtain ⟨rfl, hdm, hfm, hpages⟩ := hs'
  have hsize : s'.sizeAt (F.key lib) = s.sizeAt (F.key lib) := by
    rw [sizeAt, sizeAt, hfm]
  refine ⟨⟨?_, fun {j u} hu => ?_, ?_⟩, ⟨hpages, hsize⟩, rfl, hst.trans hu⟩
  · rw [hdm, halike.inodeAt]
    exact hs.dir
  · rw [hcache] at hu
    exact hs.cached hu
  · rw [hsize, hfm]
    exact hs.file

theorem HasFile.fileStat (hs : s.HasFile lib F) {response : StatResponse LocoFileStat}
    (h : handle lib clock g i (.fileStat (F.key lib)) s = some (response, s')) :
    s'.HasFile lib F ∧ Unchanged (F.key lib) s s' ∧ response.result = 0 ∧
      response.stat.suuid = F.file.suuid ∧ response.stat.sid = F.file.sid ∧
      response.stat.block_size.toInt = 4096 ∧
      response.stat.st.st_size = s.sizeAt (F.key lib) := by
  have hcache := handle_request h rfl
  obtain ⟨st, fm, hstat, hholds, hsuuid, hsid, hblock, hsize, -⟩ := hs.file.stat g
  have hs' : response = ⟨0, st⟩ ∧ s'.servers.dm = s.servers.dm ∧ s'.servers.fm = fm ∧
      s'.servers.pages = s.servers.pages := by
    obtain ⟨fs, hfs, rfl⟩ := handle_eq_some h
    simp only [FileSystem.handle, view, hstat, Option.some.injEq] at hfs
    obtain ⟨rfl, rfl⟩ := hfs
    exact ⟨rfl, rfl, rfl, rfl⟩
  obtain ⟨rfl, hdm, rfl, hpages⟩ := hs'
  exact ⟨hs.of_fm hcache hdm hholds, ⟨hpages, sizeAt_of_holds hholds⟩, rfl, hsuuid, hsid, hblock,
    hsize⟩

theorem HasFile.csize (hs : s.HasFile lib F) {value r : Int} (hv : value < 2 ^ 63)
    (h : handle lib clock g i (.csize value (F.key lib)) s = some (r, s')) :
    s'.HasFile lib F ∧ s'.servers.pages = s.servers.pages ∧ r = 0 ∧
      s'.sizeAt (F.key lib) = value := by
  have hcache := handle_request h rfl
  obtain ⟨fm, hcsize, hholds, -⟩ := hs.file.csize g hv
  have hs' : r = 0 ∧ s'.servers.dm = s.servers.dm ∧ s'.servers.fm = fm ∧
      s'.servers.pages = s.servers.pages := by
    obtain ⟨fs, hfs, rfl⟩ := handle_eq_some h
    simp only [FileSystem.handle, view, hcsize, Option.some.injEq] at hfs
    obtain ⟨rfl, rfl⟩ := hfs
    exact ⟨rfl, rfl, rfl, rfl⟩
  obtain ⟨rfl, hdm, rfl, hpages⟩ := hs'
  exact ⟨hs.of_fm hcache hdm hholds, hpages, rfl, sizeAt_of_holds hholds⟩

theorem HasFile.readBlock (hs : s.HasFile lib F) {index : Nat} {page : ECAL.Page}
    (h : handle lib clock g i (.readBlock index) s = some (page, s')) :
    s'.HasFile lib F ∧ Unchanged (F.key lib) s s' ∧ page = ⟨s.servers.pages index, index⟩ := by
  have hcache := handle_request h rfl
  obtain ⟨fs, hfs, rfl⟩ := handle_eq_some h
  cases hfs
  exact ⟨hs.of_fm hcache rfl hs.file, ⟨rfl, rfl⟩, rfl⟩

theorem HasFile.writeBlock (hs : s.HasFile lib F) {page : ECAL.Page} {r : Unit}
    (h : handle lib clock g i (.writeBlock page) s = some (r, s')) :
    s'.HasFile lib F ∧ s'.sizeAt (F.key lib) = s.sizeAt (F.key lib) ∧
      s'.servers.pages = Function.update s.servers.pages page.index page.page := by
  have hcache := handle_request h rfl
  obtain ⟨fs, hfs, rfl⟩ := handle_eq_some h
  cases hfs
  exact ⟨hs.of_fm hcache rfl hs.file, rfl, rfl⟩

variable {K : Contract sig (Deployment ι)} {P : Deployment ι → Prop}
  {m : Moment sig (Deployment ι)} {Q : α → Moment sig (Deployment ι) → Prop} {o : Op}
  {k : o.Res → Prog sig α}

theorem Tolerant.request (hK : Tolerant lib F K) (hP : Lasting lib F K P) (hm : m.Ends K)
    (h : P m.now) (hl : Client.isLocal o = false)
    (ho : ∀ s g r s', s.HasFile lib F → handle lib clock g i o s = some (r, s') →
      s'.HasFile lib F ∧ Unchanged (F.key lib) s s')
    (hk : ∀ s g r s' seen, K.inv s → handle lib clock g i o s = some (r, s') →
      Moment.Ends K ⟨some o, s, s', seen, o :: m.sent⟩ → P s' →
      (k r).Safe Client.isLocal (fun g => handle lib clock g i) K Q
        ⟨some o, s, s', seen, o :: m.sent⟩) :
    (Prog.call o k).Safe Client.isLocal (fun g => handle lib clock g i) K Q m := by
  apply Safe.request hl hm
  intro s seen hs hrely _ _ _ g r s' hr
  obtain ⟨hs', hu⟩ := ho s g r s' (hK.file hs) hr
  exact hk s g r s' seen hs hr ⟨hK.inv hs hs' hu, hK.guar (hK.refl _ _) hu⟩
    (hP.same hu (hP.rely hrely h))

theorem get_uuid_safe (hK : Tolerant lib F K) (hP : Lasting lib F K P)
    {Q : Option (BitVec 64) → Moment sig (Deployment ι) → Prop} (hm : m.Ends K) (h : P m.now)
    (hQ : ∀ m', m'.Ends K → P m'.now → Q (some F.uuid) m') :
    (LocofsClient.get_uuid (lib.parent_path F.path)).Safe Client.isLocal
      (fun g => handle lib clock g i) K Q m := by
  apply Safe.local rfl
  intro g r s hget
  obtain ⟨hs, hu, hcached⟩ := (hK.file hm.inv).cacheGet hget
  have hends := hK.ends hm hs hu
  cases r with
  | some u =>
    cases hcached u rfl
    exact Safe.ret (hQ _ hends (hP.same hu h))
  | none =>
    apply hK.request hP hends (hP.same hu h) rfl
    · intro s g r s' hs hr
      obtain ⟨hs', hu', -⟩ := hs.dirStat hr
      exact ⟨hs', hu'⟩
    · intro s₁ g₁ response s₂ seen hs₁ hstat hends₂ hP₂
      obtain ⟨-, -, hresult, huuid⟩ := (hK.file hs₁).dirStat hstat
      change Prog.Safe _ _ K Q (if response.result < 0 then .ret none else
        .call (.cacheSet (lib.parent_path F.path) response.stat.uuid) fun _ =>
          .ret (some response.stat.uuid)) _
      rw [hresult, huuid, if_neg (by decide)]
      apply Safe.local rfl
      intro g₂ r s₃ hset
      obtain ⟨hs₃, hu₃⟩ := (hK.file hends₂.inv).cacheSet hset
      exact Safe.ret (hQ _ (hK.ends hends₂ hs₃ hu₃) (hP.same hu₃ hP₂))

theorem get_file_key_safe {c : LocofsClient} (hK : Tolerant c.lib F K) (hP : Lasting c.lib F K P)
    {Q : Option Str → Moment sig (Deployment ι) → Prop} (hm : m.Ends K) (h : P m.now)
    (hQ : ∀ m', m'.Ends K → P m'.now →
      Q (some (key (to_string F.uuid) (c.lib.filename F.path))) m') :
    (c.get_file_key F.path).Safe Client.isLocal (fun g => handle c.lib clock g i) K Q m := by
  apply Safe.bind
  apply get_uuid_safe hK hP hm h
  intro m' hm' h'
  exact Safe.ret (hQ m' hm' h')

theorem get_file_stat_safe {c : LocofsClient} (hK : Tolerant c.lib F K) (hP : Lasting c.lib F K P)
    {Q : Option LocoFileStat → Moment sig (Deployment ι) → Prop} (hm : m.Ends K) (h : P m.now)
    (hQ : ∀ m' st, m'.Ends K → P m'.now → st.suuid = F.file.suuid → st.sid = F.file.sid →
      st.block_size.toInt = 4096 → st.st.st_size = m'.now.sizeAt (F.key c.lib) → Q (some st) m') :
    (c.get_file_stat F.path).Safe Client.isLocal (fun g => handle c.lib clock g i) K Q m := by
  apply Safe.bind
  apply get_file_key_safe hK hP hm h
  intro m₁ hm₁ h₁
  apply hK.request hP hm₁ h₁ rfl
  · intro s g r s' hs hr
    obtain ⟨hs', hu, -⟩ := hs.fileStat hr
    exact ⟨hs', hu⟩
  · intro s g response s' seen hs hr hends hP'
    obtain ⟨-, hu, hresult, hsuuid, hsid, hblock, hsize⟩ := (hK.file hs).fileStat hr
    change Prog.Safe _ _ K Q (.ret (if response.result = 0 then some response.stat else none)) _
    rw [hresult, if_pos rfl]
    exact Safe.ret (hQ _ _ hends hP' hsuuid hsid hblock (hsize.trans hu.size.symm))

end Deployment

end Galois
