import Galois.Effect.Answers
import Galois.FailStop
import Galois.ReadAfterWrite
import Galois.Writers

namespace Galois
set_option autoImplicit true
set_option relaxedAutoImplicit false

open Prog Client LocofsClient

/-- Files with inodes of their own, each of which all clients reach by the same path. -/
structure Files (κ : Type) where
  target : κ → Target
  injective : Function.Injective fun k => (target k).file

theorem DMStore.stat_alike (g : Garbage) (lib : Library) (s : DMStore) (path : Str) (time : Int) :
    s.Alike (dmHandleStat g lib s path time).2 := by
  have halike := getAttr_alike lib s g.di path time
  rw [dmHandleStat]
  generalize s.getAttr lib always g.di path time = r at halike ⊢
  dsimp only
  split
  · exact halike
  · exact halike

namespace Deployment

def HasFiles {ι κ : Type} (lib : Library) (fs : Files κ) (s : Deployment ι) : Prop :=
  ∀ k, s.HasFile lib (fs.target k)

variable {ι κ : Type} [DecidableEq ι] {lib : Library} {fs : Files κ} {s s' : Deployment ι}
  {clock : Nat → Int} {g : Garbage} {i : ι} {k : κ}

theorem HasFiles.cacheGet (hs : s.HasFiles lib fs) {path : Str} {r : Option (BitVec 64)}
    (h : handle lib clock g i (.cacheGet path) s = some (r, s')) :
    s'.HasFiles lib fs ∧ ∀ K, s'.sizeAt K = s.sizeAt K := by
  obtain ⟨fs', hfs, rfl⟩ := handle_eq_some h
  cases hfs
  refine ⟨fun k => ⟨(hs k).dir, fun {j u} hu => ?_, (hs k).file⟩, fun _ => rfl⟩
  dsimp only at hu
  rw [Function.update_apply] at hu
  split at hu
  · exact (hs k).cached hu.of_get
  · exact (hs k).cached hu

omit [DecidableEq ι] in
theorem HasFiles.uuid_eq (hs : s.HasFiles lib fs) {k' : κ}
    (h : lib.parent_path (fs.target k').path = lib.parent_path (fs.target k).path) :
    (fs.target k').uuid = (fs.target k).uuid := by
  have hdir := (hs k').dir
  rw [h, (hs k).dir] at hdir
  exact (Option.some.inj hdir).symm

theorem HasFiles.cacheSet (hs : s.HasFiles lib fs) {r : Unit}
    (h : handle lib clock g i
      (.cacheSet (lib.parent_path (fs.target k).path) (fs.target k).uuid) s = some (r, s')) :
    s'.HasFiles lib fs ∧ ∀ K, s'.sizeAt K = s.sizeAt K := by
  obtain ⟨fs', hfs, rfl⟩ := handle_eq_some h
  cases hfs
  refine ⟨fun k' => ⟨(hs k').dir, fun {j u} hu => ?_, (hs k').file⟩, fun _ => rfl⟩
  dsimp only at hu
  rw [Function.update_apply] at hu
  split at hu
  · obtain ⟨hpath, rfl⟩ | hu := hu.of_set
    · exact (hs.uuid_eq hpath).symm
    · exact (hs k').cached hu
  · exact (hs k').cached hu

theorem HasFiles.dirStat (hs : s.HasFiles lib fs) {path : Str}
    {response : StatResponse LocoDirStat}
    (h : handle lib clock g i (.dirStat path) s = some (response, s')) :
    s'.HasFiles lib fs ∧ ∀ K, s'.sizeAt K = s.sizeAt K := by
  have hcache := handle_request h rfl
  obtain ⟨fs', hfs, rfl⟩ := handle_eq_some h
  have halike : s.servers.dm.Alike fs'.dm := by
    have halike := DMStore.stat_alike g lib s.servers.dm path (clock s.servers.time)
    cases hfs
    exact halike
  have hfm : fs'.fm = s.servers.fm := by
    cases hfs
    rfl
  refine ⟨fun k => ⟨?_, fun {j u} hu => ?_, ?_⟩, fun K => ?_⟩
  · rw [halike.inodeAt]
    exact (hs k).dir
  · rw [hcache] at hu
    exact (hs k).cached hu
  · rw [sizeAt, hfm]
    exact (hs k).file
  · rw [sizeAt, hfm]
    rfl

omit [DecidableEq ι] in
theorem HasFiles.of_fm (hs : s.HasFiles lib fs) (s' : Deployment ι) (hcache : s'.cache = s.cache)
    (hdm : s'.servers.dm = s.servers.dm)
    (hfile : s'.servers.fm.Holds ((fs.target k).key lib) (fs.target k).file n)
    (hothers : FMStore.Others (fs.target k).file s.servers.fm s'.servers.fm) :
    s'.HasFiles lib fs ∧ s'.sizeAt ((fs.target k).key lib) = n ∧
      ∀ k', k' ≠ k → s'.sizeAt ((fs.target k').key lib) = s.sizeAt ((fs.target k').key lib) := by
  have hother : ∀ k', k' ≠ k → s'.servers.fm.Holds ((fs.target k').key lib) (fs.target k').file
      (s.sizeAt ((fs.target k').key lib)) := fun k' hk =>
    hothers _ _ _ (fun he => hk (fs.injective he)) (hs k').file
  refine ⟨fun k' => ?_, sizeAt_of_holds hfile, fun k' hk => sizeAt_of_holds (hother k' hk)⟩
  by_cases hk : k' = k
  · rw [hk]
    exact (hs k).of_fm hcache hdm hfile
  · exact (hs k').of_fm hcache hdm (hother k' hk)

theorem HasFiles.fileStat (hs : s.HasFiles lib fs) {response : StatResponse LocoFileStat}
    (h : handle lib clock g i (.fileStat ((fs.target k).key lib)) s = some (response, s')) :
    s'.HasFiles lib fs ∧ ∀ k', s'.sizeAt ((fs.target k').key lib) =
      s.sizeAt ((fs.target k').key lib) := by
  have hcache := handle_request h rfl
  obtain ⟨st, fm, hstat, hholds, -, -, -, -, hothers⟩ := (hs k).file.stat g
  obtain ⟨fs', hfs, rfl⟩ := handle_eq_some h
  simp only [FileSystem.handle, view, hstat, Option.some.injEq] at hfs
  obtain ⟨-, rfl⟩ := hfs
  obtain ⟨hfiles, hown, hrest⟩ := hs.of_fm ⟨_, _⟩ hcache rfl hholds hothers
  refine ⟨hfiles, fun k' => ?_⟩
  by_cases hk : k' = k
  · rw [hk]
    exact hown
  · exact hrest k' hk

theorem HasFiles.csize (hs : s.HasFiles lib fs) {value r : Int} (hv : value < 2 ^ 63)
    (h : handle lib clock g i (.csize value ((fs.target k).key lib)) s = some (r, s')) :
    s'.HasFiles lib fs ∧ r = 0 ∧ s'.sizeAt ((fs.target k).key lib) = value ∧
      ∀ k', k' ≠ k → s'.sizeAt ((fs.target k').key lib) = s.sizeAt ((fs.target k').key lib) := by
  have hcache := handle_request h rfl
  obtain ⟨fm, hcsize, hholds, hothers⟩ := (hs k).file.csize g hv
  obtain ⟨fs', hfs, rfl⟩ := handle_eq_some h
  simp only [FileSystem.handle, view, hcsize, Option.some.injEq] at hfs
  obtain ⟨rfl, rfl⟩ := hfs
  obtain ⟨hfiles, hown, hrest⟩ := hs.of_fm ⟨_, _⟩ hcache rfl hholds hothers
  exact ⟨hfiles, rfl, hown, hrest⟩

theorem cacheGet_cached {path : Str} {r : Option (BitVec 64)}
    (h : handle lib clock g i (.cacheGet path) s = some (r, s')) :
    r = (s.cache i).cached path ∧ ∀ K, (s'.cache i).cached K = (s.cache i).cached K := by
  obtain ⟨fs', hfs, rfl⟩ := handle_eq_some h
  cases hfs
  refine ⟨LruCache.get_fst _ _ _, fun K => ?_⟩
  dsimp only
  rw [Function.update_self]
  exact LruCache.get_cached _ _ _ _

theorem cacheSet_cached {path : Str} {u : BitVec 64} {r : Unit}
    (hnone : (s.cache i).cached path = none)
    (h : handle lib clock g i (.cacheSet path u) s = some (r, s')) :
    (s'.cache i).cached path = some u := by
  obtain ⟨fs', hfs, rfl⟩ := handle_eq_some h
  cases hfs
  dsimp only
  rw [Function.update_self]
  exact LruCache.set_cached hnone _ _ _

end Deployment

/-- The three nodes of a cluster: a client, the directory server and the file server, which all keep
pages. `capacity` is that of their pages. -/
structure Setup where
  client : LocofsClient
  isal : IsaL
  poolSize : Nat
  documented : isal.Documented
  capacity : client.capacity.toNat = (PageStore.node isal poolSize 0).getClusterCapacity
  me : Nat
  dms : Nat
  fms : Nat
  lt : ∀ n ∈ [me, dms, fms], n < ECAL.N
  nodup : [me, dms, fms].Nodup

/-- The servers and the client's cache, with the nodes that keep the pages; those in `metadata` are
not used. -/
structure Storage where
  metadata : Deployment Nat
  store : PageStore

namespace Setup

open PageStore

variable (S : Setup) (clock : Nat → Int)

/-- What an operation of the client does when it is answered. -/
def perform (g : Garbage) : Handler sig Storage
  | .readBlock index, s =>
    (((node S.isal S.poolSize S.me).readBlock index).run (node S.isal S.poolSize S.me).handle
      s.store.cluster).map fun (page, cluster) =>
        (page, { s with store := { s.store with cluster } })
  | .writeBlock page, s =>
    (((node S.isal S.poolSize S.me).writeBlock page).run (node S.isal S.poolSize S.me).handle
      s.store.cluster).map fun (_, cluster) =>
        ((), { s with store := s.store.written S.me page cluster })
  | o, s =>
    (Deployment.handle S.client.lib clock g S.me o s.metadata).map fun (r, metadata) =>
      (r, { s with metadata })

/-- The node that has to answer a request, besides the client's own. -/
def server : Op → Option Nat
  | .dirStat _ | .mkdir _ | .rmdir _ | .dirReaddir _ => some S.dms
  | .fileStat _ | .csize _ _ | .access _ | .create _ _ | .remove _ | .fileReaddir _ _ => some S.fms
  | .cacheGet _ | .cacheSet _ _ | .cacheRemove _ | .readBlock _ | .writeBlock _ | .undefined => none

/-- The node of the directory server may fail, if `fails`. -/
def Fails (fails : Prop) : PageStore → PageStore → Prop :=
  Relation.ReflTransGen fun s s' =>
    fails ∧ ∃ lost, (failStop S.isal S.poolSize).step s (.fail S.dms lost) s'

/-- The node of the directory server may fail before each operation. A request to a node that does
not run is not answered. -/
def answers (fails : Prop) : Answers sig Storage := fun o s r s' =>
  ∃ g store, S.Fails fails s.store store ∧
    (∀ n, S.server o = some n → store.cluster.up n = true) ∧
    S.perform clock g o { s with store } = some (r, s')

variable {S clock} {store store' : PageStore} {fails : Prop}

theorem me_ne : S.me ≠ S.dms := by
  obtain ⟨hme, -⟩ := List.nodup_cons.1 S.nodup
  exact fun he => hme (List.mem_cons.2 (.inl he))

theorem fms_ne : S.fms ≠ S.dms := by
  obtain ⟨-, htail⟩ := List.nodup_cons.1 S.nodup
  obtain ⟨hdms, -⟩ := List.nodup_cons.1 htail
  exact fun he => hdms (List.mem_singleton.2 he.symm)

theorem Fails.inv (h : S.Fails fails store store') (hs : FailStopInv S.isal S.poolSize store) :
    FailStopInv S.isal S.poolSize store' := by
  induction h with
  | refl => exact hs
  | tail _ hstep ih =>
    obtain ⟨-, lost, hstep⟩ := hstep
    exact ih.step S.documented hstep

theorem Fails.last (h : S.Fails fails store store') : store'.last = store.last := by
  induction h with
  | refl => rfl
  | tail _ hstep ih =>
    obtain ⟨-, lost, hstep, -⟩ := hstep
    cases hstep
    exact ih

theorem Fails.up (h : S.Fails fails store store') {n : Nat} (hn : n ≠ S.dms) :
    store'.cluster.up n = store.cluster.up n := by
  induction h with
  | refl => rfl
  | tail _ hstep ih =>
    obtain ⟨-, lost, hstep, -⟩ := hstep
    cases hstep
    simp only [Cluster.fail, if_neg hn]
    exact ih

theorem Fails.eq (h : S.Fails fails store store') (hf : ¬ fails) : store' = store := by
  induction h with
  | refl => rfl
  | tail _ hstep _ => exact absurd hstep.1 hf

end Setup

namespace Storage

open PageStore

variable {κ : Type} {S : Setup} {fs : Files κ} {clock : Nat → Int} {total fails : Prop}
  {s s' s'' : Storage} {k k' : κ}

def sizeAt (S : Setup) (fs : Files κ) (s : Storage) (k : κ) : Int :=
  s.metadata.sizeAt ((fs.target k).key S.client.lib)

/-- The client has the uuid of the directory of a file in its cache, or the directory server can be
asked for it. -/
def Found (S : Setup) (fs : Files κ) (fails : Prop) (k : κ) (s : Storage) : Prop :=
  (s.metadata.cache S.me).cached (S.client.lib.parent_path (fs.target k).path) =
      some (fs.target k).uuid ∨ s.store.cluster.up S.dms = true ∧ ¬ fails

/-- The files are there, at most `P` nodes have failed, and neither the client nor the file server
is one of them. -/
structure Serves (S : Setup) (fs : Files κ) (total fails : Prop) (k : κ) (s : Storage) : Prop where
  files : s.metadata.HasFiles S.client.lib fs
  store : FailStopInv S.isal S.poolSize s.store
  me : s.store.cluster.up S.me = true
  fms : s.store.cluster.up S.fms = true
  found : total → s.Found S fs fails k

/-- No page has been written, and no file has grown. -/
structure Same (S : Setup) (fs : Files κ) (total fails : Prop) (k : κ) (s s' : Storage) : Prop where
  serves : s'.Serves S fs total fails k
  last : s'.store.last = s.store.last
  size : ∀ k, s'.sizeAt S fs k = s.sizeAt S fs k

theorem Same.refl (hs : s.Serves S fs total fails k) : Same S fs total fails k s s :=
  ⟨hs, rfl, fun _ => rfl⟩

theorem Same.trans (h : Same S fs total fails k s s') (h' : Same S fs total fails k s' s'') :
    Same S fs total fails k s s'' :=
  ⟨h'.serves, h'.last.trans h.last, fun k => (h'.size k).trans (h.size k)⟩

/-- What holds when the program returns, whatever fails meanwhile. -/
abbrev Ensures (S : Setup) (clock : Nat → Int) (total fails : Prop) (Q : α → Storage → Prop)
    (p : Prog sig α) (s : Storage) : Prop := p.Ensures total (S.answers clock fails) Q s

variable {Q : α → Storage → Prop}

theorem Serves.after (hs : s.Serves S fs total fails k) {store : PageStore}
    (h : S.Fails fails s.store store) {metadata : Deployment Nat}
    (hfiles : metadata.HasFiles S.client.lib fs)
    (hcache : ∀ K, (metadata.cache S.me).cached K = (s.metadata.cache S.me).cached K) :
    Serves S fs total fails k ⟨metadata, store⟩ where
  files := hfiles
  store := h.inv hs.store
  me := (h.up Setup.me_ne).trans hs.me
  fms := (h.up Setup.fms_ne).trans hs.fms
  found ht := by
    obtain hcached | ⟨hup, hf⟩ := hs.found ht
    · exact .inl ((hcache _).trans hcached)
    · cases h.eq hf
      exact .inr ⟨hup, hf⟩

theorem Serves.of_up (hs : s.Serves S fs total fails k) {metadata : Deployment Nat}
    {store : PageStore} (hfiles : metadata.HasFiles S.client.lib fs)
    (hstore : FailStopInv S.isal S.poolSize store) (hup : store.cluster.up = s.store.cluster.up)
    (hcache : ∀ K, (metadata.cache S.me).cached K = (s.metadata.cache S.me).cached K) :
    Serves S fs total fails k ⟨metadata, store⟩ where
  files := hfiles
  store := hstore
  me := by
    rw [hup]
    exact hs.me
  fms := by
    rw [hup]
    exact hs.fms
  found ht := by
    rw [Found, hcache, hup]
    exact hs.found ht

theorem Ensures.request {o : Op} {next : o.Res → Prog sig α}
    (ho : ∀ g s, S.perform clock g o s =
      (Deployment.handle S.client.lib clock g S.me o s.metadata).map fun r =>
        (r.1, { s with metadata := r.2 }))
    (hserver : total → ∀ n, S.server o = some n → s.store.cluster.up n = true)
    (hsome : ∀ g, (Deployment.handle S.client.lib clock g S.me o s.metadata).isSome)
    (hk : ∀ g r metadata store, Deployment.handle S.client.lib clock g S.me o s.metadata =
      some (r, metadata) → S.Fails fails s.store store →
      Ensures S clock total fails Q (next r) ⟨metadata, store⟩) :
    Ensures S clock total fails Q (.call o next) s := by
  refine ⟨fun ht => ?_, ?_⟩
  · obtain ⟨⟨r, metadata⟩, hr⟩ := Option.isSome_iff_exists.1 (hsome exampleGarbage)
    refine ⟨r, ⟨metadata, s.store⟩, exampleGarbage, s.store, .refl, hserver ht, ?_⟩
    rw [ho]
    exact Option.map_eq_some_iff.2 ⟨_, hr, rfl⟩
  · rintro r s' ⟨g, store, hfails, -, hr⟩
    rw [ho] at hr
    obtain ⟨⟨r', metadata⟩, hget, he⟩ := Option.map_eq_some_iff.1 hr
    cases he
    exact hk g r' metadata store hget hfails

theorem Serves.get_uuid (hs : s.Serves S fs total fails k) {Q : Option (BitVec 64) → Storage → Prop}
    (hQ : ∀ s', Same S fs total fails k s s' → Q (some (fs.target k).uuid) s') :
    Ensures S clock total fails Q
      (LocofsClient.get_uuid (S.client.lib.parent_path (fs.target k).path)) s := by
  apply Ensures.request (fun _ _ => rfl) (fun _ _ hn => by cases hn) fun _ => rfl
  intro g r metadata store hget hfails
  obtain ⟨hfiles, hsize⟩ := hs.files.cacheGet hget
  obtain ⟨hr, hcache⟩ := Deployment.cacheGet_cached hget
  have hserves : Serves S fs total fails k ⟨metadata, store⟩ := hs.after hfails hfiles hcache
  have hsame : Same S fs total fails k s ⟨metadata, store⟩ :=
    ⟨hserves, hfails.last, fun _ => hsize _⟩
  cases r with
  | some u =>
    obtain ⟨-, -, hcached⟩ := (hs.files k).cacheGet hget
    cases hcached u rfl
    exact hQ _ hsame
  | none =>
    have hasked : total → store.cluster.up S.dms = true := by
      intro ht
      obtain hcached | ⟨hup, -⟩ := hserves.found ht
      · rw [hcache, ← hr] at hcached
        cases hcached
      · exact hup
    apply Ensures.request (fun _ _ => rfl) (fun ht n hn => by cases hn; exact hasked ht)
      fun _ => rfl
    intro g response metadata₁ store₁ hstat hfails₁
    obtain ⟨hfiles₁, hsize₁⟩ := hfiles.dirStat hstat
    obtain ⟨-, -, hresult, huuid⟩ := (hfiles k).dirStat hstat
    have hcache₁ := Deployment.handle_request hstat rfl
    have hserves₁ := hserves.after hfails₁ hfiles₁ fun _ => by rw [hcache₁]
    have hsame₁ : Same S fs total fails k s ⟨metadata₁, store₁⟩ :=
      hsame.trans ⟨hserves₁, hfails₁.last, fun _ => hsize₁ _⟩
    change Ensures S clock total fails Q (if response.result < 0 then .ret none else
      .call (.cacheSet _ response.stat.uuid) fun _ => .ret (some response.stat.uuid)) _
    rw [hresult, huuid, if_neg (by decide)]
    apply Ensures.request (fun _ _ => rfl) (fun _ _ hn => by cases hn) fun _ => rfl
    intro g r metadata₂ store₂ hset hfails₂
    obtain ⟨hfiles₂, hsize₂⟩ := hfiles₁.cacheSet hset
    have hnone : (metadata₁.cache S.me).cached
        (S.client.lib.parent_path (fs.target k).path) = none := by
      rw [hcache₁, hcache, ← hr]
    have hserves₂ : Serves S fs total fails k ⟨metadata₂, store₂⟩ :=
      ⟨hfiles₂, hfails₂.inv hserves₁.store, (hfails₂.up Setup.me_ne).trans hserves₁.me,
        (hfails₂.up Setup.fms_ne).trans hserves₁.fms,
        fun _ => .inl (Deployment.cacheSet_cached hnone hset)⟩
    exact hQ _ (hsame₁.trans ⟨hserves₂, hfails₂.last, fun _ => hsize₂ _⟩)

theorem Serves.get_file_key (hs : s.Serves S fs total fails k)
    {Q : Option Str → Storage → Prop}
    (hQ : ∀ s', Same S fs total fails k s s' →
      Q (some (key (to_string (fs.target k).uuid) (S.client.lib.filename (fs.target k).path))) s') :
    Ensures S clock total fails Q (S.client.get_file_key (fs.target k).path) s := by
  apply Prog.Ensures.bind
  apply hs.get_uuid
  intro s' hsame
  exact hQ s' hsame

theorem Serves.get_file_stat (hs : s.Serves S fs total fails k)
    {Q : Option LocoFileStat → Storage → Prop}
    (hQ : ∀ s' st, Same S fs total fails k s s' →
      S.client.blkno st = S.client.blkno (fs.target k).file.stat →
      st.block_size.toInt = 4096 → st.st.st_size = s.sizeAt S fs k → Q (some st) s') :
    Ensures S clock total fails Q (S.client.get_file_stat (fs.target k).path) s := by
  apply Prog.Ensures.bind
  apply hs.get_file_key
  intro s₁ hsame₁
  have hasked := hsame₁.serves.fms
  apply Ensures.request (fun _ _ => rfl) (fun _ n hn => by cases hn; exact hasked) fun _ => rfl
  intro g response metadata store hstat hfails
  obtain ⟨hfiles, hsizes⟩ := hsame₁.serves.files.fileStat hstat
  obtain ⟨-, -, hresult, hsuuid, hsid, hblock, hsize⟩ := (hsame₁.serves.files k).fileStat hstat
  have hcache := Deployment.handle_request hstat rfl
  change Ensures S clock total fails Q
    (.ret (if response.result = 0 then some response.stat else none)) _
  rw [hresult, if_pos rfl]
  exact hQ _ _ (hsame₁.trans ⟨hsame₁.serves.after hfails hfiles fun _ => by rw [hcache],
      hfails.last, fun _ => hsizes _⟩)
    (blkno_stat hsuuid hsid) hblock (hsize.trans (hsame₁.size k))

end Storage

end Galois
