import Galois.Clients

namespace Galois
set_option autoImplicit true
set_option relaxedAutoImplicit false

open Prog Client LocofsClient

namespace FMStore

variable {lib : Library} {s s' : FMStore} {Key K : Str}

def fileAt (s : FMStore) (Key : Str) : Option File :=
  (s.file_content_store Key).map fun fc => ⟨fc.suuid, fc.sid⟩

def sizeOf (s : FMStore) (Key : Str) : Option Int :=
  (s.file_content_store Key).map FileContentInode.size

/-- The same files, of which only the one with the key may have another size. -/
structure SameFiles (Key : Str → Prop) (s s' : FMStore) : Prop where
  lists : s'.ec_store = s.ec_store
  access : ∀ K, (s'.file_access_store K).isSome = (s.file_access_store K).isSome
  file : ∀ K, s'.fileAt K = s.fileAt K
  size : ∀ K, ¬ Key K → s'.sizeOf K = s.sizeOf K

theorem SameFiles.refl (Key : Str → Prop) (s : FMStore) : SameFiles Key s s :=
  ⟨rfl, fun _ => rfl, fun _ => rfl, fun _ _ => rfl⟩

theorem isSome_fileAt (s : FMStore) (K : Str) :
    (s.fileAt K).isSome = (s.file_content_store K).isSome := by
  rw [fileAt, Option.isSome_map]

theorem SameFiles.inv {P : Str → Prop} (h : SameFiles P s s') (hs : s.Inv) : s'.Inv where
  exact := by
    rw [h.lists]
    exact hs.exact.congr fun u n _ => h.access _
  both k := by
    rw [← isSome_fileAt, h.file, isSome_fileAt, h.access]
    exact hs.both k

theorem isSome_of_access {faa : FileAccessInode} (h : s.access Key faa = 0) :
    (s.file_access_store Key).isSome := by
  cases hfa : s.file_access_store Key with
  | none =>
    simp only [access, getAccessValue, KVStore.getValue, hfa, Option.map_none] at h
    cases h
  | some fa => rfl

theorem stat_sameFiles (g : Garbage) (s : FMStore) (Key : Str) :
    SameFiles (fun _ => False) s (fmHandleStat g s Key).2 := by
  have hstore : (fmHandleStat g s Key).2 = (s.getAttr always g.fi Key).2 := by
    simp only [fmHandleStat]
    split <;> rfl
  rw [hstore]
  cases hfa : s.file_access_store Key with
  | none =>
    simp only [getAttr, getValue, getAccessValue, KVStore.getValue, hfa, Option.map_none]
    exact .refl _ s
  | some fa =>
    cases hfc : s.file_content_store Key with
    | none =>
      simp only [getAttr, getValue, getAccessValue, getContentValue, KVStore.getValue, hfa, hfc,
        Option.map_none, Option.map_some]
      exact .refl _ s
    | some fc =>
      simp only [getAttr, getValue, getAccessValue, getContentValue, KVStore.getValue, hfa, hfc,
        Option.map_some, lt_irrefl, ↓reduceIte, setValue, setAccessValue, setContentValue, always,
        KVStore.setValue_true]
      refine ⟨rfl, fun K => ?_, fun K => ?_, fun K _ => ?_⟩
      · simp only [Function.update_apply]
        split
        · next he => rw [he, hfa]; rfl
        · rfl
      · simp only [fileAt, Function.update_apply]
        split
        · next he => rw [he, hfc]; rfl
        · rfl
      · simp only [sizeOf, Function.update_apply]
        split
        · next he => rw [he, hfc]; rfl
        · rfl

theorem csize_sameFiles (g : Garbage) (s : FMStore) (Key : Str) (value : Int) :
    SameFiles (· = Key) s (fmHandleCsize g s Key value).2 := by
  cases hfc : s.file_content_store Key with
  | none =>
    simp only [fmHandleCsize, csize, getContentValue, KVStore.getValue, hfc, Option.map_none]
    exact .refl _ s
  | some fc =>
    simp only [fmHandleCsize, csize, getContentValue, KVStore.getValue, hfc, Option.map_some,
      setContentValue, always, KVStore.setValue_true]
    refine ⟨rfl, fun K => rfl, fun K => ?_, fun K hK => ?_⟩
    · simp only [fileAt, Function.update_apply]
      split
      · next he => rw [he, hfc]; rfl
      · rfl
    · simp only [sizeOf, Function.update_of_ne hK]

end FMStore

/-- A request that neither makes nor removes a file. -/
def Harmless : Op → Prop
  | .create _ _ | .remove _ => False
  | _ => True

theorem handle_sameFiles {g : Garbage} {lib : Library} {clock : Nat → Int} {s s' : FileSystem}
    {o : Op} {r : o.Res} (h : FileSystem.handle g lib clock o s = some (r, s')) (ho : Harmless o) :
    FMStore.SameFiles (fun K => ∃ value, o = .csize value K) s.fm s'.fm := by
  cases o with
  | create | remove => exact ho.elim
  | fileStat path =>
    have hfm : s'.fm = (fmHandleStat g s.fm path).2 := by
      cases h
      rfl
    rw [hfm]
    have hsame := FMStore.stat_sameFiles g s.fm path
    exact ⟨hsame.lists, hsame.access, hsame.file, fun K _ => hsame.size K id⟩
  | csize value path =>
    have hfm : s'.fm = (fmHandleCsize g s.fm path value).2 := by
      cases h
      rfl
    rw [hfm]
    have hsame := FMStore.csize_sameFiles g s.fm path value
    exact ⟨hsame.lists, hsame.access, hsame.file,
      fun K hK => hsame.size K fun he => hK ⟨value, by rw [he]⟩⟩
  | rmdir path =>
    obtain ⟨⟨r', dm⟩, -, he⟩ := Option.map_eq_some_iff.1 h
    cases he
    exact .refl _ _
  | fileReaddir server value =>
    obtain ⟨fm, -, he⟩ := Option.map_eq_some_iff.1 h
    cases he
    exact .refl _ _
  | undefined => cases h
  | _ =>
    cases h
    exact .refl _ _

namespace FMStore

variable {lib : Library} {s s' s'' : FMStore} {u : BitVec 64} {n : Name}

/-- Every file is still the same, and only a `csize` has set another size. -/
structure Keeps (act : Option Op) (s s' : FMStore) : Prop where
  file : ∀ K f, s.fileAt K = some f → s'.fileAt K = some f
  size : ∀ K z, s.sizeOf K = some z → s'.sizeOf K = some z ∨ ∃ value, act = some (.csize value K)

theorem Keeps.refl (act : Option Op) (s : FMStore) : Keeps act s s :=
  ⟨fun _ _ h => h, fun _ _ h => .inl h⟩

theorem SameFiles.keeps {act : Option Op} {P : Str → Prop} (h : SameFiles P s s')
    (hP : ∀ K, P K → ∃ value, act = some (.csize value K)) : Keeps act s s' where
  file K f hf := (h.file K).trans hf
  size K z hz := by
    by_cases hK : P K
    · exact .inr (hP K hK)
    · exact .inl ((h.size K hK).trans hz)

theorem Keeps.trans_same {act : Option Op} (h : Keeps act s s')
    (h' : SameFiles (fun _ => False) s' s'') : Keeps act s s'' where
  file K f hf := (h'.file K).trans (h.file K f hf)
  size K z hz := (h.size K z hz).imp_left (h'.size K id).trans

theorem create_keeps (hlib : lib.Documented) (hs : s.Inv) (hn : ':' ∉ n.chars)
    (hfree : s.file_access_store (sentKey u n.chars) = none) (fa faa : FileAccessInode)
    (fcc : FileContentInode) (act : Option Op) :
    (s.create lib always (sentKey u n.chars) fa faa fcc).2.Inv ∧
      Keeps act s (s.create lib always (sentKey u n.chars) fa faa fcc).2 ∧
      ((s.create lib always (sentKey u n.chars) fa faa fcc).2.fileAt
        (sentKey u n.chars)).isSome := by
  rw [sentKey_eq] at hfree ⊢
  generalize hn' : n.chars.take (MAX_PATH_LEN - (to_string u).length - 1) = n' at hfree ⊢
  have hcolon : ':' ∉ n' := fun hc => hn (List.mem_of_mem_take (hn' ▸ hc))
  have hu := colon_notMem_to_string u
  rw [create_key hlib (strlen_key u n') hu hcolon]
  have hcontent : s.file_content_store (key (to_string u) n') = none := by
    rw [← Option.not_isSome_iff_eq_none, hs.both, hfree]
    decide
  have hother (K : Str) {f : FileContentInode} (hf : s.file_content_store K = some f) :
      (s.created (to_string u) n' fa faa fcc).file_content_store K = some f := by
    have hne : K ≠ key (to_string u) n' := by
      rintro rfl
      rw [hcontent] at hf
      cases hf
    exact (Function.update_of_ne hne _ _).trans hf
  refine ⟨hs.created hu hfree fa faa fcc, ⟨fun K f hf => ?_, fun K z hz => ?_⟩, ?_⟩
  · obtain ⟨fc, hfc, rfl⟩ := Option.map_eq_some_iff.1 hf
    rw [fileAt, hother K hfc]
    rfl
  · obtain ⟨fc, hfc, rfl⟩ := Option.map_eq_some_iff.1 hz
    rw [sizeOf, hother K hfc]
    exact .inl rfl
  · simp only [fileAt, created, Function.update_self, Option.map_some, Option.isSome_some]

end FMStore

namespace ClientCall

/-- `open` of the path, or a call that neither makes nor removes a file. -/
def Opens (path : Str) : ClientCall → Prop
  | .openFile path' => path' = path
  | .mkdir _ | .rmdir _ | .write _ _ _ _ => True
  | .create _ | .unlink _ => False

end ClientCall

namespace Deployment

variable {ι : Type} {c : LocofsClient} {path : Str} {n : Name} {clock : Nat → Int} {i : ι}
  {s s' : Deployment ι} {call : ClientCall}

/-- A `create` finds no file under its key. -/
def Untaken (s : Deployment ι) : Op → Prop
  | .create _ Key => s.servers.fm.file_access_store Key = none
  | _ => True

def opening (ι : Type) (path : Str) (n : Name) : Outline sig ι ClientCall Bool (Deployment ι) where
  inv s := s.servers.fm.Inv
  pre _ call := call.Opens path
  rely _ _ _ _ _ := True
  clear _ _ o s := s.Untaken o
  guar _ _ act s s' := FMStore.Keeps act s.servers.fm s'.servers.fm
  post _ call b _ sent s := call = .openFile path → b = true → ∃ u,
    sentKey u n.chars ∈ sentKeys sent ∧ (s.servers.fm.fileAt (sentKey u n.chars)).isSome

theorem opening_compatible : (opening ι path n).Compatible fun q _ _ o => q.state.Untaken o where
  refl _ := trivial
  trans _ _ := trivial
  start _ _ _ := trivial
  clear h := h
  turn _ _ _ _ _ := trivial
  keep := by
    intro i call act s s' j call' b seen sent hkeeps hpost hcall hb
    obtain ⟨u, hsent, hfile⟩ := hpost hcall hb
    obtain ⟨f, hf⟩ := Option.isSome_iff_exists.1 hfile
    exact ⟨u, hsent, by rw [hkeeps.file _ f hf]; rfl⟩

variable [DecidableEq ι] {m : Moment sig (Deployment ι)} {Q : α → Moment sig (Deployment ι) → Prop}

variable (i call) in
/-- A program that keeps the files apart from those it makes. -/
abbrev KeepsFiles (c : LocofsClient) (clock : Nat → Int) (path : Str) (n : Name)
    (Q : α → Moment sig (Deployment ι) → Prop) (p : Prog sig α)
    (m : Moment sig (Deployment ι)) : Prop :=
  p.Safe Client.isLocal (fun g => handle c.lib clock g i) ((opening ι path n).contract i call) Q m

theorem harmless_keepsFiles {p : Prog sig α} (hp : p.Uses Harmless)
    (hm : m.Ends ((opening ι path n).contract i call))
    (hQ : ∀ a m', m'.Ends ((opening ι path n).contract i call) → Q a m') :
    KeepsFiles i call c clock path n Q p m := by
  induction p generalizing m with
  | ret a => exact Safe.ret (hQ a m hm)
  | call o k ih =>
    obtain ⟨ho, hk⟩ := hp
    cases hl : Client.isLocal o with
    | true =>
      apply Safe.local hl
      intro g r s h
      obtain ⟨fs, hfs, rfl⟩ := handle_eq_some h
      have hsame := handle_sameFiles hfs ho
      have hno : ∀ K value, o ≠ .csize value K := by
        rintro K value rfl
        cases hl
      have hsame' : FMStore.SameFiles (fun _ => False) m.now.servers.fm fs.fm :=
        ⟨hsame.lists, hsame.access, hsame.file, fun K _ => hsame.size K fun ⟨v, hv⟩ => hno K v hv⟩
      exact ih r (hk r) ⟨hsame'.inv hm.inv, hm.guar.trans_same hsame'⟩
    | false =>
      apply Safe.request hl hm
      intro s seen hs _ _ _ _ g r s' h
      obtain ⟨fs, hfs, rfl⟩ := handle_eq_some h
      have hsame := handle_sameFiles hfs ho
      exact ih r (hk r) ⟨hsame.inv hs, hsame.keeps fun K ⟨v, hv⟩ => ⟨v, congrArg some hv⟩⟩

end Deployment

namespace LocofsClient

variable {c : LocofsClient} {path : Str}

theorem paged_harmless : Paged Harmless := ⟨trivial, fun _ => trivial, fun _ => trivial⟩

theorem mkdir_uses : (LocofsClient.mkdir path).Uses Harmless :=
  paged_harmless.uses_check_path.bind fun _ => ⟨trivial, fun _ => trivial⟩

theorem rmdir_uses : (LocofsClient.rmdir path).Uses Harmless := by
  apply paged_harmless.uses_check_path.bind
  intro p
  refine ⟨trivial, fun (value : Int) => ?_⟩
  change Prog.Uses (S := sig) Harmless
    (if value = 0 then .call (.cacheRemove p) fun _ => .ret true else .ret false)
  split
  · exact ⟨trivial, fun _ => trivial⟩
  · exact trivial

theorem get_uuid_uses : (LocofsClient.get_uuid path).Uses Harmless := by
  refine ⟨trivial, fun (r : Option (BitVec 64)) => ?_⟩
  cases r with
  | some u => exact trivial
  | none =>
    refine ⟨trivial, fun (response : StatResponse LocoDirStat) => ?_⟩
    change Prog.Uses (S := sig) Harmless (if response.result < 0 then .ret none else
      .call (.cacheSet path response.stat.uuid) fun _ => .ret (some response.stat.uuid))
    split
    · exact trivial
    · exact ⟨trivial, fun _ => trivial⟩

theorem get_file_key_uses : (c.get_file_key path).Uses Harmless := by
  apply get_uuid_uses.bind
  intro r
  cases r <;> exact trivial

theorem get_file_stat_uses : (c.get_file_stat path).Uses Harmless :=
  get_file_key_uses.bind fun _ => ⟨trivial, fun _ => trivial⟩

theorem write_uses {buf : Buffer} {len off : Int} : (c.write path buf len off).Uses Harmless := by
  apply get_file_stat_uses.bind
  intro st
  cases st with
  | none => exact trivial
  | some st =>
    apply paged_harmless.uses_writeLoop.bind
    intro _
    apply get_file_key_uses.bind
    intro r
    cases r with
    | none => exact trivial
    | some Key => exact paged_harmless.uses_add64.bind fun _ => ⟨trivial, fun _ => trivial⟩

end LocofsClient

namespace Deployment

variable {ι : Type} [DecidableEq ι] {c : LocofsClient} {path : Str} {n : Name} {clock : Nat → Int}
  {i : ι} {call : ClientCall} {m : Moment sig (Deployment ι)}

theorem openFile_keepsFiles (hlib : c.lib.Documented) (hn : c.lib.filename path = n.chars)
    (hcolon : ':' ∉ n.chars) (hm : m.Ends ((opening ι path n).contract i (.openFile path))) :
    KeepsFiles i (.openFile path) c clock path n ((opening ι path n).Final i (.openFile path))
      (c.openFile path) m := by
  apply Safe.bind
  apply Safe.bind
  apply harmless_keepsFiles get_uuid_uses hm
  intro r m₁ hm₁
  cases r with
  | none => exact Safe.ret ⟨hm₁, fun _ hb => by cases hb⟩
  | some u =>
    change KeepsFiles _ _ _ _ _ _ _
      (.call (.access (requestPath (key (to_string u) (c.lib.filename path)))) fun (value : Int) =>
        if value = 0 then .ret true
        else .call (.create (some 0o777) (requestPath (key (to_string u) (c.lib.filename path))))
          fun (value : Int) => .ret (decide (value = 0))) _
    rw [hn]
    change KeepsFiles _ _ _ _ _ _ _ (.call (.access (sentKey u n.chars)) fun (value : Int) =>
      if value = 0 then .ret true else .call (.create (some 0o777) (sentKey u n.chars))
        fun (value : Int) => .ret (decide (value = 0))) _
    apply Safe.request rfl hm₁
    intro s seen hs _ _ _ _ g (value : Int) s' h
    obtain ⟨fs, hfs, rfl⟩ := handle_eq_some h
    have hends : Moment.Ends ((opening ι path n).contract i (.openFile path))
        ⟨some (.access (sentKey u n.chars)), s, ⟨fs, Function.update s.cache i fs.cache⟩, seen,
          .access (sentKey u n.chars) :: m₁.sent⟩ := by
      have hsame := handle_sameFiles hfs trivial
      exact ⟨hsame.inv hs, hsame.keeps fun K ⟨v, hv⟩ => by cases hv⟩
    by_cases hvalue : value = 0
    · subst hvalue
      rw [if_pos rfl]
      have hfile : (fs.fm.fileAt (sentKey u n.chars)).isSome := by
        obtain ⟨haccess, hfm⟩ := Prod.mk.inj (Option.some.inj (show
          some (fmHandleAccess g (s.view i).fm (sentKey u n.chars), s.view i) = some ((0 : Int), fs)
          from hfs))
        rw [← hfm, FMStore.isSome_fileAt, show (s.view i).fm = s.servers.fm from rfl, hs.both]
        exact FMStore.isSome_of_access haccess
      exact Safe.ret ⟨hends, fun _ _ => ⟨u, List.mem_cons_self, hfile⟩⟩
    · rw [if_neg hvalue]
      apply Safe.request rfl hends
      intro s₁ seen₁ hs₁ _ _ _ hfree g₁ (value₁ : Int) s₂ h₁
      obtain ⟨fs₁, hfs₁, rfl⟩ := handle_eq_some h₁
      cases hfs₁
      obtain ⟨hinv, hkeeps, hfile⟩ := FMStore.create_keeps hlib hs₁ hcolon hfree
        { g₁.fi.fa with mode := 0o777, uid := 0o777, gid := 0o777 } g₁.fi.fa g₁.fc
        (some (.create (some 0o777) (sentKey u n.chars)))
      exact Safe.ret ⟨⟨hinv, hkeeps⟩, fun _ _ => ⟨u, List.mem_cons_self, hfile⟩⟩

/-- Calls of `open` for one path, among calls that neither make nor remove a file. -/
def openSystem (ι : Type) [DecidableEq ι] (c : LocofsClient) (clock : Nat → Int) (path : Str) :
    System (Pool sig ι ClientCall Bool (Deployment ι)) (Pool.Event ι ClientCall Garbage) :=
  ((calls ι c clock).system fun s => s.servers.fm.Inv).restrict
    fun q e _ => Calls.Meets (fun _ call => call.Opens path) (fun _ _ _ _ => True) q e

/-- The same, where a `create` finds no file under its key. -/
def untakenSystem (ι : Type) [DecidableEq ι] (c : LocofsClient) (clock : Nat → Int) (path : Str) :
    System (Pool sig ι ClientCall Bool (Deployment ι)) (Pool.Event ι ClientCall Garbage) :=
  ((calls ι c clock).system fun s => s.servers.fm.Inv).restrict
    fun q e _ => Calls.Meets (fun _ call => call.Opens path) (fun q _ _ o => q.state.Untaken o) q e

variable {w w' : List (Pool.Event ι ClientCall Garbage)}
  {q q' : Pool sig ι ClientCall Bool (Deployment ι)}

theorem prog_keepsFiles (hlib : c.lib.Documented) (hn : c.lib.filename path = n.chars)
    (hcolon : ':' ∉ n.chars) (i : ι) (call : ClientCall) (s : Deployment ι)
    (hcall : call.Opens path) (hs : s.servers.fm.Inv) :
    KeepsFiles i call c clock path n ((opening ι path n).Final i call) (call.prog c)
      ⟨none, s, s, [s], []⟩ := by
  have hm : Moment.Ends ((opening ι path n).contract i call) ⟨none, s, s, [s], []⟩ :=
    ⟨hs, .refl _ _⟩
  have hfinal (hne : call ≠ .openFile path) (b : Bool) (m : Moment sig (Deployment ι))
      (hm : m.Ends ((opening ι path n).contract i call)) : (opening ι path n).Final i call b m :=
    ⟨hm, fun he => absurd he hne⟩
  cases call with
  | openFile path' =>
    cases hcall
    exact openFile_keepsFiles hlib hn hcolon hm
  | mkdir p => exact harmless_keepsFiles mkdir_uses hm (hfinal nofun)
  | rmdir p => exact harmless_keepsFiles rmdir_uses hm (hfinal nofun)
  | write p buf len off => exact harmless_keepsFiles write_uses hm (hfinal nofun)
  | create p => exact hcall.elim
  | unlink p => exact hcall.elim

theorem untaken_safe (hlib : c.lib.Documented) (hn : c.lib.filename path = n.chars)
    (hcolon : ':' ∉ n.chars) (h : (untakenSystem ι c clock path).Run w q) :
    (opening ι path n).Safe (calls ι c clock) q :=
  Outline.safe_run opening_compatible (prog_keepsFiles hlib hn hcolon) (fun _ hs => hs) h

theorem untaken_keeps (hlib : c.lib.Documented) (hn : c.lib.filename path = n.chars)
    (hcolon : ':' ∉ n.chars) (h : (untakenSystem ι c clock path).Run w q)
    (hs : (untakenSystem ι c clock path).step q e q') :
    ∃ act, FMStore.Keeps act q.state.servers.fm q'.state.servers.fm ∧
      ∀ o, act = some o → ∃ i x k, q.thread i = some x ∧ x.rest = .call o k := by
  obtain ⟨i, call, act, hguar, hact⟩ := (untaken_safe hlib hn hcolon h).guar opening_compatible
    (prog_keepsFiles hlib hn hcolon) hs.1 hs.2
  refine ⟨act, hguar, fun o ho => ?_⟩
  obtain ⟨x, k, hx, hrest⟩ := hact o ho
  exact ⟨i, x, k, hx, hrest⟩

theorem untaken_files (hlib : c.lib.Documented) (hn : c.lib.filename path = n.chars)
    (hcolon : ':' ∉ n.chars) (h : (untakenSystem ι c clock path).Run w q)
    (hs : (untakenSystem ι c clock path).Steps q w' q') {Key : Str} {f : File}
    (hf : q.state.servers.fm.fileAt Key = some f) : q'.state.servers.fm.fileAt Key = some f := by
  have hkept : ∀ Key f, q.state.servers.fm.fileAt Key = some f →
      q'.state.servers.fm.fileAt Key = some f := by
    apply h.steps_keep (R := fun q q' => ∀ Key f, q.state.servers.fm.fileAt Key = some f →
      q'.state.servers.fm.fileAt Key = some f) _ _ _ hs
    · intro q Key f hf
      exact hf
    · intro q₁ q₂ q₃ h h' Key f hf
      exact h' Key f (h Key f hf)
    · intro w q₁ e q₂ hrun hstep Key f hf
      obtain ⟨act, hkeeps, -⟩ := untaken_keeps hlib hn hcolon hrun hstep
      exact hkeeps.file Key f hf
  exact hkept Key f hf

/-- As long as a file is made only once, it stays the same, no `open` sets its size, and it is
listed once. -/
theorem opened_once (hlib : c.lib.Documented) (hn : c.lib.filename path = n.chars)
    (hcolon : ':' ∉ n.chars) (h : (untakenSystem ι c clock path).Run w q) :
    (∀ r ∈ q.returned, r.call = .openFile path → r.answer = true → ∃ u,
      sentKey u n.chars ∈ sentKeys r.sent ∧
        (q.state.servers.fm.fileAt (sentKey u n.chars)).isSome) ∧
    (∀ q' w', (untakenSystem ι c clock path).Steps q w' q' →
      ∀ Key f, q.state.servers.fm.fileAt Key = some f → q'.state.servers.fm.fileAt Key = some f) ∧
    (∀ q' e, (untakenSystem ι c clock path).step q e q' →
      ∀ Key size, q.state.servers.fm.sizeOf Key = some size →
        q'.state.servers.fm.sizeOf Key = some size ∨
        ∃ i x value k, q.thread i = some x ∧ x.rest = .call (.csize value Key) k) ∧
    ∀ u, Fits u n.chars → (q.state.servers.fm.fileAt (sentKey u n.chars)).isSome →
      (q.state.servers.fm.ec_store.names (to_string u)).count n.chars = 1 := by
  have hsafe := untaken_safe hlib hn hcolon h
  refine ⟨hsafe.post, fun q' w' hs Key f => untaken_files hlib hn hcolon h hs, ?_, ?_⟩
  · intro q' e hs Key size hsize
    obtain ⟨act, hkeeps, hact⟩ := untaken_keeps hlib hn hcolon h hs
    refine (hkeeps.size Key size hsize).imp_right ?_
    rintro ⟨value, hv⟩
    obtain ⟨i, x, k, hx, hrest⟩ := hact _ hv
    exact ⟨i, x, value, k, hx, hrest⟩
  · intro u hfit hfile
    have hinv := hsafe.inv
    have hu := colon_notMem_to_string u
    rw [sentKey_of_fits hfit] at hfile
    apply List.count_eq_one_of_mem (hinv.exact.nodup _ hu)
    rw [hinv.exact.mem _ _ hu, ← hinv.both, ← FMStore.isSome_fileAt]
    exact hfile

section Examples

def emptyDeployment : Deployment Bool where
  servers := { exampleSystem with fm := FMStore.empty 233 }
  cache _ := ⟨5000, [], 0⟩

abbrev emptyPool : Pool sig Bool ClientCall Bool (Deployment Bool) :=
  ⟨emptyDeployment, fun _ => none, []⟩

theorem emptyPool_init : (exampleCalls.system fun s => s.servers.fm.Inv).init emptyPool :=
  ⟨FMStore.empty_inv 233, fun _ => rfl, rfl⟩

def openB (i : Bool) : Pool.Event Bool ClientCall Garbage :=
  .start i (.openFile examplePath.str) exampleGarbage

def untaken (q : Pool sig Bool ClientCall Bool (Deployment Bool)) :
    Pool.Event Bool ClientCall Garbage → Bool
  | .start _ (.openFile path) _ => path = examplePath.str
  | .start _ _ _ => false
  | .turn i _ =>
    match q.thread i with
    | some ⟨_, .call (.create _ Key) _, _, _⟩ => (q.state.servers.fm.file_access_store Key).isNone
    | _ => true

theorem untaken_meets {q : Pool sig Bool ClientCall Bool (Deployment Bool)}
    {e : Pool.Event Bool ClientCall Garbage} (h : untaken q e = true) :
    Calls.Meets (fun _ call => call.Opens examplePath.str)
      (fun q _ _ o => q.state.Untaken o) q e := by
  cases e with
  | start i call g =>
    cases call with
    | openFile path => exact of_decide_eq_true (p := path = examplePath.str) h
    | _ => cases h
  | turn i g =>
    intro x o k hx hrest
    obtain ⟨call, rest, seen, sent⟩ := x
    cases hrest
    cases o with
    | create mode Key =>
      simp only [untaken, hx] at h
      exact Option.isNone_iff_eq_none.1 h
    | _ => trivial

/-- One client opens the file after the other. -/
def openedTwice : List (Pool.Event Bool ClientCall Garbage) :=
  [openB false, .turn false exampleGarbage, .turn false exampleGarbage, .turn false exampleGarbage,
    openB true, .turn true exampleGarbage, .turn true exampleGarbage]

theorem opened_once_b : ∃ q, (untakenSystem Bool exampleClient (fun _ => 0) examplePath.str).Run
      openedTwice q ∧ q.returned.map (·.answer) = [true, true] ∧
    (q.state.servers.fm.ec_store.names ['2']).count ['b'] = 1 := by
  have hanswer : (exampleCalls.follow untaken emptyPool openedTwice).map (fun q =>
      (q.returned.map (·.answer), (q.state.servers.fm.fileAt (sentKey 2 ['b'])).isSome)) =
        some ([true, true], true) := by decide +kernel
  obtain ⟨q, hq, he⟩ := Option.map_eq_some_iff.1 hanswer
  obtain ⟨hreturned, hfile⟩ := Prod.mk.inj he
  have hrun : (untakenSystem Bool exampleClient (fun _ => 0) examplePath.str).Run openedTwice q :=
    Calls.run_of_follow (v := []) (fun _ _ _ _ => untaken_meets) (.nil emptyPool_init) hq
  obtain ⟨-, -, -, hlisted⟩ := @opened_once Bool _ exampleClient _ DMServer.nameB _ _ q
    Library.posix_documented (by decide) (by decide) hrun
  exact ⟨q, hrun, hreturned, hlisted 2 ⟨by decide, by decide⟩ hfile⟩

def opensB : Pool.Event Bool ClientCall Garbage → Bool
  | .start _ (.openFile path) _ => path = examplePath.str
  | .start _ _ _ => false
  | .turn _ _ => true

theorem opensB_meets {q : Pool sig Bool ClientCall Bool (Deployment Bool)}
    {e : Pool.Event Bool ClientCall Garbage} (h : opensB e = true) :
    Calls.Meets (fun _ call => call.Opens examplePath.str) (fun _ _ _ _ => True) q e := by
  cases e with
  | start i call g =>
    cases call with
    | openFile path => exact of_decide_eq_true (p := path = examplePath.str) h
    | _ => cases h
  | turn i g => exact fun _ _ _ _ _ => trivial

/-- Both clients find no file, and the second `create` comes after the first call has returned. -/
def openedAtOnce : List (Pool.Event Bool ClientCall Garbage) :=
  [openB false, openB true, .turn false exampleGarbage, .turn true exampleGarbage,
    .turn false exampleGarbage, .turn true exampleGarbage, .turn false exampleGarbage]

def suuidB (q : Pool sig Bool ClientCall Bool (Deployment Bool)) : Option (BitVec 64) :=
  (q.state.servers.fm.fileAt (sentKey 2 ['b'])).map File.suuid

/-- The second `create` makes the file anew and lists it again. -/
theorem opened_again : ¬ ∀ (w w' : List (Pool.Event Bool ClientCall Garbage))
    (q q' : Pool sig Bool ClientCall Bool (Deployment Bool)),
    (openSystem Bool exampleClient (fun _ => 0) examplePath.str).Run w q →
    (openSystem Bool exampleClient (fun _ => 0) examplePath.str).Steps q w' q' →
    (∀ r ∈ q'.returned, r.answer = true) →
    (∀ Key f, q.state.servers.fm.fileAt Key = some f → q'.state.servers.fm.fileAt Key = some f) ∧
      (q'.state.servers.fm.ec_store.names ['2']).count ['b'] ≤ 1 := by
  intro h
  have hanswer : (exampleCalls.follow (fun _ => opensB) emptyPool openedAtOnce).bind (fun q =>
      (exampleCalls.next q (.turn true exampleGarbage)).map fun q' =>
        (q'.returned.all (·.answer), suuidB q, suuidB q')) = some (true, some 0, some 1) := by
    decide +kernel
  obtain ⟨q, hq, hafter⟩ := Option.bind_eq_some_iff.1 hanswer
  obtain ⟨q', hq', he⟩ := Option.map_eq_some_iff.1 hafter
  obtain ⟨hreturned, hsuuids⟩ := Prod.mk.inj he
  obtain ⟨hfirst, hsecond⟩ := Prod.mk.inj hsuuids
  obtain ⟨f, hf, hzero⟩ := Option.map_eq_some_iff.1 hfirst
  have hrun : (openSystem Bool exampleClient (fun _ => 0) examplePath.str).Run openedAtOnce q :=
    Calls.run_of_follow (v := []) (fun _ _ _ _ => opensB_meets) (.nil emptyPool_init) hq
  have hsteps : (openSystem Bool exampleClient (fun _ => 0) examplePath.str).Steps q
      [.turn true exampleGarbage] q' := System.Steps.nil.snoc ⟨hq', fun _ _ _ _ _ => trivial⟩
  obtain ⟨hkept, -⟩ := h _ _ q q' hrun hsteps (List.all_eq_true.1 hreturned)
  rw [suuidB, hkept _ f hf, Option.map_some, hzero] at hsecond
  exact absurd hsecond (by decide)

end Examples

end Deployment

end Galois
