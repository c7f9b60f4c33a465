import Galois.Isolation
import Galois.Opens

namespace Galois
set_option autoImplicit true
set_option relaxedAutoImplicit false

open Prog Client

theorem FMStore.stat_of_none {s : FMStore} {Key : Str} (g : Garbage)
    (h : ¬ ((s.file_access_store Key).isSome ∧ (s.file_content_store Key).isSome)) :
    fmHandleStat g s Key = (⟨-1, g.fileStat⟩, s) := by
  have hvalue : (s.getValue Key g.fi).1 = -1 := by
    cases hfa : s.file_access_store Key with
    | none => simp only [getValue, getAccessValue, KVStore.getValue, hfa, Option.map_none]
    | some fa =>
      cases hfc : s.file_content_store Key with
      | none => simp only [getValue, getAccessValue, getContentValue, KVStore.getValue, hfa, hfc,
          Option.map_some, Option.map_none]
      | some fc =>
        rw [hfa, hfc] at h
        exact absurd ⟨rfl, rfl⟩ h
  have hneg : (s.getValue Key g.fi).1 < 0 := by
    rw [hvalue]
    decide
  have hattr : s.getAttr always g.fi Key = ({ (s.getValue Key g.fi).2 with error := -1 }, s) :=
    if_pos hneg
  rw [fmHandleStat, hattr]
  rfl

theorem FMStore.create_access {s : FMStore} {Key K : Str} (hK : K ≠ Key) (lib : Library)
    (fa faa : FileAccessInode) (fcc : FileContentInode) :
    (s.create lib always Key fa faa fcc).2.file_access_store K = s.file_access_store K := by
  simp only [create, setAccessValue, setContentValue, always, KVStore.setValue_true,
    Option.map_some]
  split <;> exact Function.update_of_ne hK ..

theorem FMStore.remove_access {lib : Library} {s s' : FMStore} {Key K : Str} {r : Int}
    (hK : s.file_access_store K = none) (h : s.remove lib always Key = some (r, s')) :
    s'.file_access_store K = none := by
  cases ha : s.file_access_store Key with
  | none =>
    cases (FMStore.remove_of_none ha).symm.trans h
    exact hK
  | some fa =>
    have hgone : Function.update s.file_access_store Key none K = none := by
      rw [Function.update_apply, hK, ite_self]
    simp only [remove, always, KVStore.remove_true_of_some ha] at h
    split at h
    · cases h
      exact hgone
    · split at h
      · obtain ⟨ec, -, he⟩ := Option.map_eq_some_iff.1 h
        cases he
        exact hgone
      · cases h

/-- A request that makes no file under the empty key. -/
def Keyed : Op → Prop
  | .create _ Key => Key ≠ []
  | _ => True

theorem Harmless.keyed {o : Op} (h : Harmless o) : Keyed o := by
  cases o with
  | create => exact h.elim
  | _ => exact trivial

theorem handle_keyed {g : Garbage} {lib : Library} {clock : Nat → Int} {s s' : FileSystem}
    {o : Op} {r : o.Res} (ho : Keyed o) (hempty : s.fm.file_access_store [] = none)
    (h : FileSystem.handle g lib clock o s = some (r, s')) :
    s'.fm.file_access_store [] = none := by
  have hother (hharmless : Harmless o) : s'.fm.file_access_store [] = none := by
    rw [← Option.not_isSome_iff_eq_none, (handle_sameFiles h hharmless).access, hempty]
    exact Bool.false_ne_true
  cases o with
  | create mode Key =>
    cases h
    exact (FMStore.create_access (Ne.symm ho) ..).trans hempty
  | remove Key =>
    obtain ⟨⟨r', fm⟩, hremove, he⟩ := Option.map_eq_some_iff.1 h
    cases he
    exact FMStore.remove_access hempty hremove
  | _ => exact hother trivial

/-- The path leads this client to the inodes of some file. -/
def FileSystem.NamesFile (lib : Library) (s : FileSystem) (path : Str) : Prop :=
  ∃ uuid, s.uuidOf lib (lib.parent_path path) = some uuid ∧
    (s.fm.file_access_store (requestPath (key (to_string uuid) (lib.filename path)))).isSome ∧
    (s.fm.file_content_store (requestPath (key (to_string uuid) (lib.filename path)))).isSome

namespace LocofsClient

variable {c : LocofsClient} {g : Garbage} {clock : Nat → Int} {s s' : FileSystem} {path : Str}
  {buf : Buffer} {len off : Int}

theorem sentKey_ne_nil (u : BitVec 64) (n : Str) : sentKey u n ≠ [] := by
  obtain ⟨ch, v, hu, hch⟩ := to_string_head u
  simp [sentKey, requestPath, key, hu, hch, MAX_PATH_LEN]

theorem keyed_of_file_key {k : Option Str → Prog sig Bool} (hnone : (k none).Uses Keyed)
    (hsome : ∀ u n, (k (some (key (to_string u) n))).Uses Keyed) :
    (c.get_file_key path >>= k).Uses Keyed := by
  rw [get_file_key, bind_assoc]
  refine (get_uuid_uses.mono fun o => Harmless.keyed).bind fun u => ?_
  cases u with
  | none => exact hnone
  | some u => exact hsome u _

theorem prog_keyed (c : LocofsClient) (call : ClientCall) : (call.prog c).Uses Keyed := by
  cases call with
  | mkdir path => exact mkdir_uses.mono fun o => Harmless.keyed
  | rmdir path => exact rmdir_uses.mono fun o => Harmless.keyed
  | write path buf len off => exact write_uses.mono fun o => Harmless.keyed
  | openFile path =>
    refine keyed_of_file_key trivial fun u n => ⟨trivial, fun (value : Int) => ?_⟩
    change Prog.Uses (S := sig) Keyed (if value = 0 then .ret true else
      .call (.create (some 0o777) (sentKey u n)) fun (value : Int) => .ret (decide (value = 0)))
    split
    · exact trivial
    · exact ⟨sentKey_ne_nil u n, fun _ => trivial⟩
  | create path =>
    refine (paged_harmless.uses_check_path.mono fun o => Harmless.keyed).bind fun p => ?_
    exact keyed_of_file_key trivial fun u n => ⟨sentKey_ne_nil u n, fun _ => trivial⟩
  | unlink path => exact keyed_of_file_key trivial fun u n => ⟨trivial, fun _ => trivial⟩

theorem call_keyed {call : ClientCall} {b : Bool} (hempty : s.fm.file_access_store [] = none)
    (hr : (call.prog c).run (FileSystem.handle g c.lib clock) s = some (b, s')) :
    s'.fm.file_access_store [] = none := by
  apply (prog_keyed c call).run_preserves (I := fun s => s.fm.file_access_store [] = none) _
    hempty hr
  intro o s r s' ho hs h
  exact handle_keyed ho hs h

/-- The calls of a client, one after the other, from a file server on that has just started. -/
def clientCalls (c : LocofsClient) (clock : Nat → Int) : System FileSystem ClientCall where
  init s := ∃ sid, s.fm = FMStore.empty sid
  step s call s' :=
    ∃ g b, (call.prog c).run (FileSystem.handle g c.lib clock) s = some (b, s')

theorem run_keyed (h : (c.clientCalls clock).Run w s) : s.fm.file_access_store [] = none := by
  apply h.invariant (I := fun s => s.fm.file_access_store [] = none)
  · rintro s ⟨sid, hfm⟩
    rw [hfm]
    rfl
  · rintro s call s' hempty ⟨g, b, hr⟩
    exact call_keyed hempty hr

theorem get_file_stat_missing (hempty : s.fm.file_access_store [] = none)
    (h : ¬ s.NamesFile c.lib path) :
    Wp (FileSystem.handle g c.lib clock) (c.get_file_stat path) s fun r _ => r = none := by
  rw [get_file_stat]
  apply Wp.bind
  cases hu : s.uuidOf c.lib (c.lib.parent_path path) with
  | none =>
    rw [get_file_key]
    apply Wp.bind
    apply (FileSystem.get_uuid_none hu).mono
    rintro _ s₁ ⟨rfl, hfm⟩
    have hstat : fmHandleStat g s₁.fm (requestPath []) = (⟨-1, g.fileStat⟩, s₁.fm) := by
      apply FMStore.stat_of_none
      rw [hfm]
      rintro ⟨hfa, -⟩
      rw [show requestPath [] = [] from rfl, hempty] at hfa
      cases hfa
    have hop : FileSystem.handle g c.lib clock (.fileStat (requestPath [])) s₁ =
        some (⟨-1, g.fileStat⟩, s₁) := by
      simp only [FileSystem.handle, hstat]
    apply Wp.ret
    apply Wp.call hop
    exact Wp.ret rfl
  | some uuid =>
    apply (get_file_key_wp hu).mono
    rintro _ s₁ ⟨rfl, -, hfm, -⟩
    have hstat : fmHandleStat g s₁.fm
        (requestPath (key (to_string uuid) (c.lib.filename path))) =
        (⟨-1, g.fileStat⟩, s₁.fm) := by
      apply FMStore.stat_of_none
      rw [hfm]
      exact fun hf => h ⟨uuid, hu, hf⟩
    have hop : FileSystem.handle g c.lib clock
        (.fileStat (requestPath (key (to_string uuid) (c.lib.filename path)))) s₁ =
        some (⟨-1, g.fileStat⟩, s₁) := by
      simp only [FileSystem.handle, hstat]
    apply Wp.call hop
    exact Wp.ret rfl

/-- Without a file the `false` of `_get_file_stat` is returned as a length. -/
theorem read_missing (hempty : s.fm.file_access_store [] = none)
    (h : ¬ s.NamesFile c.lib path) (buf : Buffer) (len off : Int) :
    ((c.read path buf len off).run (FileSystem.handle g c.lib clock) s).map Prod.fst =
      some (0, buf) := by
  obtain ⟨_, s₁, hrun, rfl⟩ := @get_file_stat_missing c g clock s path hempty h
  rw [read, run_bind, hrun]
  rfl

/-- A read returns what there is from its offset on, or a negative value. -/
structure ReadsRange (c : LocofsClient) (g : Garbage) (clock : Nat → Int) (s : FileSystem)
    (path : Str) (buf : Buffer) (len off : Int) : Prop where
  within : ∀ f size, s.HasFile c.lib path f size → off ≤ size →
    ((c.read path buf len off).run (FileSystem.handle g c.lib clock) s).map Prod.fst =
      some (min len (size - off), fun i =>
        if 0 ≤ i ∧ i < min len (size - off) then c.fileByte f.stat s.pages (off + i) else buf i)
  beyond : ∀ f size, s.HasFile c.lib path f size → 0 ≤ size → size < off → ∃ n buf', n < 0 ∧
    ((c.read path buf len off).run (FileSystem.handle g c.lib clock) s).map Prod.fst =
      some (n, buf')
  missing : ¬ s.NamesFile c.lib path → ∃ n buf', n < 0 ∧
    ((c.read path buf len off).run (FileSystem.handle g c.lib clock) s).map Prod.fst =
      some (n, buf')

theorem readOutcome_eq (size : Int) (byte : Int → Byte) (hoff : 0 ≤ off) (hlen : 0 ≤ len)
    (hsize : 0 ≤ size) (h63 : off + len < 2 ^ 63) : readOutcome size byte buf len off =
      if size < off + min len size then some (-1, buf)
      else some (min len size, fun i => if 0 ≤ i ∧ i < min len size then byte (off + i)
        else buf i) := by
  have hmin : (if size < len then size else len) = min len size := by
    split <;> omega
  have hmax : max (min len size) 0 = min len size := by omega
  simp only [readOutcome, hmin, hmax]
  exact if_pos (by omega)

/-- The file is there, and a range that begins in it ends in it, if clamped as from 0 on. -/
def Contained (c : LocofsClient) (s : FileSystem) (path : Str) (len off : Int) : Prop :=
  s.NamesFile c.lib path ∧
    ∀ f size, s.HasFile c.lib path f size → off ≤ size → off + min len size ≤ size

theorem ReadsRange.contained (h : c.ReadsRange g clock s path buf len off)
    (hempty : s.fm.file_access_store [] = none) (hoff : 0 ≤ off) (hlen : 0 ≤ len)
    (h63 : off + len < 2 ^ 63) : c.Contained s path len off := by
  constructor
  · by_contra hno
    obtain ⟨n, buf', hn, hr⟩ := h.missing hno
    rw [read_missing hempty hno] at hr
    cases hr
    exact absurd hn (Int.lt_irrefl 0)
  · intro f size hf hle
    by_contra hlt
    have hr := h.within f size hf hle
    rw [read_outcome hf buf hoff, readOutcome_eq size _ hoff hlen (by omega) h63,
      if_pos (by omega)] at hr
    have hneg : -1 = min len (size - off) := congrArg Prod.fst (Option.some.inj hr)
    omega

theorem Contained.readsRange (h : c.Contained s path len off) (hoff : 0 ≤ off) (hlen : 0 ≤ len)
    (h63 : off + len < 2 ^ 63) : c.ReadsRange g clock s path buf len off := by
  obtain ⟨hnames, hfit⟩ := h
  constructor
  · intro f size hf hle
    have hend := hfit f size hf hle
    have hmin : min len (size - off) = min len size := by omega
    rw [read_outcome hf buf hoff, readOutcome_eq size _ hoff hlen (by omega) h63,
      if_neg (by omega), hmin]
  · intro f size hf hsize hlt
    refine ⟨-1, buf, by decide, ?_⟩
    rw [read_outcome hf buf hoff, readOutcome_eq size _ hoff hlen hsize h63, if_pos (by omega)]
  · exact fun hno => absurd hnames hno

/-- The range is clamped to the size as if it began at 0, and a missing file reads as empty. -/
theorem read_range_iff (hempty : s.fm.file_access_store [] = none) (hoff : 0 ≤ off)
    (hlen : 0 ≤ len) (h63 : off + len < 2 ^ 63) :
    c.ReadsRange g clock s path buf len off ↔ s.NamesFile c.lib path ∧
      ∀ f size, s.HasFile c.lib path f size → off ≤ size → off + min len size ≤ size := by
  constructor
  · exact fun h => h.contained hempty hoff hlen h63
  · exact fun h => Contained.readsRange h hoff hlen h63

/-- The same after any calls of the client. -/
theorem read_range_run (h : (c.clientCalls clock).Run w s) (hoff : 0 ≤ off) (hlen : 0 ≤ len)
    (h63 : off + len < 2 ^ 63) :
    c.ReadsRange g clock s path buf len off ↔ c.Contained s path len off := by
  constructor
  · exact fun hr => hr.contained (run_keyed h) hoff hlen h63
  · exact fun hf => hf.readsRange hoff hlen h63

theorem namesFile_of_hasFile {f : File} {size : Int} (h : s.HasFile c.lib path f size) :
    s.NamesFile c.lib path := by
  obtain ⟨uuid, hu, fa, fc, hfa, hfc, -⟩ := h
  exact ⟨uuid, hu, Option.isSome_of_mem hfa, Option.isSome_of_mem hfc⟩

theorem read_range_iff_short : exampleClient.ReadsRange exampleGarbage (fun _ => 0) sharedSystem
    otherPath.str (fun _ => 0) 10 100 := by
  apply (read_range_iff (by decide) (by decide) (by decide) (by decide)).2
  refine ⟨namesFile_of_hasFile sharedSystem_other, fun f size hf _ => ?_⟩
  rw [hf.size_eq sharedSystem_other]
  decide

/-- Of a file of 4096 bytes a whole page is read from byte 100 on. -/
theorem read_refused : sharedSystem.HasFile Library.posix otherPath.str otherFile 4096 ∧
    ¬ exampleClient.ReadsRange exampleGarbage (fun _ => 0) sharedSystem otherPath.str
      (fun _ => 0) 4096 100 := by
  refine ⟨sharedSystem_other, fun h => ?_⟩
  have hr := h.within otherFile 4096 sharedSystem_other (by decide)
  rw [read_outcome (c := exampleClient) sharedSystem_other _ (by decide),
    readOutcome_eq 4096 _ (by decide) (by decide) (by decide) (by decide), if_pos (by decide)] at hr
  exact absurd (congrArg Prod.fst (Option.some.inj hr)) (by decide)

end LocofsClient

end Galois
