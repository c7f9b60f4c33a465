import Galois.FileKey
import Galois.Orphans
import Mathlib.Algebra.Ring.Nat

namespace Galois
set_option autoImplicit true
set_option relaxedAutoImplicit false

open Prog Client LocofsClient

/-- The documented behaviour of `boost::join`. -/
def Library.Joins (lib : Library) : Prop := ∀ fl sep, lib.join fl sep = sep.intercalate fl

/-- A response that carries a list of names. -/
def sent (len : Int) (fl : List Str) : RawResponse := ⟨len, rawBuffer (['\t'].intercalate fl)⟩

namespace RawResponse

/-- The client reads no more than the buffer. -/
def InBounds (response : RawResponse) : Prop :=
  0 ≤ response.len ∧ response.len ≤ response.raw.length

instance : DecidablePred InBounds := fun _ => inferInstanceAs (Decidable (_ ∧ _))

/-- What the client takes out of a response. -/
def names (lib : Library) (response : RawResponse) : List Str :=
  lib.tokens '\t' (response.raw.take response.len.toNat)

end RawResponse

section Responses

variable {g : Garbage} {lib : Library} {s : FileSystem} {path : Str} {u : BitVec 64}

theorem EntryList.readdir_eq (hjoin : lib.Joins) (ec : EntryList) (uuid : Str) :
    ec.readdir lib uuid = ['\t'].intercalate (ec.names uuid) := by
  simp only [EntryList.readdir, EntryList.names]
  cases ec uuid with
  | none => rfl
  | some fl => exact hjoin fl _

/-- The subdirectories that a `readdir` request gets to see. -/
def DMStore.askedDirs (lib : Library) (s : DMStore) (path : Str) : List Str :=
  s.ec_store.names ((s.get_uuid lib (requestPath path)).getD [])

def FMStore.askedFiles (s : FMStore) (u : BitVec 64) : List Str :=
  s.ec_store.names (to_signed_string u.toInt)

theorem dmHandleReaddir_eq (hjoin : lib.Joins) (s : DMStore) (path : Str) :
    dmHandleReaddir g lib s (requestPath path) = sent g.len (s.askedDirs lib path) := by
  rw [dmHandleReaddir, DMStore.readdir, EntryList.readdir_eq hjoin]
  rfl

theorem fmHandleReaddir_eq (hjoin : lib.Joins) (s : FMStore) (u : BitVec 64) :
    fmHandleReaddir lib s u =
      sent (intLength (['\t'].intercalate (s.askedFiles u))) (s.askedFiles u) := by
  simp only [fmHandleReaddir, FMStore.readdir, EntryList.readdir_eq hjoin]
  rfl

theorem length_rawBuffer (result : Str) : (rawBuffer result).length = RAW_SIZE + 1 := by
  have hle : ((result.takeWhile (· ≠ '\x00')).take RAW_SIZE).length ≤ RAW_SIZE :=
    List.length_take_le _ _
  simp only [rawBuffer, List.length_append, List.length_replicate]
  omega

theorem intLength_of_le {result : Str} (h : result.length ≤ RAW_SIZE) :
    intLength result = result.length := by
  have hsize : RAW_SIZE < 2 ^ 31 := by decide
  rw [intLength, BitVec.toInt_ofNat', Int.bmod_eq_of_le]
  · omega
  · omega

end Responses

section Lists

variable {lib : Library} {fl : List Str} {len : Int}

/-- What a response can carry of a list of names. -/
structure Sendable (fl : List Str) : Prop where
  ne_nil : fl ≠ []
  tab_notMem : ∀ n ∈ fl, '\t' ∉ n
  length : (['\t'].intercalate fl).length ≤ RAW_SIZE

theorem nul_notMem_join (h : ∀ n ∈ fl, '\x00' ∉ n) : '\x00' ∉ ['\t'].intercalate fl := by
  intro hc
  obtain he | ⟨n, hn, hcn⟩ := Splitter.mem_intercalate hc
  · revert he
    decide
  · exact h n hn hcn

theorem Sendable.names (h : Sendable fl) (hlib : lib.Documented)
    (hn : ∀ n ∈ fl, n ≠ [] ∧ '\x00' ∉ n) :
    (sent (['\t'].intercalate fl).length fl).InBounds ∧
      (sent (['\t'].intercalate fl).length fl).names lib = fl := by
  have hlength := h.length
  have hraw : (['\t'].intercalate fl).takeWhile (· ≠ '\x00') = ['\t'].intercalate fl := by
    rw [List.takeWhile_eq_self_iff]
    intro c hc
    have hne : c ≠ '\x00' := fun he => nul_notMem_join (fun n hn' => (hn n hn').2) (he ▸ hc)
    simpa using hne
  constructor
  · simp only [RawResponse.InBounds, sent, length_rawBuffer]
    omega
  · simp only [RawResponse.names, sent, rawBuffer, hraw, List.take_of_length_le hlength,
      Int.toNat_natCast]
    rw [List.take_left']
    · exact hlib.tokens.intercalate h.ne_nil fun n hn' => ⟨(hn n hn').1, h.tab_notMem n hn'⟩
    · rfl

theorem length_le_of_names (hlib : lib.Documented) (hb : (sent len fl).InBounds)
    (hn : ∀ n ∈ (sent len fl).names lib, n ≠ [] ∧ '\x00' ∉ n) :
    fl ≠ [] ∧ len.toNat ≤ RAW_SIZE ∧ len.toNat ≤ (['\t'].intercalate fl).length ∧
      Splitter.weight ((sent len fl).names lib) ≤ len.toNat + 1 := by
  generalize hcopied : ((['\t'].intercalate fl).takeWhile (· ≠ '\x00')).take RAW_SIZE = copied
  have hsize : copied.length ≤ RAW_SIZE := by
    rw [← hcopied]
    exact List.length_take_le _ _
  have hjoined : copied.length ≤ (['\t'].intercalate fl).length := by
    rw [← hcopied]
    exact (List.length_take_le' _ _).trans (List.takeWhile_prefix _).length_le
  have hraw : (sent len fl).raw =
      copied ++ List.replicate (RAW_SIZE + 1 - copied.length) '\x00' := by
    simp only [sent, rawBuffer, hcopied]
  have hlen : len.toNat ≤ copied.length := by
    by_contra hlt
    have hpad : '\x00' ∈ (sent len fl).raw.take len.toNat := by
      rw [hraw, List.take_append, List.take_replicate]
      apply List.mem_append_right
      rw [List.mem_replicate]
      exact ⟨by omega, rfl⟩
    obtain ⟨n, hmem, hc⟩ := hlib.tokens.mem_token (show '\x00' ≠ '\t' by decide) hpad
    exact (hn n hmem).2 hc
  refine ⟨?_, hlen.trans hsize, hlen.trans hjoined, ?_⟩
  · rintro rfl
    have hempty : (sent len []).names lib = [[]] := by
      have hzero : len.toNat = 0 := Nat.le_zero.1 (hlen.trans hjoined)
      rw [RawResponse.names, show (sent len []).len = len from rfl, hzero, List.take_zero]
      exact hlib.tokens.single List.not_mem_nil
    exact (hn [] (by rw [hempty]; exact List.mem_singleton_self _)).1 rfl
  · have hweight := hlib.tokens.weight_le '\t' ((sent len fl).raw.take len.toNat)
    have htake := List.length_take_le len.toNat (sent len fl).raw
    rw [RawResponse.names, show (sent len fl).len = len from rfl]
    omega

theorem weight_flatMap_le {f g : α → List Str} {l : List α}
    (h : ∀ a ∈ l, Splitter.weight (f a) ≤ Splitter.weight (g a)) :
    Splitter.weight (l.flatMap f) ≤ Splitter.weight (l.flatMap g) := by
  induction l with
  | nil => exact Nat.le_refl _
  | cons a l ih =>
    rw [List.flatMap_cons, List.flatMap_cons, Splitter.weight_append, Splitter.weight_append]
    exact Nat.add_le_add (h a List.mem_cons_self) (ih fun b hb => h b (List.mem_cons_of_mem a hb))

def delivered (lib : Library) (responses : List (Int × List Str)) : List Str :=
  responses.flatMap fun r => (sent r.1 r.2).names lib

/-- Only lists that can be sent come out as they went in: no other response has as many characters
in the names taken out of it. -/
theorem sendable_of_perm (hlib : lib.Documented) {responses : List (Int × List Str)}
    (hb : ∀ r ∈ responses, (sent r.1 r.2).InBounds)
    (hplain : ∀ n ∈ responses.flatMap Prod.snd, n ≠ [] ∧ '\x00' ∉ n)
    (hperm : (delivered lib responses).Perm (responses.flatMap Prod.snd)) :
    ∀ r ∈ responses, r.1 = (['\t'].intercalate r.2).length ∧ Sendable r.2 := by
  have hname (r) (hr : r ∈ responses) : ∀ n ∈ (sent r.1 r.2).names lib, n ≠ [] ∧ '\x00' ∉ n :=
    fun n hn => hplain n (hperm.mem_iff.1 (List.mem_flatMap.2 ⟨r, hr, hn⟩))
  have htab : ∀ n ∈ delivered lib responses, '\t' ∉ n := by
    intro n hn
    obtain ⟨r, -, hn⟩ := List.mem_flatMap.1 hn
    exact hlib.tokens.sep_notMem hn
  have hmem (r) (hr : r ∈ responses) : ∀ n ∈ r.2, '\t' ∉ n :=
    fun n hn => htab n (hperm.mem_iff.2 (List.mem_flatMap.2 ⟨r, hr, hn⟩))
  have hread (r) (hr : r ∈ responses) := length_le_of_names hlib (hb r hr) (hname r hr)
  have hweight (r) (hr : r ∈ responses) :
      Splitter.weight ((sent r.1 r.2).names lib) ≤ Splitter.weight r.2 := by
    obtain ⟨hne, -, hle, hweight⟩ := hread r hr
    have hjoined : (['\t'].intercalate r.2).length + 1 = Splitter.weight r.2 :=
      Splitter.length_intercalate hne
    omega
  intro r hr
  obtain ⟨hne, hsize, hle, hrest⟩ := hread r hr
  have hjoined : (['\t'].intercalate r.2).length + 1 = Splitter.weight r.2 :=
    Splitter.length_intercalate hne
  -- the other responses have at most their own characters, so this one has all of its own
  obtain ⟨before, after, he⟩ := List.append_of_mem hr
  have htotal := Splitter.weight_perm hperm
  have hbefore := weight_flatMap_le fun a (ha : a ∈ before) =>
    hweight a (he ▸ List.mem_append_left _ ha)
  have hafter := weight_flatMap_le fun a (ha : a ∈ after) =>
    hweight a (he ▸ List.mem_append_right _ (List.mem_cons_of_mem r ha))
  rw [delivered, he] at htotal
  simp only [List.flatMap_append, List.flatMap_cons, Splitter.weight_append] at htotal
  have hlen : r.1 = (['\t'].intercalate r.2).length := by
    have hnonneg : 0 ≤ r.1 := (hb r hr).1
    omega
  exact ⟨hlen, hne, hmem r hr, by omega⟩

theorem delivered_of_sendable (hlib : lib.Documented) {responses : List (Int × List Str)}
    (h : ∀ r ∈ responses, r.1 = (['\t'].intercalate r.2).length ∧ Sendable r.2)
    (hplain : ∀ n ∈ responses.flatMap Prod.snd, n ≠ [] ∧ '\x00' ∉ n) :
    (∀ r ∈ responses, (sent r.1 r.2).InBounds) ∧
      delivered lib responses = responses.flatMap Prod.snd := by
  have hnames (r) (hr : r ∈ responses) :
      (sent r.1 r.2).InBounds ∧ (sent r.1 r.2).names lib = r.2 := by
    rw [(h r hr).1]
    exact (h r hr).2.names hlib fun n hn => hplain n (List.mem_flatMap.2 ⟨r, hr, hn⟩)
  constructor
  · intro r hr
    exact (hnames r hr).1
  · exact List.flatMap_congr fun r hr => (hnames r hr).2

end Lists

/-- Each of some things, once. -/
structure Enumerates (l : List α) (P : α → Prop) : Prop where
  nodup : l.Nodup
  mem : ∀ a, a ∈ l ↔ P a

theorem Enumerates.perm {l m : List α} {P : α → Prop} (h : Enumerates l P) (h' : Enumerates m P) :
    l.Perm m :=
  (List.perm_ext_iff_of_nodup h.nodup h'.nodup).2 fun a => (h.mem a).trans (h'.mem a).symm

theorem perm_flatten {L M : List (List α)} {C : List (α → Prop)}
    (h : List.Forall₂ Enumerates L C) (h' : List.Forall₂ Enumerates M C) :
    L.flatten.Perm M.flatten := by
  induction h generalizing M with
  | nil =>
    cases h'
    exact .refl _
  | cons hl _ ih =>
    cases h' with
    | cons hm hM =>
      rw [List.flatten_cons, List.flatten_cons]
      exact (hl.perm hm).append (ih hM)

namespace FileSystem

variable {g : Garbage} {lib : Library} {clock : Nat → Int} {s s' : FileSystem} {path : Str}
  {u : BitVec 64} {buf buf' : List Str}

def contents (s : FileSystem) (uuid : Str) : List (Str → Prop) :=
  (fun n => (s.dm.uuid_store (key uuid n)).isSome) ::
    (s.fm :: s.more).map fun fm n => (fm.file_access_store (key uuid n)).isSome

/-- The names of the subdirectories, then those of the files at each server, and nothing else. -/
def Lists (lib : Library) (s : FileSystem) (path : Str) (buf : List Str) : Prop :=
  ∃ uuid L, s.dm.get_uuid lib path = some uuid ∧ List.Forall₂ Enumerates L (s.contents uuid) ∧
    buf = L.flatten

theorem Lists.perm (h : s.Lists lib path buf) (h' : s.Lists lib path buf') : buf.Perm buf' := by
  obtain ⟨uuid, L, hu, hL, rfl⟩ := h
  obtain ⟨uuid', L', hu', hL', rfl⟩ := h'
  rw [hu] at hu'
  cases hu'
  exact perm_flatten hL hL'

/-- The lists that the requests of a `readdir` ask for. -/
def asked (lib : Library) (s : FileSystem) (path : Str) (u : BitVec 64) : List (List Str) :=
  s.dm.askedDirs lib path :: (s.fm :: s.more).map fun fm => fm.askedFiles u

/-- The entries that the requests ask for are names. -/
def Named (lib : Library) (s : FileSystem) (path : Str) (u : BitVec 64) : Prop :=
  ∀ fl ∈ s.asked lib path u, ∀ n ∈ fl, ∃ m : Name, m.chars = n

theorem Named.plain (h : s.Named lib path u) :
    ∀ n ∈ (s.asked lib path u).flatten, n ≠ [] ∧ '\x00' ∉ n := by
  intro n hn
  obtain ⟨fl, hfl, hn⟩ := List.mem_flatten.1 hn
  obtain ⟨m, rfl⟩ := h fl hfl n hn
  exact ⟨m.ne_nil, m.nul_notMem⟩

/-- The directory server's response carries the length of its list, and all the lists can be
sent. -/
structure Delivered (g : Garbage) (lib : Library) (s : FileSystem) (path : Str) (u : BitVec 64) :
    Prop where
  len : g.len = (['\t'].intercalate (s.dm.askedDirs lib path)).length
  sendable : ∀ fl ∈ s.asked lib path u, Sendable fl

theorem handle_more {o : Op} {r : o.Res} (h : handle g lib clock o s = some (r, s')) :
    s'.more = s.more := by
  cases o with
  | rmdir path =>
    obtain ⟨⟨r', dm⟩, -, he⟩ := Option.map_eq_some_iff.1 h
    cases he
    rfl
  | remove path =>
    obtain ⟨⟨r', fm⟩, -, he⟩ := Option.map_eq_some_iff.1 h
    cases he
    rfl
  | fileReaddir server value =>
    obtain ⟨fm, -, he⟩ := Option.map_eq_some_iff.1 h
    cases he
    rfl
  | undefined => cases h
  | _ =>
    cases h
    rfl

theorem to_signed_string_of_lt (hu : u.toNat < 2 ^ 63) :
    FMStore.to_signed_string u.toInt = to_string u := by
  rw [BitVec.toInt_eq_toNat_of_lt (by omega), FMStore.to_signed_string,
    if_neg (Int.natCast_nonneg u.toNat).not_gt, Int.natAbs_natCast]
  rfl

theorem lists_asked (hdm : DMStore.Listed s.dm.uuid_store s.dm.ec_store)
    (hfm : ∀ fm ∈ s.fm :: s.more, fm.Inv) (hpath : requestPath path = path)
    (hu : s.dm.get_uuid lib path = some (to_string u)) (hlt : u.toNat < 2 ^ 63) :
    s.Lists lib path (s.asked lib path u).flatten := by
  have hcolon := colon_notMem_to_string u
  refine ⟨to_string u, s.asked lib path u, hu, .cons ?_ ?_, rfl⟩
  · rw [DMStore.askedDirs, hpath, hu]
    exact ⟨hdm.nodup _ hcolon, fun n => hdm.mem _ n hcolon⟩
  · rw [List.forall₂_map_left_iff, List.forall₂_map_right_iff, List.forall₂_same]
    intro fm hmem
    rw [FMStore.askedFiles, to_signed_string_of_lt hlt]
    exact ⟨(hfm fm hmem).exact.nodup _ hcolon, fun n => (hfm fm hmem).exact.mem _ n hcolon⟩

end FileSystem

namespace LocofsClient

variable {c : LocofsClient} {g : Garbage} {clock : Nat → Int} {s : FileSystem} {path : Str}
  {u : BitVec 64} {response : RawResponse} {buf : List Str}

theorem rawString_of_inBounds (h : response.InBounds) :
    rawString response = .ret (response.raw.take response.len.toNat) := if_pos h

theorem rawString_of_not_inBounds (h : ¬ response.InBounds) : rawString response = undefined :=
  if_neg h

theorem undefined_run (f : α → Prog sig β) :
    (undefined >>= f).run (FileSystem.handle g c.lib clock) s = none := rfl

def filesOf (c : LocofsClient) (u : BitVec 64) (fl : List FMStore) : List Str :=
  fl.flatMap fun fm => (fmHandleReaddir c.lib fm u).names c.lib

theorem readdirLoop_run {fl : List FMStore} {i : Nat} {r : List Str × FileSystem}
    (hi : (s.fm :: s.more).drop i = fl) :
    (c.readdirLoop u buf (List.range' i fl.length)).run (FileSystem.handle g c.lib clock) s =
        some r ↔
      (∀ fm ∈ fl, (fmHandleReaddir c.lib fm u).InBounds) ∧ r = (buf ++ c.filesOf u fl, s) := by
  induction fl generalizing i buf with
  | nil =>
    simp only [List.length_nil, List.range'_zero, readdirLoop, pure_eq, run_ret, Option.some.injEq,
      List.not_mem_nil, false_implies, implies_true, true_and, filesOf, List.flatMap_nil,
      List.append_nil]
    exact eq_comm
  | cons fm fl ih =>
    have hget : (s.fm :: s.more)[i]? = some fm := by
      rw [← List.head?_drop, hi]
      rfl
    have hnext : (s.fm :: s.more).drop (i + 1) = fl := by
      rw [← List.tail_drop, hi]
      rfl
    have hop : FileSystem.handle g c.lib clock (.fileReaddir i u) s =
        some (fmHandleReaddir c.lib fm u, s) := by
      simp only [FileSystem.handle, hget, Option.map_some]
      rfl
    have happend (temp : List Str) : (if temp.isEmpty then buf else buf ++ temp) = buf ++ temp := by
      cases temp with
      | nil => exact (List.append_nil buf).symm
      | cons n temp => rfl
    have hstep : (c.readdirLoop u buf (i :: List.range' (i + 1) fl.length)).run
        (FileSystem.handle g c.lib clock) s =
          (rawString (fmHandleReaddir c.lib fm u) >>= fun vbuf => c.readdirLoop u
            (if (c.lib.tokens '\t' vbuf).isEmpty then buf else buf ++ c.lib.tokens '\t' vbuf)
            (List.range' (i + 1) fl.length)).run (FileSystem.handle g c.lib clock) s := by
      rw [readdirLoop, run_bind]
      change ((FileSystem.handle g c.lib clock (.fileReaddir i u) s).bind some).bind _ = _
      rw [hop]
      rfl
    rw [List.length_cons, List.range'_succ, hstep]
    by_cases hb : (fmHandleReaddir c.lib fm u).InBounds
    · rw [rawString_of_inBounds hb, ret_bind, happend, ih hnext]
      simp only [List.forall_mem_cons, hb, true_and, filesOf, List.flatMap_cons, List.append_assoc]
      rfl
    · rw [rawString_of_not_inBounds hb, undefined_run]
      simp only [List.forall_mem_cons, hb, false_and, reduceCtorEq]

theorem get_uuid_run : ∃ s', (get_uuid path).run (FileSystem.handle g c.lib clock) s =
    some (s.uuidOf c.lib path, s') ∧ s'.fm = s.fm ∧ s'.more = s.more := by
  have hmore {r : Option (BitVec 64)} {s' : FileSystem}
      (h : (get_uuid path).run (FileSystem.handle g c.lib clock) s = some (r, s')) :
      s'.more = s.more :=
    (uses_of_forall (fun _ => trivial) _).run_preserves (I := fun s' => s'.more = s.more)
      (P := fun _ => True) (fun o s₁ r s₂ _ hI h => (FileSystem.handle_more h).trans hI) rfl h
  cases hu : s.uuidOf c.lib path with
  | none =>
    obtain ⟨r, s', hrun, rfl, hfm⟩ := @FileSystem.get_uuid_none g c.lib clock s path hu
    exact ⟨s', hrun, hfm, hmore hrun⟩
  | some u =>
    obtain ⟨r, s', hrun, rfl, -, hfm, -⟩ := @FileSystem.get_uuid_wp g c.lib clock s path u hu
    exact ⟨s', hrun, hfm, hmore hrun⟩

theorem readdir_run (hne : path ≠ []) :
    (∃ s', (c.readdir (s.more.length + 1) path).run (FileSystem.handle g c.lib clock) s =
        some ((true, buf), s')) ↔
      ∃ u, s.uuidOf c.lib (checkedPath path) = some u ∧
        (dmHandleReaddir g c.lib s.dm (requestPath (checkedPath path))).InBounds ∧
        (∀ fm ∈ s.fm :: s.more, (fmHandleReaddir c.lib fm u).InBounds) ∧
        buf = (dmHandleReaddir g c.lib s.dm (requestPath (checkedPath path))).names c.lib ++
          c.filesOf u (s.fm :: s.more) := by
  rw [LocofsClient.readdir, check_path_of_ne_nil hne, ret_bind]
  generalize checkedPath path = p
  generalize hdirs : dmHandleReaddir g c.lib s.dm (requestPath p) = dirs
  have hop : FileSystem.handle g c.lib clock (.dirReaddir (requestPath p)) s = some (dirs, s) :=
    congrArg (fun r => some (r, s)) hdirs
  rw [run_bind]
  change (∃ s', ((FileSystem.handle g c.lib clock (.dirReaddir (requestPath p)) s).bind fun r =>
    some r).bind _ = _) ↔ _
  rw [hop]
  change (∃ s', (rawString dirs >>= _).run _ s = _) ↔ _
  by_cases hb : dirs.InBounds
  · obtain ⟨s₁, hget, hfm, hmore⟩ : ∃ s₁, (get_uuid p).run (FileSystem.handle g c.lib clock) s =
      some (s.uuidOf c.lib p, s₁) ∧ s₁.fm = s.fm ∧ s₁.more = s.more := get_uuid_run
    rw [rawString_of_inBounds hb, ret_bind, run_bind, hget, Option.bind_some]
    cases s.uuidOf c.lib p with
    | none => simp
    | some u =>
      have hloop (r : List Str × FileSystem) := @readdirLoop_run c g clock s₁ u
        (dirs.names c.lib) (s.fm :: s.more) 0 r (by rw [hfm, hmore]; rfl)
      rw [List.length_cons, ← List.range_eq_range'] at hloop
      rw [run_bind]
      constructor
      · rintro ⟨s', hrun⟩
        obtain ⟨r, hr, he⟩ := Option.bind_eq_some_iff.1 hrun
        obtain ⟨hfiles, rfl⟩ := (hloop r).1 hr
        cases he
        exact ⟨u, rfl, hb, hfiles, rfl⟩
      · rintro ⟨v, hv, -, hfiles, rfl⟩
        cases hv
        exact ⟨s₁, Option.bind_eq_some_iff.2 ⟨_, (hloop _).2 ⟨hfiles, rfl⟩, rfl⟩⟩
  · rw [rawString_of_not_inBounds hb, undefined_run]
    simp [hb]

/-- `readdir` succeeds with the names in the directory. -/
def ReadsDir (c : LocofsClient) (g : Garbage) (clock : Nat → Int) (s : FileSystem) (path : Str) :
    Prop :=
  ∃ buf s', (c.readdir (s.more.length + 1) path).run (FileSystem.handle g c.lib clock) s =
    some ((true, buf), s') ∧ s.Lists c.lib (checkedPath path) buf

/-- The responses to the requests of a `readdir`, each a length and the list that it is sent
with. -/
def responses (c : LocofsClient) (g : Garbage) (s : FileSystem) (path : Str) (u : BitVec 64) :
    List (Int × List Str) :=
  (g.len, s.dm.askedDirs c.lib path) :: (s.fm :: s.more).map fun fm =>
    (intLength (['\t'].intercalate (fm.askedFiles u)), fm.askedFiles u)

theorem responses_flatMap :
    (c.responses g s path u).flatMap Prod.snd = (s.asked c.lib path u).flatten := by
  rw [responses, FileSystem.asked, List.flatMap_cons, List.flatten_cons, List.flatMap_map,
    List.flatMap_def]

theorem names_eq (hjoin : c.lib.Joins) :
    (dmHandleReaddir g c.lib s.dm (requestPath path)).names c.lib ++ c.filesOf u (s.fm :: s.more) =
      delivered c.lib (c.responses g s path u) := by
  rw [dmHandleReaddir_eq hjoin, delivered, responses, List.flatMap_cons, List.flatMap_map, filesOf]
  simp only [fmHandleReaddir_eq hjoin]

theorem responses_inBounds (hjoin : c.lib.Joins) :
    ((dmHandleReaddir g c.lib s.dm (requestPath path)).InBounds ∧
      ∀ fm ∈ s.fm :: s.more, (fmHandleReaddir c.lib fm u).InBounds) ↔
      ∀ r ∈ c.responses g s path u, (sent r.1 r.2).InBounds := by
  simp only [responses, List.map_cons, List.forall_mem_cons, List.forall_mem_map,
    dmHandleReaddir_eq hjoin, fmHandleReaddir_eq hjoin]

theorem responses_delivered : s.Delivered g c.lib path u ↔
    ∀ r ∈ c.responses g s path u, r.1 = (['\t'].intercalate r.2).length ∧ Sendable r.2 := by
  rw [responses]
  constructor
  · intro h
    refine List.forall_mem_cons.2 ⟨⟨h.len, h.sendable _ List.mem_cons_self⟩, ?_⟩
    refine List.forall_mem_map.2 fun fm hfm => ?_
    have hs : Sendable (fm.askedFiles u) :=
      h.sendable _ (List.mem_cons_of_mem _ (List.mem_map_of_mem hfm))
    exact ⟨intLength_of_le hs.length, hs⟩
  · intro h
    obtain ⟨⟨hlen, hdirs⟩, hfiles⟩ := List.forall_mem_cons.1 h
    refine ⟨hlen, List.forall_mem_cons.2 ⟨hdirs, ?_⟩⟩
    exact List.forall_mem_map.2 fun fm hfm => (List.forall_mem_map.1 hfiles fm hfm).2

/-- Under the condition, the client has just the names that it has asked for. -/
theorem run_of_delivered (hlib : c.lib.Documented) (hjoin : c.lib.Joins) (hne : path ≠ [])
    (hp : checkedPath path = p) (hu : s.uuidOf c.lib p = some u) (hnamed : s.Named c.lib p u)
    (h : s.Delivered g c.lib p u) :
    ∃ s', (c.readdir (s.more.length + 1) path).run (FileSystem.handle g c.lib clock) s =
      some ((true, (s.asked c.lib p u).flatten), s') := by
  subst hp
  have hplain := hnamed.plain
  rw [← responses_flatMap (c := c) (g := g)] at hplain ⊢
  obtain ⟨hb, hnames⟩ := delivered_of_sendable hlib (responses_delivered.1 h) hplain
  obtain ⟨hdirs, hfiles⟩ := (responses_inBounds hjoin).2 hb
  rw [readdir_run hne, ← hnames]
  exact ⟨u, hu, hdirs, hfiles, (names_eq hjoin).symm⟩

/-- The condition is necessary, as long as the client asks for the right lists. -/
theorem delivered_of_reads (hlib : c.lib.Documented) (hjoin : c.lib.Joins) (hne : path ≠ [])
    (hp : checkedPath path = p) (hnamed : ∀ u, s.uuidOf c.lib p = some u → s.Named c.lib p u)
    (hasked : ∀ u, s.uuidOf c.lib p = some u → s.Lists c.lib p (s.asked c.lib p u).flatten)
    (h : c.ReadsDir g clock s path) :
    ∃ u, s.uuidOf c.lib p = some u ∧ s.Delivered g c.lib p u := by
  subst hp
  obtain ⟨buf, s', hrun, hlists⟩ := h
  obtain ⟨u, hu, hdirs, hfiles, rfl⟩ := (readdir_run hne).1 ⟨s', hrun⟩
  have hplain := (hnamed u hu).plain
  have hperm := hlists.perm (hasked u hu)
  rw [← responses_flatMap (c := c) (g := g)] at hplain hperm
  rw [names_eq hjoin] at hperm
  have hb := (responses_inBounds hjoin).1 ⟨hdirs, hfiles⟩
  exact ⟨u, hu, responses_delivered.2 (sendable_of_perm hlib hb hplain hperm)⟩

/-- Where the client asks for the right lists, `readdir` gives the names in the directory exactly if
the lists can be delivered, and where they are delivered, exactly if they are the right ones. -/
theorem readdir_lists (hlib : c.lib.Documented) (hjoin : c.lib.Joins) (hne : path ≠ [])
    (hp : checkedPath path = p) (hnamed : ∀ u, s.uuidOf c.lib p = some u → s.Named c.lib p u) :
    ((∀ u, s.uuidOf c.lib p = some u → s.Lists c.lib p (s.asked c.lib p u).flatten) →
      (c.ReadsDir g clock s path ↔ ∃ u, s.uuidOf c.lib p = some u ∧ s.Delivered g c.lib p u)) ∧
    ∀ u, s.uuidOf c.lib p = some u → s.Delivered g c.lib p u →
      (c.ReadsDir g clock s path ↔ s.Lists c.lib p (s.asked c.lib p u).flatten) := by
  have hrun (u) (hu : s.uuidOf c.lib p = some u) (hd : s.Delivered g c.lib p u) :
      ∃ s', (c.readdir (s.more.length + 1) path).run (FileSystem.handle g c.lib clock) s =
        some ((true, (s.asked c.lib p u).flatten), s') :=
    run_of_delivered hlib hjoin hne hp hu (hnamed u hu) hd
  constructor
  · intro hasked
    constructor
    · exact delivered_of_reads hlib hjoin hne hp hnamed hasked
    · rintro ⟨u, hu, hd⟩
      obtain ⟨s', hrun⟩ := hrun u hu hd
      subst hp
      exact ⟨_, s', hrun, hasked u hu⟩
  · intro u hu hd
    obtain ⟨s', hrun⟩ := hrun u hu hd
    subst hp
    constructor
    · rintro ⟨buf, s₁, hrun', hlists⟩
      rw [hrun] at hrun'
      cases hrun'
      exact hlists
    · intro hlists
      exact ⟨_, s', hrun, hlists⟩

section Examples

def twoEntries : FileSystem where
  cache := ⟨5000, [], 0⟩
  dm := DMServer.nested
  fm := FMServer.oneFile
  pages := fun _ _ => 0
  time := 0

def pathA : Str := Path.str [DMServer.nameA]

theorem twoEntries_uuid : twoEntries.uuidOf Library.posix pathA = some 2 := by decide

theorem twoEntries_asked {fl : List Str} (h : fl ∈ twoEntries.asked Library.posix pathA 2) :
    fl = [['b']] ∨ fl = [['f']] := by
  rw [show twoEntries.asked Library.posix pathA 2 = [[['b']], [['f']]] by decide] at h
  simpa using h

theorem twoEntries_named (h : twoEntries.uuidOf Library.posix pathA = some u) :
    twoEntries.Named Library.posix pathA u := by
  cases h.symm.trans twoEntries_uuid
  intro fl hfl n hn
  obtain rfl | rfl := twoEntries_asked hfl
  · exact ⟨DMServer.nameB, (List.mem_singleton.1 hn).symm⟩
  · exact ⟨⟨['f'], by decide, by decide, by decide⟩, (List.mem_singleton.1 hn).symm⟩

theorem nested_listed :
    DMStore.Listed DMServer.nested.uuid_store DMServer.nested.ec_store := by
  have htree : (DMServer.treeSystem Library.posix).Run _ DMServer.nested :=
    DMServer.oneDir_run.snoc (a := .mkdir [DMServer.nameA, DMServer.nameB] DMServer.blank 0)
      ⟨⟨_, rfl⟩, rfl⟩
  exact (DMServer.reachable_inv Library.posix_documented htree (by decide)).1.listed

theorem twoEntries_lists (h : twoEntries.uuidOf Library.posix pathA = some u) :
    twoEntries.Lists Library.posix pathA (twoEntries.asked Library.posix pathA u).flatten := by
  cases h.symm.trans twoEntries_uuid
  apply FileSystem.lists_asked nested_listed _ (by decide) (by decide) (by decide)
  intro fm hfm
  cases List.mem_singleton.1 hfm
  exact FMServer.reachable_inv Library.posix_documented FMServer.oneFile_run

/-- The length left in the response is just that of the list. -/
theorem readdir_lists_one : exampleClient.ReadsDir { exampleGarbage with len := 1 } (fun _ => 0)
    twoEntries pathA := by
  refine ((readdir_lists Library.posix_documented (fun _ _ => rfl) (Path.str_ne_nil _) (by decide)
    fun u => twoEntries_named).1 fun u => twoEntries_lists).2 ⟨2, twoEntries_uuid, by decide, ?_⟩
  intro fl hfl
  obtain rfl | rfl := twoEntries_asked hfl
  · exact ⟨by decide, by decide, by decide⟩
  · exact ⟨by decide, by decide, by decide⟩

/-- The length left in the response is 0. -/
theorem readdir_loses_dir : ¬ ∀ (g : Garbage) (clock : Nat → Int) (s : FileSystem) (p : Path)
    (uuid : Str), (∃ w, (DMServer.system Library.posix).Run w s.dm) →
    (∀ fm ∈ s.fm :: s.more, ∃ w, (FMServer.system Library.posix 233).Run w fm) →
    s.dm.get_uuid Library.posix p.str = some uuid → exampleClient.ReadsDir g clock s p.str := by
  intro h
  have hreads := h exampleGarbage (fun _ => 0) twoEntries [DMServer.nameA] ['2'] ?_ ?_ (by decide)
  · obtain ⟨u, hu, hd⟩ := delivered_of_reads Library.posix_documented (fun _ _ => rfl)
      (Path.str_ne_nil _) (show checkedPath pathA = pathA by decide) (fun u => twoEntries_named)
      (fun u => twoEntries_lists) hreads
    exact absurd hd.len (by decide)
  · exact ⟨_, DMServer.nested_run.of_restrict.of_restrict⟩
  · intro fm hfm
    cases List.mem_singleton.1 hfm
    exact ⟨_, FMServer.oneFile_run.of_restrict⟩

end Examples

end LocofsClient

end Galois
