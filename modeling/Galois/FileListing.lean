import Galois.FMStore
import Galois.Listing

namespace Galois
set_option autoImplicit true
set_option relaxedAutoImplicit false

namespace FMStore

variable {lib : Library} {s s' : FMStore} {u n : Str}

def created (s : FMStore) (u n : Str) (fa faa : FileAccessInode) (fcc : FileContentInode) :
    FMStore where
  file_access_store := Function.update s.file_access_store (key u n)
    (some { newAccess fa faa with error := 0 })
  file_content_store := Function.update s.file_content_store (key u n)
    (some { s.newContent (key u n) fcc with error := 0 })
  ec_store := s.ec_store.insert_entry u n
  suuid_counter := s.suuid_counter + 1
  sid_num := s.sid_num

theorem create_key (hlib : lib.Documented) (hlen : strlen (key u n) ≠ 0) (hu : ':' ∉ u)
    (hn : ':' ∉ n) (fa faa : FileAccessInode) (fcc : FileContentInode) :
    s.create lib always (key u n) fa faa fcc = (0, s.created u n fa faa fcc) := by
  have htokens : lib.tokens ':' (key u n) = [u, n] := hlib.tokens.pair hu hn
  simp only [create, always, setAccessValue, setContentValue, KVStore.setValue_true,
    Option.map_some, hlen, htokens, ne_eq, not_false_eq_true, ↓reduceIte]
  rfl

def removed (s : FMStore) (u n : Str) (ec_store : EntryList) : FMStore where
  file_access_store := Function.update s.file_access_store (key u n) none
  file_content_store := Function.update s.file_content_store (key u n) none
  ec_store := ec_store
  suuid_counter := s.suuid_counter
  sid_num := s.sid_num

theorem remove_of_none {Key : Str} (h : s.file_access_store Key = none) :
    s.remove lib always Key = some (-1, s) := by
  simp only [remove, KVStore.remove_of_none h]

theorem remove_key (hlib : lib.Documented) (hu : ':' ∉ u) (hn : ':' ∉ n)
    (ha : (s.file_access_store (key u n)).isSome) (hc : (s.file_content_store (key u n)).isSome) :
    s.remove lib always (key u n) = (s.ec_store.remove_entry lib u n).map fun ec_store =>
      (0, s.removed u n ec_store) := by
  obtain ⟨fa, hfa⟩ := Option.isSome_iff_exists.1 ha
  obtain ⟨fc, hfc⟩ := Option.isSome_iff_exists.1 hc
  have htokens : lib.tokens ':' (key u n) = [u, n] := hlib.tokens.pair hu hn
  simp only [remove, always, KVStore.remove_true_of_some hfa, KVStore.remove_true_of_some hfc,
    htokens, removed]

/-- The two inodes of a file come together, and every file is listed once. -/
structure Inv (s : FMStore) : Prop where
  exact : s.ec_store.Exact s.file_access_store
  both : ∀ k, (s.file_content_store k).isSome = (s.file_access_store k).isSome

theorem Inv.created (h : s.Inv) (hu : ':' ∉ u) (hfree : s.file_access_store (key u n) = none)
    (fa faa : FileAccessInode) (fcc : FileContentInode) : (s.created u n fa faa fcc).Inv where
  exact := h.exact.insert hu hfree _
  both k := by
    simp only [FMStore.created, Function.update_apply]
    split
    · rfl
    · exact h.both k

theorem Inv.remove (hlib : lib.Documented) (h : s.Inv) (hu : ':' ∉ u)
    (hn : ':' ∉ n) : ∃ r s', s.remove lib always (key u n) = some (r, s') ∧ s'.Inv := by
  cases ha : s.file_access_store (key u n) with
  | none => exact ⟨-1, s, remove_of_none ha, h⟩
  | some fa =>
    have hsome : (s.file_access_store (key u n)).isSome := by
      rw [ha]
      rfl
    obtain ⟨ec, hec, hexact⟩ := h.exact.remove hlib.leftover hu hsome
    refine ⟨0, s.removed u n ec, ?_, hexact, ?_⟩
    · rw [remove_key hlib hu hn hsome (by rw [h.both, hsome]), hec]
      rfl
    · intro k
      simp only [removed, Function.update_apply]
      split
      · rfl
      · exact h.both k

theorem empty_inv (sid : BitVec 64) : (empty sid).Inv where
  exact := by
    constructor
    · intro u hu
      exact List.nodup_nil
    · intro u n hu
      exact iff_of_false List.not_mem_nil Bool.false_ne_true
  both k := rfl

end FMStore

theorem to_string_head (u : BitVec 64) : ∃ c v, to_string u = c :: v ∧ c ≠ '\x00' := by
  obtain ⟨c, v, hu⟩ := List.exists_cons_of_ne_nil (Nat.toDigits_ne_nil (b := 10) (n := u.toNat))
  refine ⟨c, v, hu, ?_⟩
  rintro rfl
  have hd := Nat.isDigit_of_mem_toDigits (by decide) (by decide)
    (show '\x00' ∈ Nat.toDigits 10 u.toNat by rw [hu]; exact List.mem_cons_self)
  revert hd
  decide

theorem strlen_key (u : BitVec 64) (n : Str) : FMStore.strlen (key (to_string u) n) ≠ 0 := by
  obtain ⟨c, v, hu, hc⟩ := to_string_head u
  simp [FMStore.strlen, key, hu, hc]

structure EntryName where
  chars : Str
  ne_nil : chars ≠ []
  colon_notMem : ':' ∉ chars
  tab_notMem : '\t' ∉ chars

namespace FMServer

open FMStore

/-- A call, with the uninitialised inodes that it uses. -/
inductive Call where
  | create (uuid : BitVec 64) (name : EntryName) (fa faa : FileAccessInode)
      (fcc : FileContentInode)
  | remove (uuid : BitVec 64) (name : EntryName)

variable (lib : Library) (sid : BitVec 64)

/-- `none` is undefined behaviour. -/
def run (s : FMStore) : Call → Option (Int × FMStore)
  | .create uuid name fa faa fcc =>
    some (s.create lib always (key (to_string uuid) name.chars) fa faa fcc)
  | .remove uuid name => s.remove lib always (key (to_string uuid) name.chars)

def system : System FMStore Call where
  init s := s = empty sid
  step s call s' := ∃ value, run lib s call = some (value, s')

/-- The key of a file to be created is not in use. -/
def Fresh (s : FMStore) : Call → Prop
  | .create uuid name _ _ _ => s.file_access_store (key (to_string uuid) name.chars) = none
  | .remove _ _ => True

/-- The store as long as no file is created again. -/
def freshSystem : System FMStore Call :=
  (system lib sid).restrict fun s call _ => Fresh s call

variable {lib sid} {s s' : FMStore} {w : List Call}

theorem run_inv (hlib : lib.Documented) (h : s.Inv) {call : Call}
    (hf : Fresh s call) : ∃ value s', run lib s call = some (value, s') ∧ s'.Inv := by
  cases call with
  | create uuid name fa faa fcc =>
    have hu := colon_notMem_to_string uuid
    refine ⟨0, s.created (to_string uuid) name.chars fa faa fcc, ?_, h.created hu hf fa faa fcc⟩
    rw [run, create_key hlib (strlen_key uuid name.chars) hu name.colon_notMem]
  | remove uuid name =>
    exact h.remove hlib (colon_notMem_to_string uuid) name.colon_notMem

theorem reachable_inv (hlib : lib.Documented)
    (h : (freshSystem lib sid).Run w s) : s.Inv := by
  apply h.invariant (I := fun s => s.Inv)
  · rintro s rfl
    exact empty_inv sid
  · rintro s call s' hs ⟨⟨value, hr⟩, hf⟩
    obtain ⟨value', s'', hr', hs'⟩ := run_inv hlib hs hf
    cases hr.symm.trans hr'
    exact hs'

/-- As long as no file is created again, the list of every directory is exact. -/
theorem file_listing_exact (hlib : lib.Documented)
    (h : (freshSystem lib sid).Run w s) :
    (∀ u : BitVec 64, (s.ec_store.names (to_string u)).Nodup ∧
      ∀ n, n ∈ s.ec_store.names (to_string u) ↔
        (s.file_access_store (key (to_string u) n)).isSome) ∧
      ∀ call, Fresh s call → (run lib s call).isSome := by
  have hs := reachable_inv hlib h
  constructor
  · intro u
    have hu := colon_notMem_to_string u
    exact ⟨hs.exact.nodup _ hu, fun n => hs.exact.mem _ n hu⟩
  · intro call hf
    obtain ⟨value, s', hr, -⟩ := run_inv hlib hs hf
    rw [hr]
    rfl

/-- A file that is created again is listed twice. -/
theorem create_duplicates (hlib : lib.Documented) (h : s.Inv) {u : BitVec 64} {n : EntryName}
    (hn : (s.file_access_store (key (to_string u) n.chars)).isSome) (fa faa : FileAccessInode)
    (fcc : FileContentInode) : ∃ s', run lib s (.create u n fa faa fcc) = some (0, s') ∧
      ¬ (s'.ec_store.names (to_string u)).Nodup := by
  have hu := colon_notMem_to_string u
  refine ⟨s.created (to_string u) n.chars fa faa fcc, ?_, ?_⟩
  · rw [run, create_key hlib (strlen_key u n.chars) hu n.colon_notMem]
  · exact EntryList.not_nodup_insert_entry ((h.exact.mem _ _ hu).2 hn)

def nameF : EntryName := ⟨['f'], by decide, by decide, by decide⟩

def blankAccess : FileAccessInode := ⟨0, 0, 0, 0, 0⟩
def blankContent : FileContentInode := ⟨0, 0, 0, 0, [], 0, 0, 0⟩

def createF : Call := .create 2 nameF blankAccess blankAccess blankContent

def oneFile : FMStore := (empty 233).created ['2'] ['f'] blankAccess blankAccess blankContent

theorem oneFile_run : (freshSystem Library.posix 233).Run [createF] oneFile := by
  have h0 : (freshSystem Library.posix 233).Run [] (empty 233) := .nil rfl
  exact h0.snoc ⟨⟨0, rfl⟩, rfl⟩

def removedF : FMStore :=
  ((run Library.posix oneFile (.remove 2 nameF)).map Prod.snd).getD oneFile

theorem file_listing_exact_again : ∃ s,
    (freshSystem Library.posix 233).Run [createF, .remove 2 nameF, createF] s ∧
    (s.ec_store.names (to_string 2)).Nodup ∧ ['f'] ∈ s.ec_store.names (to_string 2) := by
  have hremoved : (freshSystem Library.posix 233).Run [createF, .remove 2 nameF] removedF :=
    oneFile_run.snoc ⟨⟨0, rfl⟩, trivial⟩
  have hagain : (freshSystem Library.posix 233).Run [createF, .remove 2 nameF, createF]
      (removedF.created ['2'] ['f'] blankAccess blankAccess blankContent) :=
    hremoved.snoc ⟨⟨0, rfl⟩, rfl⟩
  obtain ⟨hnodup, hmem⟩ := (file_listing_exact Library.posix_documented hagain).1 2
  exact ⟨_, hagain, hnodup, (hmem ['f']).2 rfl⟩

theorem create_duplicates_f : ¬ ∀ (w : List Call) (s : FMStore),
    (system Library.posix 233).Run w s → ∀ u : BitVec 64,
      (s.ec_store.names (to_string u)).Nodup ∧ ∀ n, n ∈ s.ec_store.names (to_string u) ↔
        (s.file_access_store (key (to_string u) n)).isSome := by
  intro h
  have hinv := reachable_inv Library.posix_documented oneFile_run
  obtain ⟨s', hr, hdup⟩ := @create_duplicates Library.posix _ Library.posix_documented hinv
    2 nameF rfl blankAccess blankAccess blankContent
  exact hdup (h _ s' (oneFile_run.of_restrict.snoc ⟨0, hr⟩) 2).1

end FMServer

end Galois
