import Galois.Effect.Registry
import Galois.FileListing

namespace Galois
set_option autoImplicit true
set_option relaxedAutoImplicit false

/-- A key `uuid:name` of the file server. -/
@[ext] structure EntryKey where
  uuid : Str
  name : Str
  uuid_ne_nil : uuid ≠ []
  digits : ∀ c ∈ uuid, c.isDigit
  name_ne_nil : name ≠ []
  colon_notMem : ':' ∉ name

instance : DecidableEq EntryKey := fun k k' =>
  decidable_of_iff (k.uuid = k'.uuid ∧ k.name = k'.name) EntryKey.ext_iff.symm

namespace EntryKey

def str (k : EntryKey) : Str := key k.uuid k.name

theorem colon_notMem_uuid (k : EntryKey) : ':' ∉ k.uuid := by
  intro h
  have hd := k.digits ':' h
  revert hd
  decide

theorem str_inj {k k' : EntryKey} : k.str = k'.str ↔ k = k' := by
  constructor
  · intro h
    obtain ⟨hu, hn⟩ := (key_inj k.colon_notMem_uuid k'.colon_notMem_uuid).1 h
    cases k
    cases k'
    cases hu
    cases hn
    rfl
  · rintro rfl
    rfl

theorem str_ne {k k' : EntryKey} (h : k' ≠ k) : k'.str ≠ k.str := fun hs => h (str_inj.1 hs)

theorem strlen_str (k : EntryKey) : FMStore.strlen k.str ≠ 0 := by
  obtain ⟨c, u, hu⟩ := List.exists_cons_of_ne_nil k.uuid_ne_nil
  have hc : c ≠ '\x00' := by
    rintro rfl
    have hd := k.digits '\x00' (by rw [hu]; exact List.mem_cons_self)
    revert hd
    decide
  simp [FMStore.strlen, str, key, hu, hc]

end EntryKey

namespace FMStore

variable {lib : Library} {s s' : FMStore} {k k' : EntryKey}

/-- The content inode of a file comes with an access inode and with an entry of its directory. -/
structure Kept (s : FMStore) : Prop where
  access : ∀ k : EntryKey,
    (s.file_content_store k.str).isSome → (s.file_access_store k.str).isSome
  listed : ∀ k : EntryKey, (s.file_content_store k.str).isSome → k.name ∈ s.ec_store.names k.uuid
  error : ∀ (k : EntryKey) (fc : FileContentInode),
    s.file_content_store k.str = some fc → fc.error = 0

/-- Nothing but access inodes changes, and none of them goes. -/
structure Same (s s' : FMStore) : Prop where
  content : s'.file_content_store = s.file_content_store
  entries : s'.ec_store = s.ec_store
  counter : s'.suuid_counter = s.suuid_counter
  access : ∀ Key, (s.file_access_store Key).isSome → (s'.file_access_store Key).isSome

theorem Same.refl (s : FMStore) : Same s s := ⟨rfl, rfl, rfl, fun _ h => h⟩

theorem Kept.same (h : s.Kept) (hs : Same s s') : s'.Kept where
  access k hk := hs.access _ (h.access k (hs.content ▸ hk))
  listed k hk := hs.entries ▸ h.listed k (hs.content ▸ hk)
  error k fc hk := h.error k fc (hs.content ▸ hk)

theorem same_setAccessValue {Key : Str} {fa : FileAccessInode} :
    Same s ((s.setAccessValue (always 0) Key fa).getD s) where
  content := rfl
  entries := rfl
  counter := rfl
  access Key' h := by
    simp only [setAccessValue, always, KVStore.setValue_true, Option.map_some, Option.getD_some,
      Function.update_apply]
    split
    · rfl
    · exact h

theorem same_chown {Key : Str} {fa faa : FileAccessInode} :
    Same s (s.chown always Key fa faa).2 := same_setAccessValue

theorem same_chmod {Key : Str} {fa faa : FileAccessInode} :
    Same s (s.chmod always Key fa faa).2 := same_setAccessValue

theorem setContentValue_of_get (h : s.Kept) {fc fc' : FileContentInode}
    (hget : s.getContentValue k.str fc = some fc') (i : Nat) :
    s.setContentValue (always i) k.str fc' = some s := by
  obtain ⟨stored, hs, rfl⟩ := Option.map_eq_some_iff.1 hget
  have he : ({ stored with error := 0 } : FileContentInode) = stored := by
    rw [← h.error k stored hs]
  simp only [setContentValue, always, KVStore.setValue_true, Option.map_some, he]
  rw [Function.update_eq_self_iff.2 hs.symm]

theorem same_getContent (h : s.Kept) {_return : FileContentInode} :
    Same s (s.getContent always _return k.str).2 := by
  simp only [getContent]
  cases hget : s.getContentValue k.str _return with
  | none => exact Same.refl s
  | some fc =>
    simp only [setContentValue_of_get h hget, Option.getD_some]
    exact Same.refl s

theorem same_utimens (h : s.Kept) {fcc : FileContentInode} :
    Same s (s.utimens always k.str fcc).2 := by
  simp only [utimens]
  cases hget : s.getContentValue k.str fcc with
  | none => exact Same.refl s
  | some fc =>
    simp only [setContentValue_of_get h hget]
    exact Same.refl s

theorem same_getAttr (h : s.Kept) {_return : FileInode} :
    Same s (s.getAttr always _return k.str).2 := by
  cases ha : s.getAccessValue k.str _return.fa with
  | none =>
    have hget : (s.getValue k.str _return).1 = -1 := by simp only [getValue, ha]
    simp only [getAttr, hget]
    exact Same.refl s
  | some fa =>
    cases hc : s.getContentValue k.str _return.fc with
    | none =>
      have hget : (s.getValue k.str _return).1 = -1 := by simp only [getValue, ha, hc]
      simp only [getAttr, hget]
      exact Same.refl s
    | some fc =>
      have hget : s.getValue k.str _return = (0, { _return with fa, fc }) := by
        simp only [getValue, ha, hc]
      have hsame : Same s ((s.setAccessValue (always 0) k.str fa).getD s) := same_setAccessValue
      obtain ⟨s', hs'⟩ := Option.isSome_iff_exists.1
        (show (s.setAccessValue (always 0) k.str fa).isSome from rfl)
      rw [hs', Option.getD_some] at hsame
      have hcontent : s'.getContentValue k.str _return.fc = some fc := by
        rw [getContentValue, hsame.content]
        exact hc
      simp only [getAttr, hget, setValue, hs', setContentValue_of_get (h.same hsame) hcontent]
      exact hsame

theorem Kept.created (h : s.Kept) (fa faa : FileAccessInode) (fcc : FileContentInode) :
    (s.created k.uuid k.name fa faa fcc).Kept where
  access k' hk' := by
    simp only [FMStore.created, Function.update_apply] at hk' ⊢
    split
    · rfl
    · rw [if_neg (by assumption)] at hk'
      exact h.access k' hk'
  listed k' hk' := by
    by_cases hkk : k' = k
    · rw [hkk]
      exact EntryList.mem_insert_entry_self
    · have hs : k'.str ≠ key k.uuid k.name := EntryKey.str_ne hkk
      simp only [FMStore.created, Function.update_of_ne hs] at hk'
      exact EntryList.mem_insert_entry (h.listed k' hk')
  error k' fc hk' := by
    simp only [FMStore.created, Function.update_apply] at hk'
    split at hk'
    · cases hk'
      rfl
    · exact h.error k' fc hk'

theorem Kept.removed (h : s.Kept) {ec_store : EntryList}
    (hec : s.ec_store.remove_entry lib k.uuid k.name = some ec_store) :
    (s.removed k.uuid k.name ec_store).Kept where
  access k' hk' := by
    simp only [FMStore.removed, Function.update_apply] at hk' ⊢
    split
    case isTrue hs =>
      rw [if_pos hs] at hk'
      exact hk'
    case isFalse hs =>
      rw [if_neg hs] at hk'
      exact h.access k' hk'
  listed k' hk' := by
    by_cases hkk : k' = k
    · simp [FMStore.removed, hkk, EntryKey.str] at hk'
    · have hs : k'.str ≠ key k.uuid k.name := EntryKey.str_ne hkk
      simp only [FMStore.removed, Function.update_of_ne hs] at hk' ⊢
      exact EntryList.mem_of_remove_entry hec (h.listed k' hk')
        fun he => hkk (EntryKey.ext he.1 he.2)
  error k' fc hk' := by
    simp only [FMStore.removed, Function.update_apply] at hk'
    split at hk'
    · cases hk'
    · exact h.error k' fc hk'

theorem remove_spec (hlib : lib.Documented) (h : s.Kept) (k : EntryKey) :
    (∃ ec_store, s.ec_store.remove_entry lib k.uuid k.name = some ec_store ∧
      s.remove lib always k.str = some (0, s.removed k.uuid k.name ec_store)) ∨
    (s.file_content_store k.str = none ∧
      ∃ file_access_store, (∀ k' : EntryKey, k' ≠ k →
        file_access_store k'.str = s.file_access_store k'.str) ∧
        s.remove lib always k.str = some (-1, { s with file_access_store })) := by
  cases hc : s.file_content_store k.str with
  | some fc =>
    have hcs : (s.file_content_store k.str).isSome := by
      rw [hc]
      rfl
    obtain ⟨ec, hec⟩ := EntryList.remove_entry_of_mem (hlib.leftover _ _) (h.listed k hcs)
    refine .inl ⟨ec, hec, ?_⟩
    have hr := remove_key hlib k.colon_notMem_uuid k.colon_notMem (h.access k hcs) hcs
    rw [hec] at hr
    exact hr
  | none =>
    refine .inr ⟨rfl, ?_⟩
    cases ha : s.file_access_store k.str with
    | none => exact ⟨s.file_access_store, fun _ _ => rfl, remove_of_none ha⟩
    | some fa =>
      refine ⟨Function.update s.file_access_store k.str none, ?_, ?_⟩
      · intro k' hk'
        exact Function.update_of_ne (EntryKey.str_ne hk') _ _
      · simp only [remove, always, KVStore.remove_true_of_some ha, KVStore.remove_of_none hc]

theorem Kept.unremoved (h : s.Kept) (hc : s.file_content_store k.str = none)
    {file_access_store : KVStore FileAccessInode}
    (ha : ∀ k' : EntryKey, k' ≠ k → file_access_store k'.str = s.file_access_store k'.str) :
    Kept { s with file_access_store } where
  access k' hk' := by
    by_cases hkk : k' = k
    · rw [hkk, hc] at hk'
      cases hk'
    · have hold := h.access k' hk'
      rw [← ha k' hkk] at hold
      exact hold
  listed := h.listed
  error := h.error

def resized (s : FMStore) (k : EntryKey) (fcc : FileContentInode) (size : Int) : FMStore :=
  { s with
    file_content_store := Function.update s.file_content_store k.str (some { fcc with size }) }

theorem csize_spec (h : s.Kept) (k : EntryKey) (fc fcc : FileContentInode) :
    (∃ stored, s.file_content_store k.str = some stored ∧
      s.csize always k.str fc fcc = (0, s.resized k stored fc.size)) ∨
    (s.file_content_store k.str = none ∧ s.csize always k.str fc fcc = (-1, s)) := by
  cases hc : s.file_content_store k.str with
  | none =>
    refine .inr ⟨rfl, ?_⟩
    simp only [csize, getContentValue, KVStore.getValue, hc, Option.map_none]
  | some stored =>
    refine .inl ⟨stored, rfl, ?_⟩
    have he : ({ stored with size := fc.size, error := 0 } : FileContentInode) =
        { stored with size := fc.size } := by
      rw [← h.error k stored hc]
    simp only [csize, getContentValue, setContentValue, KVStore.getValue, hc, Option.map_some,
      always, KVStore.setValue_true, he, resized]

theorem Kept.resized (h : s.Kept) {fcc : FileContentInode}
    (hc : s.file_content_store k.str = some fcc) (size : Int) : (s.resized k fcc size).Kept where
  access k' hk' := by
    by_cases hkk : k' = k
    · rw [hkk]
      exact h.access k (by rw [hc]; rfl)
    · have hs : k'.str ≠ k.str := EntryKey.str_ne hkk
      simp only [FMStore.resized, Function.update_of_ne hs] at hk'
      exact h.access k' hk'
  listed k' hk' := by
    by_cases hkk : k' = k
    · rw [hkk]
      exact h.listed k (by rw [hc]; rfl)
    · have hs : k'.str ≠ k.str := EntryKey.str_ne hkk
      simp only [FMStore.resized, Function.update_of_ne hs] at hk'
      exact h.listed k' hk'
  error k' fc hk' := by
    simp only [FMStore.resized, Function.update_apply] at hk'
    split at hk'
    · cases hk'
      exact h.error k fcc hc
    · exact h.error k' fc hk'

theorem empty_kept (sid : BitVec 64) : (empty sid).Kept where
  access k hk := by cases hk
  listed k hk := by cases hk
  error k fc hk := by cases hk

end FMStore

namespace FileMap

open FMStore
open FMServer (blankAccess blankContent oneFile)

/-- A call, with the uninitialised inodes that it uses. -/
inductive Call where
  | create (k : EntryKey) (fa faa : FileAccessInode) (fcc : FileContentInode)
  | access (k : EntryKey) (faa : FileAccessInode)
  | chown (k : EntryKey) (fa faa : FileAccessInode)
  | chmod (k : EntryKey) (fa faa : FileAccessInode)
  | remove (k : EntryKey)
  | csize (k : EntryKey) (fc fcc : FileContentInode)
  | getAttr (k : EntryKey) (_return : FileInode)
  | getContent (k : EntryKey) (_return : FileContentInode)
  | getAccess (k : EntryKey) (_return : FileAccessInode)
  | open_ (k : EntryKey) (fa : FileAccessInode) (_return : FileInode)
  | utimens (k : EntryKey) (fcc : FileContentInode)
  | readdir (uuid : Int)

inductive Reply where
  | status (value : Int)
  | inode (fi : FileInode)
  | content (fc : FileContentInode)
  | access (fa : FileAccessInode)
  | entries (text : Str)

variable (lib : Library) (sid : BitVec 64)

/-- `none` is undefined behaviour. -/
def run (s : FMStore) : Call → Option (Reply × FMStore)
  | .create k fa faa fcc =>
    let (value, s) := s.create lib always k.str fa faa fcc
    some (.status value, s)
  | .access k faa => some (.status (s.access k.str faa), s)
  | .chown k fa faa =>
    let (value, s) := s.chown always k.str fa faa
    some (.status value, s)
  | .chmod k fa faa =>
    let (value, s) := s.chmod always k.str fa faa
    some (.status value, s)
  | .remove k => (s.remove lib always k.str).map fun (value, s) => (.status value, s)
  | .csize k fc fcc =>
    let (value, s) := s.csize always k.str fc fcc
    some (.status value, s)
  | .getAttr k _return =>
    let (fi, s) := s.getAttr always _return k.str
    some (.inode fi, s)
  | .getContent k _return =>
    let (fc, s) := s.getContent always _return k.str
    some (.content fc, s)
  | .getAccess k _return => some (.access (s.getAccess _return k.str), s)
  | .open_ k fa _return => some (.inode (s.open_ _return k.str fa), s)
  | .utimens k fcc =>
    let (value, s) := s.utimens always k.str fcc
    some (.status value, s)
  | .readdir uuid => some (.entries (s.readdir lib uuid), s)

def Call.file : Call → Option EntryKey
  | .create k _ _ _ => some k
  | .access k _ => some k
  | .chown k _ _ => some k
  | .chmod k _ _ => some k
  | .remove k => some k
  | .csize k _ _ => some k
  | .getAttr k _ => some k
  | .getContent k _ => some k
  | .getAccess k _ => some k
  | .open_ k _ _ => some k
  | .utimens k _ => some k
  | .readdir _ => none

/-- The file server, with each call and its reply as the label of a step. -/
def system : System FMStore (Call × Reply) where
  init s := s = empty sid
  step s e s' := run lib s e.1 = some (e.2, s')

/-- What a call that got a reply means for the files: a size under each key. -/
def event : Call × Reply → Registry.Event EntryKey Int
  | (.create k _ _ _, _) => .create k 0
  | (.remove k, .status value) => if value = 0 then .remove k else .other
  | (.csize k fc _, .status value) => if value = 0 then .update k fc.size else .other
  | _ => .other

/-- The store has the content inodes of the registry's files. -/
structure Refines (s : FMStore) (r : Registry EntryKey Int) : Prop where
  content : ∀ k, (s.file_content_store k.str).map (fun fc => (fc.suuid, fc.size)) =
    (r.entry k).map fun x => (BitVec.ofNat 64 x.1, x.2)
  counter : s.suuid_counter = BitVec.ofNat 64 r.drawn

variable {lib sid} {s s' : FMStore} {r : Registry EntryKey Int} {k : EntryKey}

theorem Refines.same (h : Refines s r) (hs : Same s s') : Refines s' r where
  content k := by
    rw [hs.content]
    exact h.content k
  counter := by
    rw [hs.counter]
    exact h.counter

theorem Refines.created (h : Refines s r) (fa faa : FileAccessInode) (fcc : FileContentInode) :
    Refines (s.created k.uuid k.name fa faa fcc) (r.apply (.create k 0)) where
  content k' := by
    by_cases hk : k' = k
    · rw [hk]
      simp [FMStore.created, Registry.apply, EntryKey.str, newContent, h.counter]
    · have hs : k'.str ≠ key k.uuid k.name := EntryKey.str_ne hk
      simp only [FMStore.created, Registry.apply, Function.update_of_ne hs,
        Function.update_of_ne hk]
      exact h.content k'
  counter := by
    simp only [FMStore.created, Registry.apply, BitVec.ofNat_add, h.counter]
    rfl

theorem Refines.removed (h : Refines s r) (ec_store : EntryList) :
    Refines (s.removed k.uuid k.name ec_store) (r.apply (.remove k)) where
  content k' := by
    by_cases hk : k' = k
    · rw [hk]
      simp [FMStore.removed, Registry.apply, EntryKey.str]
    · have hs : k'.str ≠ key k.uuid k.name := EntryKey.str_ne hk
      simp only [FMStore.removed, Registry.apply, Function.update_of_ne hs,
        Function.update_of_ne hk]
      exact h.content k'
  counter := h.counter

theorem Refines.resized (h : Refines s r) {fcc : FileContentInode}
    (hc : s.file_content_store k.str = some fcc) (size : Int) :
    Refines (s.resized k fcc size) (r.apply (.update k size)) where
  content k' := by
    by_cases hk : k' = k
    · have hx := h.content k
      rw [hc] at hx
      obtain ⟨x, hx, he⟩ := Option.map_eq_some_iff.1 hx.symm
      rw [hk]
      simp [FMStore.resized, Registry.apply, hx, (Prod.mk.inj he).1]
    · have hs : k'.str ≠ k.str := EntryKey.str_ne hk
      simp only [FMStore.resized, Registry.apply, Function.update_of_ne hs,
        Function.update_of_ne hk]
      exact h.content k'
  counter := h.counter

/-- What a call does: the files change as the registry does, those of other keys not at all. -/
structure Served (s : FMStore) (r : Registry EntryKey Int) (call : Call) (reply : Reply)
    (s' : FMStore) : Prop where
  kept : s'.Kept
  refines : Refines s' (r.apply (event (call, reply)))
  frame : ∀ k, call.file ≠ some k →
    s'.file_content_store k.str = s.file_content_store k.str

theorem Served.same {call : Call} {reply : Reply} (hs : s.Kept) (h : Refines s r)
    (hsame : Same s s') (he : event (call, reply) = .other) : Served s r call reply s' where
  kept := hs.same hsame
  refines := by
    rw [he]
    exact h.same hsame
  frame k _ := by rw [hsame.content]

theorem update_str_of_ne {k k' : EntryKey} {kv : KVStore FileContentInode}
    {x : Option FileContentInode} (h : some k' ≠ some k) :
    Function.update kv k'.str x k.str = kv k.str :=
  Function.update_of_ne (EntryKey.str_ne fun he => h (congrArg some he.symm)) _ _

theorem run_spec (hlib : lib.Documented) (hs : s.Kept) (h : Refines s r) (call : Call) :
    ∃ reply s', run lib s call = some (reply, s') ∧ Served s r call reply s' := by
  cases call with
  | create k fa faa fcc =>
    have hr := @create_key lib s k.uuid k.name hlib k.strlen_str k.colon_notMem_uuid
      k.colon_notMem fa faa fcc
    refine ⟨.status 0, s.created k.uuid k.name fa faa fcc, by rw [run, EntryKey.str, hr], ?_⟩
    exact ⟨hs.created fa faa fcc, h.created fa faa fcc, fun k' hk' => update_str_of_ne hk'⟩
  | access k faa => exact ⟨_, _, rfl, .same hs h (.refl s) rfl⟩
  | chown k fa faa => exact ⟨_, _, rfl, .same hs h same_chown rfl⟩
  | chmod k fa faa => exact ⟨_, _, rfl, .same hs h same_chmod rfl⟩
  | remove k =>
    cases remove_spec hlib hs k with
    | inl hr =>
      obtain ⟨ec, hec, hr⟩ := hr
      refine ⟨.status 0, s.removed k.uuid k.name ec, by rw [run, hr]; rfl, ?_⟩
      exact ⟨hs.removed hec, h.removed ec, fun k' hk' => update_str_of_ne hk'⟩
    | inr hr =>
      obtain ⟨hc, fas, ha, hr⟩ := hr
      refine ⟨.status (-1), { s with file_access_store := fas }, by rw [run, hr]; rfl, ?_⟩
      exact ⟨hs.unremoved hc ha, ⟨h.content, h.counter⟩, fun k' _ => rfl⟩
  | csize k fc fcc =>
    cases csize_spec hs k fc fcc with
    | inl hr =>
      obtain ⟨stored, hc, hr⟩ := hr
      refine ⟨.status 0, s.resized k stored fc.size, by rw [run, hr], ?_⟩
      exact ⟨hs.resized hc fc.size, h.resized hc fc.size, fun k' hk' => update_str_of_ne hk'⟩
    | inr hr =>
      exact ⟨.status (-1), s, by rw [run, hr.2], .same hs h (.refl s) rfl⟩
  | getAttr k _return => exact ⟨_, _, rfl, .same hs h (same_getAttr hs) rfl⟩
  | getContent k _return => exact ⟨_, _, rfl, .same hs h (same_getContent hs) rfl⟩
  | getAccess k _return => exact ⟨_, _, rfl, .same hs h (.refl s) rfl⟩
  | open_ k fa _return => exact ⟨_, _, rfl, .same hs h (.refl s) rfl⟩
  | utimens k fcc => exact ⟨_, _, rfl, .same hs h (same_utimens hs) rfl⟩
  | readdir uuid => exact ⟨_, _, rfl, .same hs h (.refl s) rfl⟩

variable {w : List (Call × Reply)}

/-- The store refines the registry of what has been answered. -/
theorem run_refines (hlib : lib.Documented) (h : (system lib sid).Run w s) :
    s.Kept ∧ Refines s (Registry.replay event w) := by
  apply h.history (I := fun w s => s.Kept ∧ Refines s (Registry.replay event w))
  · rintro s rfl
    exact ⟨empty_kept sid, fun k => rfl, rfl⟩
  · rintro w s ⟨call, reply⟩ s' - ⟨hs, hr⟩ hstep
    obtain ⟨reply', s'', hrun, hserved⟩ := run_spec hlib hs hr call
    cases hstep.symm.trans hrun
    rw [Registry.replay_snoc]
    exact ⟨hserved.kept, hserved.refines⟩

def Created (k : EntryKey) (e : Call × Reply) : Prop :=
  ∃ fa faa fcc, e.1 = .create k fa faa fcc

def Removed (k : EntryKey) (e : Call × Reply) : Prop := e = (.remove k, .status 0)

/-- The argument of a `csize` of the key that returned 0. -/
def resized (k : EntryKey) : Call × Reply → Option Int
  | (.csize k' fc _, .status value) => if k' = k ∧ value = 0 then some fc.size else none
  | _ => none

def creates (w : List (Call × Reply)) : Nat := (w.map fun e => Registry.draws (event e)).sum

theorem created_event {e : Call × Reply} :
    Registry.Created k (event e) ↔ Created k e := by
  obtain ⟨call, reply⟩ := e
  cases call with
  | create k' fa faa fcc =>
    constructor
    · rintro ⟨a, he⟩
      cases he
      exact ⟨fa, faa, fcc, rfl⟩
    · rintro ⟨fa, faa, fcc, he⟩
      cases he
      exact ⟨0, rfl⟩
  | remove k' => cases reply <;> simp [event, Registry.Created, Created, ite_eq_iff]
  | csize k' fc fcc => cases reply <;> simp [event, Registry.Created, Created, ite_eq_iff]
  | _ => simp [event, Registry.Created, Created]

theorem removed_event {e : Call × Reply} :
    Registry.Removed k (event e) ↔ Removed k e := by
  obtain ⟨call, reply⟩ := e
  cases call with
  | remove k' =>
    cases reply <;> simp [event, Registry.Removed, Removed, ite_eq_iff, and_comm]
  | csize k' fc fcc => cases reply <;> simp [event, Registry.Removed, Removed, ite_eq_iff]
  | _ => simp [event, Registry.Removed, Removed]

theorem resized_event (e : Call × Reply) : Registry.updated k (event e) = resized k e := by
  obtain ⟨call, reply⟩ := e
  cases call with
  | remove k' =>
    cases reply with
    | status value =>
      by_cases hv : value = 0
      · simp [event, resized, Registry.updated, hv]
      · simp [event, resized, Registry.updated, hv]
    | _ => rfl
  | csize k' fc fcc =>
    cases reply with
    | status value =>
      by_cases hv : value = 0
      · simp [event, resized, Registry.updated, hv]
      · simp [event, resized, Registry.updated, hv]
    | _ => rfl
  | _ => rfl

theorem created_size {e : Call × Reply} {a : Int} (h : Created k e)
    (he : event e = .create k a) : a = 0 := by
  obtain ⟨call, reply⟩ := e
  obtain ⟨fa, faa, fcc, hcall⟩ := h
  cases hcall
  cases he
  rfl

theorem draws_of_created {e : Call × Reply} (h : Created k e) : Registry.draws (event e) = 1 := by
  obtain ⟨a, ha⟩ := created_event.2 h
  rw [ha]
  rfl

/-- The content inodes are those of the files that were created and not removed since, each with
what its last `create` drew and the last `csize` since then set. -/
theorem content_map_refined (hlib : lib.Documented) (h : (system lib sid).Run w s)
    (k : EntryKey) :
    ((s.file_content_store k.str).isSome ↔ Since (Created k) (Removed k) w) ∧
    (∀ v e u, w = v ++ e :: u → Created k e → (∀ b ∈ u, ¬ Created k b ∧ ¬ Removed k b) →
      ∃ fc s₁, s.file_content_store k.str = some fc ∧ (system lib sid).Run v s₁ ∧
        fc.suuid = s₁.suuid_counter ∧ fc.size = (u.filterMap (resized k)).getLastD 0 ∧
        ∀ v₁ b u₁ k' s₀, v = v₁ ++ b :: u₁ → Created k' b → (system lib sid).Run v₁ s₀ →
          creates u₁ + 1 < 2 ^ 64 → s₀.suuid_counter ≠ fc.suuid) ∧
    ∀ call, (∃ reply s', run lib s call = some (reply, s')) ∧
      ∀ reply s', run lib s call = some (reply, s') → call.file ≠ some k →
        s'.file_content_store k.str = s.file_content_store k.str := by
  obtain ⟨hs, hr⟩ := run_refines hlib h
  refine ⟨?_, ?_, ?_⟩
  · have hsome := congrArg Option.isSome (hr.content k)
    simp only [Option.isSome_map] at hsome
    rw [hsome, Registry.isSome_replay]
    simp only [created_event, removed_event]
  · intro v e u hw he hu
    subst hw
    obtain ⟨s₁, hv, -⟩ := h.split
    have hr₁ := (run_refines hlib hv).2
    obtain ⟨a, ha⟩ := created_event.2 he
    have hentry := Registry.entry_replay (v := v) ha fun c hc =>
      ⟨fun hx => (hu c hc).1 (created_event.1 hx), fun hx => (hu c hc).2 (removed_event.1 hx)⟩
    have hcontent := hr.content k
    rw [hentry, Option.map_some] at hcontent
    obtain ⟨fc, hfc, heq⟩ := Option.map_eq_some_iff.1 hcontent
    obtain ⟨hsuuid, hsize⟩ := Prod.mk.inj heq
    refine ⟨fc, s₁, hfc, hv, by rw [hsuuid, hr₁.counter], ?_, ?_⟩
    · rw [hsize, created_size he ha]
      simp only [resized_event]
    · intro v₁ b u₁ k' s₀ hv₁ hb hs₀ hlt hsame
      have hr₀ := (run_refines hlib hs₀).2
      rw [hr₀.counter, hsuuid, hv₁, Registry.drawn_replay_append, List.map_cons, List.sum_cons,
        draws_of_created hb] at hsame
      have hnat := congrArg BitVec.toNat hsame
      simp only [BitVec.toNat_ofNat] at hnat
      rw [creates] at hlt
      omega
  · intro call
    obtain ⟨reply, s', hrun, hserved⟩ := run_spec hlib hs hr call
    refine ⟨⟨reply, s', hrun⟩, ?_⟩
    intro reply' s'' hrun' hk
    cases hrun.symm.trans hrun'
    exact hserved.frame k hk

def keyG : EntryKey where
  uuid := ['2']
  name := ['g']
  uuid_ne_nil := by decide
  digits := by
    intro c hc
    rw [List.mem_singleton.1 hc]
    rfl
  name_ne_nil := by decide
  colon_notMem := by decide

def createG : Call × Reply := (.create keyG blankAccess blankAccess blankContent, .status 0)

theorem created_createG : Created keyG createG := ⟨blankAccess, blankAccess, blankContent, rfl⟩

theorem run_createG (s : FMStore) : run Library.posix s createG.1 =
    some (createG.2, s.created ['2'] ['g'] blankAccess blankAccess blankContent) := by
  have hr := @create_key Library.posix s ['2'] ['g'] Library.posix_documented keyG.strlen_str
    (by decide) (by decide) blankAccess blankAccess blankContent
  rw [createG, run, EntryKey.str, keyG, hr]

def csizeG (size : Int) : Call × Reply :=
  (.csize keyG { blankContent with size } blankContent, .status 0)

def removeG : Call × Reply := (.remove keyG, .status 0)

def after (s : FMStore) (e : Call × Reply) : FMStore :=
  ((run Library.posix s e.1).map Prod.snd).getD s

def oneG : FMStore := (empty 233).created ['2'] ['g'] blankAccess blankAccess blankContent
def sizedG : FMStore := after oneG (csizeG 5)
def removedG : FMStore := after sizedG removeG
def againG : FMStore := removedG.created ['2'] ['g'] blankAccess blankAccess blankContent

theorem againG_run : (system Library.posix 233).Run
    [createG, csizeG 5, removeG, createG, csizeG 7] (after againG (csizeG 7)) := by
  have h₁ : (system Library.posix 233).Run [createG] oneG :=
    System.Run.snoc (.nil rfl) (run_createG (empty 233))
  have h₂ : (system Library.posix 233).Run [createG, csizeG 5] sizedG := h₁.snoc rfl
  have h₃ : (system Library.posix 233).Run [createG, csizeG 5, removeG] removedG := h₂.snoc rfl
  have h₄ : (system Library.posix 233).Run [createG, csizeG 5, removeG, createG] againG :=
    h₃.snoc (run_createG removedG)
  exact h₄.snoc rfl

theorem content_map_refined_g : ∃ s fc, (system Library.posix 233).Run
      [createG, csizeG 5, removeG, createG, csizeG 7] s ∧
    s.file_content_store keyG.str = some fc ∧ fc.size = 7 := by
  obtain ⟨-, hlast, -⟩ := content_map_refined Library.posix_documented againG_run keyG
  have hsized : ∀ b ∈ [csizeG 7], ¬ Created keyG b ∧ ¬ Removed keyG b := by
    intro b hb
    rw [List.mem_singleton.1 hb]
    constructor
    · rintro ⟨fa, faa, fcc, he⟩
      cases he
    · intro he
      cases congrArg Prod.fst he
  obtain ⟨fc, s₁, hfc, -, -, hsize, -⟩ := hlast [createG, csizeG 5, removeG] createG [csizeG 7] rfl
    created_createG hsized
  exact ⟨_, fc, againG_run, hfc, hsize⟩

theorem createG_run (m : Nat) :
    ∃ s, (system Library.posix 233).Run (List.replicate m createG) s := by
  induction m with
  | zero => exact ⟨empty 233, .nil rfl⟩
  | succ m ih =>
    obtain ⟨s, hs⟩ := ih
    rw [List.replicate_succ']
    exact ⟨_, hs.snoc (run_createG s)⟩

theorem createG_content {m : Nat} {s : FMStore}
    (h : (system Library.posix 233).Run (List.replicate (m + 1) createG) s) :
    ∃ fc, s.file_content_store keyG.str = some fc ∧ fc.suuid = BitVec.ofNat 64 m := by
  have hr := (run_refines Library.posix_documented h).2.content keyG
  have hdrawn : (Registry.replay event (List.replicate m createG)).drawn = m := by
    have hd := @Registry.drawn_replay_append _ _ _ _ event [] (List.replicate m createG)
    simpa [Registry.replay, Registry.empty, createG, event, Registry.draws] using hd
  have hnone : ∀ c ∈ ([] : List (Call × Reply)), ¬ Registry.Created keyG (event c) ∧
    ¬ Registry.Removed keyG (event c) := fun _ hb => absurd hb List.not_mem_nil
  have hcreate : event createG = .create keyG 0 := rfl
  rw [List.replicate_succ', Registry.entry_replay hcreate hnone, hdrawn] at hr
  obtain ⟨fc, hfc, he⟩ := Option.map_eq_some_iff.1 hr
  exact ⟨fc, hfc, (Prod.mk.inj he).1⟩

theorem createG_again (m : Nat) (hm : BitVec.ofNat 64 (m + 1) = 0) :
    ¬ ∀ (w : List (Call × Reply)) (s : FMStore), (system Library.posix 233).Run w s →
      ∀ k v e u fc, w = v ++ e :: u → Created k e → (∀ b ∈ u, ¬ Created k b ∧ ¬ Removed k b) →
        s.file_content_store k.str = some fc →
        ∀ v₁ b u₁ k' s₀, v = v₁ ++ b :: u₁ → Created k' b →
          (system Library.posix 233).Run v₁ s₀ → s₀.suuid_counter ≠ fc.suuid := by
  intro h
  obtain ⟨s, hs⟩ := createG_run (m + 1 + 1)
  obtain ⟨fc, hfc, hsuuid⟩ := createG_content hs
  refine h _ s hs keyG (List.replicate (m + 1) createG) createG [] fc List.replicate_succ'
    created_createG (fun _ hb => absurd hb List.not_mem_nil) hfc [] createG
    (List.replicate m createG) keyG (empty 233) List.replicate_succ created_createG (.nil rfl) ?_
  rw [hsuuid, hm]
  rfl

theorem suuid_drawn_again : ¬ ∀ (w : List (Call × Reply)) (s : FMStore),
    (system Library.posix 233).Run w s →
      ∀ k v e u fc, w = v ++ e :: u → Created k e → (∀ b ∈ u, ¬ Created k b ∧ ¬ Removed k b) →
        s.file_content_store k.str = some fc →
        ∀ v₁ b u₁ k' s₀, v = v₁ ++ b :: u₁ → Created k' b →
          (system Library.posix 233).Run v₁ s₀ → s₀.suuid_counter ≠ fc.suuid :=
  createG_again (2 ^ 64 - 1) (by decide)

end FileMap

end Galois
