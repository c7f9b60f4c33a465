import Galois.FileMap

namespace Galois
set_option autoImplicit true
set_option relaxedAutoImplicit false

namespace FMStore

variable {lib : Library} {s s' s'' : FMStore} {k : EntryKey}

/-- A key has both of its inodes or neither. -/
def Paired (s : FMStore) : Prop :=
  ∀ k : EntryKey, (s.file_access_store k.str).isSome = (s.file_content_store k.str).isSome

structure KeysKept (s s' : FMStore) : Prop where
  access : ∀ Key, (s'.file_access_store Key).isSome = (s.file_access_store Key).isSome
  content : ∀ Key, (s'.file_content_store Key).isSome = (s.file_content_store Key).isSome

theorem KeysKept.refl (s : FMStore) : KeysKept s s := ⟨fun _ => rfl, fun _ => rfl⟩

theorem KeysKept.trans (h : KeysKept s s') (h' : KeysKept s' s'') : KeysKept s s'' where
  access Key := (h'.access Key).trans (h.access Key)
  content Key := (h'.content Key).trans (h.content Key)

theorem Paired.keysKept (h : s.Paired) (hs : KeysKept s s') : s'.Paired := by
  intro k
  rw [hs.access, hs.content]
  exact h k

theorem isSome_update_some {kv : KVStore β} {Key : Str} (h : (kv Key).isSome) (v : β)
    (Key' : Str) : (Function.update kv Key (some v) Key').isSome = (kv Key').isSome := by
  rw [Function.update_apply]
  split
  · next he => rw [he, h]; rfl
  · rfl

theorem isSome_of_getAccessValue {Key : Str} {fa fa' : FileAccessInode}
    (h : s.getAccessValue Key fa = some fa') : (s.file_access_store Key).isSome := by
  obtain ⟨stored, hs, -⟩ := Option.map_eq_some_iff.1 h
  exact Option.isSome_of_eq_some hs

theorem isSome_of_getContentValue {Key : Str} {fc fc' : FileContentInode}
    (h : s.getContentValue Key fc = some fc') : (s.file_content_store Key).isSome := by
  obtain ⟨stored, hs, -⟩ := Option.map_eq_some_iff.1 h
  exact Option.isSome_of_eq_some hs

theorem setAccessValue_keys {Key : Str} (h : (s.file_access_store Key).isSome)
    (fa : FileAccessInode) (i : Nat) :
    ∃ s', s.setAccessValue (always i) Key fa = some s' ∧ KeysKept s s' :=
  ⟨_, rfl, isSome_update_some h _, fun _ => rfl⟩

theorem setContentValue_keys {Key : Str} (h : (s.file_content_store Key).isSome)
    (fc : FileContentInode) (i : Nat) :
    ∃ s', s.setContentValue (always i) Key fc = some s' ∧ KeysKept s s' :=
  ⟨_, rfl, fun _ => rfl, isSome_update_some h _⟩

theorem csize_keys (Key : Str) (fc fcc : FileContentInode) :
    KeysKept s (s.csize always Key fc fcc).2 := by
  simp only [csize]
  cases hget : s.getContentValue Key fcc with
  | none => exact .refl s
  | some fcc =>
    obtain ⟨s', hset, hs⟩ := setContentValue_keys (isSome_of_getContentValue hget)
      { fcc with size := fc.size } 0
    simp only [hset]
    exact hs

theorem utimens_keys (Key : Str) (fcc : FileContentInode) :
    KeysKept s (s.utimens always Key fcc).2 := by
  simp only [utimens]
  cases hget : s.getContentValue Key fcc with
  | none => exact .refl s
  | some fcc =>
    obtain ⟨s', hset, hs⟩ := setContentValue_keys (isSome_of_getContentValue hget) fcc 0
    simp only [hset]
    exact hs

theorem getContent_keys (_return : FileContentInode) (Key : Str) :
    KeysKept s (s.getContent always _return Key).2 := by
  simp only [getContent]
  cases hget : s.getContentValue Key _return with
  | none => exact .refl s
  | some fc =>
    obtain ⟨s', hset, hs⟩ := setContentValue_keys (isSome_of_getContentValue hget) fc 0
    simp only [hset, Option.getD_some]
    exact hs

theorem getAttr_keys (_return : FileInode) (Key : Str) :
    KeysKept s (s.getAttr always _return Key).2 := by
  cases ha : s.getAccessValue Key _return.fa with
  | none =>
    have hget : (s.getValue Key _return).1 = -1 := by simp only [getValue, ha]
    simp only [getAttr, hget]
    exact .refl s
  | some fa =>
    cases hc : s.getContentValue Key _return.fc with
    | none =>
      have hget : (s.getValue Key _return).1 = -1 := by simp only [getValue, ha, hc]
      simp only [getAttr, hget]
      exact .refl s
    | some fc =>
      have hget : s.getValue Key _return = (0, { _return with fa, fc }) := by
        simp only [getValue, ha, hc]
      obtain ⟨s₁, hset₁, hs₁⟩ := setAccessValue_keys (isSome_of_getAccessValue ha) fa 0
      have hcontent : (s₁.file_content_store Key).isSome := by
        rw [hs₁.content]
        exact isSome_of_getContentValue hc
      obtain ⟨s₂, hset₂, hs₂⟩ := setContentValue_keys hcontent fc 1
      simp only [getAttr, hget, setValue, hset₁, hset₂]
      exact hs₁.trans hs₂

theorem Paired.created (h : s.Paired) (fa faa : FileAccessInode) (fcc : FileContentInode) :
    (s.created k.uuid k.name fa faa fcc).Paired := by
  intro k'
  simp only [FMStore.created, Function.update_apply]
  split
  · rfl
  · exact h k'

theorem Paired.removed (h : s.Paired) (ec_store : EntryList) :
    (s.removed k.uuid k.name ec_store).Paired := by
  intro k'
  simp only [FMStore.removed, Function.update_apply]
  split
  · rfl
  · exact h k'

theorem Paired.remove (hlib : lib.Documented) (hkept : s.Kept) (h : s.Paired) (k : EntryKey) :
    ∃ value s', s.remove lib always k.str = some (value, s') ∧ s'.Paired := by
  cases hc : s.file_content_store k.str with
  | some fc =>
    have hcs : (s.file_content_store k.str).isSome := Option.isSome_of_eq_some hc
    obtain ⟨ec_store, hec⟩ :=
      EntryList.remove_entry_of_mem (hlib.leftover _ _) (hkept.listed k hcs)
    have hr := remove_key hlib k.colon_notMem_uuid k.colon_notMem (hkept.access k hcs) hcs
    rw [hec] at hr
    exact ⟨0, _, hr, h.removed ec_store⟩
  | none =>
    have ha : s.file_access_store k.str = none := by
      have hk := h k
      rw [hc] at hk
      exact Option.isNone_iff_eq_none.1 (Option.isSome_eq_false_iff.1 hk)
    exact ⟨-1, s, remove_of_none ha, h⟩

end FMStore

namespace FileMap

open FMStore
open FMServer (blankAccess blankContent)

variable {lib : Library} {sid : BitVec 64} {s s' : FMStore} {w : List (Call × Reply)}

def Call.owned : Call → Option EntryKey
  | .chown k _ _ => some k
  | .chmod k _ _ => some k
  | _ => none

/-- A `chown` or a `chmod` is of a key that has an access inode. -/
def OfPresent (s : FMStore) (call : Call) : Prop :=
  ∀ k, call.owned = some k → (s.file_access_store k.str).isSome

/-- The call returns with the inodes in pairs; as a `chown` or a `chmod` of an absent key it
returns a non-zero result and changes neither store. -/
def KeepsPairs (lib : Library) (s : FMStore) (call : Call) : Prop :=
  ∃ reply s', run lib s call = some (reply, s') ∧ s'.Paired ∧
    ∀ k, call.owned = some k → s.file_access_store k.str = none →
      (∃ value, reply = .status value ∧ value ≠ 0) ∧
      s'.file_access_store = s.file_access_store ∧ s'.file_content_store = s.file_content_store

theorem keepsPairs_of_not_owned {call : Call} {reply : Reply}
    (hrun : run lib s call = some (reply, s')) (h : s'.Paired) (ho : call.owned = none) :
    KeepsPairs lib s call := by
  refine ⟨reply, s', hrun, h, ?_⟩
  intro k hk
  rw [ho] at hk
  cases hk

theorem keepsPairs_of_present {call : Call} {reply : Reply} {k : EntryKey}
    (hrun : run lib s call = some (reply, s')) (h : s'.Paired) (ho : call.owned = some k)
    (hk : (s.file_access_store k.str).isSome) : KeepsPairs lib s call := by
  refine ⟨reply, s', hrun, h, ?_⟩
  intro k' hk' hnone
  cases ho.symm.trans hk'
  rw [hnone] at hk
  cases hk

/-- Nothing but a `chown` or a `chmod` of an absent key breaks a pair. -/
theorem keepsPairs_of_ofPresent (hlib : lib.Documented) (hkept : s.Kept) (h : s.Paired)
    {call : Call} (hc : OfPresent s call) : KeepsPairs lib s call := by
  cases call with
  | create k fa faa fcc =>
    have hr := @create_key lib s k.uuid k.name hlib k.strlen_str k.colon_notMem_uuid
      k.colon_notMem fa faa fcc
    exact keepsPairs_of_not_owned (by rw [run, EntryKey.str, hr]) (h.created fa faa fcc) rfl
  | access k faa => exact keepsPairs_of_not_owned rfl h rfl
  | chown k fa faa =>
    have hk := hc k rfl
    obtain ⟨s', hset, hs⟩ := setAccessValue_keys hk { (s.getAccessValue k.str faa).getD faa with
      uid := fa.uid, gid := fa.gid } 0
    have hrun : run lib s (.chown k fa faa) = some (.status 0, s') := by
      simp only [run, chown, hset, Option.getD_some]
    exact keepsPairs_of_present hrun (h.keysKept hs) rfl hk
  | chmod k fa faa =>
    have hk := hc k rfl
    obtain ⟨s', hset, hs⟩ := setAccessValue_keys hk { (s.getAccessValue k.str faa).getD faa with
      mode := fa.mode } 0
    have hrun : run lib s (.chmod k fa faa) = some (.status 0, s') := by
      simp only [run, chmod, hset, Option.getD_some]
    exact keepsPairs_of_present hrun (h.keysKept hs) rfl hk
  | remove k =>
    obtain ⟨value, s', hr, hs⟩ := h.remove hlib hkept k
    exact keepsPairs_of_not_owned (by rw [run, hr]; rfl) hs rfl
  | csize k fc fcc => exact keepsPairs_of_not_owned rfl (h.keysKept (csize_keys ..)) rfl
  | getAttr k _return => exact keepsPairs_of_not_owned rfl (h.keysKept (getAttr_keys ..)) rfl
  | getContent k _return =>
    exact keepsPairs_of_not_owned rfl (h.keysKept (getContent_keys ..)) rfl
  | getAccess k _return => exact keepsPairs_of_not_owned rfl h rfl
  | open_ k fa _return => exact keepsPairs_of_not_owned rfl h rfl
  | utimens k fcc => exact keepsPairs_of_not_owned rfl (h.keysKept (utimens_keys ..)) rfl
  | readdir uuid => exact keepsPairs_of_not_owned rfl h rfl

theorem status_of_owned {call : Call} {k : EntryKey} (h : call.owned = some k) {reply : Reply}
    (hrun : run lib s call = some (reply, s')) : reply = .status 0 := by
  cases call with
  | chown k fa faa => cases hrun; rfl
  | chmod k fa faa => cases hrun; rfl
  | _ => cases h

theorem keepsPairs_iff (hlib : lib.Documented) (hkept : s.Kept) (h : s.Paired) (call : Call) :
    KeepsPairs lib s call ↔ OfPresent s call := by
  constructor
  · rintro ⟨reply, s', hrun, -, hrefused⟩ k hk
    by_contra hnone
    obtain ⟨⟨value, hvalue, hne⟩, -⟩ := hrefused k hk (Option.not_isSome_iff_eq_none.1 hnone)
    cases hvalue.symm.trans (status_of_owned hk hrun)
    exact hne rfl
  · exact keepsPairs_of_ofPresent hlib hkept h

/-- As long as no key without an access inode is given an owner or a mode, the inodes come in
pairs; and only such a call can end that. -/
theorem inodes_paired_iff (hlib : lib.Documented)
    (h : ((system lib sid).restrict fun s e _ => OfPresent s e.1).Run w s) :
    s.Paired ∧ ∀ call, KeepsPairs lib s call ↔ OfPresent s call := by
  have hpaired : s.Paired := by
    apply h.history (I := fun _ s => s.Paired)
    · rintro s rfl k
      rfl
    · rintro w s e s' hrun hpaired ⟨hstep, hc⟩
      have hkept := (run_refines hlib hrun.of_restrict).1
      obtain ⟨reply, s'', hs, hpaired', -⟩ := keepsPairs_of_ofPresent hlib hkept hpaired hc
      cases hstep.symm.trans hs
      exact hpaired'
  exact ⟨hpaired, keepsPairs_iff hlib (run_refines hlib h.of_restrict).1 hpaired⟩

def chmodG : Call × Reply := (.chmod keyG blankAccess blankAccess, .status 0)

theorem inodes_paired_iff_g :
    ((empty 233).created ['2'] ['g'] blankAccess blankAccess blankContent).Paired ∧
      KeepsPairs Library.posix ((empty 233).created ['2'] ['g'] blankAccess blankAccess
        blankContent) chmodG.1 := by
  have hcreate : OfPresent (empty 233) createG.1 := by
    intro k hk
    cases hk
  have hrun := System.Run.snoc (M := (system Library.posix 233).restrict fun s e _ =>
    OfPresent s e.1) (.nil rfl) ⟨run_createG (empty 233), hcreate⟩
  obtain ⟨hpaired, hiff⟩ := inodes_paired_iff Library.posix_documented hrun
  refine ⟨hpaired, (hiff chmodG.1).2 ?_⟩
  intro k hk
  cases hk
  rfl

/-- A `chmod` of a key that was never created returns 0 and stores what its uninitialised inode
holds, so that the key has an access inode and no content inode. -/
theorem chmod_unpaired : ¬ (∀ (w : List (Call × Reply)) (s : FMStore),
      (system Library.posix 233).Run w s → s.Paired) ∧
    ¬ KeepsPairs Library.posix (empty 233) chmodG.1 := by
  constructor
  · intro h
    have hrun : (system Library.posix 233).Run [chmodG]
        ((empty 233).chmod always keyG.str blankAccess blankAccess).2 := .snoc (.nil rfl) rfl
    have hpaired := h _ _ hrun keyG
    simp [chmod, setAccessValue, getAccessValue, KVStore.getValue, empty, always] at hpaired
  · rintro ⟨reply, s', hrun, -, hrefused⟩
    obtain ⟨⟨value, hvalue, hne⟩, -⟩ := hrefused keyG rfl rfl
    have howned : chmodG.1.owned = some keyG := rfl
    cases hvalue.symm.trans (status_of_owned howned hrun)
    exact hne rfl

end FileMap

end Galois
