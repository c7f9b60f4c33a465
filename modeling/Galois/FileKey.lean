import Galois.FileListing
import Galois.Metadata
import Mathlib.Algebra.Ring.Nat
import Mathlib.Data.List.TakeWhile

namespace Galois
set_option autoImplicit true
set_option relaxedAutoImplicit false

open Prog Client

theorem nul_notMem_to_string (u : BitVec 64) : '\x00' ∉ to_string u := by
  intro h
  have hd := Nat.isDigit_of_mem_toDigits (by decide) (by decide) h
  revert hd
  decide

theorem length_to_string (u : BitVec 64) : (to_string u).length ≤ 20 := by
  have hlt : u.toNat < 10 ^ 20 := by
    have := u.isLt
    omega
  exact (Nat.length_toDigits_le_iff (by decide) (by decide)).2 hlt

theorem requestPath_of_nul {path : Str} (h : '\x00' ∉ path) :
    requestPath path = path.take MAX_PATH_LEN := by
  rw [requestPath, List.takeWhile_eq_self_iff.2]
  intro c hc
  have hne : c ≠ '\x00' := fun he => h (he ▸ hc)
  simpa using hne

namespace LocofsClient

/-- The key of a file as it arrives at the file server. -/
def sentKey (uuid : BitVec 64) (name : Str) : Str := requestPath (key (to_string uuid) name)

/-- The name has no separator in it and is not too long for a request. -/
def Fits (uuid : BitVec 64) (name : Str) : Prop :=
  ':' ∉ name ∧ (to_string uuid).length + 1 + name.length ≤ MAX_PATH_LEN

variable {c : LocofsClient} {lib : Library} {g : Garbage} {clock : Nat → Int}
  {s s' : FileSystem} {u v : BitVec 64} {n m : Name} {path : Str}

theorem sentKey_eq (u : BitVec 64) (n : Name) : sentKey u n.chars =
    key (to_string u) (n.chars.take (MAX_PATH_LEN - (to_string u).length - 1)) := by
  have hnul : '\x00' ∉ key (to_string u) n.chars := by
    intro h
    cases List.mem_append.1 h with
    | inl h => exact nul_notMem_to_string u h
    | inr h =>
      cases h with
      | tail _ h => exact n.nul_notMem h
  have hlen := length_to_string u
  have hrest : MAX_PATH_LEN - (to_string u).length =
      MAX_PATH_LEN - (to_string u).length - 1 + 1 := by
    simp only [MAX_PATH_LEN]
    omega
  rw [sentKey, requestPath_of_nul hnul, key, List.take_append, List.take_of_length_le, hrest,
    List.take_succ_cons]
  · rfl
  · simp only [MAX_PATH_LEN]
    omega

theorem sentKey_of_fits (h : Fits u n.chars) : sentKey u n.chars = key (to_string u) n.chars := by
  rw [sentKey_eq, List.take_of_length_le]
  have := h.2
  omega

theorem tokens_sentKey (hlib : lib.Documented) :
    lib.tokens ':' (sentKey u n.chars) = [to_string u, n.chars] ↔ Fits u n.chars := by
  constructor
  · intro h
    rw [sentKey_eq] at h
    set n' := n.chars.take (MAX_PATH_LEN - (to_string u).length - 1) with hn'
    have hcolon : ':' ∉ n.chars := by
      apply hlib.tokens.sep_notMem (s := key (to_string u) n')
      rw [h]
      exact List.mem_cons_of_mem _ List.mem_cons_self
    have hn : ':' ∉ n' := fun hc => hcolon (List.mem_of_mem_take hc)
    have hpair : lib.tokens ':' (key (to_string u) n') = [to_string u, n'] :=
      hlib.tokens.pair (colon_notMem_to_string u) hn
    rw [hpair] at h
    have he : n' = n.chars := List.singleton_inj.1 (List.cons.inj h).2
    have hlen := congrArg List.length he
    have hle := length_to_string u
    rw [hn', List.length_take] at hlen
    refine ⟨hcolon, ?_⟩
    simp only [MAX_PATH_LEN] at hlen ⊢
    omega
  · intro h
    rw [sentKey_of_fits h]
    exact hlib.tokens.pair (colon_notMem_to_string u) h.1

theorem sentKey_inj (h : Fits u n.chars) (h' : Fits v m.chars)
    (he : sentKey u n.chars = sentKey v m.chars) : u = v ∧ n = m := by
  rw [sentKey_of_fits h, sentKey_of_fits h'] at he
  obtain ⟨hu, hn⟩ := (key_inj (colon_notMem_to_string u) (colon_notMem_to_string v)).1 he
  exact ⟨to_string_inj hu, Name.ext_chars hn⟩

/-- The path as the client sends it. -/
def checkedPath (path : Str) : Str :=
  if path.length ≠ 1 ∧ path.getLast? = some '/' then path.dropLast else path

theorem check_path_of_ne_nil (h : path ≠ []) : check_path path = .ret (checkedPath path) := by
  rw [check_path, if_neg h, checkedPath]
  split <;> rfl

/-- The files other than the one with the key stay as they are, in the stores and in the lists. -/
structure OthersKept (uuid : BitVec 64) (name : Str) (s s' : FMStore) : Prop where
  access : ∀ k, k ≠ sentKey uuid name → s'.file_access_store k = s.file_access_store k
  content : ∀ k, k ≠ sentKey uuid name → s'.file_content_store k = s.file_content_store k
  lists : ∀ v, v ≠ to_string uuid → s'.ec_store.names v = s.ec_store.names v
  list : (s.ec_store.names (to_string uuid)).filter (· ≠ name) <+:
    (s'.ec_store.names (to_string uuid)).filter (· ≠ name)

theorem remove_othersKept (hlib : lib.Documented) {fm fm' : FMStore} {r : Int}
    (hfit : Fits u n.chars) (h : fm.remove lib always (sentKey u n.chars) = some (r, fm')) :
    OthersKept u n.chars fm fm' := by
  simp only [FMStore.remove, KVStore.remove] at h
  cases ha : fm.file_access_store (sentKey u n.chars) with
  | none =>
    simp only [ha, Option.isSome_none, Bool.false_eq_true, and_false, ↓reduceIte] at h
    cases h
    exact ⟨fun k _ => rfl, fun k _ => rfl, fun v _ => rfl, List.prefix_refl _⟩
  | some fa =>
    simp only [ha, always, Option.isSome_some, and_self, ↓reduceIte] at h
    cases hc : fm.file_content_store (sentKey u n.chars) with
    | none =>
      simp only [hc, Option.isSome_none, Bool.false_eq_true, and_false, ↓reduceIte] at h
      cases h
      exact ⟨fun k hk => Function.update_of_ne hk _ _, fun k _ => rfl, fun v _ => rfl,
        List.prefix_refl _⟩
    | some fc =>
      simp only [hc, Option.isSome_some, and_self, ↓reduceIte, (tokens_sentKey hlib).2 hfit] at h
      obtain ⟨ec, hec, he⟩ := Option.map_eq_some_iff.1 h
      cases he
      obtain ⟨hlists, hlist⟩ := EntryList.remove_entry_others hec
      exact ⟨fun k hk => Function.update_of_ne hk _ _, fun k hk => Function.update_of_ne hk _ _,
        hlists, hlist⟩

theorem create_othersKept (hlib : lib.Documented) (fm : FMStore) (hfit : Fits u n.chars)
    (fa faa : FileAccessInode) (fcc : FileContentInode) : ∃ fm',
      fm.create lib always (sentKey u n.chars) fa faa fcc = (0, fm') ∧
      fm'.ec_store.names (to_string u) = fm.ec_store.names (to_string u) ++ [n.chars] ∧
      OthersKept u n.chars fm fm' := by
  rw [sentKey_of_fits hfit, FMStore.create_key hlib (strlen_key u n.chars)
    (colon_notMem_to_string u) hfit.1]
  have hnames : (fm.created (to_string u) n.chars fa faa fcc).ec_store.names (to_string u) =
      fm.ec_store.names (to_string u) ++ [n.chars] :=
    EntryList.names_insert_entry.trans (if_pos rfl)
  refine ⟨_, rfl, hnames, ?_⟩
  constructor
  case access =>
    intro k hk
    rw [sentKey_of_fits hfit] at hk
    exact Function.update_of_ne hk _ _
  case content =>
    intro k hk
    rw [sentKey_of_fits hfit] at hk
    exact Function.update_of_ne hk _ _
  case lists =>
    intro v hv
    exact EntryList.names_insert_entry.trans (if_neg hv)
  case list =>
    rw [hnames, List.filter_append]
    exact List.prefix_append _ _

theorem create_wp (hlib : c.lib.Documented) (hne : path ≠ [])
    (hu : s.uuidOf c.lib (c.lib.parent_path (checkedPath path)) = some u)
    (hn : c.lib.filename (checkedPath path) = n.chars) (hfit : Fits u n.chars) :
    Wp (FileSystem.handle g c.lib clock) (c.create path) s fun b s' => b = true ∧
      s'.fm.ec_store.names (to_string u) = s.fm.ec_store.names (to_string u) ++ [n.chars] ∧
      OthersKept u n.chars s.fm s'.fm := by
  rw [create, check_path_of_ne_nil hne, ret_bind]
  apply Wp.bind
  apply (get_file_key_wp hu).mono
  rintro _ s₁ ⟨rfl, -, hfm, -⟩
  obtain ⟨fm, hcreate, hnames, hothers⟩ := create_othersKept hlib s.fm hfit
    { g.fi.fa with mode := g.fi.fa.mode, uid := 0o777, gid := 0o777 } g.fi.fa g.fc
  have hop : FileSystem.handle g c.lib clock (.create none (sentKey u n.chars)) s₁ =
      some ((0 : Int), { s₁ with fm }) := by
    simp only [FileSystem.handle, fmHandleCreate, Option.getD_none, hfm, hcreate]
    rfl
  rw [hn]
  exact Wp.call hop (Wp.ret ⟨rfl, hnames, hothers⟩)

theorem unlink_othersKept (hlib : c.lib.Documented) {b : Bool}
    (hu : s.uuidOf c.lib (c.lib.parent_path path) = some u)
    (hn : c.lib.filename path = n.chars) (hfit : Fits u n.chars)
    (h : (c.unlink path).run (FileSystem.handle g c.lib clock) s = some (b, s')) :
    OthersKept u n.chars s.fm s'.fm := by
  obtain ⟨_, s₁, hkey, rfl, -, hfm, -⟩ := @get_file_key_wp c g clock s path u hu
  rw [unlink, run_bind, hkey, Option.bind_some, hn] at h
  obtain ⟨⟨r, s₂⟩, hop, hret⟩ := Option.bind_eq_some_iff.1 h
  obtain ⟨⟨r, fm⟩, hremove, he⟩ := Option.map_eq_some_iff.1 hop
  cases he
  cases hret
  rw [← hfm]
  exact remove_othersKept hlib hfit hremove

/-- A key is read back as it was built exactly if the name fits, and then the file server keeps
the files apart. -/
theorem file_key_exact (hlib : c.lib.Documented) :
    (∀ (u : BitVec 64) (n : Name),
      c.lib.tokens ':' (sentKey u n.chars) = [to_string u, n.chars] ↔ Fits u n.chars) ∧
    (∀ (u v : BitVec 64) (n m : Name), Fits u n.chars → Fits v m.chars →
      sentKey u n.chars = sentKey v m.chars → u = v ∧ n = m) ∧
    (∀ (g : Garbage) (clock : Nat → Int) (s : FileSystem) (path : Str) (u : BitVec 64) (n : Name),
      path ≠ [] → s.uuidOf c.lib (c.lib.parent_path (checkedPath path)) = some u →
      c.lib.filename (checkedPath path) = n.chars → Fits u n.chars →
      ∃ s', (c.create path).run (FileSystem.handle g c.lib clock) s = some (true, s') ∧
        s'.fm.ec_store.names (to_string u) = s.fm.ec_store.names (to_string u) ++ [n.chars] ∧
        OthersKept u n.chars s.fm s'.fm) ∧
    ∀ (g : Garbage) (clock : Nat → Int) (s s' : FileSystem) (path : Str) (b : Bool)
      (u : BitVec 64) (n : Name), s.uuidOf c.lib (c.lib.parent_path path) = some u →
      c.lib.filename path = n.chars → Fits u n.chars →
      (c.unlink path).run (FileSystem.handle g c.lib clock) s = some (b, s') →
      OthersKept u n.chars s.fm s'.fm := by
  refine ⟨fun u n => tokens_sentKey hlib, fun u v n m => sentKey_inj, ?_, ?_⟩
  · intro g clock s path u n hne hu hn hfit
    obtain ⟨b, s', hr, rfl, hs⟩ := @create_wp c g clock s u n path hlib hne hu hn hfit
    exact ⟨s', hr, hs⟩
  · intro g clock s s' path b u n hu hn hfit hr
    exact unlink_othersKept hlib hu hn hfit hr

section Examples

/-- `create` of `/a/c` beside the file `/a/b`. -/
theorem file_key_exact_c : ∃ s',
    (exampleClient.create (Path.str [DMServer.nameA, DMServer.nameC])).run
      (FileSystem.handle exampleGarbage Library.posix fun _ => 0) exampleSystem = some (true, s') ∧
    s'.fm.ec_store.names ['2'] = [['b'], ['c']] := by
  obtain ⟨-, -, hcreate, -⟩ := @file_key_exact exampleClient Library.posix_documented
  obtain ⟨s', hr, hnames, -⟩ := hcreate exampleGarbage (fun _ => 0) exampleSystem
    (Path.str [DMServer.nameA, DMServer.nameC]) 2 DMServer.nameC (by decide) (by decide)
    (by decide) ⟨by decide, by decide⟩
  exact ⟨s', hr, hnames⟩

def nameColon : Name := ⟨['a', ':', 'b'], by decide, by decide, by decide⟩

theorem colon_splits : ¬ ∀ (lib : Library), lib.Documented → ∀ (u : BitVec 64) (n : Name),
    lib.tokens ':' (sentKey u n.chars) = [to_string u, n.chars] := by
  intro h
  have hfit := (tokens_sentKey Library.posix_documented).1
    (h Library.posix Library.posix_documented 2 nameColon)
  exact hfit.1 (by decide)

end Examples

end LocofsClient

end Galois
