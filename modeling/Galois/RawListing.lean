import Galois.FileMap
import Galois.Readdir

namespace Galois
set_option autoImplicit true
set_option relaxedAutoImplicit false

open LocofsClient

/-- The characters of a listing that `strncpy` copies into the buffer. -/
def stored (listing : Str) : Str := (listing.takeWhile (· ≠ '\x00')).take RAW_SIZE

variable {listing : Str} {len : Int}

theorem length_stored (listing : Str) :
    (stored listing).length = min RAW_SIZE (FMStore.strlen listing) := List.length_take

theorem rawBuffer_eq (listing : Str) : rawBuffer listing =
    stored listing ++ List.replicate (RAW_SIZE + 1 - (stored listing).length) '\x00' := rfl

theorem strlen_eq_length : FMStore.strlen listing = listing.length ↔ '\x00' ∉ listing := by
  constructor
  · intro h hc
    have he := (List.takeWhile_prefix (fun c => decide (c ≠ '\x00'))).eq_of_length h
    rw [List.takeWhile_eq_self_iff] at he
    simpa using he '\x00' hc
  · intro h
    have he : listing.takeWhile (· ≠ '\x00') = listing := by
      rw [List.takeWhile_eq_self_iff]
      intro c hc
      exact decide_eq_true fun hn => h (hn ▸ hc)
    rw [FMStore.strlen, he]

theorem strlen_le (listing : Str) : FMStore.strlen listing ≤ listing.length :=
  (List.takeWhile_prefix _).length_le

/-- The response's length is the number of characters that are stored of the listing, and the
client reads just these. -/
structure RawResponse.Carries (response : RawResponse) (listing : Str) : Prop where
  len : response.len = (stored listing).length
  bound : response.len ≤ RAW_SIZE
  read : rawString response = .ret (stored listing)

theorem carries_iff :
    RawResponse.Carries ⟨len, rawBuffer listing⟩ listing ↔ len = (stored listing).length := by
  constructor
  · intro h
    exact h.len
  · rintro rfl
    have hbound : (stored listing).length ≤ RAW_SIZE := List.length_take_le _ _
    refine ⟨rfl, Int.ofNat_le.2 hbound, ?_⟩
    have hin : RawResponse.InBounds ⟨(stored listing).length, rawBuffer listing⟩ := by
      simp only [RawResponse.InBounds, length_rawBuffer]
      omega
    rw [rawString_of_inBounds hin]
    simp only [rawBuffer_eq, Int.toNat_natCast, List.take_left]

/-- The listing has a place in the buffer as a string. -/
def Fits (listing : Str) : Prop := listing.length ≤ RAW_SIZE ∧ '\x00' ∉ listing

/-- The listing is so long that the `int` starts over, and comes to what is stored. -/
def Wraps (listing : Str) : Prop :=
  2 ^ 32 ≤ listing.length ∧ listing.length % 2 ^ 32 = min RAW_SIZE (FMStore.strlen listing)

theorem intLength_eq_iff {n : Nat} (hn : n ≤ RAW_SIZE) :
    intLength listing = n ↔ listing.length % 2 ^ 32 = n := by
  have hsize : RAW_SIZE < 2 ^ 31 := by decide
  rw [intLength, BitVec.toInt_ofNat', Int.bmod_def]
  split <;> omega

theorem intLength_stored :
    intLength listing = (stored listing).length ↔ Fits listing ∨ Wraps listing := by
  have hbound : (stored listing).length ≤ RAW_SIZE := List.length_take_le _ _
  have hlen := strlen_le listing
  rw [intLength_eq_iff hbound, length_stored, Fits, Wraps, ← strlen_eq_length]
  by_cases hlt : listing.length < 2 ^ 32
  · rw [Nat.mod_eq_of_lt hlt]
    omega
  · have hsize : RAW_SIZE < 2 ^ 32 := by decide
    omega

/-- The file server sends a listing rightly if it fits; the directory server never sets the length,
which is right only if the buffer happens to hold it. -/
theorem listing_carried_iff (g : Garbage) (lib : Library) (dm : DMStore) (path : Str)
    (fm : FMStore) (value : BitVec 64) :
    ((dmHandleReaddir g lib dm path).Carries (dm.readdir lib path) ↔
      g.len = min RAW_SIZE (FMStore.strlen (dm.readdir lib path))) ∧
    ((fmHandleReaddir lib fm value).Carries (fm.readdir lib value.toInt) ↔
      Fits (fm.readdir lib value.toInt) ∨ Wraps (fm.readdir lib value.toInt)) := by
  constructor
  · rw [dmHandleReaddir, carries_iff, length_stored]
  · rw [fmHandleReaddir, carries_iff, intLength_stored]

section Examples

open FileMap

theorem createG_names (m : Nat) : ∃ s, (system Library.posix 233).Run (List.replicate m createG) s ∧
    s.ec_store.names ['2'] = List.replicate m ['g'] := by
  induction m with
  | zero => exact ⟨FMStore.empty 233, .nil rfl, rfl⟩
  | succ m ih =>
    obtain ⟨s, hs, hnames⟩ := ih
    refine ⟨_, List.replicate_succ' ▸ hs.snoc (run_createG s), ?_⟩
    rw [FMStore.created, EntryList.names_insert_entry, if_pos rfl, hnames,
      ← List.replicate_succ']

theorem length_listing {s : FMStore} {m : Nat} (hm : 0 < m)
    (h : s.ec_store.names ['2'] = List.replicate m ['g']) :
    (s.readdir Library.posix 2).length + 1 = m * 2 := by
  have hne : List.replicate m ['g'] ≠ [] := by simpa using hm.ne'
  have hlisting : s.readdir Library.posix 2 = ['\t'].intercalate (List.replicate m ['g']) := by
    rw [← h]
    exact EntryList.readdir_eq (fun _ _ => rfl) s.ec_store ['2']
  rw [hlisting, Splitter.length_intercalate hne, Splitter.weight, List.map_replicate,
    List.sum_replicate_nat]
  rfl

/-- The length left in the response is 0, as `readdir` of the directory server leaves it; and 2046
names of one character come to 4091 with the tabs between them. -/
theorem listing_overruns :
    ¬ (dmHandleReaddir exampleGarbage Library.posix DMServer.nested pathA).Carries
      (DMServer.nested.readdir Library.posix pathA) ∧
    ∃ s, (system Library.posix 233).Run (List.replicate 2046 createG) s ∧
      (fmHandleReaddir Library.posix s 2).len = 4091 ∧
      ¬ (fmHandleReaddir Library.posix s 2).Carries (s.readdir Library.posix 2) := by
  constructor
  · intro h
    exact absurd h.len (by decide)
  · obtain ⟨s, hs, hnames⟩ := createG_names 2046
    have hlisting : (s.readdir Library.posix 2).length = 4091 := by
      have hlength := length_listing (by decide) hnames
      omega
    have hlen : (fmHandleReaddir Library.posix s 2).len = 4091 := by
      change (BitVec.ofNat 32 (s.readdir Library.posix 2).length).toInt = 4091
      rw [hlisting]
      decide
    refine ⟨s, hs, hlen, fun h => ?_⟩
    have hbound := h.bound
    rw [hlen] at hbound
    exact absurd hbound (by decide)

end Examples

end Galois
