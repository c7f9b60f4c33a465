import Galois.Code.XorShift
import Galois.ReadAfterWrite

namespace Galois
set_option autoImplicit true
set_option relaxedAutoImplicit false

open Prog Client

abbrev hashFactor : BitVec 64 := 2654435761

/-- A block number as `hashObj` receives it. -/
def blkid (block_num : Int) : BitVec 64 := (BitVec.ofInt 32 block_num).signExtend 64

theorem hashObj_eq (st : LocoFileStat) (block_num : Int) : hashObj st block_num =
    xorshift (xorshift (xorshift (0#64 ^^^ st.sid * hashFactor) 32 ^^^ st.suuid * hashFactor) 27 ^^^
      blkid block_num * hashFactor) 37 := rfl

theorem hashFactor_inv : hashFactor * 14962265741255716689 = 1#64 := by decide

/-- Only the last round depends on the block, and its shift leaves 37 bits alone. -/
theorem setWidth_hashObj_high (st : LocoFileStat) (block_num : Int) (hk : k ≤ 37) :
    (hashObj st block_num).setWidth k =
      (xorshift (xorshift (0#64 ^^^ st.sid * hashFactor) 32 ^^^
        st.suuid * hashFactor) 27).setWidth k ^^^ (blkid block_num * hashFactor).setWidth k := by
  rw [hashObj_eq, setWidth_xorshift _ hk (by decide), BitVec.setWidth_xor]

theorem setWidth_hashObj (st : LocoFileStat) (block_num : Int) (hk : k ≤ 27) :
    (hashObj st block_num).setWidth k = (st.sid * hashFactor).setWidth k ^^^
      (st.suuid * hashFactor ^^^ blkid block_num * hashFactor).setWidth k := by
  rw [setWidth_hashObj_high _ _ (by omega), setWidth_xorshift _ hk (by decide), BitVec.setWidth_xor,
    setWidth_xorshift _ (by omega) (by decide), BitVec.zero_xor, BitVec.setWidth_xor,
    BitVec.xor_assoc]

theorem setWidth_blkid (hk : k ≤ 31) (b : Nat) : (blkid b).setWidth k = BitVec.ofNat k b := by
  apply BitVec.eq_of_getLsbD_eq
  intro i hi
  have h32 : i < 32 := by omega
  have h64 : i < 64 := by omega
  rw [blkid, BitVec.ofInt_natCast, BitVec.getLsbD_setWidth, BitVec.getLsbD_signExtend,
    BitVec.getLsbD_ofNat, BitVec.getLsbD_ofNat]
  simp only [hi, h32, h64, decide_true, Bool.true_and, ↓reduceIte]

theorem hashObj_suuid_inj {f f' : File} (hsid : f.sid = f'.sid) {block_num : Int}
    (h : hashObj f.stat block_num = hashObj f'.stat block_num) : f.suuid = f'.suuid := by
  rw [hashObj_eq, hashObj_eq] at h
  have hblk := (BitVec.xor_left_inj _).1 (xorshift_inj (by decide) h)
  have hsu := xorshift_inj (by decide) hblk
  rw [show f.stat.sid = f'.stat.sid from hsid] at hsu
  exact mul_right_cancel_of_inv hashFactor_inv ((BitVec.xor_right_inj _).1 hsu)

namespace LocofsClient

variable {c : LocofsClient} {g : Garbage} {clock : Nat → Int} {s s' : FileSystem} {f f₁ f₂ : File}
  {size : Int}

theorem blkno_eq_iff (hcap : c.capacity.toNat = 2 ^ k) {st st' : LocoFileStat} {b b' : Int} :
    c.blkno st b = c.blkno st' b' ↔
      (hashObj st b).setWidth k = (hashObj st' b').setWidth k :=
  toNat_umod_eq_iff hcap

/-- What `read` returns of a file with the given bytes; without it, `read` is undefined. -/
def readOutcome (size : Int) (byte : Int → Byte) (buf : Buffer) (len off : Int) :
    Option (Int × Buffer) :=
  let len := if size < len then size else len
  if -2 ^ 63 ≤ off + len ∧ off + len < 2 ^ 63 then
    if off + len > size then some (-1, buf)
    else some (max len 0, fun i => if 0 ≤ i ∧ i < len then byte (off + i) else buf i)
  else none

theorem read_outcome {path : Str} (h : s.HasFile c.lib path f size) (buf : Buffer) {len off : Int}
    (hoff : 0 ≤ off) :
    ((c.read path buf len off).run (FileSystem.handle g c.lib clock) s).map Prod.fst =
      readOutcome size (c.fileByte f.stat s.pages) buf len off := by
  obtain ⟨_, s₁, hstat, st, rfl, hsuuid, hsid, hblock, hsize, -, hpages, -⟩ :=
    @get_file_stat_wp c g clock s f size path h
  rw [read, run_bind, hstat, Option.bind_some]
  simp only [hsize, readOutcome, run_bind]
  have hle : (if size < len then size else len) ≤ size := by
    split <;> omega
  generalize (if size < len then size else len) = n at hle ⊢
  by_cases hfit : -2 ^ 63 ≤ off + n ∧ off + n < 2 ^ 63
  · rw [add64, if_pos hfit, if_pos hfit]
    simp only [pure_eq, run_ret, Option.bind_some]
    split
    · rfl
    · by_cases hn : 0 ≤ n
      · obtain ⟨out, hrun, hout⟩ := @readLoop_spec c g c.lib clock s₁ st hblock buf n.toNat 0 n off
          hoff hn (by omega) hfit.2
        rw [hrun, Option.map_some, Int.zero_add, max_eq_left hn]
        have hbytes : out = fun i => if 0 ≤ i ∧ i < n then c.fileByte f.stat s.pages (off + i)
            else buf i := by
          funext i
          simp only [hout i, Int.zero_add, Int.sub_zero, fileByte, blkno_stat hsuuid hsid, hpages]
        rw [hbytes]
      · have hfuel : n.toNat = 0 := by omega
        rw [hfuel, readLoop, if_neg (by omega), max_eq_right (by omega)]
        have hbytes : buf = fun i => if 0 ≤ i ∧ i < n then c.fileByte f.stat s.pages (off + i)
            else buf i := by
          funext i
          rw [if_neg (by omega)]
        rw [← hbytes]
        rfl
  · rw [add64, if_neg hfit, if_neg hfit]
    rfl

theorem readOutcome_congr {byte byte' : Int → Byte} {off : Int} (hoff : 0 ≤ off)
    (h : ∀ x, 0 ≤ x → x < size → byte x = byte' x) (buf : Buffer) (len : Int) :
    readOutcome size byte buf len off = readOutcome size byte' buf len off := by
  simp only [readOutcome]
  generalize (if size < len then size else len) = n
  split
  · split
    · rfl
    · have hbytes : (fun i => if 0 ≤ i ∧ i < n then byte (off + i) else buf i) =
          fun i => if 0 ≤ i ∧ i < n then byte' (off + i) else buf i := by
        funext i
        split
        · exact h _ (by omega) (by omega)
        · rfl
      rw [hbytes]
  · rfl

theorem uuidOf_alike {cache : LruCache Str (BitVec 64)} (h : s.dm.Alike s'.dm) (lib : Library)
    (path : Str) :
    { s' with cache }.uuidOf lib path = { s with cache }.uuidOf lib path := by
  simp only [FileSystem.uuidOf]
  rw [h.inodeAt lib]

theorem hasFile_untouched {cache : LruCache Str (BitVec 64)} {path : Str}
    (h : s.Untouched f₁ s') (hne : f₂ ≠ f₁) (hf : { s with cache }.HasFile c.lib path f₂ size) :
    { s' with cache }.HasFile c.lib path f₂ size := by
  obtain ⟨uuid, hu, hholds⟩ := hf
  exact ⟨uuid, (uuidOf_alike h.dirs _ _).trans hu, h.files _ _ _ hne hholds⟩

/-- The blocks that a write covers have no page in common with a file of `size` bytes. -/
def Apart (c : LocofsClient) (f₁ f₂ : File) (len off size : Int) : Prop :=
  ∀ b₁ b₂, off / 4096 ≤ b₁ → 4096 * b₁ < off + len → 0 ≤ b₂ → 4096 * b₂ < size →
    c.blkno f₁.stat b₁ ≠ c.blkno f₂.stat b₂

theorem Written.apart {buf : Buffer} {len off : Int} {pages pages' : Nat → Block4K}
    (h : c.Written f₁ buf len off pages pages') (htame : c.Tame f₁.stat 0 len off)
    (hapart : c.Apart f₁ f₂ len off size) {x : Int} (hx : 0 ≤ x) (hxs : x < size) :
    c.fileByte f₂.stat pages' x = c.fileByte f₂.stat pages x := by
  have hpage : pages' (c.blkno f₂.stat (x / 4096)) = pages (c.blkno f₂.stat (x / 4096)) := by
    apply h.frame
    · intro b h₁ h₂ h0
      have hindex := (htame b h₁ h₂).2
      exact hapart b (x / 4096) (by omega) (by omega) (by omega) (by omega)
        (hindex.symm.trans h0.symm)
    · intro b h₁ h₂ he
      exact hapart b (x / 4096) h₁ h₂ (by omega) (by omega) he.symm
  simp only [fileByte, hpage]

/-- Which blocks of two files share a page, and what a write to one of them leaves alone. -/
theorem isolated (hsid : f₁.sid = f₂.sid) (hsuuid : f₁.suuid ≠ f₂.suuid) :
    (∀ b, hashObj f₁.stat b ≠ hashObj f₂.stat b) ∧
    (∀ k ≤ 27, c.capacity.toNat = 2 ^ k → ∀ b₁ b₂,
      c.blkno f₁.stat b₁ = c.blkno f₂.stat b₂ ↔
        (f₁.suuid * hashFactor ^^^ blkid b₁ * hashFactor).setWidth k =
          (f₂.suuid * hashFactor ^^^ blkid b₂ * hashFactor).setWidth k) ∧
    (∀ k ≤ 27, c.capacity.toNat = 2 ^ k → ∀ b,
      c.blkno f₁.stat b = c.blkno f₂.stat b ↔ f₁.suuid.setWidth k = f₂.suuid.setWidth k) ∧
    ∀ (g : Garbage) (clock : Nat → Int) (s s' : FileSystem) (cache : LruCache Str (BitVec 64))
      (path₁ path₂ : Str) (size₁ size₂ : Int) (buf : Buffer) (len off : Int) (done : Bool),
      s.HasFile c.lib path₁ f₁ size₁ → { s with cache }.HasFile c.lib path₂ f₂ size₂ →
      0 ≤ off → 0 ≤ len → off + len < 2 ^ 63 →
      c.Tame f₁.stat 0 len off → c.Apart f₁ f₂ len off size₂ →
      (c.write path₁ buf len off).run (FileSystem.handle g c.lib clock) s = some (done, s') →
      ∀ buf' len' off', 0 ≤ off' →
        ((c.read path₂ buf' len' off').run (FileSystem.handle g c.lib clock)
          { s' with cache }).map Prod.fst =
        ((c.read path₂ buf' len' off').run (FileSystem.handle g c.lib clock)
          { s with cache }).map Prod.fst := by
  have hlow : ∀ k ≤ 27, c.capacity.toNat = 2 ^ k → ∀ b₁ b₂,
      c.blkno f₁.stat b₁ = c.blkno f₂.stat b₂ ↔
        (f₁.suuid * hashFactor ^^^ blkid b₁ * hashFactor).setWidth k =
          (f₂.suuid * hashFactor ^^^ blkid b₂ * hashFactor).setWidth k := by
    intro k hk hcap b₁ b₂
    rw [blkno_eq_iff hcap, setWidth_hashObj _ _ hk, setWidth_hashObj _ _ hk,
      show f₁.stat.sid = f₂.stat.sid from hsid]
    exact BitVec.xor_right_inj _
  refine ⟨fun b hb => hsuuid (hashObj_suuid_inj hsid hb), hlow, ?_, ?_⟩
  · intro k hk hcap b
    rw [hlow k hk hcap, BitVec.setWidth_xor, BitVec.setWidth_xor, BitVec.xor_left_inj]
    constructor
    · intro h
      exact setWidth_mul_right_cancel (by omega) hashFactor_inv h
    · intro h
      rw [BitVec.setWidth_mul _ _ (by omega), BitVec.setWidth_mul _ _ (by omega), h]
  · intro g clock s s' cache path₁ path₂ size₁ size₂ buf len off done hf₁ hf₂ hoff hlen h63 htame
      hapart hrun buf' len' off' hoff'
    obtain ⟨-, -, hwritten, huntouched⟩ := (write_wp hf₁ buf hoff hlen h63).of_run hrun
    have hne : f₂ ≠ f₁ := fun he => hsuuid (congrArg File.suuid he).symm
    have hf₂' := hasFile_untouched huntouched hne hf₂
    rw [read_outcome hf₂' buf' hoff', read_outcome hf₂ buf' hoff']
    apply readOutcome_congr hoff'
    intro x hx hxs
    exact hwritten.apart htame hapart hx hxs

/-- The blocks of a file have pages of their own where the capacity is a power of two. -/
theorem blkno_injOn (c : LocofsClient) (st : LocoFileStat) {k : Nat} (hk : k ≤ 31)
    (hcap : c.capacity.toNat = 2 ^ k) :
    (∀ b b', 0 ≤ b → b < 2 ^ k → 0 ≤ b' → b' < 2 ^ k →
      c.blkno st b = c.blkno st b' → b = b') ∧
    ∀ id : BitVec 32, -2 ^ 63 ≤ id.toInt * 2654435761 ∧ id.toInt * 2654435761 < 2 ^ 63 ∧
      (id.signExtend 64 * hashFactor).toInt = id.toInt * 2654435761 := by
  constructor
  · intro b b' h0 hb h0' hb' h
    obtain ⟨n, rfl⟩ := Int.eq_ofNat_of_zero_le h0
    obtain ⟨n', rfl⟩ := Int.eq_ofNat_of_zero_le h0'
    have hlow := (blkno_eq_iff hcap).1 h
    rw [setWidth_hashObj_high _ _ (by omega), setWidth_hashObj_high _ _ (by omega),
      BitVec.xor_right_inj] at hlow
    have hid := setWidth_mul_right_cancel (by omega) hashFactor_inv hlow
    have hnat := congrArg BitVec.toNat hid
    rw [setWidth_blkid hk, setWidth_blkid hk, BitVec.toNat_ofNat, BitVec.toNat_ofNat,
      Nat.mod_eq_of_lt (by exact_mod_cast hb), Nat.mod_eq_of_lt (by exact_mod_cast hb')] at hnat
    rw [hnat]
  · intro id
    have hlow : -2 ^ 31 ≤ id.toInt := id.le_toInt
    have hhigh : id.toInt < 2 ^ 31 := id.toInt_lt
    have hfactor : hashFactor.toInt = 2654435761 := by decide
    have hext : (id.signExtend 64).toInt = id.toInt :=
      BitVec.toInt_signExtend_of_le (by decide)
    refine ⟨by omega, by omega, ?_⟩
    rw [BitVec.toInt_mul, hext, hfactor]
    exact Int.bmod_eq_of_le (by omega) (by omega)

section Examples

def otherFile : File := ⟨1, 233⟩

def otherPath : Path := [DMServer.nameA, DMServer.nameC]

def sharedSystem : FileSystem :=
  { exampleSystem with
    fm := { exampleSystem.fm with
      file_access_store := Function.update exampleSystem.fm.file_access_store ['2', ':', 'c']
        (some ⟨0, 0, 0, 0, 0⟩)
      file_content_store := Function.update exampleSystem.fm.file_content_store ['2', ':', 'c']
        (some ⟨0, 0, 4096, 4096, ['2', ':', 'c'], 0, 1, 233⟩) } }

theorem sharedSystem_file :
    sharedSystem.HasFile Library.posix examplePath.str exampleFile 0 := by
  have hkey : requestPath (key (to_string 2) (Library.posix.filename examplePath.str)) =
      ['2', ':', 'b'] := by decide
  refine ⟨2, by decide, ⟨0, 0, 0, 0, 0⟩, ⟨0, 0, 0, 4096, ['2', ':', 'b'], 0, 0, 233⟩, ?_, ?_, rfl,
    rfl, rfl, rfl, by decide⟩
  · rw [hkey]
    rfl
  · rw [hkey]
    rfl

theorem sharedSystem_other :
    sharedSystem.HasFile Library.posix otherPath.str otherFile 4096 := by
  have hkey : requestPath (key (to_string 2) (Library.posix.filename otherPath.str)) =
      ['2', ':', 'c'] := by decide
  refine ⟨2, by decide, ⟨0, 0, 0, 0, 0⟩, ⟨0, 0, 4096, 4096, ['2', ':', 'c'], 0, 1, 233⟩, ?_, ?_,
    rfl, rfl, rfl, rfl, by decide⟩
  · rw [hkey]
    rfl
  · rw [hkey]
    rfl

theorem isolated_short : ∃ s, (exampleClient.write examplePath.str (fun _ => 7) 10 100).run
      (FileSystem.handle exampleGarbage Library.posix fun _ => 0) sharedSystem = some (true, s) ∧
    ((exampleClient.read otherPath.str (fun _ => 0) 5000 10).run
      (FileSystem.handle exampleGarbage Library.posix fun _ => 0)
      { s with cache := sharedSystem.cache }).map Prod.fst =
    ((exampleClient.read otherPath.str (fun _ => 0) 5000 10).run
      (FileSystem.handle exampleGarbage Library.posix fun _ => 0) sharedSystem).map Prod.fst := by
  have htame : exampleClient.Tame exampleFile.stat 0 10 100 := by
    intro b h₁ h₂
    omega
  have hapart : exampleClient.Apart exampleFile otherFile 10 100 4096 := by
    intro b₁ b₂ h₁ h₂ h₃ h₄
    obtain rfl : b₁ = 0 := by omega
    obtain rfl : b₂ = 0 := by omega
    decide
  obtain ⟨_, s, hrun, rfl, -⟩ := @write_wp exampleClient exampleGarbage (fun _ => 0) _ _ _ _
    sharedSystem_file (fun _ => 7) 10 100 (by decide) (by decide) (by decide)
  obtain ⟨-, -, -, hread⟩ := @isolated exampleClient exampleFile otherFile rfl (by decide)
  exact ⟨s, hrun, hread _ _ _ _ _ _ _ _ _ _ _ _ _ sharedSystem_file sharedSystem_other
    (by decide) (by decide) (by decide) htame hapart hrun _ _ _ (by decide)⟩

theorem blkno_injOn_example :
    exampleClient.blkno exampleFile.stat 3 ≠ exampleClient.blkno exampleFile.stat 5 := by
  intro h
  have hinj := (blkno_injOn exampleClient exampleFile.stat (k := 20) (by decide) (by decide)).1
  have heq := hinj 3 5 (by decide) (by decide) (by decide) (by decide) h
  exact absurd heq (by decide)

/-- A capacity of 2 ^ 14 pages already lets block 1 of the first file and block 0 of the second
one meet. -/
theorem page_shared : ¬ ∀ (c : LocofsClient) (files : List (File × Nat)),
    files.Pairwise (fun p q => p.1.sid = q.1.sid ∧ p.1.suuid ≠ q.1.suuid) →
    (files.map Prod.snd).sum ≤ c.capacity.toNat →
    files.Pairwise fun p q => ∀ b₁ : Nat, b₁ < p.2 → ∀ b₂ : Nat, b₂ < q.2 →
      c.blkno p.1.stat b₁ ≠ c.blkno q.1.stat b₂ := by
  intro h
  have hall := h ⟨Library.posix, 2 ^ 14, by decide⟩ [(exampleFile, 2), (otherFile, 1)]
    (by simp [exampleFile, otherFile]) (by decide)
  exact (List.pairwise_cons.1 hall).1 _ List.mem_cons_self 1 (by decide) 0 (by decide) (by decide)

end Examples

end LocofsClient

end Galois
