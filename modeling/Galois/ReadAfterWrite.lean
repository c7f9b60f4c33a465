import Galois.Metadata
import Mathlib.Data.BitVec

namespace Galois
set_option autoImplicit true
set_option relaxedAutoImplicit false

open Prog Client

namespace LocofsClient

variable {c : LocofsClient} {g : Garbage} {lib : Library} {clock : Nat → Int} {s s' : FileSystem}
  {f : File} {size : Int}

def segmentPage (c : LocofsClient) (st : LocoFileStat) (buf : Buffer) (page : ECAL.Page)
    (start block_num block_off block_len : Int) (pages : Nat → Block4K) : ECAL.Page :=
  if block_off ≠ 0 ∨ block_off + block_len < 4096 then
    ⟨copyIn (pages (c.blkno st block_num)) block_off buf start block_len, c.blkno st block_num⟩
  else ⟨copyIn page.page 0 buf start block_len, page.index⟩

theorem run_writeSegment (st : LocoFileStat) (buf : Buffer) (page : ECAL.Page)
    (start block_num : Int) {block_off block_len : Int} (hfit : block_off + block_len ≤ 4096) :
    let page' := c.segmentPage st buf page start block_num block_off block_len s.pages
    (c.writeSegment st buf page start block_num block_off block_len).run
      (FileSystem.handle g lib clock) s =
      some (page', { s with pages := Function.update s.pages page'.index page'.page }) := by
  simp only [writeSegment, segmentPage, not_lt.2 hfit, ↓reduceIte]
  split <;> rfl

def fileByte (c : LocofsClient) (st : LocoFileStat) (pages : Nat → Block4K) (x : Int) : Byte :=
  DataBlock.mem (pages (c.blkno st (x / 4096))) (x % 4096).toNat

theorem fileByte_segment {st : LocoFileStat} {buf : Buffer} {page : ECAL.Page}
    {pages : Nat → Block4K} {start offset block_len x : Int}
    (hfit : offset % 4096 + block_len ≤ 4096)
    (hinj : c.blkno st (x / 4096) = c.blkno st (offset / 4096) → x / 4096 = offset / 4096)
    (hindex : (c.segmentPage st buf page start (offset / 4096) (offset % 4096) block_len
      pages).index = c.blkno st (offset / 4096)) :
    let page' := c.segmentPage st buf page start (offset / 4096) (offset % 4096) block_len pages
    c.fileByte st (Function.update pages page'.index page'.page) x =
      if offset ≤ x ∧ x < offset + block_len then buf (start + (x - offset))
      else c.fileByte st pages x := by
  intro page'
  have hbound : 0 ≤ x % 4096 ∧ x % 4096 < 4096 := by omega
  by_cases hb : x / 4096 = offset / 4096
  · have hmem : DataBlock.mem page'.page (x % 4096).toNat =
        if offset % 4096 ≤ x % 4096 ∧ x % 4096 < offset % 4096 + block_len then
          buf (start + (x % 4096 - offset % 4096))
        else DataBlock.mem (pages (c.blkno st (offset / 4096))) (x % 4096).toNat := by
      simp only [page', segmentPage]
      split
      · exact mem_copyIn _ _ _ _ _ hbound.1 hbound.2
      · next hfull =>
        rw [mem_copyIn _ _ _ _ _ hbound.1 hbound.2]
        have h0 : offset % 4096 = 0 := by omega
        rw [if_pos (by omega), if_pos (by omega), h0]
    have hiff : (offset % 4096 ≤ x % 4096 ∧ x % 4096 < offset % 4096 + block_len) ↔
        offset ≤ x ∧ x < offset + block_len := by omega
    have hpos : x % 4096 - offset % 4096 = x - offset := by omega
    simp only [fileByte, hb]
    rw [show page'.index = c.blkno st (offset / 4096) from hindex, Function.update_self, hmem]
    simp only [hiff, hpos]
  · have hne : c.blkno st (x / 4096) ≠ page'.index := by
      rw [show page'.index = c.blkno st (offset / 4096) from hindex]
      exact fun he => hb (hinj he)
    rw [if_neg (by omega)]
    simp only [fileByte, Function.update_of_ne hne]

theorem run_add64 {a b : Int} (ha : 0 ≤ a + b) (hb : a + b < 2 ^ 63) (s : FileSystem) :
    (add64 a b).run (FileSystem.handle g lib clock) s = some (a + b, s) := by
  rw [add64, if_pos ⟨by omega, hb⟩]
  rfl

theorem add64_of_run {a b n : Int}
    (h : (add64 a b).run (FileSystem.handle g lib clock) s = some (n, s')) :
    n = a + b ∧ s' = s ∧ a + b < 2 ^ 63 := by
  simp only [add64] at h
  split at h
  · next hfit =>
    cases h
    exact ⟨rfl, rfl, hfit.2⟩
  · cases h

theorem writeLoop_succ {st : LocoFileStat} (hst : st.block_size.toInt = 4096) {buf : Buffer}
    {fuel : Nat} {page : ECAL.Page} {start len offset : Int} (hoff : 0 ≤ offset) (hlen : 0 < len)
    (h : (c.writeLoop st buf (fuel + 1) page start len offset).run
      (FileSystem.handle g lib clock) s = some ((), s')) :
    let block_len := min len (4096 - offset % 4096)
    let page' := c.segmentPage st buf page start (offset / 4096) (offset % 4096) block_len s.pages
    offset + block_len < 2 ^ 63 ∧
      (c.writeLoop st buf fuel page' (start + block_len) (len - block_len)
        (offset + block_len)).run (FileSystem.handle g lib clock)
      { s with pages := Function.update s.pages page'.index page'.page } = some ((), s') := by
  intro block_len page'
  have hfit : offset % 4096 + block_len ≤ 4096 := by omega
  simp only [writeLoop, hlen, ↓reduceIte, hst, Int.tdiv_eq_ediv_of_nonneg hoff,
    Int.tmod_eq_emod_of_nonneg hoff, run_bind] at h
  rw [run_writeSegment st buf page start (offset / 4096) hfit, Option.bind_some] at h
  obtain ⟨⟨next, s₁⟩, hadd, hrest⟩ := Option.bind_eq_some_iff.1 h
  obtain ⟨rfl, rfl, h63⟩ := add64_of_run hadd
  exact ⟨h63, hrest⟩

/-- The blocks of the first `size` bytes have page numbers of their own. -/
def Distinct (c : LocofsClient) (st : LocoFileStat) (size : Int) : Prop :=
  ∀ b b', 0 ≤ b → 4096 * b < size → 0 ≤ b' → 4096 * b' < size →
    c.blkno st b = c.blkno st b' → b = b'

/-- A block that is written as a whole comes first, and `page` already has its index. -/
def Tame (c : LocofsClient) (st : LocoFileStat) (index : Nat) (len off : Int) : Prop :=
  ∀ b, off ≤ 4096 * b → 4096 * b + 4096 ≤ off + len → b = off / 4096 ∧ index = c.blkno st b

theorem writeLoop_bytes {st : LocoFileStat} (hst : st.block_size.toInt = 4096) {buf : Buffer}
    {fuel : Nat} {page : ECAL.Page} {start len offset size x : Int} (hoff : 0 ≤ offset)
    (hsize : offset + len ≤ size) (hinj : c.Distinct st size)
    (htame : c.Tame st page.index len offset) (hx : 0 ≤ x) (hxs : x < size)
    (h : (c.writeLoop st buf fuel page start len offset).run
      (FileSystem.handle g lib clock) s = some ((), s')) :
    c.fileByte st s'.pages x =
      if offset ≤ x ∧ x < offset + len then buf (start + (x - offset))
      else c.fileByte st s.pages x := by
  induction fuel generalizing page start len offset s with
  | zero =>
    simp only [writeLoop] at h
    split at h
    · cases h
    · cases h
      rw [if_neg (by omega)]
  | succ fuel ih =>
    by_cases hlen : 0 < len
    · obtain ⟨-, hrest⟩ := writeLoop_succ hst hoff hlen h
      set block_len := min len (4096 - offset % 4096) with hbl
      have hindex : (c.segmentPage st buf page start (offset / 4096) (offset % 4096) block_len
          s.pages).index = c.blkno st (offset / 4096) := by
        simp only [segmentPage]
        split
        · rfl
        · exact (htame (offset / 4096) (by omega) (by omega)).2
      have hfirst := @fileByte_segment c st buf page s.pages start offset block_len x
        (by omega) (hinj _ _ (by omega) (by omega) (by omega) (by omega)) hindex
      have hnext : c.Tame st (c.segmentPage st buf page start (offset / 4096) (offset % 4096)
          block_len s.pages).index (len - block_len) (offset + block_len) := by
        intro b hb hb'
        have := (htame b (by omega) (by omega)).1
        omega
      rw [ih (by omega) (by omega) hnext hrest, hfirst]
      by_cases h₁ : offset + block_len ≤ x ∧ x < offset + block_len + (len - block_len)
      · rw [if_pos h₁, if_pos (by omega)]
        congr 1
        omega
      · rw [if_neg h₁]
        have hiff : (offset ≤ x ∧ x < offset + block_len) ↔ offset ≤ x ∧ x < offset + len := by
          omega
        simp only [hiff]
    · simp only [writeLoop, hlen, ↓reduceIte] at h
      cases h
      rw [if_neg (by omega)]

/-- Whatever a write covers, it stores at the indices of its blocks, and whole pages also at
the index that its page has before the first round. -/
theorem writeLoop_frame {st : LocoFileStat} (hst : st.block_size.toInt = 4096) {buf : Buffer}
    {fuel : Nat} {page : ECAL.Page} {start len offset : Int} (hoff : 0 ≤ offset)
    (h : (c.writeLoop st buf fuel page start len offset).run
      (FileSystem.handle g lib clock) s = some ((), s')) :
    s' = { s with pages := s'.pages } ∧ ∀ i,
      (∀ b, offset ≤ 4096 * b → 4096 * b + 4096 ≤ offset + len → i ≠ page.index) →
      (∀ b, offset / 4096 ≤ b → 4096 * b < offset + len → i ≠ c.blkno st b) →
        s'.pages i = s.pages i := by
  induction fuel generalizing page start len offset s with
  | zero =>
    simp only [writeLoop] at h
    split at h
    · cases h
    · cases h
      exact ⟨rfl, fun i _ _ => rfl⟩
  | succ fuel ih =>
    by_cases hlen : 0 < len
    · obtain ⟨-, hrest⟩ := writeLoop_succ hst hoff hlen h
      set block_len := min len (4096 - offset % 4096) with hbl
      obtain ⟨hs, hframe⟩ := ih (by omega) hrest
      refine ⟨hs, fun i hi hb => ?_⟩
      have hindex : i ≠ (c.segmentPage st buf page start (offset / 4096) (offset % 4096) block_len
          s.pages).index := by
        simp only [segmentPage]
        split
        · exact hb _ (by omega) (by omega)
        · exact hi (offset / 4096) (by omega) (by omega)
      rw [hframe i (fun _ _ _ => hindex) fun b hb₁ hb₂ => hb b (by omega) (by omega)]
      exact Function.update_of_ne hindex _ _
    · simp only [writeLoop, hlen, ↓reduceIte] at h
      cases h
      exact ⟨rfl, fun i _ _ => rfl⟩

/-- A whole page is not stored while `page` has the index of another one. -/
theorem writeLoop_lost {st : LocoFileStat} (hst : st.block_size.toInt = 4096) {buf : Buffer}
    {fuel : Nat} {page : ECAL.Page} {start len offset size b : Int} (hoff : 0 ≤ offset)
    (hsize : offset + len ≤ size) (hinj : c.Distinct st size) (hb : offset ≤ 4096 * b)
    (hend : 4096 * b + 4096 ≤ offset + len)
    (hindex : page.index ≠ c.blkno st b ∨ offset % 4096 ≠ 0)
    (h : (c.writeLoop st buf fuel page start len offset).run
      (FileSystem.handle g lib clock) s = some ((), s')) :
    s'.pages (c.blkno st b) = s.pages (c.blkno st b) := by
  have hlen : 0 < len := by omega
  induction fuel generalizing page start len offset s with
  | zero =>
    rw [writeLoop, if_pos hlen] at h
    cases h
  | succ fuel ih =>
    obtain ⟨-, hrest⟩ := writeLoop_succ hst hoff hlen h
    set block_len := min len (4096 - offset % 4096) with hbl
    have hne : c.blkno st b ≠ (c.segmentPage st buf page start (offset / 4096) (offset % 4096)
        block_len s.pages).index := by
      simp only [segmentPage]
      split
      · intro he
        have := hinj b (offset / 4096) (by omega) (by omega) (by omega) (by omega) he
        omega
      · exact (hindex.resolve_right (by omega)).symm
    have hfirst := Function.update_of_ne hne (c.segmentPage st buf page start (offset / 4096)
      (offset % 4096) block_len s.pages).page s.pages
    by_cases hb₀ : offset / 4096 = b
    · refine ((writeLoop_frame hst (by omega) hrest).2 _ (fun _ _ _ => hne)
        fun b₁ h₁ h₂ he => ?_).trans hfirst
      have := hinj b b₁ (by omega) (by omega) (by omega) (by omega) he
      omega
    · exact (ih (by omega) (by omega) (by omega) (by omega) (.inl hne.symm) hrest
        (by omega)).trans hfirst

theorem writeLoop_not_tame {st : LocoFileStat} (hst : st.block_size.toInt = 4096) {buf : Buffer}
    {fuel : Nat} {page : ECAL.Page} {start len offset size : Int} (hoff : 0 ≤ offset)
    (hsize : offset + len ≤ size) (hinj : c.Distinct st size)
    (htame : ¬ c.Tame st page.index len offset)
    (h : (c.writeLoop st buf fuel page start len offset).run
      (FileSystem.handle g lib clock) s = some ((), s')) :
    ∃ b, offset ≤ 4096 * b ∧ 4096 * b + 4096 ≤ offset + len ∧
      s'.pages (c.blkno st b) = s.pages (c.blkno st b) := by
  simp only [Tame, not_forall] at htame
  obtain ⟨b, hb, hend, hbad⟩ := htame
  by_cases hb₁ : page.index ≠ c.blkno st b ∨ offset % 4096 ≠ 0
  · exact ⟨b, hb, hend, writeLoop_lost hst hoff hsize hinj hb hend hb₁ h⟩
  · -- the index is that of a later block, so the first one is lost
    obtain ⟨hindex, haligned⟩ := not_or.1 hb₁
    rw [not_ne_iff] at hindex haligned
    have hlater : b ≠ offset / 4096 := fun he => hbad ⟨he, hindex⟩
    refine ⟨offset / 4096, by omega, by omega,
      writeLoop_lost hst hoff hsize hinj (by omega) (by omega) (.inl ?_) h⟩
    rw [hindex]
    exact fun he => hlater (hinj _ _ (by omega) (by omega) (by omega) (by omega) he)

theorem run_readSegment (st : LocoFileStat) (buf : Buffer) (start block_num : Int)
    {block_off block_len : Int} (hfit : block_off + block_len ≤ 4096) :
    (c.readSegment st buf start block_num block_off block_len).run
      (FileSystem.handle g lib clock) s =
      some (copyOut buf start (s.pages (c.blkno st block_num)) block_off block_len, s) := by
  rw [readSegment, if_neg (not_lt.2 hfit)]
  rfl

theorem readLoop_spec {st : LocoFileStat} (hst : st.block_size.toInt = 4096) {buf : Buffer}
    {fuel : Nat} {start len offset : Int} (hoff : 0 ≤ offset) (hlen : 0 ≤ len)
    (hfuel : len ≤ fuel) (h63 : offset + len < 2 ^ 63) :
    ∃ out, (c.readLoop st fuel buf start len offset).run (FileSystem.handle g lib clock) s =
      some ((start + len, out), s) ∧
      ∀ i, out i = if start ≤ i ∧ i < start + len then
        c.fileByte st s.pages (offset + (i - start)) else buf i := by
  induction fuel generalizing buf start len offset with
  | zero =>
    have h0 : len = 0 := by omega
    subst h0
    exact ⟨buf, by rw [Int.add_zero]; rfl, fun i => by rw [if_neg (by omega)]⟩
  | succ fuel ih =>
    by_cases hpos : 0 < len
    · set block_len := min len (4096 - offset % 4096) with hbl
      have hfit : offset % 4096 + block_len ≤ 4096 := by omega
      obtain ⟨out, hrun, hout⟩ := @ih (copyOut buf start (s.pages (c.blkno st (offset / 4096)))
        (offset % 4096) block_len) (start + block_len) (len - block_len) (offset + block_len)
        (by omega) (by omega) (by omega) (by omega)
      refine ⟨out, ?_, fun i => ?_⟩
      · simp only [readLoop, hpos, ↓reduceIte, hst, Int.tdiv_eq_ediv_of_nonneg hoff,
          Int.tmod_eq_emod_of_nonneg hoff, run_bind]
        rw [run_readSegment st buf start (offset / 4096) hfit, Option.bind_some,
          run_add64 (by omega) (by omega), Option.bind_some]
        refine hrun.trans ?_
        rw [show start + block_len + (len - block_len) = start + len by omega]
      · rw [hout, copyOut]
        by_cases h₁ : start + block_len ≤ i ∧ i < start + block_len + (len - block_len)
        · rw [if_pos h₁, if_pos (by omega)]
          congr 1
          omega
        · by_cases h₂ : start ≤ i ∧ i < start + block_len
          · have hdiv : (offset + (i - start)) / 4096 = offset / 4096 := by omega
            have hmod : (offset + (i - start)) % 4096 = offset % 4096 + (i - start) := by omega
            rw [if_neg h₁, if_pos h₂, if_pos (by omega), fileByte, hdiv, hmod]
          · rw [if_neg h₁, if_neg h₂, if_neg (by omega)]
    · have h0 : len = 0 := by omega
      subst h0
      exact ⟨buf, by rw [Int.add_zero]; rfl, fun i => by rw [if_neg (by omega)]⟩

theorem blkno_stat {st : LocoFileStat} (hsuuid : st.suuid = f.suuid) (hsid : st.sid = f.sid) :
    c.blkno st = c.blkno f.stat := by
  funext b
  simp only [blkno, hashObj, File.stat, hsuuid, hsid]

theorem writeLoop_total {st : LocoFileStat} (hst : st.block_size.toInt = 4096) {buf : Buffer}
    {fuel : Nat} {page : ECAL.Page} {start len offset : Int} (hoff : 0 ≤ offset)
    (hfuel : len ≤ fuel) (h63 : offset + len < 2 ^ 63) :
    ∃ s', (c.writeLoop st buf fuel page start len offset).run
      (FileSystem.handle g lib clock) s = some ((), s') := by
  induction fuel generalizing page start len offset s with
  | zero =>
    rw [writeLoop, if_neg (by omega)]
    exact ⟨s, rfl⟩
  | succ fuel ih =>
    by_cases hlen : 0 < len
    · set block_len := min len (4096 - offset % 4096) with hbl
      have hfit : offset % 4096 + block_len ≤ 4096 := by omega
      set page' := c.segmentPage st buf page start (offset / 4096) (offset % 4096) block_len s.pages
      obtain ⟨s', hrest⟩ := @ih { s with pages := Function.update s.pages page'.index page'.page }
        page' (start + block_len) (len - block_len) (offset + block_len)
        (by omega) (by omega) (by omega)
      refine ⟨s', ?_⟩
      simp only [writeLoop, hlen, ↓reduceIte, hst, Int.tdiv_eq_ediv_of_nonneg hoff,
        Int.tmod_eq_emod_of_nonneg hoff, run_bind]
      rw [run_writeSegment st buf page start (offset / 4096) hfit, Option.bind_some,
        run_add64 (by omega) (by omega), Option.bind_some]
      exact hrest
    · rw [writeLoop, if_neg hlen]
      exact ⟨s, rfl⟩

/-- What a `write` to a file does, as long as no position overflows. -/
structure Written (c : LocofsClient) (f : File) (buf : Buffer) (len off : Int)
    (pages pages' : Nat → Block4K) : Prop where
  frame : ∀ i, (∀ b, off ≤ 4096 * b → 4096 * b + 4096 ≤ off + len → i ≠ 0) →
    (∀ b, off / 4096 ≤ b → 4096 * b < off + len → i ≠ c.blkno f.stat b) → pages' i = pages i
  bytes : ∀ size, off + len ≤ size → c.Distinct f.stat size → c.Tame f.stat 0 len off →
    ∀ x, 0 ≤ x → x < size → c.fileByte f.stat pages' x =
      if off ≤ x ∧ x < off + len then buf (x - off) else c.fileByte f.stat pages x
  lost : ∀ size, off + len ≤ size → c.Distinct f.stat size → ¬ c.Tame f.stat 0 len off →
    ∃ b, off ≤ 4096 * b ∧ 4096 * b + 4096 ≤ off + len ∧
      pages' (c.blkno f.stat b) = pages (c.blkno f.stat b)

theorem writeLoop_written {st : LocoFileStat} (hst : st.block_size.toInt = 4096)
    (hf : c.blkno st = c.blkno f.stat) {buf : Buffer} {fuel : Nat} {page : Block4K} {len off : Int}
    (hoff : 0 ≤ off) (h : (c.writeLoop st buf fuel ⟨page, 0⟩ 0 len off).run
      (FileSystem.handle g lib clock) s = some ((), s')) :
    s' = { s with pages := s'.pages } ∧ c.Written f buf len off s.pages s'.pages := by
  obtain ⟨hs, hframe⟩ := writeLoop_frame hst hoff h
  refine ⟨hs, ?_, ?_, ?_⟩
  · intro i hi hb
    apply hframe i fun b h₁ h₂ => hi b h₁ h₂
    intro b h₁ h₂
    rw [hf]
    exact hb b h₁ h₂
  · intro size hsize hinj htame x hx hxs
    simp only [Distinct, Tame, fileByte, ← hf] at hinj htame ⊢
    have hfirst : c.Tame st (ECAL.Page.mk page 0).index len off := htame
    have hbytes := writeLoop_bytes hst hoff hsize hinj hfirst hx hxs h
    rw [Int.zero_add] at hbytes
    exact hbytes
  · intro size hsize hinj htame
    simp only [Distinct, Tame, ← hf] at hinj htame ⊢
    have hfirst : ¬ c.Tame st (ECAL.Page.mk page 0).index len off := htame
    exact writeLoop_not_tame hst hoff hsize hinj hfirst h

theorem write_wp {path : Str} (h : s.HasFile c.lib path f size) (buf : Buffer) {len off : Int}
    (hoff : 0 ≤ off) (hlen : 0 ≤ len) (h63 : off + len < 2 ^ 63) :
    Wp (FileSystem.handle g c.lib clock) (c.write path buf len off) s fun r s' =>
      r = true ∧ s'.HasFile c.lib path f (max size (off + len)) ∧
        c.Written f buf len off s.pages s'.pages ∧ s.Untouched f s' := by
  rw [write]
  apply Wp.bind
  apply (get_file_stat_wp h).mono
  rintro _ s₁ ⟨st, rfl, hsuuid, hsid, hblock, hsize, ⟨uuid, hu, hf⟩, hpages, hdirs, hothers⟩
  obtain ⟨s₂, hloop⟩ := @writeLoop_total c g c.lib clock s₁ st hblock buf len.toNat
    ⟨fun _ => 0, 0⟩ 0 len off hoff (by omega) h63
  obtain ⟨hs₂, hwritten⟩ := writeLoop_written hblock (blkno_stat hsuuid hsid) hoff hloop
  apply Wp.bind_of_run hloop
  have hu₂ : s₂.uuidOf c.lib (c.lib.parent_path path) = some uuid := by rw [hs₂]; exact hu
  have hf₂ : s₂.fm = s₁.fm := by rw [hs₂]
  apply Wp.bind
  apply (get_file_key_wp hu₂).mono
  rintro _ s₃ ⟨rfl, hu₃, hfm, hpages₃, hdirs₃⟩
  apply Wp.bind_of_run (run_add64 (by omega) h63 s₃)
  rw [← hf₂, ← hfm] at hf
  have hlt : max size (off + len) < 2 ^ 63 := by
    obtain ⟨-, -, -, -, -, -, -, -, hlt⟩ := hf
    omega
  obtain ⟨fm, hcsize, hf₄, hothers₄⟩ := hf.csize g hlt
  have hop : FileSystem.handle g c.lib clock (.csize (max size (off + len))
      (requestPath (key (to_string uuid) (c.lib.filename path)))) s₃ =
      some ((0 : Int), { s₃ with fm }) := by
    simp only [FileSystem.handle, hcsize]
    rfl
  have hmax : (if st.st.st_size > off + len then st.st.st_size else off + len) =
      max size (off + len) := by
    rw [hsize]
    omega
  simp only [hmax]
  apply Wp.call hop
  refine Wp.ret ⟨rfl, ⟨uuid, hu₃, hf₄⟩, ?_, ?_, ?_⟩
  · rw [← hpages, show ({ s₃ with fm } : FileSystem).pages = s₂.pages from hpages₃]
    exact hwritten
  · have hdm : s₂.dm = s₁.dm := by rw [hs₂]
    exact hdirs.trans (hdm ▸ hdirs₃)
  · intro K f' n hne hK
    apply hothers₄ K f' n hne
    rw [hfm, hf₂]
    exact hothers K f' n hne hK

theorem read_wp {path : Str} (h : s.HasFile c.lib path f size) (buf : Buffer) {len off : Int}
    (hoff : 0 ≤ off) (hlen : 0 ≤ len) (hend : off + len ≤ size) :
    Wp (FileSystem.handle g c.lib clock) (c.read path buf len off) s fun r _ =>
      r.1 = len ∧ ∀ j, 0 ≤ j → j < len → r.2 j = c.fileByte f.stat s.pages (off + j) := by
  have hlt : size < 2 ^ 63 := by
    obtain ⟨-, -, -, -, -, -, -, -, -, -, hlt⟩ := h
    exact hlt
  rw [read]
  apply Wp.bind
  apply (get_file_stat_wp h).mono
  rintro _ s₁ ⟨st, rfl, hsuuid, hsid, hblock, hsize, -, hpages, -⟩
  have hmin : (if st.st.st_size < len then st.st.st_size else len) = len := by
    rw [hsize]
    omega
  simp only [hmin]
  apply Wp.bind_of_run (run_add64 (by omega) (by omega) s₁)
  rw [if_neg (by omega)]
  obtain ⟨out, hrun, hout⟩ := @readLoop_spec c g c.lib clock s₁ st hblock buf len.toNat 0 len off
    hoff hlen (by omega) (by omega)
  refine ⟨_, s₁, hrun, Int.zero_add len, fun j h₁ h₂ => ?_⟩
  refine (hout j).trans ?_
  rw [if_pos (by omega), Int.sub_zero]
  simp only [fileByte, blkno_stat hsuuid hsid, hpages]

theorem writeLoop_fits {st : LocoFileStat} (hst : st.block_size.toInt = 4096) {buf : Buffer}
    {fuel : Nat} {page : ECAL.Page} {start len offset : Int} (hoff : 0 ≤ offset) (hlen : 0 < len)
    (h : (c.writeLoop st buf fuel page start len offset).run
      (FileSystem.handle g lib clock) s = some ((), s')) : offset + len < 2 ^ 63 := by
  induction fuel generalizing page start len offset s with
  | zero =>
    rw [writeLoop, if_pos hlen] at h
    cases h
  | succ fuel ih =>
    obtain ⟨h63, hrest⟩ := writeLoop_succ hst hoff hlen h
    by_cases hmore : 0 < len - min len (4096 - offset % 4096)
    · have := ih (by omega) hmore hrest
      omega
    · omega

theorem write_fits {path : Str} (h : s.HasFile c.lib path f size) {buf : Buffer} {len off : Int}
    (hoff : 0 ≤ off) (hlen : 0 < len) {b : Bool}
    (hr : (c.write path buf len off).run (FileSystem.handle g c.lib clock) s = some (b, s')) :
    off + len < 2 ^ 63 := by
  obtain ⟨_, s₁, hstat, st, rfl, -, -, hblock, -⟩ :=
    @get_file_stat_wp c g clock s f size path h
  rw [write, run_bind, hstat, Option.bind_some, run_bind] at hr
  obtain ⟨⟨⟨⟩, s₂⟩, hloop, -⟩ := Option.bind_eq_some_iff.1 hr
  exact writeLoop_fits hblock hoff hlen hloop

end LocofsClient

structure Write where
  buf : Buffer
  len : Int
  off : Int

/-- The byte that the last write to cover a position put there. -/
def lastWritten (w : List Write) (x : Int) : Option Byte :=
  w.foldl (fun last call =>
    if call.off ≤ x ∧ x < call.off + call.len then some (call.buf (x - call.off)) else last) none

theorem lastWritten_concat (w : List Write) (call : Write) (x : Int) :
    lastWritten (w ++ [call]) x = if call.off ≤ x ∧ x < call.off + call.len then
      some (call.buf (x - call.off)) else lastWritten w x := by
  simp only [lastWritten, List.foldl_append, List.foldl_cons, List.foldl_nil]

namespace LocofsClient

variable (c : LocofsClient) (g : Garbage) (clock : Nat → Int) (path : Str) (f : File)

def writes : System FileSystem Write where
  init s := ∃ size, s.HasFile c.lib path f size
  step s call s' := 0 ≤ call.off ∧ 0 < call.len ∧
    (c.write path call.buf call.len call.off).run (FileSystem.handle g c.lib clock) s =
      some (true, s')

/-- No call stores a whole page, except as its first one and at the index 0 of its block. -/
def tameWrites : System FileSystem Write :=
  (c.writes g clock path f).restrict fun _ call _ => c.Tame f.stat 0 call.len call.off

/-- Everything written is in the file, as far as its blocks have pages of their own. -/
def Kept (w : List Write) (s : FileSystem) : Prop :=
  ∃ size, s.HasFile c.lib path f size ∧
    (∀ x, (lastWritten w x).isSome → x < size) ∧
    (c.Distinct f.stat size → ∀ x b, 0 ≤ x → lastWritten w x = some b →
      c.fileByte f.stat s.pages x = b)

variable {c g clock path f} {w : List Write} {s s' : FileSystem}

theorem Distinct.mono {st : LocoFileStat} (h : c.Distinct st n) (hm : m ≤ n) : c.Distinct st m :=
  fun b b' h₁ h₂ h₃ h₄ he => h b b' h₁ (by omega) h₃ (by omega) he

theorem Kept.write (h : c.Kept path f w s) {call : Write}
    (hs : (c.tameWrites g clock path f).step s call s') : c.Kept path f (w ++ [call]) s' := by
  obtain ⟨size, hfile, hbound, hkept⟩ := h
  obtain ⟨⟨hoff, hlen, hr⟩, htame⟩ := hs
  have h63 := write_fits hfile hoff hlen hr
  obtain ⟨-, hfile', hwritten, -⟩ := (write_wp hfile call.buf hoff (by omega) h63).of_run hr
  refine ⟨max size (call.off + call.len), hfile', ?_, ?_⟩
  · intro x hx
    rw [lastWritten_concat] at hx
    split at hx
    · omega
    · have := hbound x hx
      omega
  · intro hinj x b hx hb
    rw [lastWritten_concat] at hb
    split at hb
    · next hin =>
      rw [hwritten.bytes _ (by omega) hinj htame x hx (by omega), if_pos hin]
      exact Option.some.inj hb
    · next hout =>
      have hlt := hbound x (by rw [hb]; rfl)
      rw [hwritten.bytes _ (by omega) hinj htame x hx (by omega), if_neg hout]
      exact hkept (hinj.mono (by omega)) x b hx hb

theorem tameWrites_kept (h : (c.tameWrites g clock path f).Run w s) : c.Kept path f w s := by
  apply h.history (I := fun w s => c.Kept path f w s)
  · rintro s ⟨size, hfile⟩
    refine ⟨size, hfile, ?_, ?_⟩
    · intro x hx
      cases hx
    · intro _ x b _ hb
      cases hb
  · intro w s call s' _ hkept hs
    exact hkept.write hs

/-- A read of a part of the file returns what the writes put there last. -/
theorem read_after_write (h : (c.tameWrites g clock path f).Run w s) {size : Int}
    (hfile : s.HasFile c.lib path f size) (hinj : c.Distinct f.stat size) {len off : Int}
    (hoff : 0 ≤ off) (hlen : 0 ≤ len) (hend : off + len ≤ size) (buf : Buffer) :
    ∃ out s', (c.read path buf len off).run (FileSystem.handle g c.lib clock) s =
      some ((len, out), s') ∧
      ∀ j b, 0 ≤ j → j < len → lastWritten w (off + j) = some b → out j = b := by
  obtain ⟨size', hfile', -, hkept⟩ := tameWrites_kept h
  cases hfile.size_eq hfile'
  obtain ⟨⟨r, out⟩, s', hr, rfl, hout⟩ :=
    @read_wp c g clock s f size path hfile buf len off hoff hlen hend
  refine ⟨out, s', hr, fun j b h₁ h₂ hb => ?_⟩
  exact (hout j h₁ h₂).trans (hkept hinj _ b (by omega) hb)

section Examples

theorem distinct_of_le {st : LocoFileStat} (h : n ≤ 4096) : c.Distinct st n := by
  intro b b' h₁ h₂ h₃ h₄ _
  omega

theorem example_write {len off : Int} (hoff : 0 ≤ off) (hlen : 0 < len) (h63 : off + len < 2 ^ 63) :
    ∃ s, (exampleClient.writes exampleGarbage (fun _ => 0) examplePath.str exampleFile).step
        exampleSystem ⟨fun _ => 7, len, off⟩ s ∧
      s.HasFile Library.posix examplePath.str exampleFile (max 0 (off + len)) ∧
      exampleClient.Written exampleFile (fun _ => 7) len off (fun _ _ => 0) s.pages := by
  obtain ⟨_, s, hr, rfl, hfile, hwritten, -⟩ := @write_wp exampleClient exampleGarbage (fun _ => 0)
    _ _ _ _ exampleSystem_file (fun _ => 7) len off hoff (by omega) h63
  exact ⟨s, ⟨hoff, hlen, hr⟩, hfile, hwritten⟩

theorem example_nil : (exampleClient.writes exampleGarbage (fun _ => 0) examplePath.str
    exampleFile).Run [] exampleSystem := .nil ⟨0, exampleSystem_file⟩

theorem read_after_write_short : ∃ s out s',
    (exampleClient.tameWrites exampleGarbage (fun _ => 0) examplePath.str exampleFile).Run
      [⟨fun _ => 7, 10, 100⟩] s ∧
    (exampleClient.read examplePath.str (fun _ => 0) 5 103).run
      (FileSystem.handle exampleGarbage Library.posix fun _ => 0) s = some ((5, out), s') ∧
    out 2 = 7 := by
  have htame : exampleClient.Tame exampleFile.stat 0 10 100 := by
    intro b h₁ h₂
    omega
  obtain ⟨s, hstep, hfile, -⟩ := @example_write 10 100 (by decide) (by decide) (by decide)
  have hnil : (exampleClient.tameWrites exampleGarbage (fun _ => 0) examplePath.str
      exampleFile).Run [] exampleSystem := .nil ⟨0, exampleSystem_file⟩
  have hrun := hnil.snoc (a := ⟨fun _ => 7, 10, 100⟩) ⟨hstep, htame⟩
  obtain ⟨out, s', hread, hout⟩ := @read_after_write exampleClient _ _ _ _ _ _ hrun _ hfile
    (distinct_of_le (by decide)) 5 103 (by decide) (by decide) (by decide) fun _ => 0
  exact ⟨s, out, s', hrun, hread, hout 2 7 (by decide) (by decide) rfl⟩

theorem whole_page_lost : ¬ ∀ (c : LocofsClient) (g : Garbage) (clock : Nat → Int) (path : Str)
    (f : File) (w : List Write) (s : FileSystem) (size : Int),
    (c.writes g clock path f).Run w s → s.HasFile c.lib path f size → c.Distinct f.stat size →
      ∀ len off, 0 ≤ off → off + len ≤ size → ∀ buf, ∃ out s',
        (c.read path buf len off).run (FileSystem.handle g c.lib clock) s =
          some ((len, out), s') ∧
        ∀ j b, 0 ≤ j → j < len → lastWritten w (off + j) = some b → out j = b := by
  intro h
  have hindex : 0 ≠ exampleClient.blkno exampleFile.stat 0 := by decide
  obtain ⟨s, hstep, hfile, hwritten⟩ := @example_write 4096 0 (by decide) (by decide) (by decide)
  have hrun := example_nil.snoc hstep
  obtain ⟨out, s', hread, hout⟩ := h _ _ _ _ _ _ s 4096 hrun hfile
    (distinct_of_le (by decide)) 4096 0 (by decide) (by decide) fun _ => 0
  obtain ⟨b, h₁, h₂, hlost⟩ := hwritten.lost 4096 (by decide) (distinct_of_le (by decide))
    fun htame => hindex (htame 0 (by decide) (by decide)).2
  obtain rfl : b = 0 := by omega
  have hbytes := (@read_wp exampleClient exampleGarbage (fun _ => 0) _ _ _ _ hfile (fun _ => 0)
    4096 0 (by decide) (by decide) (by decide)).of_run hread
  have h0 : out 0 = 0 := by
    refine (hbytes.2 0 (by decide) (by decide)).trans ?_
    have hpage : s.pages (exampleClient.blkno exampleFile.stat ((0 + 0) / 4096)) = fun _ => 0 :=
      hlost
    rw [fileByte, hpage]
    rfl
  have h7 : out 0 = 7 := hout 0 7 (by decide) (by decide) rfl
  rw [h0] at h7
  revert h7
  decide

end Examples

end LocofsClient

end Galois
