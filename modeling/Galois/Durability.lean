import Galois.SizeUpdates
import Galois.Storage

namespace Galois
set_option autoImplicit true
set_option relaxedAutoImplicit false

open Prog Client LocofsClient PageStore
open ECAL (N select_inv)

namespace PageStore

variable {isal : IsaL} {poolSize : Nat} {s : PageStore}

theorem FailStopInv.read_last (h : FailStopInv isal poolSize s) (hd : isal.Documented)
    {me index : Nat} {page : Block4K} (hup : s.cluster.up me = true)
    (hindex : index < (node isal poolSize me).getClusterCapacity)
    (hlast : s.last index = some page) :
    Wp (node isal poolSize me).handle ((node isal poolSize me).readBlock index) s.cluster
      fun p _ => p = ⟨page, index⟩ := by
  apply (h.inv.read_last hd hup hindex (h.alive me) hlast).2
  intro d hmem hskip
  obtain ⟨hdN, ha⟩ := (select_inv (s.cluster.isPeerAlive me) N).chosen d hmem
  have hupd := h.inv.isPeerAlive_up hup hdN ha
  rw [h.skipped index page hlast d hdN hskip] at hupd
  cases hupd

end PageStore

theorem Setup.blkno_lt (S : Setup) (me : Nat) (st : LocoFileStat) (b : Int) :
    S.client.blkno st b < (node S.isal S.poolSize me).getClusterCapacity := by
  have hpos : 0 < S.client.capacity.toNat := by
    rw [Nat.pos_iff_ne_zero]
    exact fun h => S.client.capacity_ne_zero (BitVec.eq_of_toNat_eq h)
  have hcap : (node S.isal S.poolSize me).getClusterCapacity = S.client.capacity.toNat :=
    S.capacity.symm
  rw [hcap, blkno, BitVec.toNat_umod]
  exact Nat.mod_lt _ hpos

namespace Storage

variable {κ : Type} {S : Setup} {fs : Files κ} {clock : Nat → Int} {total fails : Prop}
  {s s' s'' : Storage} {k k' : κ} {size : κ → Int} {Q : α → Storage → Prop}

theorem Serves.readBlock (hs : s.Serves S fs total fails k) {st : LocoFileStat} {b : Int}
    {next : ECAL.Page → Prog sig α}
    (hk : ∀ s' page, Same S fs total fails k s s' →
      (∀ pg, s.store.last (S.client.blkno st b) = some pg → page = pg) →
      Ensures S clock total fails Q (next ⟨page, S.client.blkno st b⟩) s') :
    Ensures S clock total fails Q (.call (.readBlock (S.client.blkno st b)) next) s := by
  have hindex := S.blkno_lt S.me st b
  have hread := fun (store : PageStore) (h : FailStopInv S.isal S.poolSize store) =>
    h.inv.read_page S.documented hindex (h.alive S.me)
  refine ⟨fun _ => ?_, ?_⟩
  · obtain ⟨pg, -, p, c, hr, -⟩ := hread _ hs.store
    exact ⟨p, _, exampleGarbage, s.store, .refl, fun _ hn => (by cases hn),
      Option.map_eq_some_iff.2 ⟨_, hr, rfl⟩⟩
  · rintro r s' ⟨g, store, hfails, -, hperform⟩
    obtain ⟨⟨page, c⟩, hrun, he⟩ := Option.map_eq_some_iff.1 hperform
    cases he
    have hs' := hs.after hfails hs.files fun _ => rfl
    obtain ⟨pg, -, hwp⟩ := hread store hs'.store
    obtain ⟨rfl, hframe, -⟩ := hwp.of_run hrun
    have hstore : FailStopInv S.isal S.poolSize { store with cluster := c } :=
      hs'.store.step S.documented ⟨.read (S.lt _ List.mem_cons_self) hs'.me hindex hrun, trivial, by
        rw [hframe.up]
        exact hs'.store.failed⟩
    refine hk _ pg ⟨hs'.of_up hs.files hstore hframe.up fun _ => rfl, hfails.last, fun _ => rfl⟩ ?_
    intro pg' hpg
    rw [← hfails.last] at hpg
    exact congrArg ECAL.Page.page
      ((hs'.store.read_last S.documented hs'.me hindex hpg).of_run hrun)

theorem Serves.writeBlock (hs : s.Serves S fs total fails k) {st : LocoFileStat} {b : Int}
    {page : Block4K} {next : Unit → Prog sig α}
    (hk : ∀ s', s'.Serves S fs total fails k → s'.store.last =
      Function.update s.store.last (S.client.blkno st b) (some page) →
      (∀ k, s'.sizeAt S fs k = s.sizeAt S fs k) → Ensures S clock total fails Q (next ()) s') :
    Ensures S clock total fails Q (.call (.writeBlock ⟨page, S.client.blkno st b⟩) next) s := by
  have hindex := S.blkno_lt S.me st b
  have hwrite := fun (store : PageStore) (h : Inv S.isal S.poolSize store) =>
    @Inv.writeBlock_returns _ _ _ h S.me ⟨page, S.client.blkno st b⟩ hindex
  refine ⟨fun _ => ?_, ?_⟩
  · obtain ⟨_, c, hr, -⟩ := hwrite _ hs.store.inv
    exact ⟨(), _, exampleGarbage, s.store, .refl, fun _ hn => (by cases hn),
      Option.map_eq_some_iff.2 ⟨_, hr, rfl⟩⟩
  · rintro r s' ⟨g, store, hfails, -, hperform⟩
    obtain ⟨⟨u, c⟩, hrun, he⟩ := Option.map_eq_some_iff.1 hperform
    cases he
    have hs' := hs.after hfails hs.files fun _ => rfl
    obtain ⟨hframe, -⟩ := (hwrite store hs'.store.inv).of_run hrun
    have hstore : FailStopInv S.isal S.poolSize
        (store.written S.me ⟨page, S.client.blkno st b⟩ c) :=
      hs'.store.step S.documented ⟨.write (S.lt _ List.mem_cons_self) hs'.me hindex hrun, trivial,
        by
          rw [written, hframe.up]
          exact hs'.store.failed⟩
    refine hk _ (hs'.of_up hs.files hstore hframe.up fun _ => rfl) ?_ fun _ => rfl
    funext i
    rw [Function.update_apply, ← hfails.last]
    rfl

/-- The byte at a position of a file, if the page of its block has been written. -/
def byteAt (S : Setup) (fs : Files κ) (s : Storage) (k : κ) (x : Int) : Option Byte :=
  (s.store.last (S.client.blkno (fs.target k).file.stat (x / 4096))).map fun page =>
    DataBlock.mem page (x % 4096).toNat

/-- The blocks of the files have page numbers of their own. -/
def Apart (S : Setup) (fs : Files κ) (size : κ → Int) : Prop :=
  ∀ k k' b b', 0 ≤ b → 4096 * b < size k → 0 ≤ b' → 4096 * b' < size k' →
    S.client.blkno (fs.target k).file.stat b = S.client.blkno (fs.target k').file.stat b' →
      k = k' ∧ b = b'

/-- The bytes of a file from `off` to `last` have been written, and nothing else. -/
structure Wrote (S : Setup) (fs : Files κ) (size : κ → Int) (k : κ) (byte : Int → Byte)
    (off last : Int) (s s' : Storage) : Prop where
  new : Apart S fs size → ∀ x, off ≤ x → x < last → s'.byteAt S fs k x = some (byte x)
  old : Apart S fs size → ∀ k' x b, 0 ≤ x → x < size k' → ¬(k' = k ∧ off ≤ x ∧ x < last) →
    s.byteAt S fs k' x = some b → s'.byteAt S fs k' x = some b

variable {byte : Int → Byte} {off last mid : Int}

theorem byteAt_congr (h : s'.store.last = s.store.last) (k : κ) (x : Int) :
    s'.byteAt S fs k x = s.byteAt S fs k x := by
  rw [byteAt, h]
  rfl

theorem Wrote.of_last (h : s'.store.last = s.store.last) (hle : last ≤ off) :
    Wrote S fs size k byte off last s s' where
  new _ x h₁ h₂ := by omega
  old _ k' x b _ _ _ hb := (byteAt_congr h k' x).trans hb

theorem Wrote.append (h : Wrote S fs size k byte off mid s s')
    (h' : Wrote S fs size k byte mid last s' s'') (hoff : 0 ≤ off) (hmid : off ≤ mid)
    (hle : mid ≤ last) (hsize : last ≤ size k) : Wrote S fs size k byte off last s s'' where
  new hapart x h₁ h₂ := by
    by_cases hx : x < mid
    · exact h'.old hapart k x _ (by omega) (by omega) (by omega) (h.new hapart x h₁ hx)
    · exact h'.new hapart x (by omega) h₂
  old hapart k' x b h₁ h₂ hx hb := by
    refine h'.old hapart k' x b h₁ h₂ ?_ (h.old hapart k' x b h₁ h₂ ?_ hb)
    · rintro ⟨rfl, h₃, h₄⟩
      exact hx ⟨rfl, by omega, h₄⟩
    · rintro ⟨rfl, h₃, h₄⟩
      exact hx ⟨rfl, h₃, by omega⟩

section Write

variable {st : LocoFileStat} {buf : Buffer}
  (hst : S.client.blkno st = S.client.blkno (fs.target k).file.stat)

include hst

theorem wrote_segment {page : Block4K} {offset block_len start : Int}
    (hoffset : 0 ≤ offset) (hfit : offset % 4096 + block_len ≤ 4096) (hlen : 0 < block_len)
    (hsize : offset + block_len ≤ size k)
    (hpage : ∀ pg, s.store.last (S.client.blkno st (offset / 4096)) = some pg → page = pg)
    (hlast : s'.store.last = Function.update s.store.last (S.client.blkno st (offset / 4096))
      (some (copyIn page (offset % 4096) buf start block_len))) :
    Wrote S fs size k (fun x => buf (start + (x - offset))) offset (offset + block_len) s s' where
  new _ x h₁ h₂ := by
    have hdiv : x / 4096 = offset / 4096 := by omega
    rw [byteAt, hlast, hdiv, ← hst, Function.update_self, Option.map_some,
      mem_copyIn _ _ _ _ _ (by omega) (by omega), if_pos (by omega)]
    congr 2
    omega
  old hapart k' x b h₁ h₂ hx hb := by
    rw [byteAt, hlast, Function.update_apply]
    split
    · next he =>
      rw [hst] at he
      obtain ⟨rfl, hdiv⟩ := hapart k' k _ _ (by omega) (by omega) (by omega) (by omega) he
      rw [byteAt, hdiv, ← hst] at hb
      obtain ⟨pg, hpg, rfl⟩ := Option.map_eq_some_iff.1 hb
      rw [Option.map_some, hpage pg hpg, mem_copyIn _ _ _ _ _ (by omega) (by omega), if_neg]
      rintro ⟨h₃, h₄⟩
      exact hx ⟨rfl, by omega, by omega⟩
    · exact hb

theorem Serves.writeSegment (hs : s.Serves S fs total fails k) {page : ECAL.Page}
    {offset block_len start : Int} {Q : ECAL.Page → Storage → Prop} (hoffset : 0 ≤ offset)
    (hfit : offset % 4096 + block_len ≤ 4096) (hlen : 0 < block_len)
    (hsize : offset + block_len ≤ size k)
    (hpart : offset % 4096 ≠ 0 ∨ offset % 4096 + block_len < 4096)
    (hQ : ∀ s' page, s'.Serves S fs total fails k → (∀ k, s'.sizeAt S fs k = s.sizeAt S fs k) →
      Wrote S fs size k (fun x => buf (start + (x - offset))) offset (offset + block_len) s s' →
      Q page s') :
    Ensures S clock total fails Q
      (S.client.writeSegment st buf page start (offset / 4096) (offset % 4096) block_len) s := by
  rw [LocofsClient.writeSegment, if_neg (not_lt.2 hfit), if_pos hpart]
  apply hs.readBlock
  intro s₁ page₁ hsame hpage
  apply hsame.serves.writeBlock
  intro s₂ hserves hlast hsizes
  refine hQ s₂ _ hserves (fun k => (hsizes k).trans (hsame.size k)) ?_
  rw [hsame.last] at hlast
  exact wrote_segment hst hoffset hfit hlen hsize hpage hlast

theorem Serves.writeLoop (hs : s.Serves S fs total fails k)
    (hblock : st.block_size.toInt = 4096) {page : ECAL.Page} {fuel : Nat} {off len offset : Int}
    {Q : Unit → Storage → Prop} (hoff : 0 ≤ off) (hoffset : off ≤ offset)
    (hend : offset ≤ off + len) (hfuel : off + len - offset ≤ fuel)
    (hsize : off + len ≤ size k) (h63 : off + len < 2 ^ 63)
    (hpart : ∀ b, off ≤ 4096 * b → off + len < 4096 * b + 4096)
    (hQ : ∀ s', s'.Serves S fs total fails k → (∀ k, s'.sizeAt S fs k = s.sizeAt S fs k) →
      Wrote S fs size k (fun x => buf (x - off)) offset (off + len) s s' → Q () s') :
    Ensures S clock total fails Q
      (S.client.writeLoop st buf fuel page (offset - off) (off + len - offset) offset) s := by
  induction fuel generalizing s page offset with
  | zero =>
    rw [LocofsClient.writeLoop, if_neg (by omega)]
    exact hQ s hs (fun _ => rfl) (.of_last rfl (by omega))
  | succ fuel ih =>
    rw [LocofsClient.writeLoop]
    split
    · next hlen =>
      simp only [hblock, Int.tdiv_eq_ediv_of_nonneg (hoff.trans hoffset),
        Int.tmod_eq_emod_of_nonneg (hoff.trans hoffset)]
      set block_len := min (off + len - offset) (4096 - offset % 4096) with hbl
      have hround : offset % 4096 ≠ 0 ∨ offset % 4096 + block_len < 4096 := by
        have := hpart (offset / 4096)
        omega
      have hle : offset + block_len ≤ size k := by omega
      apply Prog.Ensures.bind
      apply hs.writeSegment hst (hoff.trans hoffset) (by omega) (by omega) hle hround
      intro s₁ page₁ hs₁ hsizes₁ hwrote₁
      rw [add64, if_pos (by omega)]
      have hstart : offset - off + block_len = offset + block_len - off := by omega
      have hleft : off + len - offset - block_len = off + len - (offset + block_len) := by omega
      change Ensures S clock total fails Q
        (S.client.writeLoop st buf fuel page₁ _ _ (offset + block_len)) s₁
      rw [hstart, hleft]
      apply ih hs₁ (by omega) (by omega) (by omega)
      intro s₂ hs₂ hsizes₂ hwrote₂
      refine hQ s₂ hs₂ (fun k => (hsizes₂ k).trans (hsizes₁ k)) ?_
      have hbyte : (fun x => buf (offset - off + (x - offset))) = fun x => buf (x - off) := by
        funext x
        congr 1
        omega
      rw [hbyte] at hwrote₁
      exact hwrote₁.append hwrote₂ (hoff.trans hoffset) (by omega) (by omega) hsize
    · next hlen => exact hQ s hs (fun _ => rfl) (.of_last rfl (by omega))

end Write

theorem Serves.size_lt (hs : s.Serves S fs total fails k) (k : κ) : s.sizeAt S fs k < 2 ^ 63 := by
  obtain ⟨-, -, -, -, -, -, -, -, hlt⟩ := (hs.files k).file
  exact hlt

variable (size) in
/-- A `write` that covers no whole block succeeds, and keeps all other bytes. -/
theorem Serves.write (hs : s.Serves S fs total fails k) {buf : Buffer} {len off : Int}
    (hoff : 0 ≤ off) (hlen : 0 < len) (hsize : off + len ≤ size k) (h63 : off + len < 2 ^ 63)
    (hpart : ∀ b, off ≤ 4096 * b → off + len < 4096 * b + 4096) :
    Ensures S clock total fails (fun r s' => r = true ∧ s'.Serves S fs total fails k ∧
      s'.sizeAt S fs k = max (s.sizeAt S fs k) (off + len) ∧
      (∀ k', k' ≠ k → s'.sizeAt S fs k' = s.sizeAt S fs k') ∧
      Wrote S fs size k (fun x => buf (x - off)) off (off + len) s s')
      (S.client.write (fs.target k).path buf len off) s := by
  apply Prog.Ensures.bind
  apply hs.get_file_stat
  intro s₁ st hsame₁ hst hblock hstat
  have hloop {Q : Unit → Storage → Prop} := @Serves.writeLoop κ S fs clock total fails s₁ k size
    st buf hst hsame₁.serves hblock ⟨fun _ => 0, 0⟩ len.toNat off len off Q hoff (Int.le_refl _)
    (by omega) (by omega) hsize h63 hpart
  rw [Int.sub_self, add_sub_cancel_left] at hloop
  apply Prog.Ensures.bind
  apply hloop
  intro s₂ hs₂ hsizes₂ hwrote
  apply Prog.Ensures.bind
  apply hs₂.get_file_key
  intro s₃ hsame₃
  rw [add64, if_pos (by omega)]
  have hmax : (if st.st.st_size > off + len then st.st.st_size else off + len) =
      max (s.sizeAt S fs k) (off + len) := by
    rw [hstat]
    omega
  have hlt : max (s.sizeAt S fs k) (off + len) < 2 ^ 63 := by
    have := hs.size_lt k
    omega
  change Ensures S clock total fails _ (.call
    (.csize (if st.st.st_size > off + len then st.st.st_size else off + len)
      ((fs.target k).key S.client.lib)) fun (value : Int) => .ret (decide (value = 0))) s₃
  rw [hmax]
  have hasked := hsame₃.serves.fms
  apply Ensures.request (fun _ _ => rfl) (fun _ _ hn => by cases hn; exact hasked) fun _ => rfl
  intro g (r : Int) metadata store hr hfails
  have hlast := hfails.last
  have hcache := Deployment.handle_request hr rfl
  obtain ⟨hfiles, rfl, hown, hothers⟩ := hsame₃.serves.files.csize hlt hr
  refine ⟨rfl, hsame₃.serves.after hfails hfiles fun _ => by rw [hcache], hown,
    fun k' hk => ?_, fun ha x h₁ h₂ => ?_, fun ha k' x b h₁ h₂ hx hb => ?_⟩
  · exact (hothers k' hk).trans ((hsame₃.size k').trans ((hsizes₂ k').trans (hsame₁.size k')))
  · rw [byteAt_congr (hlast.trans hsame₃.last)]
    exact hwrote.new ha x h₁ h₂
  · rw [byteAt_congr (hlast.trans hsame₃.last)]
    refine hwrote.old ha k' x b h₁ h₂ hx ?_
    rw [byteAt_congr hsame₁.last]
    exact hb

theorem Serves.readLoop (hs : s.Serves S fs total fails k) {st : LocoFileStat} {buf : Buffer}
    (hst : S.client.blkno st = S.client.blkno (fs.target k).file.stat)
    (hblock : st.block_size.toInt = 4096) {fuel : Nat} {start len offset last : Int}
    {Q : Int × Buffer → Storage → Prop} (hoffset : 0 ≤ offset) (hlen : 0 ≤ len) (hfuel : len ≤ fuel)
    (h63 : offset + len < 2 ^ 63) (hlast : start + len = last)
    (hQ : ∀ s' out, Same S fs total fails k s s' →
      (∀ i, start ≤ i → i < last → ∀ b,
        s.byteAt S fs k (offset + (i - start)) = some b → out i = b) →
      (∀ i, i < start → out i = buf i) → Q (last, out) s') :
    Ensures S clock total fails Q (S.client.readLoop st fuel buf start len offset) s := by
  induction fuel generalizing s buf start len offset with
  | zero =>
    rw [LocofsClient.readLoop, if_neg (by omega)]
    obtain rfl : start = last := by omega
    exact hQ s buf (.refl hs) (fun i h₁ h₂ => by omega) fun _ _ => rfl
  | succ fuel ih =>
    rw [LocofsClient.readLoop]
    split
    · next hpos =>
      simp only [hblock, Int.tdiv_eq_ediv_of_nonneg hoffset, Int.tmod_eq_emod_of_nonneg hoffset]
      set block_len := min len (4096 - offset % 4096) with hbl
      apply Prog.Ensures.bind
      rw [readSegment, if_neg (by omega)]
      apply hs.readBlock
      intro s₁ page hsame₁ hpage
      rw [add64, if_pos (by omega)]
      change Ensures S clock total fails Q (S.client.readLoop st fuel
        (copyOut buf start page (offset % 4096) block_len) _ _ (offset + block_len)) s₁
      apply ih hsame₁.serves (by omega) (by omega) (by omega) (by omega) (by omega)
      intro s₂ out hsame₂ hout hbefore
      refine hQ s₂ out (hsame₁.trans hsame₂) (fun i h₁ h₂ b hb => ?_) fun i hi => ?_
      · by_cases hi : i < start + block_len
        · have hdiv : (offset + (i - start)) / 4096 = offset / 4096 := by omega
          rw [byteAt, hdiv, ← hst] at hb
          obtain ⟨pg, hpg, rfl⟩ := Option.map_eq_some_iff.1 hb
          rw [hbefore i hi, copyOut, if_pos (by omega), hpage pg hpg]
          congr 2
          omega
        · refine hout i (by omega) h₂ b ?_
          rw [byteAt_congr hsame₁.last, ← hb]
          congr 1
          omega
      · rw [hbefore i (by omega), copyOut, if_neg (by omega)]
    · next hpos =>
      obtain rfl : start = last := by omega
      exact hQ s buf (.refl hs) (fun i h₁ h₂ => by omega) fun _ _ => rfl

/-- `read` of a part of a file returns the bytes that have been written. -/
theorem Serves.read (hs : s.Serves S fs total fails k) {buf : Buffer} {len off : Int}
    (hoff : 0 ≤ off) (hlen : 0 ≤ len) (hend : off + len ≤ s.sizeAt S fs k) :
    Ensures S clock total fails (fun r s' => Same S fs total fails k s s' ∧ r.1 = len ∧
        ∀ i, 0 ≤ i → i < len → ∀ b, s.byteAt S fs k (off + i) = some b → r.2 i = b)
      (S.client.read (fs.target k).path buf len off) s := by
  have hlt := hs.size_lt k
  apply Prog.Ensures.bind
  apply hs.get_file_stat
  intro s₁ st hsame hst hblock hsize
  have hmin : (if st.st.st_size < len then st.st.st_size else len) = len := by
    rw [hsize]
    omega
  simp only [hmin]
  rw [add64, if_pos (by omega)]
  change Ensures S clock total fails _ (if off + len > st.st.st_size then .ret (-1, buf) else
    S.client.readLoop st len.toNat buf 0 len off) s₁
  rw [if_neg (by omega)]
  apply hsame.serves.readLoop hst hblock hoff hlen (by omega) (by omega) (Int.zero_add len)
  intro s₂ out hsame₂ hout _
  refine ⟨hsame.trans hsame₂, rfl, fun i h₁ h₂ b hb => ?_⟩
  refine hout i h₁ h₂ b ?_
  rw [byteAt_congr hsame.last, Int.sub_zero]
  exact hb

inductive Event (κ : Type) where
  | write (k : κ) (args : Write)
  | read (k : κ) (args : Write) (result : Int × Buffer)
  | fail (lost : Mem)

/-- The call covers no whole block, and its positions are numbers that a file can have. -/
structure Fits (args : Write) : Prop where
  off : 0 ≤ args.off
  len : 0 < args.len
  last : args.off + args.len < 2 ^ 63
  partly : ∀ b, args.off ≤ 4096 * b → args.off + args.len < 4096 * b + 4096

/-- The client writes and reads files, one call after the other. The node of the directory server
may fail at any moment, also between two operations of a call. -/
def system (S : Setup) (clock : Nat → Int) (fs : Files κ) : System Storage (Event κ) where
  init s := s.metadata.HasFiles S.client.lib fs ∧ Initial s.store
  step s e s' :=
    match e with
    | .write k args => Fits args ∧
      (S.client.write (fs.target k).path args.buf args.len args.off).Outcome
        (S.answers clock True) s true s'
    | .read k args result => 0 ≤ args.off ∧ 0 ≤ args.len ∧ args.off + args.len ≤ s.sizeAt S fs k ∧
      (S.client.read (fs.target k).path args.buf args.len args.off).Outcome
        (S.answers clock True) s result s'
    | .fail lost => s'.metadata = s.metadata ∧
      (failStop S.isal S.poolSize).step s.store (.fail S.dms lost) s'.store

variable [DecidableEq κ] {w : List (Event κ)}

def Event.writeTo (k : κ) : Event κ → Option Write
  | .write k' args => if k' = k then some args else none
  | .read _ _ _ => none
  | .fail _ => none

def writesTo (k : κ) (w : List (Event κ)) : List Write := w.filterMap (Event.writeTo k)

theorem writesTo_concat (w : List (Event κ)) (e : Event κ) :
    writesTo k (w ++ [e]) = writesTo k w ++ (e.writeTo k).toList := by
  rw [writesTo, List.filterMap_append]
  cases h : e.writeTo k with
  | none => rw [List.filterMap_cons_none h]; rfl
  | some args => rw [List.filterMap_cons_some h]; rfl

/-- What was written last is in the pages. -/
structure Kept (S : Setup) (fs : Files κ) (w : List (Event κ)) (s : Storage) : Prop where
  files : s.metadata.HasFiles S.client.lib fs
  store : FailStopInv S.isal S.poolSize s.store
  me : s.store.cluster.up S.me = true
  fms : s.store.cluster.up S.fms = true
  bound : ∀ k x b, lastWritten (writesTo k w) x = some b → 0 ≤ x ∧ x < s.sizeAt S fs k
  bytes : Apart S fs (s.sizeAt S fs) → ∀ k x b, lastWritten (writesTo k w) x = some b →
    s.byteAt S fs k x = some b

theorem Kept.serves (h : Kept S fs w s) (hfound : total → s.Found S fs fails k) :
    s.Serves S fs total fails k := ⟨h.files, h.store, h.me, h.fms, hfound⟩

omit [DecidableEq κ] in
theorem Apart.mono {size' : κ → Int} (h : Apart S fs size) (hle : ∀ k, size' k ≤ size k) :
    Apart S fs size' := by
  intro k k' b b' h₁ h₂ h₃ h₄
  have hk := hle k
  have hk' := hle k'
  exact h k k' b b' h₁ (by omega) h₃ (by omega)

theorem Kept.write (h : Kept S fs w s) {args : Write} (hfits : Fits args)
    (ho : (S.client.write (fs.target k).path args.buf args.len args.off).Outcome
      (S.answers clock fails) s true s') : Kept S fs (w ++ [.write k args]) s' := by
  have hs : s.Serves S fs False fails k := h.serves fun hf => hf.elim
  obtain ⟨-, hs', hown, hothers, -⟩ := (hs.write (fun _ => args.off + args.len) hfits.off hfits.len
    (Int.le_refl _) hfits.last hfits.partly).outcome ho
  have hgrows : ∀ k', s.sizeAt S fs k' ≤ s'.sizeAt S fs k' := by
    intro k'
    by_cases hk : k' = k
    · rw [hk, hown]
      omega
    · rw [hothers k' hk]
  have hlast : ∀ k' x b, lastWritten (writesTo k' (w ++ [.write k args])) x = some b →
      (k' = k ∧ args.off ≤ x ∧ x < args.off + args.len ∧ b = args.buf (x - args.off)) ∨
        ¬(k' = k ∧ args.off ≤ x ∧ x < args.off + args.len) ∧
          lastWritten (writesTo k' w) x = some b := by
    intro k' x b hb
    rw [writesTo_concat, Event.writeTo] at hb
    split at hb
    · next hk =>
      subst hk
      rw [Option.toList_some, lastWritten_concat] at hb
      split at hb
      · next hx => exact .inl ⟨rfl, hx.1, hx.2, (Option.some.inj hb).symm⟩
      · next hx => exact .inr ⟨fun he => hx he.2, hb⟩
    · next hk =>
      rw [Option.toList_none, List.append_nil] at hb
      exact .inr ⟨fun he => hk he.1.symm, hb⟩
  refine ⟨hs'.files, hs'.store, hs'.me, hs'.fms, fun k' x b hb => ?_, fun hapart k' x b hb => ?_⟩
  · obtain ⟨rfl, h₁, h₂, -⟩ | ⟨-, hb⟩ := hlast k' x b hb
    · have hoff := hfits.off
      rw [hown]
      omega
    · obtain ⟨h₁, h₂⟩ := h.bound k' x b hb
      exact ⟨h₁, Int.lt_of_lt_of_le h₂ (hgrows k')⟩
  · have hend : args.off + args.len ≤ s'.sizeAt S fs k := by
      rw [hown]
      omega
    obtain ⟨-, -, -, -, hwrote⟩ := (hs.write _ hfits.off hfits.len hend hfits.last
      hfits.partly).outcome ho
    obtain ⟨rfl, h₁, h₂, rfl⟩ | ⟨hx, hb⟩ := hlast k' x b hb
    · exact hwrote.new hapart x h₁ h₂
    · obtain ⟨h₁, h₂⟩ := h.bound k' x b hb
      exact hwrote.old hapart k' x b h₁ (Int.lt_of_lt_of_le h₂ (hgrows k')) hx
        (h.bytes (hapart.mono hgrows) k' x b hb)

theorem Kept.same (h : Kept S fs w s) {e : Event κ} (he : ∀ k, e.writeTo k = none)
    (hfiles : s'.metadata.HasFiles S.client.lib fs)
    (hstore : FailStopInv S.isal S.poolSize s'.store)
    (hme : s'.store.cluster.up S.me = true) (hfms : s'.store.cluster.up S.fms = true)
    (hlast : s'.store.last = s.store.last) (hsize : ∀ k, s'.sizeAt S fs k = s.sizeAt S fs k) :
    Kept S fs (w ++ [e]) s' := by
  have hwrites : ∀ k, writesTo k (w ++ [e]) = writesTo k w := fun k => by
    rw [writesTo_concat, he, Option.toList_none, List.append_nil]
  refine ⟨hfiles, hstore, hme, hfms, fun k x b hb => ?_, fun hapart k x b hb => ?_⟩
  · rw [hwrites] at hb
    rw [hsize]
    exact h.bound k x b hb
  · rw [hwrites] at hb
    rw [byteAt_congr hlast]
    exact h.bytes (hapart.mono fun k => (hsize k).ge) k x b hb

section Examples

def parent : Str := Library.posix.parent_path examplePath.str

end Examples

end Storage

end Galois
