import Galois.ReadAfterWrite
import Galois.SizeUpdates

namespace Galois
set_option autoImplicit true
set_option relaxedAutoImplicit false

open Prog Client LocofsClient

namespace ClientCall

def Covers : ClientCall → Int → Prop
  | .write _ _ len off, x => off ≤ x ∧ x < off + len
  | _, _ => False

def byte : ClientCall → Int → Byte
  | .write _ buf _ off, x => buf (x - off)
  | _, _ => 0

end ClientCall

namespace Deployment

variable {ι : Type} {c : LocofsClient} {F : Target} {size : Int} {W : ClientCall → Prop}
  {clock : Nat → Int} {i j : ι} {s s' s'' : Deployment ι} {call call' : ClientCall} {x : Int}

/-- Writes of a file that have no byte in common and cover no whole page, where the blocks of the
file are kept in different pages. -/
structure DisjointWrites (c : LocofsClient) (F : Target) (size : Int) (W : ClientCall → Prop) :
    Prop where
  write : ∀ {call}, W call → ∃ buf len off, call = .write F.path buf len off ∧ 0 ≤ off ∧ 0 < len ∧
    off + len ≤ size ∧ ∀ b, off ≤ 4096 * b → off + len < 4096 * b + 4096
  disjoint : ∀ {call call'}, W call → W call' → call ≠ call' → ∀ x, call.Covers x → ¬ call'.Covers x
  distinct : c.Distinct F.file.stat size

def byteAt (c : LocofsClient) (F : Target) (s : Deployment ι) (x : Int) : Byte :=
  c.fileByte F.file.stat s.servers.pages x

/-- A call that writes the byte leaves it or writes it, any other leaves it. -/
structure Respects (c : LocofsClient) (F : Target) (size : Int) (W : ClientCall → Prop)
    (call : ClientCall) (s s' : Deployment ι) : Prop where
  own : ∀ x, 0 ≤ x → x < size → W call → call.Covers x →
    byteAt c F s' x = byteAt c F s x ∨ byteAt c F s' x = call.byte x
  other : ∀ x, 0 ≤ x → x < size → ¬(W call ∧ call.Covers x) → byteAt c F s' x = byteAt c F s x

/-- All the bytes of a call below a position are in the pages. -/
def Stored (c : LocofsClient) (F : Target) (size : Int) (call : ClientCall) (last : Int)
    (s : Deployment ι) : Prop :=
  ∀ x, 0 ≤ x → x < size → call.Covers x → x < last → byteAt c F s x = call.byte x

/-- No page is written that another call has read and is about to write. -/
def Unshared (q : Pool sig ι ClientCall Bool (Deployment ι)) (i : ι) : Op → Prop
  | .writeBlock page => ∀ (j : ι) (x : Thread sig ClientCall Bool (Deployment ι))
      (page' : ECAL.Page) (k : Unit → Prog sig Bool), j ≠ i → q.thread j = some x →
      x.rest = .call (.writeBlock page') k → page'.index ≠ page.index
  | _ => True

def bytes (ι : Type) (c : LocofsClient) (F : Target) (size : Int) (W : ClientCall → Prop) :
    Outline sig ι ClientCall Bool (Deployment ι) where
  inv := HasFile c.lib F
  pre _ call := W call
  rely _ call o s s' :=
    (∀ x, 0 ≤ x → x < size → W call → call.Covers x →
      byteAt c F s' x = byteAt c F s x ∨ byteAt c F s' x = call.byte x) ∧
    ∀ page, o = .writeBlock page → s'.servers.pages page.index = s.servers.pages page.index
  clear _ _ _ _ := True
  guar _ call act s s' := Respects c F size W call s s' ∧
    ∀ index, (∀ page, act = some (.writeBlock page) → page.index ≠ index) →
      s'.servers.pages index = s.servers.pages index
  post _ call b _ _ s := W call ∧ b = true ∧ Stored c F size call size s

theorem Respects.own_of_apart (hW : DisjointWrites c F size W) (h : Respects c F size W call s s')
    (hx : 0 ≤ x) (hxs : x < size) (hW' : W call') (hc : call'.Covers x) :
    byteAt c F s' x = byteAt c F s x ∨ byteAt c F s' x = call'.byte x := by
  by_cases he : call = call'
  · subst he
    exact h.own x hx hxs hW' hc
  · refine .inl (h.other x hx hxs fun ⟨hW₁, hc₁⟩ => ?_)
    exact hW.disjoint hW₁ hW' he x hc₁ hc

theorem bytes_compatible (hW : DisjointWrites c F size W) :
    (bytes ι c F size W).Compatible fun q i _ o => Unshared q i o where
  refl _ := ⟨fun _ _ _ _ _ => .inl rfl, fun _ _ => rfl⟩
  trans := by
    rintro i call o s s' s'' ⟨hown, hpage⟩ ⟨hown', hpage'⟩
    refine ⟨fun x hx hxs hc hx' => ?_, fun page hp => (hpage' page hp).trans (hpage page hp)⟩
    cases hown' x hx hxs hc hx' with
    | inl he =>
      rw [he]
      exact hown x hx hxs hc hx'
    | inr he => exact .inr he
  start := by
    rintro i call j call' o s s' - - ⟨hr, hpages⟩
    refine ⟨fun x hx hxs hc hx' => hr.own_of_apart hW hx hxs hc hx', fun page _ => ?_⟩
    exact hpages page.index nofun
  clear _ := trivial
  turn := by
    rintro q i call o j x p k s' hP hj hx hrest ⟨hr, hpages⟩
    refine ⟨fun x hx hxs hc hx' => hr.own_of_apart hW hx hxs hc hx', ?_⟩
    rintro page rfl
    apply hpages
    rintro page' he
    cases he
    exact (hP j x page k hj hx hrest).symm
  keep := by
    rintro i call act s s' j call' b seen sent ⟨hr, -⟩ ⟨hW', hb, hstored⟩
    refine ⟨hW', hb, fun x hx hxs hc hlast => ?_⟩
    cases hr.own_of_apart hW hx hxs hW' hc with
    | inl he => exact he.trans (hstored x hx hxs hc hlast)
    | inr he => exact he

theorem byteAt_congr (h : s'.servers.pages = s.servers.pages) : byteAt c F s' = byteAt c F s := by
  funext x
  rw [byteAt, byteAt, h]

theorem bytes_tolerant : Tolerant c.lib F ((bytes ι c F size W).contract i call) where
  file h := h
  inv _ hs _ := hs
  guar := by
    rintro act s₀ s s' ⟨hr, hpages⟩ hu
    refine ⟨⟨?_, ?_⟩, fun index hi => ?_⟩
    · rw [byteAt_congr hu.pages]
      exact hr.own
    · rw [byteAt_congr hu.pages]
      exact hr.other
    · rw [hu.pages]
      exact hpages index hi
  refl _ _ := ⟨⟨fun _ _ _ _ _ => .inl rfl, fun _ _ _ _ => rfl⟩, fun _ _ => rfl⟩

theorem bytes_lasting (hc : W call) (last : Int) :
    Lasting c.lib F ((bytes ι c F size W).contract i call) (Stored c F size call last) where
  rely := by
    rintro o s s' ⟨hown, -⟩ hstored x hx hxs hcov hlast
    cases hown x hx hxs hc hcov with
    | inl he => exact he.trans (hstored x hx hxs hcov hlast)
    | inr he => exact he
  same := by
    intro s s' hu hstored
    rw [Stored, byteAt_congr hu.pages]
    exact hstored

variable [DecidableEq ι] {m : Moment sig (Deployment ι)}

variable (i call) in
/-- A program of a writer. -/
abbrev KeepsBytes (c : LocofsClient) (clock : Nat → Int) (F : Target) (size : Int)
    (W : ClientCall → Prop) (Q : α → Moment sig (Deployment ι) → Prop) (p : Prog sig α)
    (m : Moment sig (Deployment ι)) : Prop :=
  p.Safe Client.isLocal (fun g => handle c.lib clock g i)
    ((bytes ι c F size W).contract i call) Q m

theorem undefined_keepsBytes {Q : α → Moment sig (Deployment ι) → Prop}
    (hm : m.Ends ((bytes ι c F size W).contract i call)) :
    KeepsBytes i call c clock F size W Q Client.undefined m := by
  apply Safe.request rfl hm
  intro s seen _ _ _ _ _ g r
  cases r

section Write

variable {st : LocoFileStat} {buf : Buffer} {len off : Int}
  (hst : c.blkno st = c.blkno F.file.stat) (hW : DisjointWrites c F size W)
  (hc : W (.write F.path buf len off)) (hoff : 0 ≤ off) (hsize : off + len ≤ size)
include hst hW hc hoff hsize

theorem writeBlock_stores {page : ECAL.Page} {offset block_len : Int}
    {Q : Unit → Moment sig (Deployment ι) → Prop} (hoffset : off ≤ offset) (hlen : 0 < block_len)
    (hend : offset + block_len ≤ off + len) (hfit : offset % 4096 + block_len ≤ 4096)
    (hpart : offset % 4096 ≠ 0 ∨ offset % 4096 + block_len < 4096)
    (hm : m.Ends ((bytes ι c F size W).contract i (.write F.path buf len off)))
    (hstored : Stored c F size (.write F.path buf len off) offset m.now)
    (hpage : page = ⟨copyIn (m.now.servers.pages (c.blkno st (offset / 4096))) (offset % 4096) buf
      (offset - off) block_len, c.blkno st (offset / 4096)⟩)
    (hQ : ∀ m', m'.Ends ((bytes ι c F size W).contract i (.write F.path buf len off)) →
      Stored c F size (.write F.path buf len off) (offset + block_len) m'.now → Q () m') :
    KeepsBytes i (.write F.path buf len off) c clock F size W Q (writeBlock page) m := by
  apply Safe.request rfl hm
  intro s seen hs hrely _ _ _ g r s' hr
  have hindex : page.index = c.blkno st (offset / 4096) := by rw [hpage]
  have hsame : s.servers.pages (c.blkno st (offset / 4096)) =
      m.now.servers.pages (c.blkno st (offset / 4096)) := hindex ▸ hrely.2 page rfl
  have hsegment : page = c.segmentPage st buf page (offset - off) (offset / 4096) (offset % 4096)
      block_len s.servers.pages := by
    rw [segmentPage, if_pos hpart, hsame]
    exact hpage
  obtain ⟨hs', -, hpages⟩ := HasFile.writeBlock hs hr
  have hbyte (x : Int) (hx : 0 ≤ x) (hxs : x < size) : byteAt c F s' x =
      if offset ≤ x ∧ x < offset + block_len then buf (x - off) else byteAt c F s x := by
    have hinj := hW.distinct (x / 4096) (offset / 4096) (by omega) (by omega) (by omega) (by omega)
    have hseg := @fileByte_segment c st buf page s.servers.pages (offset - off) offset block_len x
      hfit (by rw [hst]; exact hinj) (hsegment ▸ hindex)
    rw [← hsegment] at hseg
    dsimp only at hseg
    have hpos : offset - off + (x - offset) = x - off := by omega
    rw [← hpages, hpos] at hseg
    simp only [byteAt, fileByte, hst] at hseg ⊢
    exact hseg
  have hcovers (x : Int) (hx : offset ≤ x ∧ x < offset + block_len) :
      (ClientCall.write F.path buf len off).Covers x := ⟨by omega, by omega⟩
  refine hQ _ ⟨hs', ⟨?_, ?_⟩, ?_⟩ ?_
  · intro x hx hxs _ _
    rw [hbyte x hx hxs]
    split
    · exact .inr rfl
    · exact .inl rfl
  · intro x hx hxs hnot
    rw [hbyte x hx hxs, if_neg fun h => hnot ⟨hc, hcovers x h⟩]
  · intro index hi
    rw [hpages]
    exact Function.update_of_ne (hi page rfl).symm _ _
  · intro x hx hxs hcov hlast
    rw [hbyte x hx hxs]
    split
    · rfl
    · have hbefore := (bytes_lasting (ι := ι) hc offset).rely hrely hstored
      exact hbefore x hx hxs hcov (by omega)

theorem writeSegment_stores {page : ECAL.Page} {offset block_len : Int}
    {Q : ECAL.Page → Moment sig (Deployment ι) → Prop} (hoffset : off ≤ offset)
    (hlen : 0 < block_len)
    (hend : offset + block_len ≤ off + len) (hfit : offset % 4096 + block_len ≤ 4096)
    (hm : m.Ends ((bytes ι c F size W).contract i (.write F.path buf len off)))
    (hstored : Stored c F size (.write F.path buf len off) offset m.now)
    (hQ : ∀ page m', m'.Ends ((bytes ι c F size W).contract i (.write F.path buf len off)) →
      Stored c F size (.write F.path buf len off) (offset + block_len) m'.now → Q page m') :
    KeepsBytes i (.write F.path buf len off) c clock F size W Q
      (c.writeSegment st buf page (offset - off) (offset / 4096) (offset % 4096) block_len) m := by
  have hpart : offset % 4096 ≠ 0 ∨ offset % 4096 + block_len < 4096 := by
    obtain ⟨_, _, _, he, -, -, -, hpart⟩ := hW.write hc
    cases he
    have := hpart (offset / 4096)
    omega
  rw [writeSegment, if_neg (not_lt.2 hfit), if_pos hpart]
  apply bytes_tolerant.request (bytes_lasting hc offset) hm hstored rfl
  · intro s g page s' hs hr
    obtain ⟨hs', hu, -⟩ := hs.readBlock hr
    exact ⟨hs', hu⟩
  · intro s g page s' seen hs hr hends hstored'
    obtain ⟨-, hu, rfl⟩ := HasFile.readBlock hs hr
    apply Safe.bind
    apply writeBlock_stores hst hW hc hoff hsize hoffset hlen hend hfit hpart hends hstored'
    · rw [← hu.pages]
    · intro m' hm' hstored''
      exact hQ _ m' hm' hstored''

theorem writeLoop_stores (hblock : st.block_size.toInt = 4096) {fuel : Nat} {page : ECAL.Page}
    {offset : Int} {Q : Unit → Moment sig (Deployment ι) → Prop} (hoffset : off ≤ offset)
    (hend : offset ≤ off + len)
    (hm : m.Ends ((bytes ι c F size W).contract i (.write F.path buf len off)))
    (hstored : Stored c F size (.write F.path buf len off) offset m.now)
    (hQ : ∀ m', m'.Ends ((bytes ι c F size W).contract i (.write F.path buf len off)) →
      Stored c F size (.write F.path buf len off) size m'.now → Q () m') :
    KeepsBytes i (.write F.path buf len off) c clock F size W Q
      (c.writeLoop st buf fuel page (offset - off) (off + len - offset) offset) m := by
  have hdone (offset : Int) (hlen : ¬ 0 < off + len - offset) (m : Moment sig (Deployment ι))
      (hm : m.Ends ((bytes ι c F size W).contract i (.write F.path buf len off)))
      (hstored : Stored c F size (.write F.path buf len off) offset m.now) : Q () m := by
    apply hQ m hm
    intro x hx hxs hcov _
    obtain ⟨hlo, hhi⟩ := hcov
    exact hstored x hx hxs ⟨hlo, hhi⟩ (by omega)
  induction fuel generalizing page offset m with
  | zero =>
    rw [writeLoop]
    split
    · exact undefined_keepsBytes hm
    · next hlen => exact Safe.ret (hdone offset hlen m hm hstored)
  | succ fuel ih =>
    rw [writeLoop]
    split
    · next hlen =>
      simp only [hblock, Int.tdiv_eq_ediv_of_nonneg (hoff.trans hoffset),
        Int.tmod_eq_emod_of_nonneg (hoff.trans hoffset)]
      set block_len := min (off + len - offset) (4096 - offset % 4096) with hbl
      apply Safe.bind
      apply writeSegment_stores hst hW hc hoff hsize hoffset (by omega) (by omega) (by omega) hm
        hstored
      intro page' m' hm' hstored'
      apply Safe.bind
      rw [add64]
      split
      · apply Safe.ret
        have hstart : offset - off + block_len = offset + block_len - off := by omega
        have hleft : off + len - offset - block_len = off + len - (offset + block_len) := by omega
        rw [hstart, hleft]
        exact ih (by omega) (by omega) hm' hstored'
      · exact undefined_keepsBytes hm'
    · next hlen => exact Safe.ret (hdone offset hlen m hm hstored)

end Write

theorem write_keepsBytes {buf : Buffer} {len off : Int} (hW : DisjointWrites c F size W)
    (hc : W (.write F.path buf len off))
    (hm : m.Ends ((bytes ι c F size W).contract i (.write F.path buf len off))) :
    KeepsBytes i (.write F.path buf len off) c clock F size W
      ((bytes ι c F size W).Final i (.write F.path buf len off))
      (c.write F.path buf len off) m := by
  obtain ⟨buf, len, off, he, hoff, hlen, hsize, -⟩ := hW.write hc
  cases he
  have hnone : Stored c F size (.write F.path buf len off) off m.now := by
    intro x _ _ hcov hlast
    obtain ⟨hlo, -⟩ := hcov
    omega
  apply Safe.bind
  apply get_file_stat_safe bytes_tolerant (bytes_lasting hc off) hm hnone
  intro m₁ st hm₁ hstored₁ hsuuid hsid hblock hst
  have hst63 : st.st.st_size < 2 ^ 63 := by
    obtain ⟨-, -, -, -, -, -, -, -, hlt⟩ := HasFile.file hm₁.inv
    exact hst.trans_lt hlt
  have hloop {Q : Unit → Moment sig (Deployment ι) → Prop} := @writeLoop_stores ι c F size W clock i
    _ m₁ st buf len off (blkno_stat hsuuid hsid) hW hc hoff hsize hblock len.toNat ⟨fun _ => 0, 0⟩
    off Q (Int.le_refl _) (by omega) hm₁ hstored₁
  rw [Int.sub_self, add_sub_cancel_left] at hloop
  apply Safe.bind
  apply hloop
  intro m₂ hm₂ hstored₂
  apply Safe.bind
  apply get_file_key_safe bytes_tolerant (bytes_lasting hc size) hm₂ hstored₂
  intro m₃ hm₃ hstored₃
  apply Safe.bind
  rw [add64]
  split
  · next hfit =>
    apply Safe.ret
    change KeepsBytes _ _ _ _ _ _ _ _
      (.call (.csize (if st.st.st_size > off + len then st.st.st_size else off + len) (F.key c.lib))
        fun (value : Int) => .ret (decide (value = 0))) _
    have hvalue : (if st.st.st_size > off + len then st.st.st_size else off + len) < 2 ^ 63 := by
      split <;> omega
    apply Safe.request rfl hm₃
    intro s seen hs hrely _ _ _ g (r : Int) s' hr
    obtain ⟨hs', hpages, rfl, -⟩ := HasFile.csize hs hvalue hr
    have hstored : Stored c F size (.write F.path buf len off) size s' := by
      rw [Stored, byteAt_congr hpages]
      exact (bytes_lasting (ι := ι) hc size).rely hrely hstored₃
    refine Safe.ret ⟨⟨hs', ⟨?_, ?_⟩, fun index _ => by rw [hpages]⟩, hc, rfl, hstored⟩
    · rw [byteAt_congr hpages]
      exact fun _ _ _ _ _ => .inl rfl
    · rw [byteAt_congr hpages]
      exact fun _ _ _ _ => rfl
  · exact undefined_keepsBytes hm₃

/-- Writes from a set of calls, which start with the file being there. -/
def disjointSystem (ι : Type) [DecidableEq ι] (c : LocofsClient) (clock : Nat → Int) (F : Target)
    (W : ClientCall → Prop) :
    System (Pool sig ι ClientCall Bool (Deployment ι)) (Pool.Event ι ClientCall Garbage) :=
  ((calls ι c clock).system (HasFile c.lib F)).restrict
    fun q e _ => Calls.Meets (fun _ call => W call) (fun _ _ _ _ => True) q e

/-- The same, where no page is written that another call is about to write. -/
def unsharedSystem (ι : Type) [DecidableEq ι] (c : LocofsClient) (clock : Nat → Int) (F : Target)
    (W : ClientCall → Prop) :
    System (Pool sig ι ClientCall Bool (Deployment ι)) (Pool.Event ι ClientCall Garbage) :=
  ((calls ι c clock).system (HasFile c.lib F)).restrict
    fun q e _ => Calls.Meets (fun _ call => W call) (fun q i _ o => Unshared q i o) q e

/-- Every byte of a write that has returned is in the pages. -/
def Kept (c : LocofsClient) (F : Target) (q : Pool sig ι ClientCall Bool (Deployment ι)) : Prop :=
  ∀ r ∈ q.returned, ∀ x, r.call.Covers x → byteAt c F q.state x = r.call.byte x

theorem bytes_kept {w : List (Pool.Event ι ClientCall Garbage)}
    {q : Pool sig ι ClientCall Bool (Deployment ι)} (hW : DisjointWrites c F size W)
    (h : (unsharedSystem ι c clock F W).Run w q) :
    (∀ r ∈ q.returned, r.answer = true) ∧ Kept c F q := by
  have hprog : ∀ i call (s : Deployment ι), W call → s.HasFile c.lib F →
      KeepsBytes i call c clock F size W ((bytes ι c F size W).Final i call) (call.prog c)
        ⟨none, s, s, [s], []⟩ := by
    intro i call s hc hs
    obtain ⟨buf, len, off, rfl, -⟩ := hW.write hc
    exact write_keepsBytes hW hc ⟨hs, bytes_tolerant.refl _ _⟩
  have hsafe := Outline.safe_run (bytes_compatible hW) hprog (fun _ hs => hs) h
  refine ⟨fun r hr => (hsafe.post r hr).2.1, fun r hr x hx => ?_⟩
  obtain ⟨hc, -, hstored⟩ := hsafe.post r hr
  obtain ⟨buf, len, off, he, hoff, -, hsize, -⟩ := hW.write hc
  rw [he] at hx hstored ⊢
  obtain ⟨hlo, hhi⟩ := hx
  exact hstored x (hoff.trans hlo) (by omega) ⟨hlo, hhi⟩ (by omega)

section Examples

def tens : Bool → ClientCall
  | false => .write examplePath.str (fun _ => 7) 10 0
  | true => .write examplePath.str (fun _ => 8) 10 10

theorem tens_disjoint :
    DisjointWrites exampleClient exampleTarget 20 fun call => ∃ b, call = tens b where
  write := by
    rintro _ ⟨b, rfl⟩
    cases b with
    | false => exact ⟨_, _, _, rfl, by decide, by decide, by decide, fun b hb => by omega⟩
    | true => exact ⟨_, _, _, rfl, by decide, by decide, by decide, fun b hb => by omega⟩
  disjoint := by
    rintro _ _ ⟨b, rfl⟩ ⟨b', rfl⟩ hne x hx hx'
    cases b with
    | false =>
      cases b' with
      | false => exact hne rfl
      | true =>
        obtain ⟨-, hlt⟩ := hx
        obtain ⟨hle, -⟩ := hx'
        omega
    | true =>
      cases b' with
      | false =>
        obtain ⟨hle, -⟩ := hx
        obtain ⟨-, hlt⟩ := hx'
        omega
      | true => exact hne rfl
  distinct b b' hb hlt hb' hlt' _ := by omega

/-- Both calls, up to the moment when they are about to read the page. -/
def bothOpened : List (Pool.Event Bool ClientCall Garbage) :=
  [.start false (tens false) exampleGarbage, .start true (tens true) exampleGarbage] ++
    turns false 2 ++ turns true 2

theorem tens_of_mem {w : List (Pool.Event Bool ClientCall Garbage)} {i : Bool} {call : ClientCall}
    {g : Garbage} (h : .start i call g ∈ bothOpened ++ w)
    (hw : ∀ e ∈ w, ∃ j, e = .turn j exampleGarbage) :
    ∃ b, call = tens b := by
  cases List.mem_append.1 h with
  | inl h =>
    simp only [bothOpened, turns, List.mem_append, List.mem_cons, List.not_mem_nil, or_false,
      List.mem_replicate, reduceCtorEq, and_false, Pool.Event.start.injEq] at h
    obtain ⟨-, rfl, -⟩ | ⟨-, rfl, -⟩ := h
    · exact ⟨false, rfl⟩
    · exact ⟨true, rfl⟩
  | inr h =>
    obtain ⟨j, he⟩ := hw _ h
    cases he

def unshared (q : Pool sig Bool ClientCall Bool (Deployment Bool)) :
    Pool.Event Bool ClientCall Garbage → Bool
  | .start _ _ _ => true
  | .turn i _ =>
    match q.thread i, q.thread !i with
    | some ⟨_, .call (.writeBlock page) _, _, _⟩, some ⟨_, .call (.writeBlock page') _, _, _⟩ =>
      page'.index ≠ page.index
    | _, _ => true

theorem unshared_spec {q : Pool sig Bool ClientCall Bool (Deployment Bool)} {i : Bool}
    {y : Thread sig ClientCall Bool (Deployment Bool)} {o : Op} {k : o.Res → Prog sig Bool}
    (h : unshared q (.turn i g) = true) (hy : q.thread i = some y) (hrest : y.rest = .call o k) :
    Unshared q i o := by
  cases o with
  | writeBlock page =>
    rintro j ⟨call', rest', seen', sent'⟩ page' k' hj hx' hrest'
    cases hrest'
    obtain rfl : j = !i := Bool.eq_not.2 hj
    obtain ⟨call, rest, seen, sent⟩ := y
    cases hrest
    simp only [unshared, hy, hx'] at h
    exact of_decide_eq_true h
  | _ => trivial

def inTurn : List (Pool.Event Bool ClientCall Garbage) :=
  turns false 2 ++ turns true 2 ++ turns false 1 ++ turns true 1

/-- Both clients read the page before they write it. -/
def atOnce : List (Pool.Event Bool ClientCall Garbage) :=
  turns false 1 ++ turns true 1 ++ turns false 2 ++ turns true 2

theorem turn_of_mem {e : Pool.Event Bool ClientCall Garbage} (h : e ∈ inTurn ∨ e ∈ atOnce) :
    ∃ j, e = .turn j exampleGarbage := by
  simp only [inTurn, atOnce, turns, List.mem_append, List.mem_replicate] at h
  grind

theorem examplePool_file :
    (exampleCalls.system (HasFile Library.posix exampleTarget)).init examplePool :=
  ⟨exampleDeployment_file, fun _ => rfl, rfl⟩

/-- Both writes are kept. -/
theorem bytes_kept_both : ∃ q, (unsharedSystem Bool exampleClient (fun _ => 0) exampleTarget
      fun call => ∃ b, call = tens b).Run (bothOpened ++ inTurn) q ∧
    q.returned.length = 2 ∧ (∀ r ∈ q.returned, r.answer = true) ∧
    Kept exampleClient exampleTarget q := by
  have hanswer : (exampleCalls.follow unshared examplePool (bothOpened ++ inTurn)).map
      (fun q => q.returned.length) = some 2 := by decide +kernel
  obtain ⟨q, hq, hlength⟩ := Option.map_eq_some_iff.1 hanswer
  have hrun : (unsharedSystem Bool exampleClient (fun _ => 0) exampleTarget
      fun call => ∃ b, call = tens b).Run (bothOpened ++ inTurn) q := by
    refine Calls.run_of_follow (v := []) ?_ (.nil examplePool_file) hq
    intro e he q q' hok
    cases e with
    | start i call g => exact tens_of_mem he fun e he => turn_of_mem (.inl he)
    | turn i g => exact fun x o k hx hrest => unshared_spec hok hx hrest
  exact ⟨q, hrun, hlength, bytes_kept tens_disjoint hrun⟩

theorem bytes_lost : ¬ ∀ (size : Int) (W : ClientCall → Prop),
    DisjointWrites exampleClient exampleTarget size W →
    ∀ (w : List (Pool.Event Bool ClientCall Garbage))
      (q : Pool sig Bool ClientCall Bool (Deployment Bool)),
      (disjointSystem Bool exampleClient (fun _ => 0) exampleTarget W).Run w q →
      (∀ i, q.thread i = none) → (∀ r ∈ q.returned, r.answer = true) →
      Kept exampleClient exampleTarget q := by
  intro h
  have hanswer : (exampleCalls.follow (fun _ _ => true) examplePool (bothOpened ++ atOnce)).map
      (fun q => (outcome q, byteAt exampleClient exampleTarget q.state 0)) =
        some ((true, true, [(true, 20), (true, 10)]), 0) := by decide +kernel
  obtain ⟨q, hq, he⟩ := Option.map_eq_some_iff.1 hanswer
  obtain ⟨hout, hzero⟩ := Prod.mk.inj he
  have hrun : (disjointSystem Bool exampleClient (fun _ => 0) exampleTarget
      fun call => ∃ b, call = tens b).Run (bothOpened ++ atOnce) q := by
    refine Calls.run_of_follow (v := []) ?_ (.nil examplePool_file) hq
    intro e he q q' _
    cases e with
    | start i call g => exact tens_of_mem he fun e he => turn_of_mem (.inr he)
    | turn i g => exact fun _ _ _ _ _ => trivial
  obtain ⟨htrue, -⟩ := @sizeAfter_of_outcome 0 q _ hout (by decide)
  have hidle := idle_of_outcome hout
  obtain ⟨r, hr, -, hcall⟩ := Calls.all_returned hrun.of_restrict hidle
    (List.mem_append_left _ List.mem_cons_self)
  have hseven := h 20 _ tens_disjoint _ q hrun hidle htrue r hr 0
  rw [hcall, hzero] at hseven
  exact absurd (hseven ⟨by decide, by decide⟩) (by decide)

end Examples

end Deployment

end Galois
