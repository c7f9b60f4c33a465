import Galois.Metadata

namespace Galois
set_option autoImplicit true
set_option relaxedAutoImplicit false

namespace LocofsClient

open Client Prog

/-- The variables that the loops of `write` and `read` step through. -/
structure Cursor where
  start : Int
  len : Int
  offset : Int

/-- What one round of either loop works on. -/
structure Segment where
  start : Int
  block_num : Int
  block_off : Int
  block_len : Int

def Cursor.segment (block_size : Int) (v : Cursor) : Segment where
  start := v.start
  block_num := v.offset.tdiv block_size
  block_off := v.offset.tmod block_size
  block_len := min v.len (block_size - v.offset.tmod block_size)

def Cursor.next (block_size : Int) (v : Cursor) : Cursor where
  start := v.start + (v.segment block_size).block_len
  len := v.len - (v.segment block_size).block_len
  offset := v.offset + (v.segment block_size).block_len

/-- `while (len > 0)` goes through the segments and ends. -/
inductive Visits (block_size : Int) : Cursor → List Segment → Cursor → Prop
  | done {v : Cursor} (h : ¬0 < v.len) : Visits block_size v [] v
  | round {v v' : Cursor} {segs : List Segment} (h : 0 < v.len)
    (hrest : Visits block_size (v.next block_size) segs v') :
    Visits block_size v (v.segment block_size :: segs) v'

namespace Segment

def Whole (s : Segment) : Prop := s.block_off = 0 ∧ s.block_len = 4096

instance : DecidablePred Whole := fun _ => inferInstanceAs (Decidable (_ ∧ _))

def position (block_size : Int) (s : Segment) : Int := s.block_num * block_size + s.block_off

/-- The positions in the buffer and in the file that `memcpy` pairs. -/
def bytes (block_size : Int) (s : Segment) : List (Int × Int) :=
  (List.range s.block_len.toNat).map fun i : Nat => (s.start + i, s.position block_size + i)

theorem mem_bytes {B i x : Int} {s : Segment} : (i, x) ∈ s.bytes B ↔
    s.start ≤ i ∧ i < s.start + s.block_len ∧ x - s.position B = i - s.start := by
  simp only [bytes, List.mem_map, List.mem_range, Prod.mk.injEq]
  constructor
  · rintro ⟨t, ht, rfl, rfl⟩
    omega
  · rintro ⟨h₁, h₂, h₃⟩
    exact ⟨(i - s.start).toNat, by omega, by omega, by omega⟩

/-- `write` copies to the page the bytes that are paired, and leaves the others. -/
theorem copyIn_bytes {s : Segment} (hoff : 0 ≤ s.block_off)
    (hfit : s.block_off + s.block_len ≤ 4096)
    (page : Block4K) (buf : Buffer) :
    (∀ i x, (i, x) ∈ s.bytes 4096 → DataBlock.mem (copyIn page s.block_off buf s.start s.block_len)
      (x - s.block_num * 4096).toNat = buf i) ∧
    ∀ x, 0 ≤ x - s.block_num * 4096 → x - s.block_num * 4096 < 4096 →
      (∀ i, (i, x) ∉ s.bytes 4096) →
      DataBlock.mem (copyIn page s.block_off buf s.start s.block_len)
        (x - s.block_num * 4096).toNat = DataBlock.mem page (x - s.block_num * 4096).toNat := by
  constructor
  · intro i x h
    obtain ⟨h₁, h₂, h₃⟩ := mem_bytes.1 h
    rw [position] at h₃
    rw [mem_copyIn _ _ _ _ _ (by omega) (by omega), if_pos (by omega)]
    congr 1
    omega
  · intro x h₁ h₂ h
    rw [mem_copyIn _ _ _ _ _ h₁ h₂, if_neg]
    rintro ⟨h₃, h₄⟩
    refine h (s.start + (x - s.block_num * 4096 - s.block_off)) (mem_bytes.2 ?_)
    rw [position]
    omega

/-- `read` copies from the page the bytes that are paired, and no others. -/
theorem copyOut_bytes (s : Segment) (page : Block4K) (buf : Buffer) :
    (∀ i x, (i, x) ∈ s.bytes 4096 → copyOut buf s.start page s.block_off s.block_len i =
      DataBlock.mem page (x - s.block_num * 4096).toNat) ∧
    ∀ i, (∀ x, (i, x) ∉ s.bytes 4096) →
      copyOut buf s.start page s.block_off s.block_len i = buf i := by
  constructor
  · intro i x h
    obtain ⟨h₁, h₂, h₃⟩ := mem_bytes.1 h
    rw [position] at h₃
    rw [copyOut, if_pos ⟨h₁, h₂⟩]
    congr 2
    omega
  · intro i h
    rw [copyOut, if_neg]
    rintro ⟨h₁, h₂⟩
    refine h (s.position 4096 + (i - s.start)) (mem_bytes.2 ?_)
    omega

end Segment

/-- The segments follow on each other from one position to the other. -/
def Covers (block_size : Int) : List Segment → Int → Int → Prop
  | [], first, last => first = last
  | s :: segs, first, last =>
    s.position block_size = first ∧ Covers block_size segs (first + s.block_len) last

variable {B : Int} {v v' : Cursor} {segs segs' : List Segment} {s : Segment}

theorem Cursor.segment_spec (hB : 0 < B) (hoff : 0 ≤ v.offset) (hlen : 0 < v.len) :
    (v.segment B).block_num = v.offset / B ∧ 0 ≤ (v.segment B).block_off ∧
    0 < (v.segment B).block_len ∧ (v.segment B).block_len ≤ v.len ∧
    (v.segment B).block_off + (v.segment B).block_len ≤ B ∧
    (v.segment B).position B = v.offset := by
  have hmod : v.offset.tmod B = v.offset % B := Int.tmod_eq_emod_of_nonneg hoff
  have hdiv : v.offset.tdiv B = v.offset / B := Int.tdiv_eq_ediv_of_nonneg hoff
  have hlow : 0 ≤ v.offset % B := Int.emod_nonneg _ hB.ne'
  have hhigh : v.offset % B < B := Int.emod_lt_of_pos _ hB
  have hpos : v.offset / B * B + v.offset % B = v.offset := Int.ediv_mul_add_emod _ _
  simp only [segment, Segment.position, hmod, hdiv, true_and]
  refine ⟨hlow, ?_, ?_, ?_, hpos⟩ <;> omega

theorem Cursor.next_spec (hB : 0 < B) (hoff : 0 ≤ v.offset) (hlen : 0 < v.len) :
    0 ≤ (v.next B).offset ∧ v.offset < (v.next B).offset ∧ 0 ≤ (v.next B).len ∧
    (v.next B).len < v.len ∧ (v.next B).start + (v.next B).len = v.start + v.len ∧
    (v.next B).offset + (v.next B).len = v.offset + v.len := by
  obtain ⟨-, -, hl, hle, -, -⟩ := v.segment_spec hB hoff hlen
  simp only [next]
  refine ⟨?_, ?_, ?_, ?_, ?_, ?_⟩ <;> omega

theorem visits_exists (hB : 0 < B) (hoff : 0 ≤ v.offset) (hlen : 0 ≤ v.len) :
    ∃ segs, Visits B v segs ⟨v.start + v.len, 0, v.offset + v.len⟩ := by
  have hfuel : v.len ≤ v.len.toNat := by omega
  generalize v.len.toNat = fuel at hfuel
  induction fuel generalizing v with
  | zero =>
    obtain ⟨start, len, offset⟩ := v
    obtain rfl : len = 0 := by
      simp only at hfuel hlen
      omega
    refine ⟨[], ?_⟩
    simpa using Visits.done (v := ⟨start, 0, offset⟩) (by simp)
  | succ fuel ih =>
    by_cases hpos : 0 < v.len
    · obtain ⟨hoff', -, hlen', hlt, hstart, hoffset⟩ := v.next_spec hB hoff hpos
      have hfuel' : (v.next B).len ≤ fuel := by omega
      obtain ⟨segs, hrest⟩ := ih hoff' hlen' hfuel'
      rw [hstart, hoffset] at hrest
      exact ⟨v.segment B :: segs, .round hpos hrest⟩
    · obtain ⟨start, len, offset⟩ := v
      obtain rfl : len = 0 := by
        simp only at hpos hlen
        omega
      refine ⟨[], ?_⟩
      simpa using Visits.done (v := ⟨start, 0, offset⟩) (by simp)

theorem Visits.unique {w w' : Cursor} (h : Visits B v segs w) (h' : Visits B v segs' w') :
    segs = segs' ∧ w = w' := by
  induction h generalizing segs' with
  | done hv =>
    cases h' with
    | done _ => exact ⟨rfl, rfl⟩
    | round hv' _ => exact absurd hv' hv
  | round hv _ ih =>
    cases h' with
    | done hv' => exact absurd hv hv'
    | round _ hrest' =>
      obtain ⟨rfl, rfl⟩ := ih hrest'
      exact ⟨rfl, rfl⟩

theorem Cursor.next_block (hB : 0 < B) (hoff : 0 ≤ v.offset)
    (hnext : 0 < (v.next B).len) : (v.next B).offset / B = v.offset / B + 1 := by
  have hmod : v.offset.tmod B = v.offset % B := Int.tmod_eq_emod_of_nonneg hoff
  have hlong : (v.segment B).block_len = B - v.offset % B := by
    simp only [next, segment, hmod] at hnext ⊢
    omega
  have hsum : (v.next B).offset = (v.offset / B + 1) * B := by
    have hpos := Int.ediv_mul_add_emod v.offset B
    simp only [next, hlong, add_mul, one_mul]
    omega
  rw [hsum, Int.mul_ediv_cancel _ hB.ne']

theorem Visits.mem (h : Visits B v segs v') (hB : 0 < B) (hoff : 0 ≤ v.offset) :
    ∀ s ∈ segs, 0 ≤ s.block_off ∧ 0 < s.block_len ∧ s.block_off + s.block_len ≤ B ∧
      v.offset / B ≤ s.block_num := by
  induction h with
  | done _ => exact fun s hs => absurd hs List.not_mem_nil
  | @round v _ segs hlen hrest ih =>
    obtain ⟨hnum, hlow, hl, -, hfit, -⟩ := v.segment_spec hB hoff hlen
    intro s hs
    rcases List.mem_cons.1 hs with rfl | hs
    · exact ⟨hlow, hl, hfit, hnum.ge⟩
    · obtain ⟨hoff', hlt, -, -, -, -⟩ := v.next_spec hB hoff hlen
      obtain ⟨hlow', hl', hfit', hnum'⟩ := ih hoff' s hs
      have hle : v.offset / B ≤ (v.next B).offset / B := Int.ediv_le_ediv hB hlt.le
      exact ⟨hlow', hl', hfit', hle.trans hnum'⟩

theorem Visits.blocks (h : Visits B v segs v') (hB : 0 < B) (hoff : 0 ≤ v.offset) :
    segs.Pairwise fun s s' => s.block_num < s'.block_num := by
  induction h with
  | done _ => exact List.Pairwise.nil
  | @round v _ segs hlen hrest ih =>
    obtain ⟨hnum, -, -, -, -, -⟩ := v.segment_spec hB hoff hlen
    have hoff' := (v.next_spec hB hoff hlen).1
    refine List.Pairwise.cons (fun s hs => ?_) (ih hoff')
    have hnext : 0 < (v.next B).len := by
      cases hrest with
      | done _ => cases hs
      | round hpos _ => exact hpos
    have hlate := (hrest.mem hB hoff' s hs).2.2.2
    rw [v.next_block hB hoff hnext] at hlate
    rw [hnum]
    omega

theorem Visits.covers (h : Visits B v segs v') (hB : 0 < B) (hoff : 0 ≤ v.offset) :
    Covers B segs v.offset v'.offset := by
  induction h with
  | done _ => rfl
  | round hlen _ ih =>
    exact ⟨(Cursor.segment_spec hB hoff hlen).2.2.2.2.2, ih (Cursor.next_spec hB hoff hlen).1⟩

theorem Visits.bytes (h : Visits B v segs v') (hB : 0 < B) (hoff : 0 ≤ v.offset) :
    segs.flatMap (Segment.bytes B) =
      (List.range v.len.toNat).map fun t : Nat => (v.start + t, v.offset + t) := by
  induction h with
  | @done v hlen =>
    have h0 : v.len.toNat = 0 := by omega
    simp [h0]
  | @round v _ segs hlen _ ih =>
    obtain ⟨-, -, hl, hle, -, hpos⟩ := v.segment_spec hB hoff hlen
    have hsum : v.len.toNat = (v.segment B).block_len.toNat + (v.next B).len.toNat := by
      simp only [Cursor.next]
      omega
    have hcast : ((v.segment B).block_len.toNat : Int) = (v.segment B).block_len := by omega
    rw [List.flatMap_cons, ih (v.next_spec hB hoff hlen).1, hsum, List.range_add,
      List.map_append, List.map_map]
    congr 1
    · simp only [Segment.bytes, hpos]
      rfl
    · apply List.map_congr_left
      intro t _
      simp only [Cursor.next, Function.comp_apply, Nat.cast_add, hcast, Prod.mk.injEq]
      omega

/-- One round of `write` and one of `read`. -/
def writeRound (c : LocofsClient) (st : LocoFileStat) (buf : Buffer) (page : ECAL.Page)
    (s : Segment) : Prog sig ECAL.Page :=
  c.writeSegment st buf page s.start s.block_num s.block_off s.block_len

def readRound (c : LocofsClient) (st : LocoFileStat) (buf : Buffer) (s : Segment) :
    Prog sig Buffer :=
  c.readSegment st buf s.start s.block_num s.block_off s.block_len

variable {c : LocofsClient} {st : LocoFileStat}

theorem add64_fits {a b : Int} (ha : 0 ≤ a + b) (hb : a + b < 2 ^ 63) :
    add64 a b = pure (a + b) := by
  rw [add64, if_pos ⟨by omega, hb⟩]

theorem writeLoop_round (hlen : 0 < v.len) (hoff : 0 ≤ (v.next st.block_size.toInt).offset)
    (h63 : (v.next st.block_size.toInt).offset < 2 ^ 63) (buf : Buffer) (fuel : Nat)
    (page : ECAL.Page) :
    let next := v.next st.block_size.toInt
    c.writeLoop st buf (fuel + 1) page v.start v.len v.offset =
      (do let page ← c.writeRound st buf page (v.segment st.block_size.toInt)
          c.writeLoop st buf fuel page next.start next.len next.offset) := by
  intro next
  have hadd : add64 v.offset (v.segment st.block_size.toInt).block_len = pure next.offset :=
    add64_fits hoff h63
  simp only [Cursor.segment] at hadd
  simp only [LocofsClient.writeLoop, hlen, ↓reduceIte, hadd]
  rfl

theorem readLoop_round (hlen : 0 < v.len) (hoff : 0 ≤ (v.next st.block_size.toInt).offset)
    (h63 : (v.next st.block_size.toInt).offset < 2 ^ 63) (buf : Buffer) (fuel : Nat) :
    let next := v.next st.block_size.toInt
    c.readLoop st (fuel + 1) buf v.start v.len v.offset =
      (do let buf ← c.readRound st buf (v.segment st.block_size.toInt)
          c.readLoop st fuel buf next.start next.len next.offset) := by
  intro next
  have hadd : add64 v.offset (v.segment st.block_size.toInt).block_len = pure next.offset :=
    add64_fits hoff h63
  simp only [Cursor.segment] at hadd
  simp only [LocofsClient.readLoop, hlen, ↓reduceIte, hadd]
  rfl

/-- The loop of `write` is its rounds over the segments. -/
theorem Visits.writeLoop (h : Visits st.block_size.toInt v segs v') (hB : 0 < st.block_size.toInt)
    (hoff : 0 ≤ v.offset) (h63 : v.offset + v.len < 2 ^ 63) {fuel : Nat} (hfuel : v.len ≤ fuel)
    (buf : Buffer) (page : ECAL.Page) :
    c.writeLoop st buf fuel page v.start v.len v.offset =
      (do let _ ← segs.foldlM (c.writeRound st buf) page; pure ()) := by
  induction h generalizing fuel page with
  | done hlen => cases fuel <;> simp [LocofsClient.writeLoop, hlen]
  | @round v _ segs hlen _ ih =>
    obtain ⟨hoff', -, hlen', hlt, -, hsum⟩ := v.next_spec hB hoff hlen
    cases fuel with
    | zero => omega
    | succ fuel =>
      rw [writeLoop_round hlen hoff' (by omega), List.foldlM_cons, bind_assoc]
      congr 1
      funext page
      exact ih hoff' (by omega) (by omega) page

theorem Visits.readLoop (h : Visits st.block_size.toInt v segs v') (hB : 0 < st.block_size.toInt)
    (hoff : 0 ≤ v.offset) (h63 : v.offset + v.len < 2 ^ 63) {fuel : Nat} (hfuel : v.len ≤ fuel)
    (buf : Buffer) :
    c.readLoop st fuel buf v.start v.len v.offset =
      (do let buf ← segs.foldlM (c.readRound st) buf; pure (v'.start, buf)) := by
  induction h generalizing fuel buf with
  | done hlen => cases fuel <;> simp [LocofsClient.readLoop, hlen]
  | @round v _ segs hlen _ ih =>
    obtain ⟨hoff', -, hlen', hlt, -, hsum⟩ := v.next_spec hB hoff hlen
    cases fuel with
    | zero => omega
    | succ fuel =>
      rw [readLoop_round hlen hoff' (by omega), List.foldlM_cons, bind_assoc]
      congr 1
      funext buf
      exact ih hoff' (by omega) (by omega) buf

/-- A round of `write` that covers its page, and one that does not: the page is read first. -/
def overwrite (buf : Buffer) (page : ECAL.Page) (s : Segment) : Prog sig ECAL.Page := do
  let page := { page with page := copyIn page.page 0 buf s.start s.block_len }
  writeBlock page
  pure page

def readModifyWrite (c : LocofsClient) (st : LocoFileStat) (buf : Buffer) (s : Segment) :
    Prog sig ECAL.Page := do
  let page ← readBlock (c.blkno st s.block_num)
  let page := { page with page := copyIn page.page s.block_off buf s.start s.block_len }
  writeBlock page
  pure page

theorem writeRound_path (hfit : s.block_off + s.block_len ≤ 4096) (buf : Buffer)
    (page : ECAL.Page) : c.writeRound st buf page s =
      if s.Whole then overwrite buf page s else c.readModifyWrite st buf s := by
  have hpath : (s.block_off ≠ 0 ∨ s.block_off + s.block_len < 4096) ↔ ¬s.Whole := by
    simp only [Segment.Whole]
    omega
  simp only [writeRound, writeSegment, not_lt.2 hfit, ↓reduceIte, hpath]
  by_cases hwhole : s.Whole
  · rw [if_neg (not_not.2 hwhole), if_pos hwhole]
    rfl
  · rw [if_pos hwhole, if_neg hwhole]
    rfl

/-- The segments of a loop partition the range, the loops of `write` and `read` are their rounds,
and the page is read exactly for the segments that leave some of it. -/
theorem page_segmentation (c : LocofsClient) (st : LocoFileStat)
    (hst : st.block_size.toInt = 4096) {off len : Int} (hoff : 0 ≤ off) (hlen : 0 ≤ len)
    (h63 : off + len < 2 ^ 63) :
    ∃ segs, (∀ segs' v, Visits 4096 ⟨0, len, off⟩ segs' v ↔
        segs' = segs ∧ v = ⟨len, 0, off + len⟩) ∧
      (∀ s ∈ segs, 0 < s.block_len ∧ 0 ≤ s.block_off ∧ s.block_off + s.block_len ≤ 4096) ∧
      (segs.Pairwise fun s s' => s.block_num < s'.block_num) ∧
      Covers 4096 segs off (off + len) ∧
      segs.flatMap (Segment.bytes 4096) =
        ((List.range len.toNat).map fun t : Nat => ((t : Int), off + t)) ∧
      (∀ buf page, c.writeLoop st buf len.toNat page 0 len off =
        (do let _ ← segs.foldlM (c.writeRound st buf) page; pure ())) ∧
      (∀ buf, c.readLoop st len.toNat buf 0 len off =
        (do let buf ← segs.foldlM (c.readRound st) buf; pure (len, buf))) ∧
      ∀ s ∈ segs, ∀ buf page, c.writeRound st buf page s =
        if s.Whole then overwrite buf page s else c.readModifyWrite st buf s := by
  have hB : (0 : Int) < 4096 := by decide
  have hfuel : len ≤ len.toNat := by omega
  obtain ⟨segs, hv⟩ := visits_exists (v := ⟨0, len, off⟩) hB hoff hlen
  simp only [zero_add] at hv
  have hst' : 0 < st.block_size.toInt := hst ▸ hB
  have hv' : Visits st.block_size.toInt ⟨0, len, off⟩ segs ⟨len, 0, off + len⟩ := by
    rwa [hst]
  have hmem := hv.mem hB hoff
  refine ⟨segs, fun segs' v => ⟨fun h => h.unique hv, ?_⟩, fun s hs => ?_,
    hv.blocks hB hoff, hv.covers hB hoff, ?_, ?_, ?_, ?_⟩
  · rintro ⟨rfl, rfl⟩
    exact hv
  · obtain ⟨hlow, hpos, hfit, -⟩ := hmem s hs
    exact ⟨hpos, hlow, hfit⟩
  · simpa only [zero_add] using hv.bytes hB hoff
  · exact fun buf page => hv'.writeLoop hst' hoff h63 hfuel buf page
  · exact fun buf => hv'.readLoop hst' hoff h63 hfuel buf
  · intro s hs buf page
    obtain ⟨-, -, hfit, -⟩ := hmem s hs
    exact writeRound_path hfit buf page

/-- A range over the border of a page. -/
theorem page_segmentation_border : ∃ segs : List Segment,
    segs = [⟨0, 0, 4000, 96⟩, ⟨96, 1, 0, 104⟩] ∧
    ∀ buf, exampleClient.readLoop exampleFile.stat 200 buf 0 200 4000 =
      (do let buf ← segs.foldlM (exampleClient.readRound exampleFile.stat) buf
          pure ((200 : Int), buf)) := by
  obtain ⟨segs, hvisits, -, -, -, -, -, hread, -⟩ := @page_segmentation exampleClient
    exampleFile.stat rfl 4000 200 (by decide) (by decide) (by decide)
  refine ⟨segs, ?_, hread⟩
  have hv : Visits 4096 ⟨0, 200, 4000⟩ [⟨0, 0, 4000, 96⟩, ⟨96, 1, 0, 104⟩] ⟨200, 0, 4200⟩ :=
    .round (v := ⟨0, 200, 4000⟩) (by decide) (.round (v := ⟨96, 104, 4096⟩) (by decide)
      (.done (by decide)))
  exact ((hvisits _ _).1 hv).1.symm

end LocofsClient

end Galois
