import Galois.Ecal

namespace Galois
set_option autoImplicit true
set_option relaxedAutoImplicit false

namespace ECAL

def dataBlock (page : Block4K) (j : Nat) : BlockTy := fun t =>
  DataBlock.mem page (j * blockSize + t)

theorem dataBlock_ext {p q : Block4K} (h : ∀ j < K, dataBlock p j = dataBlock q j) : p = q := by
  funext x
  have hj : x.val / blockSize < K := Nat.div_lt_of_lt_mul x.isLt
  have hx := congrFun (h _ hj) ⟨x.val % blockSize, Nat.mod_lt _ (by decide)⟩
  have he : x.val / blockSize * blockSize + x.val % blockSize = x.val := Nat.div_add_mod' _ _
  simpa only [dataBlock, he, DataBlock.mem, x.isLt, ↓reduceDIte, Fin.eta] using hx

theorem offset_lt {j : Nat} (hj : j < K) (t : Fin blockSize) : j * blockSize + t < 4096 := by
  have ht := t.isLt
  simp only [blockSize, K] at *
  omega

theorem dataBlock_const (x : Byte) {j : Nat} (hj : j < K) :
    dataBlock (fun _ => x) j = fun _ => x := by
  funext t
  simp only [dataBlock, DataBlock.mem, offset_lt hj t, ↓reduceDIte]

theorem dataBlock_load (data : Mem) (a : Nat) {j : Nat} (hj : j < K) :
    dataBlock (data.load a 4096) j = data.load (a + j * blockSize) blockSize := by
  funext t
  simp only [dataBlock, DataBlock.mem, offset_lt hj t, ↓reduceDIte, Mem.load, Nat.add_assoc]

theorem load_eq_of_blocks {data : Mem} {page : Block4K}
    (h : ∀ j < K, data.load (j * blockSize) blockSize = dataBlock page j) :
    data.load 0 4096 = page := by
  apply dataBlock_ext
  intro j hj
  rw [dataBlock_load data 0 hj, Nat.zero_add, h j hj]

/-- The symbols at offset `t` of the data blocks of a page. -/
def symbols (page : Block4K) (t : Nat) : Fin K → GF256 := fun j =>
  ⟨DataBlock.mem page (j * blockSize + t)⟩

def ofSymbols (x : Fin blockSize → Fin K → GF256) : Block4K := fun y =>
  (x ⟨y.val % blockSize, Nat.mod_lt _ (by decide)⟩
    ⟨y.val / blockSize, Nat.div_lt_of_lt_mul y.isLt⟩).byte

theorem symbols_ofSymbols (x : Fin blockSize → Fin K → GF256) (t : Fin blockSize) :
    symbols (ofSymbols x) t = x t := by
  funext j
  have hmod : (j.val * blockSize + t.val) % blockSize = t := by
    rw [Nat.mul_add_mod', Nat.mod_eq_of_lt t.isLt]
  have hdiv : (j.val * blockSize + t.val) / blockSize = j := by
    rw [Nat.add_comm, Nat.add_mul_div_right _ _ (by decide), Nat.div_eq_of_lt t.isLt, Nat.zero_add]
  simp only [symbols, DataBlock.mem, offset_lt j.isLt t, ↓reduceDIte, ofSymbols, hmod, hdiv]

/-- The generator matrix of the code: one row for each node of a stripe. -/
def generator (e : ECAL) : Matrix (Fin N) (Fin K) GF256 := toMatrix e.encodeMatrix N K

theorem blockOf_data (e : ECAL) (page : Block4K) {j : Nat} (hj : j < K) :
    e.blockOf page j = dataBlock page j := by
  simp only [blockOf, hj, ↓reduceIte]
  rfl

section Documented

variable {e : ECAL} (hd : e.isal.Documented)
include hd

theorem generator_isMDS : IsMDS e.generator :=
  hd.cauchy_isMDS (by decide) (by decide)

theorem blockOf_symbol (page : Block4K) (i : Fin N) (t : Fin blockSize) :
    (⟨e.blockOf page i t⟩ : GF256) = e.generator.mulVec (symbols page t) i := by
  by_cases hi : i.val < K
  · rw [generator, encodeMatrix, hd.data_row (by decide) hi, blockOf_data e page hi]
    rfl
  · simp only [blockOf, hi, ↓reduceIte, gfTables]
    exact hd.parity_row e.encodeMatrix _ hi t.isLt

theorem blockOf_zero {i : Nat} (hi : i < N) : e.blockOf (fun _ => 0) i = fun _ => 0 := by
  funext t
  have hsym : symbols (fun _ => 0) t = 0 := by
    funext j
    simp only [symbols, DataBlock.mem, dite_eq_ite, ite_self]
    rfl
  have hblk := blockOf_symbol hd (fun _ => 0) ⟨i, hi⟩ t
  rw [hsym, Matrix.mulVec_zero] at hblk
  exact congrArg GF256.byte hblk

end Documented

/-- The nodes `readBlock` decodes from and the data blocks it recovers. -/
structure Selected (decodeIndex errIndex : List Nat) : Prop where
  length : decodeIndex.length = K
  nodup : decodeIndex.Nodup
  lt : ∀ d ∈ decodeIndex, d < N
  errs_nodup : errIndex.Nodup
  errs_lt : ∀ j ∈ errIndex, j < K
  cover : ∀ j < K, j ∈ decodeIndex ∨ j ∈ errIndex
  disjoint : ∀ j ∈ decodeIndex, j ∉ errIndex

/-- The first loop of `readBlock` over the first `m` nodes, when liveness does not change. -/
def select (alive : Nat → Bool) (m : Nat) : List Nat × List Nat :=
  (List.range m).foldl (fun acc j =>
    if acc.1.length < K then selectNode (alive j) j acc else acc) ([], [])

theorem select_succ (alive : Nat → Bool) (m : Nat) : select alive (m + 1) =
    if (select alive m).1.length < K then selectNode (alive m) m (select alive m)
    else select alive m := by
  rw [select, List.range_succ, List.foldl_append]
  rfl

theorem select_intact {alive : Nat → Bool} (h : ∀ j < K, alive j = true) :
    select alive N = (List.range K, []) := by
  have h₀ := h 0 (by decide)
  have h₁ := h 1 (by decide)
  simp only [N, select_succ, show select alive 0 = ([], []) from rfl, selectNode, h₀, h₁]
  rfl

/-- What the first loop has built once it has looked at the first `m` nodes. -/
structure SelectInv (alive : Nat → Bool) (m : Nat) (acc : List Nat × List Nat) : Prop where
  length : acc.1.length = min K ((List.range m).filter alive).length
  nodup : acc.1.Nodup
  chosen : ∀ d ∈ acc.1, d < m ∧ alive d = true
  errs_nodup : acc.2.Nodup
  errs : ∀ j ∈ acc.2, j < m ∧ j < K ∧ alive j = false
  cover : ∀ j < m, j < K → j ∈ acc.1 ∨ j ∈ acc.2

theorem SelectInv.step {alive : Nat → Bool} {acc : List Nat × List Nat}
    (h : SelectInv alive m acc) :
    SelectInv alive (m + 1) (if acc.1.length < K then selectNode (alive m) m acc else acc) := by
  obtain ⟨ds, es⟩ := acc
  obtain ⟨hl, hn, hc, hen, he, hcov⟩ := h
  simp only at hl hn hc hen he hcov
  have hdm : m ∉ ds := fun hm => absurd (hc m hm).1 (lt_irrefl m)
  have hem : m ∉ es := fun hm => absurd (he m hm).1 (lt_irrefl m)
  have hcount : ((List.range (m + 1)).filter alive).length =
      ((List.range m).filter alive).length + if alive m then 1 else 0 := by
    rw [List.range_succ, List.filter_append, List.length_append]
    cases ha : alive m <;> simp [ha]
  have hc' : ∀ d ∈ ds, d < m + 1 ∧ alive d = true := fun d hd =>
    ⟨(hc d hd).1.trans m.lt_succ_self, (hc d hd).2⟩
  have he' : ∀ j ∈ es, j < m + 1 ∧ j < K ∧ alive j = false := fun j hj =>
    ⟨(he j hj).1.trans m.lt_succ_self, (he j hj).2⟩
  by_cases hlt : ds.length < K
  · rw [if_pos hlt]
    cases ha : alive m with
    | true =>
      refine ⟨?_, ?_, ?_, hen, he', ?_⟩
      · simp only [selectNode, ↓reduceIte, List.length_append, List.length_singleton, hcount, ha]
        omega
      · exact hn.append (List.nodup_singleton m) (by simpa using hdm)
      · intro d hd
        rcases List.mem_append.1 hd with hd | hd
        · exact hc' d hd
        · rw [List.mem_singleton.1 hd]
          exact ⟨m.lt_succ_self, ha⟩
      · intro j hj hk
        rcases Nat.lt_succ_iff_lt_or_eq.1 hj with hj | rfl
        · exact (hcov j hj hk).imp_left (List.mem_append_left _)
        · exact .inl (List.mem_append_right _ (List.mem_singleton_self j))
    | false =>
      have hl' : ds.length = min K ((List.range (m + 1)).filter alive).length := by
        simpa only [hcount, ha, Bool.false_eq_true, ↓reduceIte, Nat.add_zero] using hl
      by_cases hk : m < K
      · simp only [selectNode, Bool.false_eq_true, ↓reduceIte, hk]
        refine ⟨hl', hn, hc', hen.append (List.nodup_singleton m) (by simpa using hem), ?_, ?_⟩
        · intro j hj
          rcases List.mem_append.1 hj with hj | hj
          · exact he' j hj
          · rw [List.mem_singleton.1 hj]
            exact ⟨m.lt_succ_self, hk, ha⟩
        · intro j hj hjk
          rcases Nat.lt_succ_iff_lt_or_eq.1 hj with hj | rfl
          · exact (hcov j hj hjk).imp_right (List.mem_append_left _)
          · exact .inr (List.mem_append_right _ (List.mem_singleton_self j))
      · simp only [selectNode, Bool.false_eq_true, ↓reduceIte, hk]
        exact ⟨hl', hn, hc', hen, he', fun j hj hjk => hcov j (by omega) hjk⟩
  · -- all `K` survivors are below `m`, so no data node is left to look at
    rw [if_neg hlt]
    have hm : K ≤ m := by
      have hsub : ds ⊆ List.range m := fun d hd => List.mem_range.2 (hc d hd).1
      have := (hn.subperm hsub).length_le
      rw [List.length_range] at this
      omega
    refine ⟨?_, hn, hc', hen, he', fun j hj hjk => hcov j (by omega) hjk⟩
    change ds.length = _
    rw [hcount]
    omega

theorem select_inv (alive : Nat → Bool) (m : Nat) : SelectInv alive m (select alive m) := by
  induction m with
  | zero => exact ⟨rfl, .nil, by simp [select], .nil, by simp [select], by simp⟩
  | succ m ih =>
    rw [select_succ]
    exact ih.step

theorem select_spec {alive : Nat → Bool} (h : K ≤ ((List.range N).filter alive).length) :
    Selected (select alive N).1 (select alive N).2 := by
  obtain ⟨hl, hn, hc, hen, he, hcov⟩ := select_inv alive N
  refine ⟨hl.trans (min_eq_left h), hn, fun d hd => (hc d hd).1, hen, fun j hj => (he j hj).2.1,
    fun j hj => hcov j (hj.trans (by decide)) hj, fun j hj hj' => ?_⟩
  have hlive := (hc j hj).2
  rw [(he j hj').2.2] at hlive
  cases hlive

theorem entry_eq {xs : List Nat} {i : Nat} (h : i < xs.length) :
    entry xs i = .ret (xs.getD i 0) := by
  rw [entry, List.getElem?_eq_getElem h, List.getD_eq_getElem _ _ h]

theorem notMem_take {xs : List Nat} {i : Nat} (hn : xs.Nodup) (h : i < xs.length) :
    xs[i] ∉ xs.take i := by
  intro hm
  have hrest : xs[i] ∈ xs.drop i := by
    rw [List.drop_eq_getElem_cons h]
    exact List.mem_cons_self
  exact List.disjoint_take_drop hn le_rfl hm hrest

theorem notMem_drop {xs : List Nat} {i : Nat} (hn : xs.Nodup) (h : i < xs.length) :
    xs[i] ∉ xs.drop (i + 1) := by
  have hrest := hn.sublist (List.drop_sublist i xs)
  rw [List.drop_eq_getElem_cons h] at hrest
  exact (List.nodup_cons.1 hrest).1

theorem copyRow_foldl (src dst : Mem) (f : Nat → Nat) {n i j : Nat} (hi : i < n) (hj : j < K) :
    ((List.range n).foldl (fun m i => copyRow m src i (f i)) dst) (K * i + j) =
      src (K * f i + j) := by
  induction n with
  | zero => exact absurd hi i.not_lt_zero
  | succ n ih =>
    rw [List.range_succ, List.foldl_append, List.foldl_cons, List.foldl_nil, copyRow]
    rcases Nat.lt_succ_iff_lt_or_eq.1 hi with hlt | rfl
    · have hrow : K * i + K ≤ K * n := by
        rw [← Nat.mul_succ]
        exact Nat.mul_le_mul_left K hlt
      rw [if_neg (by omega), ih hlt]
    · rw [if_pos (by omega), Nat.add_sub_cancel_left]

namespace Selected

variable {ds es : List Nat} (h : Selected ds es)
include h

def row (i : Fin K) : Fin N :=
  ⟨ds.getD i 0, h.lt _ (by
    rw [List.getD_eq_getElem _ _ (i.isLt.trans_eq h.length.symm)]
    exact List.getElem_mem _)⟩

theorem row_mem (i : Fin K) : (h.row i).val ∈ ds := by
  exact getD_mem (i.isLt.trans_eq h.length.symm)

theorem exists_row {d : Nat} (hd : d ∈ ds) : ∃ i, (h.row i).val = d := by
  obtain ⟨i, hi, rfl⟩ := List.getElem_of_mem hd
  exact ⟨⟨i, hi.trans_eq h.length⟩, List.getD_eq_getElem _ _ hi⟩

theorem row_injective : Function.Injective h.row := by
  intro i j hij
  have hi : i.val < ds.length := i.isLt.trans_eq h.length.symm
  have hj : j.val < ds.length := j.isLt.trans_eq h.length.symm
  exact Fin.ext ((List.getD_inj hi hj h.nodup).1 (congrArg Fin.val hij))

theorem survivorRows_eq (e : ECAL) : ∃ b, e.survivorRows ds = .ret b ∧
    toMatrix b K K = e.generator.submatrix h.row id := by
  refine ⟨(List.range K).foldl (fun b i => copyRow b e.encodeMatrix i (ds.getD i 0)) fun _ => 0,
    Prog.foldlM_ret _ _ fun b i hi => ?_, ?_⟩
  · rw [entry_eq (by rw [h.length]; exact List.mem_range.1 hi)]
    rfl
  · funext i j
    rw [toMatrix, copyRow_foldl _ _ _ i.isLt j.isLt]
    rfl

end Selected

theorem storeBlocks_load {data : Mem} {pos : Nat → Nat} {f g : Nat → BlockTy} {n j : Nat}
    (hf : ∀ l < n, f l = g (pos l))
    (hj : (∃ l < n, pos l = j) ∨ data.load (j * blockSize) blockSize = g j) :
    ((List.range n).foldl (fun m l => m.store (pos l * blockSize) (f l)) data).load
      (j * blockSize) blockSize = g j := by
  induction n with
  | zero =>
    rcases hj with ⟨l, hl, -⟩ | hj
    · exact absurd hl l.not_lt_zero
    · exact hj
  | succ n ih =>
    rw [List.range_succ, List.foldl_append, List.foldl_cons, List.foldl_nil,
      Mem.load_store_block]
    split
    · next hn =>
      rw [hf n n.lt_succ_self, hn]
    · next hn =>
      apply ih (fun l hl => hf l (hl.trans n.lt_succ_self))
      rcases hj with ⟨l, hl, rfl⟩ | hj
      · rcases Nat.lt_succ_iff_lt_or_eq.1 hl with hl | rfl
        · exact .inl ⟨l, hl, rfl⟩
        · exact absurd rfl hn
      · exact .inr hj

section Documented

variable {e : ECAL} (hd : e.isal.Documented) {ds es : List Nat} (h : Selected ds es)
include hd

theorem invert_survivors {b : Mem} (hb : toMatrix b K K = e.generator.submatrix h.row id) :
    ∃ A, e.isal.gf_invert_matrix b K = some A ∧
      toMatrix A K K * e.generator.submatrix h.row id = 1 := by
  obtain ⟨A, hA, hmul⟩ := hd.invert_of_isUnit (n := K) (hb ▸ generator_isMDS hd _ h.row_injective)
  exact ⟨A, hA, hb ▸ hmul⟩

/-- A row of the inverse applied to the survivors' symbols gives back a symbol of the page. -/
theorem decode_symbol {A : Mem} (hA : toMatrix A K K * e.generator.submatrix h.row id = 1)
    (page : Block4K) {j : Nat} (hj : j < K) (t : Fin blockSize) :
    (toMatrix A K K).mulVec (fun i => ⟨e.blockOf page (ds.getD i 0) t⟩) ⟨j, hj⟩ =
      ⟨dataBlock page j t⟩ := by
  have hsym : (fun i : Fin K => (⟨e.blockOf page (ds.getD i 0) t⟩ : GF256)) =
      fun i => e.generator.mulVec (symbols page t) (h.row i) := by
    funext i
    exact blockOf_symbol hd page (h.row i) t
  rw [hsym, mulVec_decode hA]
  rfl

theorem recoverBlocks_load {A data : Mem} {blks : List BlockTy} {page : Block4K}
    (hA : toMatrix A K K * e.generator.submatrix h.row id = 1)
    (hblks : ∀ i < K, blks.getD i (fun _ => 0) = e.blockOf page (ds.getD i 0))
    (hdata : ∀ j < K, j ∈ ds → data.load (j * blockSize) blockSize = dataBlock page j) :
    (e.recoverBlocks es A blks data).load 0 4096 = page := by
  apply load_eq_of_blocks
  intro j hj
  apply storeBlocks_load
  · intro l hl
    funext t
    have hlt : es.getD l 0 < K := h.errs_lt _ (getD_mem hl)
    have henc := hd.encode blockSize K es.length
      ((List.range es.length).foldl (fun m i => copyRow m A i (es.getD i 0)) fun _ => 0)
      (fun j => DataBlock.mem (blks.getD j fun _ => 0)) ⟨l, hl⟩ t t.isLt
    have hrow : toMatrix ((List.range es.length).foldl (fun m i => copyRow m A i (es.getD i 0))
        fun _ => 0) es.length K ⟨l, hl⟩ = toMatrix A K K ⟨es.getD l 0, hlt⟩ := by
      funext c
      simp only [toMatrix, copyRow_foldl A _ (fun i => es.getD i 0) hl c.isLt]
    have hsym : (fun i : Fin K => (⟨DataBlock.mem (blks.getD i fun _ => 0) t⟩ : GF256)) =
        fun i => ⟨e.blockOf page (ds.getD i 0) t⟩ := by
      funext i
      rw [hblks i i.isLt, DataBlock.mem, dif_pos t.isLt]
    rw [Matrix.mulVec, hrow, hsym] at henc
    exact congrArg GF256.byte (henc.trans (decode_symbol hd h hA page hlt t))
  · rcases h.cover j hj with hds | hes
    · exact .inr (hdata j hj hds)
    · obtain ⟨l, hl, hlj⟩ := List.getElem_of_mem hes
      exact .inl ⟨l, hl, by rw [List.getD_eq_getElem _ _ hl, hlj]⟩

include h

theorem blockOf_row (page : Block4K) (i : Fin K) (t : Fin blockSize) :
    (⟨e.blockOf page (h.row i) t⟩ : GF256) =
      (e.generator.submatrix h.row id).mulVec (symbols page t) i :=
  blockOf_symbol hd page (h.row i) t

/-- A page is determined by the blocks of the chosen nodes. -/
theorem page_unique {p q : Block4K} (hpq : ∀ d ∈ ds, e.blockOf p d = e.blockOf q d) : p = q := by
  apply dataBlock_ext
  intro j hj
  funext t
  have hsym : symbols p t = symbols q t := by
    apply Matrix.mulVec_injective_iff_isUnit.2 (generator_isMDS hd _ h.row_injective)
    funext i
    rw [← blockOf_row hd h, ← blockOf_row hd h, hpq _ (h.row_mem i)]
  exact congrArg GF256.byte (congrFun hsym ⟨j, hj⟩)

theorem exists_page (blk : Nat → BlockTy) : ∃ page, ∀ d ∈ ds, e.blockOf page d = blk d := by
  have hsol (t : Fin blockSize) : ∃ x, (e.generator.submatrix h.row id).mulVec x =
      fun i => ⟨blk (h.row i) t⟩ :=
    Matrix.mulVec_surjective_iff_isUnit.2 (generator_isMDS hd _ h.row_injective) _
  choose x hx using hsol
  refine ⟨ofSymbols x, fun d hd' => ?_⟩
  obtain ⟨i, rfl⟩ := h.exists_row hd'
  funext t
  have hsym := blockOf_row hd h (ofSymbols x) i t
  rw [symbols_ofSymbols, hx] at hsym
  exact congrArg GF256.byte hsym

end Documented

end ECAL

end Galois
