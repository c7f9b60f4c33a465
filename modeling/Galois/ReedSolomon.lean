import Galois.IsaL

namespace Galois
set_option autoImplicit true
set_option relaxedAutoImplicit false

/-- An instance `ReedSolomonCode<K, P, Len>`, with the library it links. -/
structure ReedSolomonCode where
  isal : IsaL
  K : Nat
  P : Nat
  Len : Nat

namespace ReedSolomonCode

variable (r : ReedSolomonCode)

def N : Nat := r.K + r.P

def encodeMatrix : Mem := r.isal.gf_gen_cauchy1_matrix r.N r.K

def gfTables : Mem := r.isal.ec_init_tables r.K r.P fun x => r.encodeMatrix (r.K * r.K + x)

/-- The parity lines of the `srcData`. -/
def encode (srcData : Nat → Mem) : Nat → Mem :=
  r.isal.ec_encode_data r.Len r.K r.P r.gfTables srcData

/-- The loop over `srcId`, which gives the bitmap `live` and the lines in `recoverSrc`; `none` is an
access out of bounds. -/
def sources (srcId : List Nat) : Option ((Nat → Bool) × List Nat) :=
  (List.range r.K).foldlM (fun (live, recoverSrc) i => do
    let line ← srcId[i]?
    if line < r.N then some (Function.update live line true, recoverSrc ++ [line]) else none)
    (fun _ => false, [])

/-- The loop over all `N` ids, which gives `errIndex` and the lines in `recoverOutput`. -/
def errors (srcId : List Nat) (live : Nat → Bool) : Option (List Nat × List Nat) :=
  (List.range r.N).foldlM (fun (errIndex, recoverOutput) i =>
    if live i then some (errIndex, recoverOutput)
    else do
      let line ← srcId[i]?
      if errIndex.length < r.P ∧ line < r.N then some (errIndex ++ [i], recoverOutput ++ [line])
      else none) ([], [])

/-- The rows of a matrix with `K` columns at some places, one after the other. -/
def rows (matrix : Mem) (ids : List Nat) : Mem := fun x =>
  matrix (r.K * ids.getD (x / r.K) 0 + x % r.K)

/-- A line with its first `Len` bytes written. -/
def fill (line out : Mem) : Mem := fun t => if t < r.Len then out t else line t

/-- The lines after `decode`; without an inverse the `invertMatrix` keeps what it holds. A line of
`recoverOutput` may be among `recoverSrc`: `ec_encode_data` is taken to compute all outputs from the
sources as they were before the call, and the outputs then to be written in their order. -/
def decode (srcId : List Nat) (data : Nat → Mem) (invertMatrix : Mem) : Option (Nat → Mem) := do
  let (live, recoverSrc) ← r.sources srcId
  let (errIndex, recoverOutput) ← r.errors srcId live
  let b := r.rows r.encodeMatrix srcId
  let invertMatrix := (r.isal.gf_invert_matrix b r.K).getD invertMatrix
  if errIndex.all (· < r.K) then
    let decodeMatrix := r.rows invertMatrix errIndex
    let gfTbls := r.isal.ec_init_tables r.K errIndex.length decodeMatrix
    let out := r.isal.ec_encode_data r.Len r.K errIndex.length gfTbls
      fun i => data (recoverSrc.getD i 0)
    some ((List.range errIndex.length).foldl (fun data i =>
      let line := recoverOutput.getD i 0
      Function.update data line (r.fill (data line) (out i))) data)
  else none

structure Ids (srcId : List Nat) : Prop where
  length : srcId.length = r.K
  nodup : srcId.Nodup
  lt : ∀ d ∈ srcId, d < r.N

def missing (srcId : List Nat) (m : Nat) : List Nat := (List.range m).filter (· ∉ srcId)

variable {r} {srcId : List Nat}

section Ids

variable (h : r.Ids srcId)
include h

theorem Ids.sources_eq : r.sources srcId = some (fun j => decide (j ∈ srcId), srcId) := by
  have hloop (m : Nat) (hm : m ≤ r.K) : (List.range m).foldlM (fun (live, recoverSrc) i => do
      let line ← srcId[i]?
      if line < r.N then some (Function.update live line true, recoverSrc ++ [line]) else none)
      ((fun _ => false : Nat → Bool), ([] : List Nat)) =
      some (fun j => decide (j ∈ srcId.take m), srcId.take m) := by
    induction m with
    | zero => simp
    | succ m ih =>
      have hlt : m < srcId.length := by
        rw [h.length]
        omega
      have hline : srcId[m] < r.N := h.lt _ (List.getElem_mem hlt)
      rw [List.range_succ, List.foldlM_append, ih (by omega)]
      simp only [List.foldlM_cons, List.foldlM_nil, List.getElem?_eq_getElem hlt, hline,
        ↓reduceIte, Option.bind_eq_bind, Option.bind_some, Option.pure_def, Option.some.injEq,
        Prod.mk.injEq]
      rw [List.take_succ_eq_append_getElem hlt]
      refine ⟨?_, rfl⟩
      funext j
      simp only [Function.update_apply, List.mem_append, List.mem_singleton]
      by_cases hj : j = srcId[m] <;> simp [hj]
  have hall := hloop r.K (Nat.le_refl _)
  rw [← h.length, List.take_length] at hall
  rw [sources, ← h.length]
  exact hall

theorem Ids.length_missing : (missing srcId r.N).length = r.P := by
  have hperm : ((List.range r.N).filter (· ∈ srcId)).Perm srcId := by
    apply (List.perm_ext_iff_of_nodup (List.nodup_range.filter _) h.nodup).2
    intro d
    simp only [List.mem_filter, List.mem_range, decide_eq_true_eq, and_iff_right_iff_imp]
    exact h.lt d
  have hlen := hperm.length_eq
  rw [h.length] at hlen
  have hsum := List.length_eq_length_filter_add (l := List.range r.N) (fun d => decide (d ∈ srcId))
  rw [List.length_range, hlen] at hsum
  simp only [missing]
  have hnot : (List.range r.N).filter (fun d => !decide (d ∈ srcId)) =
      (List.range r.N).filter (fun d => decide (d ∉ srcId)) := by
    simp only [decide_not]
  rw [hnot] at hsum
  simp only [N] at hsum ⊢
  omega

theorem Ids.errors_eq (hlt : ∀ d ∈ missing srcId r.N, d < r.K) :
    r.errors srcId (fun j => decide (j ∈ srcId)) =
      some (missing srcId r.N, (missing srcId r.N).map fun d => srcId.getD d 0) := by
  have hloop (m : Nat) (hm : m ≤ r.N) : (List.range m).foldlM (fun (errIndex, recoverOutput) i =>
      if decide (i ∈ srcId) then some (errIndex, recoverOutput)
      else do
        let line ← srcId[i]?
        if errIndex.length < r.P ∧ line < r.N then some (errIndex ++ [i], recoverOutput ++ [line])
        else none) (([], []) : List Nat × List Nat) =
      some (missing srcId m, (missing srcId m).map fun d => srcId.getD d 0) := by
    induction m with
    | zero => rfl
    | succ m ih =>
      rw [List.range_succ, List.foldlM_append, ih (by omega)]
      by_cases hm' : m ∈ srcId
      · have hsame : missing srcId (m + 1) = missing srcId m := by
          simp [missing, List.range_succ, List.filter_append, hm']
        rw [hsame]
        simp [hm']
      · have hnext : missing srcId (m + 1) = missing srcId m ++ [m] := by
          simp [missing, List.range_succ, List.filter_append, hm']
        have hmem : m ∈ missing srcId r.N := by
          simp only [missing, List.mem_filter, List.mem_range, decide_eq_true_eq]
          exact ⟨by omega, hm'⟩
        have hin : m < srcId.length := by
          rw [h.length]
          exact hlt m hmem
        have hline : srcId[m] < r.N := h.lt _ (List.getElem_mem hin)
        have hroom : (missing srcId m).length < r.P := by
          have hsub : (missing srcId (m + 1)).Sublist (missing srcId r.N) :=
            (List.range_sublist.2 (by omega)).filter _
          have hle := hsub.length_le
          rw [h.length_missing, hnext, List.length_append] at hle
          exact hle
        rw [hnext]
        simp [hm', hroom, hline, List.getElem?_eq_getElem hin]
  exact hloop r.N (Nat.le_refl _)

theorem Ids.errors_none {d : Nat} (hd : d < r.N) (hK : r.K ≤ d) (hmiss : d ∉ srcId) :
    r.errors srcId (fun j => decide (j ∈ srcId)) = none := by
  have hnone : srcId[d]? = none := List.getElem?_eq_none (by rw [h.length]; exact hK)
  obtain ⟨k, hk⟩ : ∃ k, r.N = d + 1 + k := ⟨r.N - (d + 1), by omega⟩
  rw [errors, hk, List.range_add, List.range_succ, List.append_assoc, List.foldlM_append]
  simp [hmiss, hnone]

def Ids.row (i : Fin r.K) : Fin r.N :=
  ⟨srcId.getD i 0, h.lt _ (by
    rw [List.getD_eq_getElem _ _ (i.isLt.trans_eq h.length.symm)]
    exact List.getElem_mem _)⟩

theorem Ids.row_injective : Function.Injective h.row := by
  intro i j hij
  have hi : i.val < srcId.length := i.isLt.trans_eq h.length.symm
  have hj : j.val < srcId.length := j.isLt.trans_eq h.length.symm
  exact Fin.ext ((List.getD_inj hi hj h.nodup).1 (congrArg Fin.val hij))

theorem Ids.row_mem (i : Fin r.K) : (h.row i).val ∈ srcId := by
  exact getD_mem (i.isLt.trans_eq h.length.symm)

end Ids

def generator (r : ReedSolomonCode) : Matrix (Fin r.N) (Fin r.K) GF256 :=
  toMatrix r.encodeMatrix r.N r.K

/-- The lines that `orig` is encoded in. -/
def line (r : ReedSolomonCode) (orig : Nat → Mem) (i : Nat) : Mem :=
  if i < r.K then orig i else r.encode orig (i - r.K)

theorem rows_submatrix (h : r.Ids srcId) :
    toMatrix (r.rows r.encodeMatrix srcId) r.K r.K = r.generator.submatrix h.row id := by
  funext i j
  simp only [toMatrix, rows, entry_div, entry_mod]
  rfl

section Documented

variable (hd : r.isal.Documented) (hN : r.N ≤ 256)
include hd hN

theorem generator_isMDS : IsMDS r.generator :=
  hd.cauchy_isMDS (Nat.le_add_right _ _) hN

theorem line_symbol (orig : Nat → Mem) (i : Fin r.N) {t : Nat} (ht : t < r.Len) :
    (⟨r.line orig i t⟩ : GF256) = r.generator.mulVec (fun j => ⟨orig j t⟩) i := by
  by_cases hi : i.val < r.K
  · rw [generator, encodeMatrix, hd.data_row hN hi, line, if_pos hi]
  · rw [line, if_neg hi, encode, gfTables]
    exact hd.parity_row r.encodeMatrix orig hi ht

theorem invert_rows (h : r.Ids srcId) :
    ∃ A, r.isal.gf_invert_matrix (r.rows r.encodeMatrix srcId) r.K = some A ∧
      toMatrix A r.K r.K * r.generator.submatrix h.row id = 1 := by
  have hunit := generator_isMDS hd hN _ h.row_injective
  rw [← rows_submatrix h] at hunit ⊢
  exact hd.invert_of_isUnit hunit

/-- The row of the inverse for a missing line gives its bytes back from those of the sources. -/
theorem recovered (h : r.Ids srcId) {A : Mem}
    (hA : toMatrix A r.K r.K * r.generator.submatrix h.row id = 1) {orig data : Nat → Mem}
    (hdata : ∀ d ∈ srcId, ∀ t < r.Len, data d t = r.line orig d t) {errIndex : List Nat}
    {i t : Nat} (hi : i < errIndex.length) (hlt : errIndex.getD i 0 < r.K) (ht : t < r.Len) :
    r.isal.ec_encode_data r.Len r.K errIndex.length
      (r.isal.ec_init_tables r.K errIndex.length (r.rows A errIndex))
      (fun i => data (srcId.getD i 0)) i t = orig (errIndex.getD i 0) t := by
  have henc := hd.encode r.Len r.K errIndex.length (r.rows A errIndex)
    (fun i => data (srcId.getD i 0)) ⟨i, hi⟩ t ht
  have hrow : toMatrix (r.rows A errIndex) errIndex.length r.K ⟨i, hi⟩ =
      toMatrix A r.K r.K ⟨errIndex.getD i 0, hlt⟩ := by
    funext j
    simp only [toMatrix, rows, entry_div, entry_mod]
  have hsym : (fun i : Fin r.K => (⟨data (srcId.getD i 0) t⟩ : GF256)) =
      fun i => r.generator.mulVec (fun j => ⟨orig j t⟩) (h.row i) := by
    funext i
    rw [← line_symbol hd hN orig (h.row i) ht, ← hdata _ (h.row_mem i) t ht]
    rfl
  rw [Matrix.mulVec, hrow, hsym] at henc
  have hdecode := congrFun (mulVec_decode hA fun j => (⟨orig j t⟩ : GF256)) ⟨errIndex.getD i 0, hlt⟩
  exact congrArg GF256.byte (henc.trans hdecode)

end Documented

theorem fills (data out : Nat → Mem) (target : Nat → Nat) {n : Nat}
    (hinj : ∀ i < n, ∀ j < n, target i = target j → i = j) :
    let data' := (List.range n).foldl (fun data i =>
      Function.update data (target i) (r.fill (data (target i)) (out i))) data
    (∀ l, (∀ i < n, target i ≠ l) → data' l = data l) ∧
      ∀ i < n, data' (target i) = r.fill (data (target i)) (out i) := by
  induction n with
  | zero => exact ⟨fun l _ => rfl, fun i hi => absurd hi i.not_lt_zero⟩
  | succ n ih =>
    obtain ⟨hother, hfill⟩ := ih fun i hi j hj he =>
      hinj i (hi.trans n.lt_succ_self) j (hj.trans n.lt_succ_self) he
    simp only [List.range_succ, List.foldl_append, List.foldl_cons, List.foldl_nil]
    have hlast := hother (target n) fun i hi he =>
      hi.ne (hinj i (hi.trans n.lt_succ_self) n n.lt_succ_self he)
    constructor
    · intro l hl
      rw [Function.update_of_ne (hl n n.lt_succ_self).symm]
      exact hother l fun i hi => hl i (hi.trans n.lt_succ_self)
    · intro i hi
      cases Nat.lt_succ_iff_lt_or_eq.1 hi with
      | inl hlt =>
        have hne : target i ≠ target n := fun he => hlt.ne (hinj i hi n n.lt_succ_self he)
        rw [Function.update_of_ne hne]
        exact hfill i hlt
      | inr he =>
        subst he
        rw [Function.update_self, hlast]

theorem mem_missing {d m : Nat} : d ∈ missing srcId m ↔ d < m ∧ d ∉ srcId := by
  simp only [missing, List.mem_filter, List.mem_range, decide_eq_true_eq]

theorem Ids.length_gt (h : r.Ids srcId) {d : Nat} (hd : d < r.K) : d < srcId.length :=
  hd.trans_eq h.length.symm

theorem decode_eq (hd : r.isal.Documented) (hN : r.N ≤ 256) (h : r.Ids srcId)
    (hlt : ∀ d ∈ missing srcId r.N, d < r.K) {orig data : Nat → Mem}
    (hdata : ∀ d ∈ srcId, ∀ t < r.Len, data d t = r.line orig d t) (invertMatrix : Mem) :
    ∃ data', r.decode srcId data invertMatrix = some data' ∧
      (∀ l, (∀ d ∈ missing srcId r.N, srcId.getD d 0 ≠ l) → data' l = data l) ∧
      ∀ d ∈ missing srcId r.N, ∀ t < r.Len, data' (srcId.getD d 0) t = orig d t := by
  obtain ⟨A, hA, hinv⟩ := invert_rows hd hN h
  set errIndex := missing srcId r.N with herr
  have hall : (errIndex.all (· < r.K)) = true := by
    rw [List.all_eq_true]
    intro d hd'
    exact decide_eq_true (hlt d hd')
  have hget (i : Nat) (hi : i < errIndex.length) :
      errIndex.getD i 0 ∈ errIndex ∧ (errIndex.map fun d => srcId.getD d 0).getD i 0 =
        srcId.getD (errIndex.getD i 0) 0 := by
    refine ⟨getD_mem hi, ?_⟩
    rw [List.getD_eq_getElem _ _ hi, List.getD_eq_getElem _ _ (by rw [List.length_map]; exact hi),
      List.getElem_map]
  have hnodup : errIndex.Nodup := List.nodup_range.filter _
  obtain ⟨hother, hfill⟩ := @fills r data (r.isal.ec_encode_data r.Len r.K errIndex.length
    (r.isal.ec_init_tables r.K errIndex.length (r.rows A errIndex))
    fun i => data (srcId.getD i 0)) (fun i => (errIndex.map fun d => srcId.getD d 0).getD i 0)
    errIndex.length (by
      intro i hi j hj he
      simp only [(hget i hi).2, (hget j hj).2] at he
      have hid := h.length_gt (hlt _ (hget i hi).1)
      have hjd := h.length_gt (hlt _ (hget j hj).1)
      exact (List.getD_inj hi hj hnodup).1 ((List.getD_inj hid hjd h.nodup).1 he))
  refine ⟨(List.range errIndex.length).foldl (fun lines i =>
    Function.update lines ((errIndex.map fun d => srcId.getD d 0).getD i 0)
      (r.fill (lines ((errIndex.map fun d => srcId.getD d 0).getD i 0))
        (r.isal.ec_encode_data r.Len r.K errIndex.length
          (r.isal.ec_init_tables r.K errIndex.length (r.rows A errIndex))
          (fun i => data (srcId.getD i 0)) i))) data, ?_, ?_, ?_⟩
  · simp only [decode, h.sources_eq, h.errors_eq hlt, ← herr, Option.bind_eq_bind, Option.bind_some,
      hA, Option.getD_some, hall, ↓reduceIte]
  · intro l hl
    apply hother
    intro i hi
    rw [(hget i hi).2]
    exact hl _ (hget i hi).1
  · intro d hd' t ht
    obtain ⟨i, hi, rfl⟩ := List.getElem_of_mem hd'
    have hline := hfill i hi
    simp only [(hget i hi).2, List.getD_eq_getElem _ _ hi] at hline
    have hbyte := recovered hd hN h hinv hdata hi (hlt _ (hget i hi).1) ht
    rw [List.getD_eq_getElem _ _ hi] at hbyte
    exact (congrFun hline t).trans ((if_pos ht).trans hbyte)

/-- The sources stay as they are and the first `K` lines are those of `orig`. -/
def RoundTrip (r : ReedSolomonCode) (srcId : List Nat) (orig data : Nat → Mem)
    (result : Option (Nat → Mem)) : Prop :=
  ∃ data', result = some data' ∧ (∀ d ∈ srcId, ∀ t < r.Len, data' d t = data d t) ∧
    ∀ j < r.K, ∀ t < r.Len, data' j t = orig j t

/-- Only data lines are missing, and each of them is there already, also at the source of its
number. -/
def Spared (r : ReedSolomonCode) (srcId : List Nat) (orig data : Nat → Mem) : Prop :=
  ∀ d < r.N, d ∉ srcId → d < r.K ∧ ∀ t < r.Len, data d t = orig d t ∧
    data (srcId.getD d 0) t = orig d t

section Stored

variable (hd : r.isal.Documented) (hN : r.N ≤ 256) (h : r.Ids srcId) {orig data : Nat → Mem}
  (hdata : ∀ d ∈ srcId, ∀ t < r.Len, data d t = r.line orig d t) (invertMatrix : Mem)
include hd hN h hdata

/-- The number of a missing data line is below `K`, so it is the source of that number that `decode`
overwrites, and the line itself that it leaves. -/
theorem RoundTrip.spared (hr : r.RoundTrip srcId orig data (r.decode srcId data invertMatrix)) :
    r.Spared srcId orig data := by
  by_cases hlt : ∀ d ∈ missing srcId r.N, d < r.K
  · obtain ⟨data', hdecode, hother, hline⟩ := decode_eq hd hN h hlt hdata invertMatrix
    have hsource (d : Nat) (hd' : d < r.K) : srcId.getD d 0 ∈ srcId := h.row_mem ⟨d, hd'⟩
    obtain ⟨data'', he, hkept, horig⟩ := hr
    rw [hdecode] at he
    cases he
    intro d hdN hmiss
    have hmem := mem_missing.2 ⟨hdN, hmiss⟩
    have hdK := hlt d hmem
    refine ⟨hdK, fun t ht => ⟨?_, ?_⟩⟩
    · have hsame := hother d fun d' hd' he => hmiss (he ▸ hsource d' (hlt d' hd'))
      rw [← hsame]
      exact horig d hdK t ht
    · rw [← hkept _ (hsource d hdK) t ht]
      exact hline d hmem t ht
  · simp only [not_forall, not_lt] at hlt
    obtain ⟨d, hmem, hK⟩ := hlt
    obtain ⟨hdN, hmiss⟩ := mem_missing.1 hmem
    obtain ⟨data', he, -⟩ := hr
    simp only [decode, h.sources_eq, h.errors_none hdN hK hmiss, Option.bind_eq_bind,
      Option.bind_some, Option.bind_none] at he
    cases he

theorem Spared.roundTrip (hs : r.Spared srcId orig data) :
    r.RoundTrip srcId orig data (r.decode srcId data invertMatrix) := by
  have hlt : ∀ d ∈ missing srcId r.N, d < r.K := fun d hmem =>
    (hs d (mem_missing.1 hmem).1 (mem_missing.1 hmem).2).1
  obtain ⟨data', hdecode, hother, hline⟩ := decode_eq hd hN h hlt hdata invertMatrix
  have hsame (l t : Nat) (ht : t < r.Len) : data' l t = data l t := by
    by_cases hl : ∀ d ∈ missing srcId r.N, srcId.getD d 0 ≠ l
    · rw [hother l hl]
    · simp only [not_forall, not_not] at hl
      obtain ⟨d, hmem, rfl⟩ := hl
      obtain ⟨hdN, hmiss⟩ := mem_missing.1 hmem
      rw [hline d hmem t ht, ((hs d hdN hmiss).2 t ht).2]
  refine ⟨data', hdecode, fun d _ t ht => hsame d t ht, fun j hj t ht => ?_⟩
  rw [hsame j t ht]
  by_cases hjs : j ∈ srcId
  · rw [hdata j hjs t ht, line, if_pos hj]
  · exact ((hs j (Nat.lt_add_right _ hj) hjs).2 t ht).1

end Stored

theorem decode_exact (isal : IsaL) (hd : isal.Documented) (K P Len : Nat)
    (hN : K + P ≤ 255) (orig data : Nat → Mem) (srcId : List Nat)
    (h : Ids ⟨isal, K, P, Len⟩ srcId)
    (hdata : ∀ d ∈ srcId, ∀ t < Len, data d t = line ⟨isal, K, P, Len⟩ orig d t)
    (invertMatrix : Mem) :
    RoundTrip ⟨isal, K, P, Len⟩ srcId orig data
        (decode ⟨isal, K, P, Len⟩ srcId data invertMatrix) ↔
      Spared ⟨isal, K, P, Len⟩ srcId orig data := by
  have hN' : N ⟨isal, K, P, Len⟩ ≤ 256 := Nat.le_succ_of_le hN
  constructor
  · intro hr
    exact RoundTrip.spared hd hN' h hdata invertMatrix hr
  · intro hs
    exact Spared.roundTrip hd hN' h hdata invertMatrix hs

def pair : ReedSolomonCode := ⟨IsaL.base, 2, 1, 1⟩

theorem pair_ids : pair.Ids [0, 2] where
  length := rfl
  nodup := by decide
  lt := by decide

/-- The second data line is lost, but its byte is there, and is that of the parity line too. -/
theorem decode_exact_equal :
    let orig : Nat → Mem := fun j _ => if j = 0 then 255 else 7
    pair.RoundTrip [0, 2] orig (pair.line orig)
      (pair.decode [0, 2] (pair.line orig) fun _ => 0) := by
  intro orig
  apply (decode_exact IsaL.base IsaL.base_documented 2 1 1 (by decide) orig (pair.line orig) [0, 2]
    pair_ids (fun _ _ _ _ => rfl) fun _ => 0).2
  intro d hd hmiss
  have hone : d = 1 := by
    simp only [List.mem_cons, List.not_mem_nil, or_false, not_or] at hmiss
    change d < 3 at hd
    omega
  subst hone
  refine ⟨by decide, fun t ht => ?_⟩
  obtain rfl := Nat.lt_one_iff.1 ht
  exact ⟨rfl, by decide +kernel⟩

/-- The second data line is lost; it is recovered over the parity line. -/
theorem decode_overwrites_parity :
    let orig : Nat → Mem := fun j _ => if j = 0 then 5 else 7
    let data := Function.update (pair.line orig) 1 fun _ => 0
    pair.Ids [0, 2] ∧ (∀ d ∈ [0, 2], ∀ t < 1, data d t = pair.line orig d t) ∧
      ∀ invertMatrix, ¬pair.RoundTrip [0, 2] orig data (pair.decode [0, 2] data invertMatrix) := by
  intro orig data
  have hdata : ∀ d ∈ [0, 2], ∀ t < 1, data d t = pair.line orig d t := by
    intro d hd t _
    have hne : d ≠ 1 := by
      rintro rfl
      exact absurd hd (by decide)
    exact congrFun (Function.update_of_ne hne _ _) t
  refine ⟨pair_ids, hdata, fun invertMatrix hr => ?_⟩
  have hspared := RoundTrip.spared IsaL.base_documented (by decide) pair_ids hdata invertMatrix hr
  have hbyte := ((hspared 1 (by decide) (by decide)).2 0 Nat.one_pos).1
  exact absurd hbyte (by decide)

end ReedSolomonCode

end Galois
