import Galois.KVStore
import Mathlib.Data.List.Perm.Basic
import Mathlib.Data.List.Range
import Mathlib.Order.Lattice

namespace Galois
set_option autoImplicit true
set_option relaxedAutoImplicit false

def MAX_NODES : Nat := 32

def NODE_SERVER : BitVec 32 := 0x10
def NODE_DMS : BitVec 32 := 0x11
def NODE_FMS : BitVec 32 := 0x12
def NODE_CLIENT : BitVec 32 := 0x20

structure NodeConfig where
  id : Int
  hostname : Str
  ipAddrStr : Str
  ibDevIPAddrStr : Str
  type : BitVec 32

/-- A default `NodeConfig`, whose type is not initialised. -/
def NodeConfig.blank (type : BitVec 32) : NodeConfig := ⟨-1, [], [], [], type⟩

structure NodeRecord where
  nodeId : Int
  hostname : Str
  ipAddrStr : Str
  ibDevIPAddrStr : Str
  nodeTypeStr : Str

/-- The type that a record names; data servers are clients. -/
def nodeType (nodeTypeStr : Str) : Option (BitVec 32) :=
  if nodeTypeStr = ['D', 'M', 'S'] then some NODE_DMS
  else if nodeTypeStr = ['F', 'M', 'S'] then some NODE_FMS
  else if nodeTypeStr = ['D', 'S'] then some NODE_CLIENT
  else if nodeTypeStr = ['C', 'L', 'I'] then some NODE_CLIENT
  else none

/-- How a piece of code that may leave the program or the language comes to its end. -/
inductive Outcome (α : Type) where
  | exits
  | undefined
  | returns (a : α)

structure ClusterConfig where
  nodeConf : Int → NodeConfig
  nodeIds : List Int
  ip2id : Str → Option Int
  host2id : Str → Option Int
  nodeCount : Int

namespace ClusterConfig

def InArray (index : Int) : Prop := 0 ≤ index ∧ index < MAX_NODES

instance : DecidablePred InArray := fun _ => inferInstanceAs (Decidable (_ ∧ _))

/-- The members before the constructor's body, with the types that happen to be there. -/
def initial (type : Int → BitVec 32) : ClusterConfig where
  nodeConf index := .blank (type index)
  nodeIds := []
  ip2id _ := none
  host2id _ := none
  nodeCount := 0

def store (c : ClusterConfig) (r : NodeRecord) : ClusterConfig where
  nodeConf := Function.update c.nodeConf r.nodeId
    ⟨r.nodeId, r.hostname, r.ipAddrStr, r.ibDevIPAddrStr,
      (nodeType r.nodeTypeStr).getD (c.nodeConf r.nodeId).type⟩
  nodeIds := r.nodeId :: c.nodeIds
  ip2id := Function.update c.ip2id r.ipAddrStr (some r.nodeId)
  host2id := Function.update c.host2id r.hostname (some r.nodeId)
  nodeCount := c.nodeCount

def load (i : Nat) (c : ClusterConfig) : List NodeRecord → Outcome ClusterConfig
  | [] => .returns { c with nodeCount := i }
  | r :: records =>
    if i ≥ MAX_NODES then .exits
    else if r.nodeId ∈ c.nodeIds then .exits
    else if InArray r.nodeId then load (i + 1) (c.store r) records
    else .undefined

/-- `ClusterConfig::ClusterConfig` on the records of the file. -/
def construct (type : Int → BitVec 32) (records : List NodeRecord) : Outcome ClusterConfig :=
  load 0 (initial type) records

/-- `operator[]` and the accesses like it; `none` is undefined behaviour. -/
def at? (c : ClusterConfig) (index : Int) : Option NodeConfig :=
  if InArray index then some (c.nodeConf index) else none

/-- With the type that happens to be in the `NodeConfig` of a failed search. -/
def findConfById (c : ClusterConfig) (type : BitVec 32) (id : Int) : Option NodeConfig :=
  if id ≥ 0 ∧ id < c.nodeCount then
    (c.at? id).map fun conf => if conf.id = id then conf else .blank type
  else some (.blank type)

def findConfByHostname (c : ClusterConfig) (type : BitVec 32) (hostname : Str) :
    Option NodeConfig :=
  match c.host2id hostname with
  | some id => c.at? id
  | none => some (.blank type)

def findConfByIPStr (c : ClusterConfig) (type : BitVec 32) (ipAddrStr : Str) :
    Option NodeConfig :=
  match c.ip2id ipAddrStr with
  | some id => c.at? id
  | none => some (.blank type)

structure Describes (r : NodeRecord) (conf : NodeConfig) : Prop where
  id : conf.id = r.nodeId
  hostname : conf.hostname = r.hostname
  ipAddrStr : conf.ipAddrStr = r.ipAddrStr
  ibDevIPAddrStr : conf.ibDevIPAddrStr = r.ibDevIPAddrStr
  type : ∀ type, nodeType r.nodeTypeStr = some type → conf.type = type

/-- The ids are those of the documentation, and all the ways to look a node up agree on it. -/
structure WellFormed (records : List NodeRecord) (c : ClusterConfig) : Prop where
  ids : ∀ i, (∃ r ∈ records, r.nodeId = i) ↔ 0 ≤ i ∧ i < c.nodeCount
  byId : ∀ i, 0 ≤ i → i < c.nodeCount → ∃ r ∈ records, r.nodeId = i ∧
    ∃ conf, Describes r conf ∧ c.at? i = some conf ∧ ∀ type, c.findConfById type i = some conf
  byHostname : ∀ r ∈ records, ∃ r' ∈ records, r'.hostname = r.hostname ∧
    ∃ conf, Describes r' conf ∧ ∀ type, c.findConfByHostname type r.hostname = some conf
  byIPStr : ∀ r ∈ records, ∃ r' ∈ records, r'.ipAddrStr = r.ipAddrStr ∧
    ∃ conf, Describes r' conf ∧ ∀ type, c.findConfByIPStr type r.ipAddrStr = some conf

/-- The ids are 0, 1, 2 and so on, in any order, and fit in the array. -/
def Numbered (records : List NodeRecord) : Prop :=
  records.length ≤ MAX_NODES ∧
    (records.map NodeRecord.nodeId).Perm ((List.range records.length).map Int.ofNat)

/-- What the loop has stored of the records behind it. -/
structure Loaded (records : List NodeRecord) (c : ClusterConfig) : Prop where
  length : records.length ≤ MAX_NODES
  nodup : (records.map NodeRecord.nodeId).Nodup
  inArray : ∀ r ∈ records, InArray r.nodeId
  nodeIds : ∀ id, id ∈ c.nodeIds ↔ ∃ r ∈ records, r.nodeId = id
  conf : ∀ r ∈ records, Describes r (c.nodeConf r.nodeId)
  host2id : ∀ r ∈ records, ∃ r' ∈ records, r'.hostname = r.hostname ∧
    c.host2id r.hostname = some r'.nodeId
  ip2id : ∀ r ∈ records, ∃ r' ∈ records, r'.ipAddrStr = r.ipAddrStr ∧
    c.ip2id r.ipAddrStr = some r'.nodeId

variable {c c' : ClusterConfig} {type : Int → BitVec 32} {records : List NodeRecord}
  {r : NodeRecord} {i : Nat}

theorem loaded_initial : Loaded [] (initial type) where
  length := Nat.zero_le _
  nodup := List.nodup_nil
  inArray _ hr := absurd hr List.not_mem_nil
  nodeIds id := by simp [initial]
  conf _ hr := absurd hr List.not_mem_nil
  host2id _ hr := absurd hr List.not_mem_nil
  ip2id _ hr := absurd hr List.not_mem_nil

theorem describes_store (c : ClusterConfig) (r : NodeRecord) :
    Describes r ((c.store r).nodeConf r.nodeId) := by
  have hconf : (c.store r).nodeConf r.nodeId = ⟨r.nodeId, r.hostname, r.ipAddrStr,
      r.ibDevIPAddrStr, (nodeType r.nodeTypeStr).getD (c.nodeConf r.nodeId).type⟩ :=
    Function.update_self ..
  rw [hconf]
  refine ⟨rfl, rfl, rfl, rfl, fun t ht => ?_⟩
  rw [ht]
  rfl

theorem last_update {f : NodeRecord → Str} {m : Str → Option Int}
    (h : ∀ a ∈ records, ∃ b ∈ records, f b = f a ∧ m (f a) = some b.nodeId) :
    ∀ a ∈ records ++ [r], ∃ b ∈ records ++ [r], f b = f a ∧
      Function.update m (f r) (some r.nodeId) (f a) = some b.nodeId := by
  intro a ha
  by_cases hf : f a = f r
  · refine ⟨r, List.mem_append_right _ (List.mem_singleton_self r), hf.symm, ?_⟩
    rw [hf, Function.update_self]
  · rw [Function.update_of_ne hf]
    rcases List.mem_append.1 ha with ha | ha
    · obtain ⟨b, hb, he⟩ := h a ha
      exact ⟨b, List.mem_append_left _ hb, he⟩
    · exact absurd (congrArg f (List.mem_singleton.1 ha)) hf

theorem Loaded.store (h : Loaded records c) (hlength : records.length < MAX_NODES)
    (hid : r.nodeId ∉ c.nodeIds) (hr : InArray r.nodeId) :
    Loaded (records ++ [r]) (c.store r) where
  length := by
    rw [List.length_append, List.length_singleton]
    exact hlength
  nodup := by
    rw [List.map_append, List.map_singleton, List.nodup_append']
    refine ⟨h.nodup, List.nodup_singleton _, List.disjoint_singleton.2 ?_⟩
    intro hmem
    obtain ⟨a, ha, he⟩ := List.mem_map.1 hmem
    exact hid ((h.nodeIds _).2 ⟨a, ha, he⟩)
  inArray a ha := by
    rcases List.mem_append.1 ha with ha | ha
    · exact h.inArray a ha
    · exact List.mem_singleton.1 ha ▸ hr
  nodeIds id := by
    simp only [ClusterConfig.store, List.mem_cons, h.nodeIds, List.mem_append, List.not_mem_nil,
      or_false, or_and_right, exists_or, exists_eq_left]
    rw [or_comm, eq_comm]
  conf a ha := by
    rcases List.mem_append.1 ha with ha | ha
    · have hne : a.nodeId ≠ r.nodeId := fun he => hid ((h.nodeIds _).2 ⟨a, ha, he⟩)
      have hconf : (c.store r).nodeConf a.nodeId = c.nodeConf a.nodeId :=
        Function.update_of_ne hne ..
      rw [hconf]
      exact h.conf a ha
    · rw [List.mem_singleton.1 ha]
      exact describes_store c r
  host2id := last_update h.host2id
  ip2id := last_update h.ip2id

theorem Loaded.count (h : Loaded records c) (n : Int) :
    Loaded records { c with nodeCount := n } :=
  ⟨h.length, h.nodup, h.inArray, h.nodeIds, h.conf, h.host2id, h.ip2id⟩

variable {past : List NodeRecord}

theorem loaded_of_load (h : Loaded past c) (hl : load past.length c records = .returns c') :
    Loaded (past ++ records) c' ∧ c'.nodeCount = (past ++ records).length := by
  induction records generalizing past c with
  | nil =>
    cases hl
    rw [List.append_nil]
    exact ⟨h.count _, rfl⟩
  | cons r records ih =>
    rw [load] at hl
    split at hl
    · cases hl
    · next hlength =>
      split at hl
      · cases hl
      · next hid =>
        split at hl
        · next hr =>
          rw [List.append_cons]
          apply ih (h.store (Nat.lt_of_not_ge hlength) hid hr)
          rw [List.length_append, List.length_singleton]
          exact hl
        · cases hl

theorem load_returns (h : Loaded past c) (hlength : (past ++ records).length ≤ MAX_NODES)
    (hnodup : ((past ++ records).map NodeRecord.nodeId).Nodup)
    (hin : ∀ r ∈ past ++ records, InArray r.nodeId) :
    ∃ c', load past.length c records = .returns c' := by
  induction records generalizing past c with
  | nil => exact ⟨_, rfl⟩
  | cons r records ih =>
    have hroom : past.length < MAX_NODES := by
      rw [List.length_append, List.length_cons] at hlength
      omega
    have hr : InArray r.nodeId := hin r (List.mem_append_right _ List.mem_cons_self)
    have hid : r.nodeId ∉ c.nodeIds := by
      rw [h.nodeIds]
      rintro ⟨a, ha, he⟩
      rw [List.map_append, List.nodup_append'] at hnodup
      exact hnodup.2.2 (List.mem_map.2 ⟨a, ha, rfl⟩) (he ▸ List.mem_cons_self)
    rw [load, if_neg (Nat.not_le.2 hroom), if_neg hid, if_pos hr]
    rw [List.append_cons] at hlength hnodup hin
    obtain ⟨c', hc'⟩ := ih (h.store hroom hid hr) hlength hnodup hin
    rw [List.length_append, List.length_singleton] at hc'
    exact ⟨c', hc'⟩

theorem numbered_mem (h : Numbered records) (i : Int) :
    (∃ r ∈ records, r.nodeId = i) ↔ 0 ≤ i ∧ i < records.length := by
  rw [← List.mem_map, h.2.mem_iff, List.mem_map]
  constructor
  · rintro ⟨k, hk, rfl⟩
    exact ⟨Int.natCast_nonneg k, Int.ofNat_lt.2 (List.mem_range.1 hk)⟩
  · rintro ⟨hnonneg, hlt⟩
    refine ⟨i.toNat, List.mem_range.2 (by omega), Int.toNat_of_nonneg hnonneg⟩

theorem Numbered.inArray (h : Numbered records) (hr : r ∈ records) : InArray r.nodeId := by
  obtain ⟨hnonneg, hlt⟩ := (numbered_mem h r.nodeId).1 ⟨r, hr, rfl⟩
  have hlength := h.1
  exact ⟨hnonneg, by omega⟩

theorem nodup_ids (n : Nat) : ((List.range n).map Int.ofNat).Nodup :=
  List.nodup_range.map fun _ _ h => Int.ofNat.inj h

theorem Numbered.nodup (h : Numbered records) : (records.map NodeRecord.nodeId).Nodup :=
  h.2.nodup_iff.2 (nodup_ids _)

theorem at?_of_inArray {index : Int} (h : InArray index) :
    c.at? index = some (c.nodeConf index) := if_pos h

theorem Loaded.wellFormed (h : Loaded records c) (hcount : c.nodeCount = records.length)
    (hn : Numbered records) : WellFormed records c where
  ids i := by
    rw [hcount]
    exact numbered_mem hn i
  byId i hnonneg hlt := by
    obtain ⟨r, hr, rfl⟩ := (numbered_mem hn i).2 ⟨hnonneg, hcount ▸ hlt⟩
    have hconf := at?_of_inArray (c := c) (h.inArray r hr)
    refine ⟨r, hr, rfl, _, h.conf r hr, hconf, fun type => ?_⟩
    rw [findConfById, if_pos ⟨hnonneg, hlt⟩, hconf, Option.map_some, if_pos (h.conf r hr).id]
  byHostname r hr := by
    obtain ⟨r', hr', hname, hid⟩ := h.host2id r hr
    refine ⟨r', hr', hname, _, h.conf r' hr', fun type => ?_⟩
    rw [findConfByHostname, hid]
    exact at?_of_inArray (h.inArray r' hr')
  byIPStr r hr := by
    obtain ⟨r', hr', hname, hid⟩ := h.ip2id r hr
    refine ⟨r', hr', hname, _, h.conf r' hr', fun type => ?_⟩
    rw [findConfByIPStr, hid]
    exact at?_of_inArray (h.inArray r' hr')

/-- The constructor accepts a file, and all that can be looked up in it is there, exactly if the ids
count the records from 0 on, in any order. -/
theorem wellFormed_iff (type : Int → BitVec 32) (records : List NodeRecord) :
    (∃ c, construct type records = .returns c ∧ WellFormed records c) ↔ Numbered records := by
  constructor
  · rintro ⟨c, hc, hw⟩
    obtain ⟨h, hcount⟩ := loaded_of_load loaded_initial hc
    rw [List.nil_append] at h hcount
    refine ⟨h.length, (List.perm_ext_iff_of_nodup h.nodup (nodup_ids _)).2 fun i => ?_⟩
    rw [List.mem_map, hw.ids, hcount, List.mem_map]
    constructor
    · rintro ⟨hnonneg, hlt⟩
      exact ⟨i.toNat, List.mem_range.2 (by omega), Int.toNat_of_nonneg hnonneg⟩
    · rintro ⟨k, hk, rfl⟩
      exact ⟨Int.natCast_nonneg k, Int.ofNat_lt.2 (List.mem_range.1 hk)⟩
  · intro hn
    obtain ⟨c, hc⟩ := load_returns (@loaded_initial type) hn.1 hn.nodup
      fun r hr => hn.inArray hr
    obtain ⟨h, hcount⟩ := loaded_of_load loaded_initial hc
    exact ⟨c, hc, h.wellFormed hcount hn⟩

def clientRecord (nodeId : Int) : NodeRecord := ⟨nodeId, ['a'], ['b'], ['c'], ['C', 'L', 'I']⟩

/-- The id 1 alone is accepted, and nothing is found under it; the id 32 is stored past the end. -/
theorem ids_not_checked :
    ¬ (∀ (type : Int → BitVec 32) (records : List NodeRecord), construct type records ≠ .exits →
      ∃ c, construct type records = .returns c ∧ WellFormed records c) ∧
    construct (fun _ => 0) [clientRecord 32] = .undefined := by
  refine ⟨fun h => ?_, rfl⟩
  obtain ⟨c, hc, hw⟩ := h (fun _ => 0) [clientRecord 1] (by intro he; cases he)
  cases hc
  have hid := (hw.ids 1).1 ⟨clientRecord 1, List.mem_cons_self, rfl⟩
  exact absurd hid.2 (by decide)

end ClusterConfig

end Galois
