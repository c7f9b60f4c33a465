import Galois.ClusterConfig

namespace Galois
set_option autoImplicit true
set_option relaxedAutoImplicit false

/-- The sessions of a `NetworkInterface`, where they are initialised, and how many it has asked
for. -/
structure NetworkInterface where
  sessions : Int → Option Int
  sess2id : Int → Option Int
  created : Nat

/-- What `parseConfig` sets. -/
structure Transports where
  directory_trans : Int
  file_trans : List Int
  data_trans : List Int

/-- How eRPC numbers the sessions it creates, and what the command line gives. -/
structure NetEnv where
  create_session : Nat → Str → Int
  udpPort : Nat
  recover : Bool

namespace NetworkInterface

variable (env : NetEnv) (clusterConf : ClusterConfig) (myNodeConf : NodeConfig)

def uri (conf : NodeConfig) : Str := conf.hostname ++ ':' :: Nat.toDigits 10 env.udpPort

/-- Creates the session to a server and waits until it is connected. -/
def connect (net : NetworkInterface) (conf : NodeConfig) : NetworkInterface :=
  let sess := env.create_session net.created (uri env conf)
  { sessions := Function.update net.sessions conf.id (some sess)
    sess2id := Function.update net.sess2id sess (some conf.id)
    created := net.created + 1 }

/-- One round of the loop in which a client connects to the servers; `none` is undefined
behaviour. -/
def visit (net : NetworkInterface) (i : Nat) : Option NetworkInterface := do
  let conf ← clusterConf.at? i
  if conf.type &&& NODE_SERVER = 0 then some net
  else if (!env.recover ∧ conf.id < myNodeConf.id) ∨ env.recover then
    if ClusterConfig.InArray conf.id then some (net.connect env conf) else none
  else some net

/-- `NetworkInterface::NetworkInterface` -/
def construct : Option NetworkInterface :=
  let net : NetworkInterface := ⟨fun _ => none, fun _ => none, 0⟩
  if myNodeConf.type &&& NODE_SERVER = 0 then
    (List.range clusterConf.nodeCount.toNat).foldlM (visit env clusterConf myNodeConf) net
  else some net

/-- The session to a node was set by `create_session` for its host. -/
def HasSession (net : NetworkInterface) (s : Int) : Prop :=
  ∃ created, net.sessions s =
    some (env.create_session created (uri env (clusterConf.nodeConf s)))

end NetworkInterface

namespace Transports

variable (clusterConf : ClusterConfig)

/-- One round of the loop in `parseConfig`. -/
def visit (t : Transports) (i : Nat) : Option Transports := do
  let conf ← clusterConf.at? i
  let t := { t with data_trans := t.data_trans ++ [conf.id] }
  let t := if conf.type = NODE_DMS then { t with directory_trans := conf.id } else t
  return if conf.type = NODE_FMS then { t with file_trans := t.file_trans ++ [conf.id] } else t

/-- `LocofsClient::parseConfig`, with what `directory_trans` happens to hold. -/
def parseConfig (directory_trans : Int) : Option Transports :=
  (List.range clusterConf.nodeCount.toNat).foldlM (visit clusterConf) ⟨directory_trans, [], []⟩

end Transports

namespace ClusterConfig

/-- The ids are the positions 0, 1, 2 and so on. -/
structure Consecutive (c : ClusterConfig) (n : Nat) : Prop where
  nodeCount : c.nodeCount = n
  le : n ≤ MAX_NODES
  id : ∀ i < n, (c.nodeConf i).id = i

def Has (c : ClusterConfig) (type : BitVec 32) (i : Nat) : Prop := (c.nodeConf i).type = type

instance (c : ClusterConfig) (type : BitVec 32) (i : Nat) : Decidable (c.Has type i) :=
  inferInstanceAs (Decidable (_ = _))

/-- The last directory server among the first `n` nodes. -/
structure LastDMS (c : ClusterConfig) (n i : Nat) : Prop where
  lt : i < n
  has : c.Has NODE_DMS i
  last : ∀ j, i < j → j < n → ¬ c.Has NODE_DMS j

variable {c : ClusterConfig} {records : List NodeRecord} {n i j : Nat}

theorem Numbered.consecutive (h : Numbered records) {type : Int → BitVec 32}
    (hc : construct type records = .returns c) : c.Consecutive records.length where
  nodeCount := (loaded_of_load loaded_initial hc).2
  le := h.1
  id i hi := by
    obtain ⟨r, hr, hid⟩ :=
      (numbered_mem h i).2 ⟨Int.natCast_nonneg i, Int.ofNat_lt.2 hi⟩
    have hconf := (loaded_of_load loaded_initial hc).1.conf r hr
    rw [← hid]
    exact hconf.id

theorem Consecutive.at? (h : c.Consecutive n) (hi : i < n) :
    c.at? i = some (c.nodeConf i) := by
  have hle := h.le
  exact at?_of_inArray ⟨Int.natCast_nonneg i, by omega⟩

theorem LastDMS.unique (h : c.LastDMS n i) (h' : c.LastDMS n j) : i = j := by
  rcases Nat.lt_trichotomy i j with hlt | heq | hlt
  · exact absurd h'.has (h.last j hlt h'.lt)
  · exact heq
  · exact absurd h.has (h'.last i hlt h.lt)

end ClusterConfig

namespace NetworkInterface

open ClusterConfig

variable {env : NetEnv} {c : ClusterConfig} {myNodeConf : NodeConfig} {n m : Nat}

/-- A client connects to the node. -/
def Connects (env : NetEnv) (c : ClusterConfig) (myNodeConf : NodeConfig) (i : Nat) : Prop :=
  ¬ (c.nodeConf i).type &&& NODE_SERVER = 0 ∧ (env.recover ∨ (i : Int) < myNodeConf.id)

instance (i : Nat) : Decidable (Connects env c myNodeConf i) :=
  inferInstanceAs (Decidable (_ ∧ _))

theorem visit_eq (hc : c.Consecutive n) (hm : m < n) (net : NetworkInterface) :
    visit env c myNodeConf net m =
      some (if Connects env c myNodeConf m then net.connect env (c.nodeConf m) else net) := by
  have hid := hc.id m hm
  have hin : InArray m := by
    have hle := hc.le
    exact ⟨Int.natCast_nonneg m, by omega⟩
  simp only [visit, hc.at? hm, Option.bind_eq_bind, Option.bind_some, hid, if_pos hin]
  by_cases hserver : (c.nodeConf m).type &&& NODE_SERVER = 0
  · rw [if_pos hserver, if_neg fun h => h.1 hserver]
  · have hiff : (!env.recover ∧ (m : Int) < myNodeConf.id) ∨ env.recover ↔
        Connects env c myNodeConf m := by
      rw [Connects]
      cases env.recover <;> simp only [Bool.not_false, Bool.not_true, Bool.false_eq_true,
        true_and, false_and, or_false, or_true, true_or, false_or, and_true] <;> tauto
    rw [if_neg hserver]
    by_cases hconn : Connects env c myNodeConf m
    · rw [if_pos (hiff.2 hconn), if_pos hconn]
    · rw [if_neg (mt hiff.1 hconn), if_neg hconn]

def Connected (env : NetEnv) (c : ClusterConfig) (myNodeConf : NodeConfig) (n : Nat)
    (net : NetworkInterface) : Prop :=
  ∀ i : Nat, (i < n ∧ Connects env c myNodeConf i → net.HasSession env c i) ∧
    (¬ (i < n ∧ Connects env c myNodeConf i) → net.sessions i = none)

theorem Connected.skip {net : NetworkInterface} (h : Connected env c myNodeConf m net)
    (hm : ¬ Connects env c myNodeConf m) : Connected env c myNodeConf (m + 1) net := by
  have hlast (i : Nat) : i < m + 1 ∧ Connects env c myNodeConf i ↔
      i < m ∧ Connects env c myNodeConf i := by
    constructor
    · rintro ⟨hi, hconn⟩
      refine ⟨Nat.lt_of_le_of_ne (Nat.le_of_lt_succ hi) ?_, hconn⟩
      rintro rfl
      exact hm hconn
    · rintro ⟨hi, hconn⟩
      exact ⟨Nat.lt_succ_of_lt hi, hconn⟩
  intro i
  rw [hlast]
  exact h i

theorem Connected.connect {net : NetworkInterface} (h : Connected env c myNodeConf m net)
    (hm : Connects env c myNodeConf m) (hid : (c.nodeConf m).id = m) :
    Connected env c myNodeConf (m + 1) (net.connect env (c.nodeConf m)) := by
  intro i
  by_cases hi : i = m
  · subst hi
    refine ⟨fun _ => ⟨net.created, ?_⟩, fun hnot => absurd ⟨Nat.lt_succ_self i, hm⟩ hnot⟩
    rw [NetworkInterface.connect, hid]
    exact Function.update_self ..
  · have hsame : (net.connect env (c.nodeConf m)).sessions i = net.sessions i := by
      rw [NetworkInterface.connect, hid]
      exact Function.update_of_ne (fun he => hi (Int.ofNat.inj he)) ..
    have hlt : i < m + 1 ↔ i < m := by omega
    rw [HasSession, hsame, hlt]
    exact h i

theorem connected_loop (hc : c.Consecutive n) (hm : m ≤ n) : ∃ net,
    (List.range m).foldlM (visit env c myNodeConf) ⟨fun _ => none, fun _ => none, 0⟩ = some net ∧
      Connected env c myNodeConf m net := by
  induction m with
  | zero => exact ⟨_, rfl, fun i => ⟨fun h => absurd h.1 (Nat.not_lt_zero i), fun _ => rfl⟩⟩
  | succ m ih =>
    obtain ⟨net, hnet, hconn⟩ := ih (Nat.le_of_succ_le hm)
    rw [List.range_succ, List.foldlM_append, hnet, Option.bind_eq_bind,
      Option.bind_some, List.foldlM_cons, visit_eq hc hm]
    refine ⟨_, rfl, ?_⟩
    split
    case isTrue hconn' => exact hconn.connect hconn' (hc.id m hm)
    case isFalse hnot => exact hconn.skip hnot

theorem hasSession_iff {net : NetworkInterface} (h : Connected env c myNodeConf n net) (i : Nat) :
    net.HasSession env c i ↔ i < n ∧ Connects env c myNodeConf i := by
  constructor
  · rintro ⟨created, hs⟩
    by_contra hnot
    rw [(h i).2 hnot] at hs
    cases hs
  · exact (h i).1

end NetworkInterface

namespace Transports

open ClusterConfig

variable {c : ClusterConfig} {n m : Nat} {t : Transports}

structure Found (c : ClusterConfig) (n : Nat) (t : Transports) : Prop where
  directory : (∃ i < n, c.Has NODE_DMS i) → ∃ i, c.LastDMS n i ∧ t.directory_trans = i
  file : ∀ s, s ∈ t.file_trans ↔ ∃ i < n, c.Has NODE_FMS i ∧ s = (i : Int)

theorem visit_eq (hc : c.Consecutive n) (hm : m < n) (t : Transports) : visit c t m = some
    { directory_trans := if c.Has NODE_DMS m then m else t.directory_trans
      file_trans := if c.Has NODE_FMS m then t.file_trans ++ [(m : Int)] else t.file_trans
      data_trans := t.data_trans ++ [(m : Int)] } := by
  have hiff (type : BitVec 32) : (c.nodeConf m).type = type ↔ c.Has type m := Iff.rfl
  simp only [visit, hc.at? hm, Option.bind_eq_bind, Option.bind_some, hc.id m hm, hiff]
  by_cases hdms : c.Has NODE_DMS m
  · have hfms : ¬ c.Has NODE_FMS m := fun hfms => absurd (hdms.symm.trans hfms) (by decide)
    simp only [if_pos hdms, if_neg hfms]
    rfl
  · simp only [if_neg hdms]
    split <;> rfl

theorem Found.visit (h : Found c m t) (hc : c.Consecutive n) (hm : m < n) :
    ∃ t', visit c t m = some t' ∧ Found c (m + 1) t' := by
  refine ⟨_, visit_eq hc hm t, ?_, ?_⟩
  · rintro ⟨i, hi, hdms⟩
    by_cases hlast : c.Has NODE_DMS m
    · rw [if_pos hlast]
      exact ⟨m, ⟨Nat.lt_succ_self m, hlast, fun j hj hj' => by omega⟩, rfl⟩
    · rw [if_neg hlast]
      have hne : i ≠ m := fun he => hlast (he ▸ hdms)
      obtain ⟨k, hk, he⟩ := h.directory ⟨i, by omega, hdms⟩
      refine ⟨k, ⟨Nat.lt_succ_of_lt hk.lt, hk.has, fun j hj hj' => ?_⟩, he⟩
      by_cases hjm : j = m
      · exact hjm ▸ hlast
      · exact hk.last j hj (by omega)
  · intro s
    by_cases hlast : c.Has NODE_FMS m
    · rw [if_pos hlast, List.mem_append, h.file, List.mem_singleton]
      constructor
      · rintro (⟨i, hi, hfms, rfl⟩ | rfl)
        · exact ⟨i, Nat.lt_succ_of_lt hi, hfms, rfl⟩
        · exact ⟨m, Nat.lt_succ_self m, hlast, rfl⟩
      · rintro ⟨i, hi, hfms, rfl⟩
        by_cases him : i = m
        · exact .inr (him ▸ rfl)
        · exact .inl ⟨i, by omega, hfms, rfl⟩
    · rw [if_neg hlast, h.file]
      constructor
      · rintro ⟨i, hi, hfms, rfl⟩
        exact ⟨i, Nat.lt_succ_of_lt hi, hfms, rfl⟩
      · rintro ⟨i, hi, hfms, rfl⟩
        have hne : i ≠ m := fun he => hlast (he ▸ hfms)
        exact ⟨i, by omega, hfms, rfl⟩

theorem found_loop (hc : c.Consecutive n) (hm : m ≤ n) (directory_trans : Int) : ∃ t,
    (List.range m).foldlM (visit c) ⟨directory_trans, [], []⟩ = some t ∧ Found c m t := by
  induction m with
  | zero =>
    refine ⟨_, rfl, ?_, ?_⟩
    · rintro ⟨i, hi, -⟩
      exact absurd hi (Nat.not_lt_zero i)
    · simp
  | succ m ih =>
    obtain ⟨t, ht, hfound⟩ := ih (Nat.le_of_succ_le hm)
    obtain ⟨t', ht', hfound'⟩ := hfound.visit hc hm
    rw [List.range_succ, List.foldlM_append, ht, Option.bind_eq_bind, Option.bind_some,
      List.foldlM_cons, ht']
    exact ⟨t', rfl, hfound'⟩

end Transports

section Sessions

open NetworkInterface Transports ClusterConfig

variable {env : NetEnv} {c : ClusterConfig} {myNodeConf : NodeConfig} {n : Nat}

/-- After the start, a session has been created to every server that the client calls. -/
def HasSessions (env : NetEnv) (c : ClusterConfig) (myNodeConf : NodeConfig)
    (directory_trans : Int) : Prop :=
  ∃ net t, construct env c myNodeConf = some net ∧ parseConfig c directory_trans = some t ∧
    ∀ s, s = t.directory_trans ∨ s ∈ t.file_trans → net.HasSession env c s

/-- The last directory server and all file servers come before the client. -/
structure ServersFirst (c : ClusterConfig) (n : Nat) (myNodeConf : NodeConfig) : Prop where
  directory : ∀ i, c.LastDMS n i → (i : Int) < myNodeConf.id
  file : ∀ i < n, c.Has NODE_FMS i → (i : Int) < myNodeConf.id

theorem connects_iff (hrecover : env.recover = false) {type : BitVec 32}
    (htype : type = NODE_DMS ∨ type = NODE_FMS) {i : Nat} (hi : c.Has type i) :
    Connects env c myNodeConf i ↔ (i : Int) < myNodeConf.id := by
  have hserver : ¬ type &&& NODE_SERVER = 0 := by
    rcases htype with rfl | rfl <;> decide
  rw [Connects, show (c.nodeConf i).type = type from hi, hrecover]
  simp only [hserver, not_false_eq_true, Bool.false_eq_true, false_or, true_and]

/-- Without `RECOVER`, a client has its sessions exactly if these servers come before it. -/
theorem hasSessions_iff (hc : c.Consecutive n) (hrecover : env.recover = false)
    (hclient : myNodeConf.type &&& NODE_SERVER = 0) (hdms : ∃ i < n, c.Has NODE_DMS i)
    (directory_trans : Int) :
    HasSessions env c myNodeConf directory_trans ↔ ServersFirst c n myNodeConf := by
  obtain ⟨net, hnet, hconn⟩ := @connected_loop env c myNodeConf n n hc le_rfl
  obtain ⟨t, ht, hfound⟩ := found_loop hc le_rfl directory_trans
  obtain ⟨d, hd, htrans⟩ := hfound.directory hdms
  have hcount : c.nodeCount.toNat = n := by rw [hc.nodeCount, Int.toNat_natCast]
  have hnet' : construct env c myNodeConf = some net := by
    rw [NetworkInterface.construct, if_pos hclient, hcount]
    exact hnet
  have ht' : parseConfig c directory_trans = some t := by
    rw [parseConfig, hcount]
    exact ht
  constructor
  · rintro ⟨net₁, t₁, hnet₁, ht₁, hs⟩
    cases hnet'.symm.trans hnet₁
    cases ht'.symm.trans ht₁
    constructor
    case directory =>
      intro i hi
      have hsession := hs i (.inl (by rw [htrans, hd.unique hi]))
      rw [hasSession_iff hconn, connects_iff hrecover (.inl rfl) hi.has] at hsession
      exact hsession.2
    case file =>
      intro i hi hfms
      have hsession := hs i (.inr ((hfound.file i).2 ⟨i, hi, hfms, rfl⟩))
      rw [hasSession_iff hconn, connects_iff hrecover (.inr rfl) hfms] at hsession
      exact hsession.2
  · intro hfirst
    refine ⟨net, t, hnet', ht', ?_⟩
    rintro s (rfl | hs)
    · rw [htrans, hasSession_iff hconn, connects_iff hrecover (.inl rfl) hd.has]
      exact ⟨hd.lt, hfirst.directory d hd⟩
    · obtain ⟨i, hi, hfms, rfl⟩ := (hfound.file s).1 hs
      rw [hasSession_iff hconn, connects_iff hrecover (.inr rfl) hfms]
      exact ⟨hi, hfirst.file i hi hfms⟩

section Examples

def nodeRecord (nodeId : Int) (nodeTypeStr : Str) : NodeRecord :=
  ⟨nodeId, ['a'], ['b'], ['c'], nodeTypeStr⟩

def exampleEnv : NetEnv where
  create_session created _ := created
  udpPort := 31850
  recover := false

def loadedFrom (records : List NodeRecord) : ClusterConfig :=
  { records.foldl ClusterConfig.store (initial fun _ => 0) with nodeCount := records.length }

/-- The servers first, as in the configuration that comes with the code. -/
def serversFirst : List NodeRecord := [nodeRecord 0 ['D', 'M', 'S'], nodeRecord 1 ['F', 'M', 'S'],
  nodeRecord 2 ['C', 'L', 'I']]

def clientFirst : List NodeRecord := [nodeRecord 0 ['C', 'L', 'I'], nodeRecord 1 ['D', 'M', 'S'],
  nodeRecord 2 ['F', 'M', 'S']]

theorem hasSessions_iff_serversFirst :
    HasSessions exampleEnv (loadedFrom serversFirst) ((loadedFrom serversFirst).nodeConf 2) 0 := by
  have hnumbered : Numbered serversFirst := ⟨by decide, by decide⟩
  have hreturns : ClusterConfig.construct (fun _ => 0) serversFirst =
      .returns (loadedFrom serversFirst) := rfl
  have hc : (loadedFrom serversFirst).Consecutive 3 := hnumbered.consecutive hreturns
  have hclient : ¬ (loadedFrom serversFirst).Has NODE_DMS 2 ∧
      ¬ (loadedFrom serversFirst).Has NODE_FMS 2 := by decide
  have hid : ((loadedFrom serversFirst).nodeConf 2).id = 2 := rfl
  refine (hasSessions_iff hc rfl (by decide) ⟨0, by decide, by decide⟩ 0).2 ⟨?_, ?_⟩
  · intro i hi
    have hlt := hi.lt
    have hne : i ≠ 2 := by
      rintro rfl
      exact hclient.1 hi.has
    rw [hid]
    omega
  · intro i hi hfms
    have hne : i ≠ 2 := by
      rintro rfl
      exact hclient.2 hfms
    rw [hid]
    omega

/-- The client's id is below those of the servers: it creates no session. -/
theorem client_without_sessions :
    ClusterConfig.construct (fun _ => 0) clientFirst = .returns (loadedFrom clientFirst) ∧
      ¬ HasSessions exampleEnv (loadedFrom clientFirst)
        ((loadedFrom clientFirst).nodeConf 0) 0 := by
  refine ⟨rfl, ?_⟩
  rintro ⟨net, t, hnet, ht, hs⟩
  have hnone : net.sessions = fun _ => none := by
    cases hnet
    rfl
  obtain ⟨created, hsession⟩ := hs _ (.inl rfl)
  rw [hnone] at hsession
  cases hsession

end Examples

end Sessions

end Galois
