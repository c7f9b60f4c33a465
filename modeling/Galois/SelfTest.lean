import Galois.Completion

namespace Galois
set_option autoImplicit true
set_option relaxedAutoImplicit false

open Prog

namespace ECAL

/-- The memory of a node that a test write has reached. -/
def tested (m : Mem) : Mem := m.store 0 fun _ : Fin 4096 => 65

theorem tested_tested (m : Mem) : tested (tested m) = tested m := by
  funext x
  simp only [tested, Mem.store]
  split <;> rfl

theorem load_tested (m : Mem) (row : Nat) : (tested m).load (row * blockSize) blockSize =
    if row < 2 then fun _ => 65 else m.load (row * blockSize) blockSize := by
  split
  case isTrue hrow =>
    funext t
    have ht : 0 ≤ row * blockSize + t ∧ row * blockSize + t < 0 + 4096 := by
      have := t.isLt
      simp only [blockSize, K] at *
      omega
    exact dif_pos ht
  case isFalse hrow =>
    apply Mem.load_store_disjoint
    simp only [blockSize, K]
    omega

/-- How far the constructor has come with a peer. -/
inductive TestStage where
  | idle
  | filled
  | posted

/-- The calls of the test, and what they mean for the peers. -/
inductive TestCall (e : ECAL) : Op → (Nat → TestStage) → (Nat → TestStage) → Prop
  | fill (hp : p ≠ e.me) (hg : g p = .idle) :
    TestCall e (.fillWriteRegion p 65 4096) g (Function.update g p .filled)
  | post (hg : g p = .filled) :
    TestCall e (.postWrite p 0 0 4096) g (Function.update g p .posted)
  | poll : TestCall e .pollSendCompletion g g

def AllPosted (e : ECAL) (g : Nat → TestStage) : Prop :=
  ∀ p < e.clusterSize, p ≠ e.me → g p = .posted

variable {e : ECAL} {c : Cluster} {n n' : Network} {g g' : Nat → TestStage}

theorem selfTest_follows :
    e.selfTest.Follows (TestCall e) (fun _ g => e.AllPosted g) (fun _ => .idle) := by
  rw [selfTest]
  apply Follows.bind
  apply (Follows.foldlM_range (I := fun i _ g => ∀ p, g p =
    if p < i ∧ p ≠ e.me then .posted else .idle) e.clusterSize ?_ ?_).mono
  · intro _ g hg
    apply Follows.foldlM_range (I := fun _ _ g => e.AllPosted g)
    · intro p hp hne
      rw [hg, if_pos ⟨hp, hne⟩]
    · intro i _ _ g hI
      split
      · exact hI
      · exact ⟨g, .poll, fun _ => hI⟩
  · intro p
    rw [if_neg fun h => Nat.not_lt_zero p h.1]
  · intro i _ _ g hI
    split
    case isTrue hme =>
      intro p
      have hiff : p < i ∧ p ≠ e.me ↔ p < i + 1 ∧ p ≠ e.me := by omega
      rw [hI]
      simp only [hiff]
    case isFalse hme =>
      refine ⟨_, .fill hme ?_, fun _ => ⟨_, .post (Function.update_self ..), fun _ p => ?_⟩⟩
      · rw [hI, if_neg fun h => Nat.lt_irrefl i h.1]
      · by_cases hp : p = i
        · rw [hp, Function.update_self, if_pos ⟨Nat.lt_succ_self i, hme⟩]
        · have hiff : p < i ∧ p ≠ e.me ↔ p < i + 1 ∧ p ≠ e.me := by omega
          rw [Function.update_of_ne hp, Function.update_of_ne hp, hI]
          simp only [hiff]

/-- What the memory of a peer and the requests to it are at a stage. -/
structure PeerInv (e : ECAL) (c : Cluster) (stage : TestStage) (n : Network) (p : Nat) :
    Prop where
  requests : ∀ x ∈ n.inflight p, x.2 = .send ∨ stage = .posted ∧ x.2 = .write 0 0 4096
  region : stage ≠ .idle →
    (n.cluster.peers e.me p).writeRegion.load 0 4096 = fun _ : Fin 4096 => 65
  area : n.cluster.area p = c.area p ∨ stage = .posted ∧ n.cluster.area p = tested (c.area p)
  written : stage = .posted →
    n.cluster.area p = tested (c.area p) ∨ ∃ x ∈ n.inflight p, x.2 = .write 0 0 4096

structure TestInv (e : ECAL) (c : Cluster) (g : Nat → TestStage) (n : Network) : Prop where
  frame : Cluster.Frame c n.cluster
  me : g e.me = .idle
  peer : ∀ p, PeerInv e c (g p) n p

theorem PeerInv.unposted {stage : TestStage} {p : Nat} (h : PeerInv e c stage n p)
    (hs : stage ≠ .posted) :
    (∀ x ∈ n.inflight p, x.2 = .send) ∧ n.cluster.area p = c.area p :=
  ⟨fun x hx => (h.requests x hx).resolve_right fun hx => hs hx.1,
    h.area.resolve_right fun ha => hs ha.1⟩

theorem PeerInv.congr {stage : TestStage} {p : Nat} (h : PeerInv e c stage n p)
    (harea : n'.cluster.area p = n.cluster.area p) (hin : n'.inflight p = n.inflight p)
    (hregion : (n'.cluster.peers e.me p).writeRegion = (n.cluster.peers e.me p).writeRegion) :
    PeerInv e c stage n' p := by
  constructor
  · rw [hin]
    exact h.requests
  · rw [hregion]
    exact h.region
  · rw [harea]
    exact h.area
  · rw [harea, hin]
    exact h.written

theorem PeerInv.fill {p : Nat} (h : PeerInv e c .idle n p)
    (harea : n'.cluster.area p = n.cluster.area p) (hin : n'.inflight p = n.inflight p)
    (hregion : (n'.cluster.peers e.me p).writeRegion.load 0 4096 = fun _ : Fin 4096 => 65) :
    PeerInv e c .filled n' p := by
  obtain ⟨hsends, hold⟩ := h.unposted TestStage.noConfusion
  constructor
  · rw [hin]
    exact fun x hx => .inl (hsends x hx)
  · exact fun _ => hregion
  · exact .inl (harea.trans hold)
  · exact fun hs => TestStage.noConfusion hs

theorem PeerInv.post {p i : Nat} (h : PeerInv e c .filled n p)
    (harea : n'.cluster.area p = n.cluster.area p)
    (hin : n'.inflight p = n.inflight p ++ [(i, .write 0 0 4096)])
    (hregion : (n'.cluster.peers e.me p).writeRegion = (n.cluster.peers e.me p).writeRegion) :
    PeerInv e c .posted n' p := by
  obtain ⟨hsends, hold⟩ := h.unposted TestStage.noConfusion
  constructor
  · intro x hx
    rw [hin] at hx
    cases List.mem_append.1 hx with
    | inl hx => exact .inl (hsends x hx)
    | inr hx => exact .inr ⟨rfl, by rw [List.mem_singleton.1 hx]⟩
  · rw [hregion]
    exact fun _ => h.region TestStage.noConfusion
  · exact .inl (harea.trans hold)
  · rw [hin]
    exact fun _ => .inr ⟨_, List.mem_append_right _ (List.mem_singleton_self _), rfl⟩

theorem TestInv.advance {p : Nat} {stage : TestStage} (h : TestInv e c g n) (hp : p ≠ e.me)
    (hframe : Cluster.Frame c n'.cluster) (hself : PeerInv e c stage n' p)
    (hothers : ∀ q, q ≠ p → PeerInv e c (g q) n' q) :
    TestInv e c (Function.update g p stage) n' := by
  refine ⟨hframe, ?_, fun q => ?_⟩
  · rw [Function.update_of_ne hp.symm]
    exact h.me
  · by_cases hq : q = p
    · rw [hq, Function.update_self]
      exact hself
    · rw [Function.update_of_ne hq]
      exact hothers q hq

theorem TestInv.call {o : Op} {r : o.Res} (h : TestInv e c g n) (hg : TestCall e o g g')
    (hr : e.asyncHandle o n = some (r, n')) : TestInv e c g' n' := by
  cases hg with
  | @fill p _ hp hidle =>
    cases hr
    refine h.advance hp (h.frame.setPeer ?_) ?_ ?_
    · exact h.frame.status e.me p
    · refine (hidle ▸ h.peer p).fill ?_ ?_ ?_
      · rfl
      · rfl
      change ((n.cluster.setPeer e.me p _).peers e.me p).writeRegion.load 0 4096 = _
      rw [Cluster.setPeer_self]
      exact Mem.load_store (n.cluster.peers e.me p).writeRegion 0 fun _ : Fin 4096 => 65
    · intro q hq
      refine (h.peer q).congr rfl rfl ?_
      change ((n.cluster.setPeer e.me p _).peers e.me q).writeRegion = _
      rw [Cluster.setPeer_ne _ _ fun hqp => hq hqp.2]
  | @post _ p hfilled =>
    rw [asyncHandle] at hr
    split at hr
    case isFalse => cases hr
    case isTrue =>
      cases hr
      have hp : p ≠ e.me := by
        rintro rfl
        exact TestStage.noConfusion (hfilled.symm.trans h.me)
      refine h.advance hp ?_ ?_ ?_
      · exact h.frame
      · refine (hfilled ▸ h.peer p).post ?_ (if_pos rfl) ?_
        · rfl
        · rfl
      · intro q hq
        exact (h.peer q).congr rfl (if_neg hq) rfl
  | poll =>
    rw [asyncHandle] at hr
    split at hr
    · cases hr
    · cases hr
      exact ⟨h.frame, h.me, fun q => (h.peer q).congr rfl rfl rfl⟩

theorem TestInv.complete {p i : Nat} {wr : WorkRequest} {rest : List (Nat × WorkRequest)}
    (h : TestInv e c g n) (hq : n.inflight p = (i, wr) :: rest) :
    TestInv e c g (n.complete e.me p i wr rest) := by
  refine ⟨h.frame.trans (finish_frame e.me p n.cluster wr), h.me, fun q => ?_⟩
  have hpeer := h.peer q
  by_cases hqp : q = p
  · subst hqp
    have hin : (n.complete e.me q i wr rest).inflight q = rest := if_pos rfl
    have hrest : ∀ x ∈ rest, x ∈ n.inflight q := fun x hx => hq ▸ List.mem_cons_of_mem _ hx
    cases hpeer.requests (i, wr) (hq ▸ List.mem_cons_self) with
    | inl hsend =>
      have hwr : wr = .send := hsend
      subst hwr
      refine ⟨?_, hpeer.region, hpeer.area, fun hposted => ?_⟩
      · rw [hin]
        exact fun x hx => hpeer.requests x (hrest x hx)
      · rw [hin]
        refine (hpeer.written hposted).imp_right fun ⟨x, hx, hwrite⟩ => ?_
        rw [hq] at hx
        cases hx with
        | head => cases hwrite
        | tail _ hx => exact ⟨x, hx, hwrite⟩
    | inr hwrite =>
      obtain ⟨hposted, hwr⟩ := hwrite
      have hwr : wr = .write 0 0 4096 := hwr
      subst hwr
      have harea : (n.complete e.me q i (.write 0 0 4096) rest).cluster.area q =
          tested (c.area q) := by
        change (n.cluster.setArea q _).area q = _
        rw [Cluster.setArea_self, hpeer.region (by rw [hposted]; nofun)]
        cases hpeer.area with
        | inl hold => rw [hold, tested]
        | inr hold => rw [hold.2, ← tested, tested_tested]
      refine ⟨?_, hpeer.region, .inr ⟨hposted, harea⟩, fun _ => .inl harea⟩
      rw [hin]
      exact fun x hx => hpeer.requests x (hrest x hx)
  · refine hpeer.congr ?_ (if_neg hqp) ?_
    · cases wr with
      | write => exact Cluster.setArea_ne _ _ hqp
      | _ => rfl
    · cases wr with
      | read => exact congrArg _ (Cluster.setPeer_ne _ _ fun h => hqp h.2)
      | _ => rfl

/-- The test along every order in which the node and the network work. -/
theorem selfTest_inv (hc : n.cluster = c) (hsend : ∀ p, ∀ x ∈ n.inflight p, x.2 = .send)
    {p : Prog sig Unit} (hr : (e.asyncRuns e.selfTest n).Reachable (p, n')) :
    ∃ g, p.Follows (TestCall e) (fun _ g => e.AllPosted g) g ∧ TestInv e c g n' := by
  obtain ⟨w, hr⟩ := hr
  refine hr.invariant (I := fun s => ∃ g, s.1.Follows (TestCall e) (fun _ g => e.AllPosted g) g ∧
    TestInv e c g s.2) ?_ ?_
  · rintro s rfl
    refine ⟨_, selfTest_follows, hc ▸ .refl _, rfl, fun q => ?_⟩
    exact ⟨fun x hx => .inl (hsend q x hx), fun h => absurd rfl h, .inl (by rw [hc]), nofun⟩
  · rintro s a s' ⟨g, hf, hinv⟩ hs
    cases hs with
    | call hr =>
      obtain ⟨g', hg, hk⟩ := hf
      exact ⟨g', hk _, hinv.call hg hr⟩
    | complete hq => exact ⟨g, hf, hinv.complete hq⟩

theorem afterHandshake_sends (c : Cluster) (s : RDMASocket) :
    ∀ p, ∀ x ∈ (afterHandshake c s).inflight p, x.2 = .send := by
  have hfold : ∀ (l : List Conn) (n : Network), (∀ p, ∀ x ∈ n.inflight p, x.2 = .send) →
      ∀ p, ∀ x ∈ (l.foldl (fun n conn => n.post conn.peer .send) n).inflight p, x.2 = .send := by
    intro l
    induction l with
    | nil => exact fun n hn => hn
    | cons conn l ih =>
      intro n hn
      refine ih _ fun p x hx => ?_
      simp only [Network.post] at hx
      split at hx
      · cases List.mem_append.1 hx with
        | inl hx => exact hn p x hx
        | inr hx => rw [List.mem_singleton.1 hx]
      · exact hn p x hx
  exact hfold s.sends _ fun p x hx => absurd hx List.not_mem_nil

theorem selfTest_area (hc : n.cluster = c) (hsend : ∀ p, ∀ x ∈ n.inflight p, x.2 = .send)
    (hr : (e.asyncRuns e.selfTest n).Reachable (.ret (), n')) :
    Cluster.Frame c n'.cluster ∧
      (∀ p, n'.cluster.area p = c.area p ∨ p ≠ e.me ∧ n'.cluster.area p = tested (c.area p)) ∧
      ∀ p < e.clusterSize, p ≠ e.me → n'.inflight p = [] →
        n'.cluster.area p = tested (c.area p) := by
  obtain ⟨g, hposted, hinv⟩ := selfTest_inv hc hsend hr
  refine ⟨hinv.frame, fun p => ?_, fun p hp hne hempty => ?_⟩
  · refine (hinv.peer p).area.imp_right fun ⟨hp, harea⟩ => ⟨?_, harea⟩
    rintro rfl
    rw [hinv.me] at hp
    cases hp
  · refine ((hinv.peer p).written (hposted p hp hne)).resolve_right ?_
    rintro ⟨x, hx, -⟩
    rw [hempty] at hx
    cases hx

def atNode (e : ECAL) (q : Nat) : ECAL := { e with me := q }

/-- Node `q` reads the same page in both states. -/
def SamePage (e : ECAL) (q : Nat) (c c' : Cluster) (index : Nat) : Prop :=
  ∃ page c₁ c₁',
    ((e.atNode q).readBlock index).run (e.atNode q).handle c = some (⟨page, index⟩, c₁) ∧
    ((e.atNode q).readBlock index).run (e.atNode q).handle c' = some (⟨page, index⟩, c₁')

section SamePage

variable {q index : Nat} {page : Block4K} {c' : Cluster} (hd : e.isal.Documented)
  (hrow : e.InPool index) (hs : c.HasSlots q) (hl : c.Sound q)
  (hK : K ≤ ((List.range N).filter (c.isPeerAlive q)).length)
  (hw : ∀ d < N, e.stored c index d = e.blockOf page d)
include hd hrow hs hl hK hw

theorem samePage_iff (hf : Cluster.Frame c c') : e.SamePage q c c' index ↔
    ∀ d ∈ (e.atNode q).chosen c, e.stored c' index d = e.stored c index d := by
  have hK' : K ≤ ((List.range N).filter (c'.isPeerAlive q)).length := by
    rw [funext (hf.isPeerAlive q)]
    exact hK
  have hchosen : (e.atNode q).chosen c' = (e.atNode q).chosen c := by
    change (select (c'.isPeerAlive q) N).1 = (select (c.isPeerAlive q) N).1
    rw [funext (hf.isPeerAlive q)]
  have hin : ∀ d ∈ (e.atNode q).chosen c, e.stored c index d = e.blockOf page d := fun d hmem =>
    hw d ((select_inv (c.isPeerAlive q) N).chosen d hmem).1
  have hbefore := @readBlock_spec (e.atNode q) c index page hd hrow hs hl hK hin
  constructor
  · rintro ⟨page₁, c₁, c₁', hr, hr'⟩
    obtain ⟨page', hblk, hafter⟩ := @readBlock_page (e.atNode q) c' index hd hrow (hf.hasSlots hs)
      (hf.sound hl) hK'
    have hpage : page₁ = page := congrArg Page.page (hbefore.of_run hr).1
    have hpage' : page₁ = page' := congrArg Page.page (hafter.of_run hr').1
    intro d hmem
    rw [hin d hmem, ← hpage, hpage']
    exact hblk d (hchosen ▸ hmem)
  · intro hsame
    obtain ⟨_, c₁, hr, rfl, -⟩ := hbefore
    obtain ⟨_, c₁', hr', rfl, -⟩ := @readBlock_spec (e.atNode q) c' index page hd hrow
      (hf.hasSlots hs) (hf.sound hl) hK' fun d hmem => by
        rw [hchosen] at hmem
        exact (hsame d hmem).trans (hin d hmem)
    exact ⟨page, c₁, c₁', hr, hr'⟩

end SamePage

theorem row_lt_two {index : Nat} (hsize : N ≤ e.clusterSize) :
    (e.getDataPos index).row < 2 ↔ index < 2 * (e.clusterSize / N) :=
  Nat.div_lt_iff_lt_mul (Nat.div_pos hsize (by decide))

theorem stored_tested {index d : Nat} {c' : Cluster} (hsize : N ≤ e.clusterSize)
    (harea : c'.area d = tested (c.area d)) : e.stored c' index d =
      if index < 2 * (e.clusterSize / N) then fun _ => 65 else e.stored c index d := by
  rw [stored, harea, load_tested]
  simp only [row_lt_two hsize]
  rfl

variable {gs : NodeSetup} {s : RDMASocket}

/-- Every way in which the constructor of a node can end, after the network has finished its
writes or before, leaves the page that node `q` reads as it is. -/
def StartKeeps (e : ECAL) (c : Cluster) (s : RDMASocket) (q index : Nat) : Prop :=
  ∀ n, (e.asyncRuns e.selfTest (afterHandshake c s)).Reachable (.ret (), n) →
    e.SamePage q c n.cluster index

section Start

variable (hr : (RDMASocket.handshake gs).Run w s) (hall : RDMASocket.AllConnected gs s)
  (hend : gs.clusterSize - 1 ≤ s.incomingConns) (hc : Connected e c s)
  (hsize : e.clusterSize = gs.clusterSize) (hme : e.me = gs.me) (hlt : e.me < e.clusterSize)
  (hN : N ∣ e.clusterSize) (hpool : 4096 ≤ e.poolSize)
include hr hall hend hc hsize hme hlt hN hpool

/-- The constructor does end, with every test write finished. -/
theorem selfTest_finishes : ∃ n,
    (e.asyncRuns e.selfTest (afterHandshake c s)).Reachable (.ret (), n) ∧
    ∀ p < e.clusterSize, p ≠ e.me → n.cluster.area p = tested (c.area p) := by
  have hcl := (afterHandshake_spec (m := e.clusterSize) c s
    (hsize ▸ (RDMASocket.handshake_sent hr).1)).1
  obtain ⟨n, hn, -, -, hempty⟩ := start_leaves hr hall hend hc hsize hme hlt hN hpool
  refine ⟨n, hn, fun p hp hne => ?_⟩
  refine (selfTest_area hcl (afterHandshake_sends c s) hn).2.2 p hp hne ?_
  exact List.length_eq_zero_iff.1 (Finset.sum_eq_zero_iff.1 hempty p (Finset.mem_range.2 hp))

/-- The self-test of a start overwrites the rows 0 and 1 of all other nodes. -/
theorem start_keeps_iff {q index : Nat} {page : Block4K} (hd : e.isal.Documented)
    (hindex : index < e.getClusterCapacity) (hs : c.HasSlots q)
    (hK : K ≤ ((List.range N).filter (c.isPeerAlive q)).length)
    (hw : ∀ d < N, e.stored c index d = e.blockOf page d) :
    e.StartKeeps c s q index ↔ 2 * (e.clusterSize / N) ≤ index ∨
      ∀ d ∈ (e.atNode q).chosen c, d ≠ e.me → e.stored c index d = fun _ => 65 := by
  have hle : N ≤ e.clusterSize := Nat.le_of_dvd (Nat.zero_lt_of_lt hlt) hN
  have hl : c.Sound q := fun p hp _ _ => hc.up p (hp.trans_le hle)
  have hrow : e.InPool index := inPool_of_lt hindex
  have hcl := (afterHandshake_spec (m := e.clusterSize) c s
    (hsize ▸ (RDMASocket.handshake_sent hr).1)).1
  have hlive : ∀ d ∈ (e.atNode q).chosen c, d < e.clusterSize := fun d hmem =>
    ((select_inv (c.isPeerAlive q) N).chosen d hmem).1.trans_le hle
  constructor
  · intro hkeeps
    refine or_iff_not_imp_left.2 fun hlow d hmem hne => ?_
    obtain ⟨n, hn, hwritten⟩ := selfTest_finishes hr hall hend hc hsize hme hlt hN hpool
    have hf := (selfTest_area hcl (afterHandshake_sends c s) hn).1
    have hsame := (samePage_iff hd hrow hs hl hK hw hf).1 (hkeeps n hn) d hmem
    rw [stored_tested hle (hwritten d (hlive d hmem) hne), if_pos (not_le.1 hlow)] at hsame
    exact hsame.symm
  · intro hcond n hn
    obtain ⟨hf, harea, -⟩ := selfTest_area hcl (afterHandshake_sends c s) hn
    refine (samePage_iff hd hrow hs hl hK hw hf).2 fun d hmem => ?_
    cases harea d with
    | inl hold => rw [stored, hold, stored]
    | inr hnew =>
      rw [stored_tested hle hnew.2]
      split
      case isTrue hlow => exact ((hcond.resolve_left (not_le.2 hlow)) d hmem hnew.1).symm
      case isFalse => rfl

end Start

abbrev fourRows : ECAL := ⟨IsaL.base, 3, 0, 8192⟩

theorem fourRows_connected : Connected fourRows .fresh joined :=
  ⟨fun _ _ => rfl, by decide, fun _ => rfl, Cluster.fresh_hasSlots 0⟩

theorem stored_fresh (index : Nat) {d : Nat} (hd : d < N) :
    fourRows.stored .fresh index d = fourRows.blockOf (fun _ => 0) d :=
  (blockOf_zero IsaL.base_documented hd).symm

theorem start_keeps_iff_high : fourRows.StartKeeps .fresh joined 0 2 := by
  obtain ⟨w, hr, hall, hend⟩ := joined_run
  exact (start_keeps_iff hr hall hend.ge fourRows_connected rfl rfl (by decide) (by decide)
    (by decide) IsaL.base_documented (by decide) (Cluster.fresh_hasSlots 0) (by decide)
    fun _ hd => stored_fresh 2 hd).2 (.inl (by decide))

/-- A cluster of cleared pages: the start of node 0 overwrites the second block of the first. -/
theorem start_overwrites : (∀ index, ∃ page, ∀ d < N,
      fourRows.stored .fresh index d = fourRows.blockOf page d) ∧
    ¬ fourRows.StartKeeps .fresh joined 0 0 := by
  refine ⟨fun index => ⟨fun _ => 0, fun _ hd => stored_fresh index hd⟩, fun hkeeps => ?_⟩
  obtain ⟨w, hr, hall, hend⟩ := joined_run
  obtain ⟨n, hn, hwritten⟩ := selfTest_finishes hr hall hend.ge fourRows_connected rfl rfl
    (by decide) (by decide) (by decide)
  have hcl := (afterHandshake_spec (m := 3) .fresh joined (RDMASocket.handshake_sent hr).1).1
  have hf := (selfTest_area hcl (afterHandshake_sends _ _) hn).1
  have hsame := (samePage_iff IsaL.base_documented (inPool_of_lt (by decide))
    (Cluster.fresh_hasSlots 0) (Cluster.fresh_sound 0) (by decide)
    (fun _ hd => stored_fresh 0 hd) hf).1 (hkeeps n hn) 1 (by decide)
  rw [stored_tested (by decide) (hwritten 1 (by decide) (by decide)), if_pos (by decide)] at hsame
  exact absurd (congrFun hsame ⟨0, by decide⟩) (by decide)

end ECAL

end Galois
