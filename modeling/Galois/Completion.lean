import Galois.Handshake
import Galois.ReadWrite

namespace Galois
set_option autoImplicit true
set_option relaxedAutoImplicit false

open Prog

inductive WorkRequest where
  | send
  | read (remoteSrcShift localDst length : Nat)
  | write (remoteDstShift localSrc length : Nat)

/-- A cluster whose network works on its own: for each peer the unfinished work requests in
order, the shared send completion queue, and how many requests have been posted. -/
structure Network where
  cluster : Cluster
  inflight : Nat → List (Nat × WorkRequest)
  sendCQ : List Nat
  posted : Nat

namespace Network

/-- A new request gets the next number and goes to the end of the queue of its peer. -/
def post (n : Network) (peerId : Nat) (wr : WorkRequest) : Network :=
  { n with
    inflight := fun p => if p = peerId then n.inflight p ++ [(n.posted, wr)] else n.inflight p
    posted := n.posted + 1 }

def finish (me peerId : Nat) (c : Cluster) : WorkRequest → Cluster
  | .send => c
  | .read shift dst len =>
    let conn := c.peers me peerId
    c.setPeer me peerId
      { conn with readRegion := conn.readRegion.store dst ((c.area peerId).load shift len) }
  | .write shift src len =>
    c.setArea peerId
      ((c.area peerId).store shift ((c.peers me peerId).writeRegion.load src len))

/-- The oldest request of a peer finishes, and leaves its entry in the completion queue. -/
def complete (n : Network) (me peerId i : Nat) (wr : WorkRequest)
    (rest : List (Nat × WorkRequest)) : Network :=
  { n with
    cluster := finish me peerId n.cluster wr
    inflight := fun p => if p = peerId then rest else n.inflight p
    sendCQ := n.sendCQ ++ [i] }

def Unfinished (n : Network) : Prop := ∃ p, ∃ x ∈ n.inflight p, x.1 + 1 = n.posted

end Network

namespace ECAL

/-- The socket of node `e.me` over the network: a post only queues the request, and a poll
takes the oldest completion, whatever request it is of. -/
def asyncHandle (e : ECAL) : Handler sig Network
  | .postRead p shift dst len _, n =>
    if n.cluster.up p ∧ shift + len ≤ e.poolSize ∧ dst + len ≤ 4096 * NConcurrency then
      some ((), n.post p (.read shift dst len))
    else none
  | .postWrite p shift src len, n =>
    if n.cluster.up p ∧ shift + len ≤ e.poolSize ∧ src + len ≤ 4096 * NConcurrency then
      some ((), n.post p (.write shift src len))
    else none
  | .pollSendCompletion, n =>
    match n.sendCQ with
    | [] => none
    | _ :: sendCQ => some ((), { n with sendCQ := sendCQ })
  | o, n => (e.handle o n.cluster).map fun r => (r.1, { n with cluster := r.2 })

inductive NetAction where
  | call (o : Op)
  | complete (peerId : Nat)

/-- The program of node `e.me` and the network take turns in any order. -/
inductive NetStep (e : ECAL) : Prog sig Unit × Network → NetAction → Prog sig Unit × Network → Prop
  | call {o : Op} {k : o.Res → Prog sig Unit} {n n' : Network} {r : o.Res}
      (hr : e.asyncHandle o n = some (r, n')) :
      NetStep e (Prog.call (S := sig) o k, n) (.call o) (k r, n')
  | complete {p : Prog sig Unit} {n : Network} {peerId i : Nat} {wr : WorkRequest}
      {rest : List (Nat × WorkRequest)} (hq : n.inflight peerId = (i, wr) :: rest) :
      NetStep e (p, n) (.complete peerId) (p, n.complete e.me peerId i wr rest)

/-- The runs of a program from a network state. -/
def asyncRuns (e : ECAL) (p : Prog sig Unit) (n : Network) :
    System (Prog sig Unit × Network) NetAction := ⟨(· = (p, n)), NetStep e⟩

/-- Whenever a poll can return, the request posted last has finished. -/
def Matched (e : ECAL) (p : Prog sig Unit) (n : Network) : Prop :=
  ∀ k n', (e.asyncRuns p n).Reachable (Prog.call (S := sig) .pollSendCompletion k, n') →
    n'.sendCQ ≠ [] → ¬n'.Unfinished

/-- The end of the `RDMASocket` constructor: a test write to every other node. -/
def selfTest (e : ECAL) : Prog sig Unit := do
  (List.range e.clusterSize).foldlM (fun _ peerId =>
    if peerId = e.me then pure ()
    else do
      fillWriteRegion peerId 65 4096
      postWrite peerId 0 0 4096) ()
  (List.range e.clusterSize).foldlM (fun _ peerId =>
    if peerId = e.me then pure () else pollSendCompletion) ()

inductive Call where
  | readBlock (index : Nat)
  | writeBlock (page : Page)

def Call.index : Call → Nat
  | .readBlock index => index
  | .writeBlock page => page.index

def Call.run (e : ECAL) : Call → Prog sig Unit
  | .readBlock index => do
    let _ ← e.readBlock index
    pure ()
  | .writeBlock page => e.writeBlock page

def calls (e : ECAL) : List Call → Prog sig Unit
  | [] => pure ()
  | c :: cs => do
    c.run e
    e.calls cs

/-- The network at the end of the wait loop: the sends of the handshake have been posted. -/
def afterHandshake (c : Cluster) (s : RDMASocket) : Network :=
  s.sends.foldl (fun n conn => n.post conn.peer .send) ⟨c, fun _ => [], [], 0⟩

/-- The cluster as the sockets of node `e.me` see it at the end of the wait loop. -/
structure Connected (e : ECAL) (c : Cluster) (s : RDMASocket) : Prop where
  up : ∀ p < e.clusterSize, c.up p = true
  connected : ∀ p < e.clusterSize, p ≠ e.me → (c.peers e.me p).connected = s.connected p
  unforced : ∀ p, (c.peers e.me p).forcedConnStat = 0
  slots : c.HasSlots e.me

variable {e : ECAL}

/-- All nodes run and are alive for `e.me`, and its regions have free slots. -/
structure Ready (e : ECAL) (c : Cluster) : Prop where
  up : ∀ p < e.clusterSize, c.up p = true
  alive : ∀ p < e.clusterSize, c.isPeerAlive e.me p = true
  slots : c.HasSlots e.me

theorem Ready.frame {c c' : Cluster} (h : Ready e c) (hf : Cluster.Frame c c') : Ready e c' :=
  ⟨fun p hp => hf.up ▸ h.up p hp, fun p hp => hf.isPeerAlive e.me p ▸ h.alive p hp,
    hf.hasSlots h.slots⟩

theorem Ready.setArea {c : Cluster} (h : Ready e c) (q : Nat) (m : Mem) :
    Ready e (c.setArea q m) := ⟨h.up, h.alive, h.slots⟩

theorem finish_frame (me peerId : Nat) (c : Cluster) (wr : WorkRequest) :
    Cluster.Frame c (Network.finish me peerId c wr) := by
  cases wr with
  | send => exact .refl c
  | read shift dst len => exact (Cluster.Frame.refl c).setPeer rfl
  | write shift src len => exact ⟨rfl, fun _ _ => rfl⟩

def pending (n : Network) (m : Nat) : Nat := ∑ p ∈ Finset.range m, (n.inflight p).length

theorem pending_succ {n n' : Network} {m p : Nat} (hp : p < m)
    (h : ∀ q, (n'.inflight q).length = (n.inflight q).length + if q = p then 1 else 0) :
    pending n' m = pending n m + 1 := by
  simp only [pending, h]
  rw [Finset.sum_add_distrib, Finset.sum_ite_eq', if_pos (Finset.mem_range.2 hp)]

theorem pending_post (n : Network) {m p : Nat} (wr : WorkRequest) (hp : p < m) :
    pending (n.post p wr) m = pending n m + 1 := by
  apply pending_succ hp
  intro q
  simp only [Network.post]
  split
  · rw [List.length_append, List.length_singleton]
  · rfl

theorem post_unfinished (n : Network) (p : Nat) (wr : WorkRequest) : (n.post p wr).Unfinished := by
  refine ⟨p, (n.posted, wr), ?_, rfl⟩
  simp only [Network.post, ↓reduceIte]
  exact List.mem_append_right _ (List.mem_singleton_self _)

section Reach

variable {p₀ : Prog sig Unit} {n₀ n n' : Network}

theorem reach_run {p : Prog sig α} {f : α → Prog sig Unit} {a : α}
    (h : (e.asyncRuns p₀ n₀).Reachable (p >>= f, n)) (hr : p.run e.asyncHandle n = some (a, n')) :
    (e.asyncRuns p₀ n₀).Reachable (f a, n') := by
  induction p generalizing n with
  | ret b =>
    rw [run_ret, Option.some.injEq, Prod.mk.injEq] at hr
    obtain ⟨rfl, rfl⟩ := hr
    exact h
  | call o k ih =>
    rw [run_call] at hr
    obtain ⟨⟨r, n₁⟩, ho, hk⟩ := Option.bind_eq_some_iff.1 hr
    exact ih r (h.step (.call ho)) hk

theorem reach_end {p : Prog sig Unit} {a : Unit} (h : (e.asyncRuns p₀ n₀).Reachable (p, n))
    (hr : p.run e.asyncHandle n = some (a, n')) :
    (e.asyncRuns p₀ n₀).Reachable (.ret a, n') :=
  reach_run (f := Prog.ret) (by rwa [Prog.bind_ret]) hr

theorem reach_drain {p : Prog sig Unit} {m : Nat} (h : (e.asyncRuns p₀ n₀).Reachable (p, n)) :
    ∃ n', (e.asyncRuns p₀ n₀).Reachable (p, n') ∧ Cluster.Frame n.cluster n'.cluster ∧
      n'.sendCQ.length = n.sendCQ.length + pending n m ∧ pending n' m = 0 := by
  generalize ht : pending n m = t
  induction t generalizing n with
  | zero => exact ⟨n, h, .refl _, rfl, ht⟩
  | succ t ih =>
    have hne : ∃ q ∈ Finset.range m, (n.inflight q).length ≠ 0 := by
      by_contra hno
      push Not at hno
      rw [pending, Finset.sum_eq_zero hno] at ht
      cases ht
    obtain ⟨q, hq, hne⟩ := hne
    obtain ⟨⟨i, wr⟩, rest, hcons⟩ := List.exists_cons_of_ne_nil (List.ne_nil_of_length_pos
      (Nat.pos_of_ne_zero hne))
    have hsucc : pending n m = pending (n.complete e.me q i wr rest) m + 1 := by
      apply pending_succ (Finset.mem_range.1 hq)
      intro q'
      simp only [Network.complete]
      split
      · next hqq => rw [hqq, hcons, List.length_cons]
      · rfl
    obtain ⟨n', hr, hf, hlen, hempty⟩ := ih (h.step (.complete hcons)) (by omega)
    refine ⟨n', hr, (finish_frame e.me q n.cluster wr).trans hf, ?_, hempty⟩
    rw [hlen]
    simp only [Network.complete, List.length_append, List.length_singleton]
    omega

end Reach

theorem testWrites_spec {n : Network} (h : Ready e n.cluster) (hpool : 4096 ≤ e.poolSize)
    (hme : e.me < e.clusterSize) :
    Wp e.asyncHandle ((List.range e.clusterSize).foldlM (fun _ peerId =>
      if peerId = e.me then pure ()
      else do
        fillWriteRegion peerId 65 4096
        postWrite peerId 0 0 4096) ()) n fun _ n' =>
      Cluster.Frame n.cluster n'.cluster ∧ n'.sendCQ = n.sendCQ ∧
        pending n' e.clusterSize + 1 = pending n e.clusterSize + e.clusterSize := by
  apply (Wp.foldlM_range (I := fun i _ n' => i ≤ e.clusterSize →
    Cluster.Frame n.cluster n'.cluster ∧ n'.sendCQ = n.sendCQ ∧
      pending n' e.clusterSize + (if e.me < i then 1 else 0) = pending n e.clusterSize + i)
    e.clusterSize ?_ ?_).mono
  · intro _ n' hI
    obtain ⟨hf, hcq, hp⟩ := hI le_rfl
    rw [if_pos hme] at hp
    exact ⟨hf, hcq, hp⟩
  · intro _
    exact ⟨.refl _, rfl, rfl⟩
  · intro i hi _ n₁ hI
    obtain ⟨hf, hcq, hp⟩ := hI hi.le
    split
    · next him =>
      apply Wp.ret
      intro _
      refine ⟨hf, hcq, ?_⟩
      rw [if_neg him.le.not_gt] at hp
      rw [if_pos (him ▸ i.lt_succ_self)]
      omega
    · next him =>
      have hup : n₁.cluster.up i = true := hf.up ▸ h.up i hi
      have hbound : 0 + 4096 ≤ e.poolSize ∧ 0 + 4096 ≤ 4096 * NConcurrency := ⟨by omega, by decide⟩
      apply Wp.call rfl
      apply Wp.call (if_pos ⟨by exact hup, hbound⟩)
      apply Wp.ret
      intro _
      refine ⟨hf.trans ((Cluster.Frame.refl _).setPeer rfl), hcq, ?_⟩
      have hiff : e.me < i + 1 ↔ e.me < i := by omega
      simp only [hiff]
      rw [pending_post _ _ hi]
      change pending n₁ e.clusterSize + 1 + _ = _
      omega

theorem testPolls_spec {n : Network} (hcq : e.clusterSize ≤ n.sendCQ.length + 1)
    (hme : e.me < e.clusterSize) :
    Wp e.asyncHandle ((List.range e.clusterSize).foldlM (fun _ peerId =>
      if peerId = e.me then pure () else pollSendCompletion) ()) n fun _ n' =>
      n'.cluster = n.cluster ∧ n'.inflight = n.inflight ∧
        n'.sendCQ.length + e.clusterSize = n.sendCQ.length + 1 := by
  apply (Wp.foldlM_range (I := fun i _ n' => n'.cluster = n.cluster ∧ n'.inflight = n.inflight ∧
    n'.sendCQ.length + i = n.sendCQ.length + if e.me < i then 1 else 0) e.clusterSize ?_ ?_).mono
  · intro _ n' hI
    rwa [if_pos hme] at hI
  · exact ⟨rfl, rfl, rfl⟩
  · rintro i hi _ n₁ ⟨hc, hin, hlen⟩
    split
    · next him =>
      apply Wp.ret
      refine ⟨hc, hin, ?_⟩
      rw [if_neg him.le.not_gt] at hlen
      rw [if_pos (him ▸ i.lt_succ_self)]
      omega
    · next him =>
      have hiff : e.me < i + 1 ↔ e.me < i := by omega
      obtain ⟨x, xs, hxs⟩ : ∃ x xs, n₁.sendCQ = x :: xs := by
        apply List.exists_cons_of_ne_nil
        apply List.ne_nil_of_length_pos
        split at hlen <;> omega
      have hpoll : e.asyncHandle .pollSendCompletion n₁ = some ((), { n₁ with sendCQ := xs }) := by
        simp only [asyncHandle, hxs]
        rfl
      apply Wp.call hpoll
      apply Wp.ret
      refine ⟨hc, hin, ?_⟩
      simp only [hiff]
      rw [hxs, List.length_cons] at hlen
      omega

/-- From a queue with an entry for each other node, the constructor ends with as many left. -/
theorem selfTest_leaves {n : Network} (h : Ready e n.cluster) (hpool : 4096 ≤ e.poolSize)
    (hme : e.me < e.clusterSize) (hsize : 1 < e.clusterSize)
    (hsends : e.clusterSize ≤ pending n e.clusterSize + 1) :
    ∃ n', (e.asyncRuns e.selfTest n).Reachable (.ret (), n') ∧ Ready e n'.cluster ∧
      n'.sendCQ ≠ [] ∧ pending n' e.clusterSize = 0 := by
  obtain ⟨n₁, hr₁, hf₁, hlen₁, -⟩ := reach_drain (m := e.clusterSize) (e := e)
    ⟨[], System.Run.nil (M := e.asyncRuns e.selfTest n) rfl⟩
  obtain ⟨_, n₂, hrun₂, hf₂, hcq₂, hp₂⟩ := testWrites_spec (h.frame hf₁) hpool hme
  have hcq : e.clusterSize ≤ n₂.sendCQ.length + 1 := by
    rw [hcq₂]
    omega
  obtain ⟨_, n₃, hrun₃, hc₃, hin₃, hlen₃⟩ := testPolls_spec hcq hme
  have hr₃ := reach_end (reach_run hr₁ hrun₂) hrun₃
  obtain ⟨n₄, hr₄, hf₄, hlen₄, hempty₄⟩ := reach_drain (m := e.clusterSize) hr₃
  refine ⟨n₄, hr₄, ?_, ?_, hempty₄⟩
  · exact (((h.frame hf₁).frame hf₂).frame (hc₃ ▸ .refl _)).frame hf₄
  · have hpend : pending n₃ e.clusterSize = pending n₂ e.clusterSize := by
      simp only [pending, hin₃]
    apply List.ne_nil_of_length_pos
    rw [hcq₂] at hlen₃
    omega

theorem afterHandshake_spec (c : Cluster) (s : RDMASocket) {m : Nat}
    (hp : ∀ conn ∈ s.sends, conn.peer < m) :
    (afterHandshake c s).cluster = c ∧ pending (afterHandshake c s) m = s.sends.length := by
  have hfold : ∀ (l : List Conn) (n : Network), (∀ conn ∈ l, conn.peer < m) →
      (l.foldl (fun n conn => n.post conn.peer .send) n).cluster = n.cluster ∧
      pending (l.foldl (fun n conn => n.post conn.peer .send) n) m = pending n m + l.length := by
    intro l
    induction l with
    | nil => exact fun n _ => ⟨rfl, rfl⟩
    | cons conn l ih =>
      intro n hl
      obtain ⟨hc, hpend⟩ := ih (n.post conn.peer .send) fun d hd => hl d (List.mem_cons_of_mem _ hd)
      rw [List.foldl_cons, List.length_cons]
      refine ⟨hc, ?_⟩
      rw [hpend, pending_post n .send (hl conn List.mem_cons_self)]
      omega
  obtain ⟨hc, hpend⟩ := hfold s.sends ⟨c, fun _ => [], [], 0⟩ hp
  refine ⟨hc, hpend.trans ?_⟩
  simp only [pending, List.length_nil, Finset.sum_const_zero, Nat.zero_add]

section FirstPost

variable {p₀ : Prog sig Unit} {n₀ n : Network} (h : Ready e n.cluster) (hN : N ≤ e.clusterSize)
include h hN

theorem writeStep_posts {page : Page} {i : Nat} {f : Unit → Prog sig Unit} (hi : i < N)
    (hne : i ≠ e.me) (hrow : e.InPool page.index)
    (hr : (e.asyncRuns p₀ n₀).Reachable (e.writeStep page i >>= f, n)) : ∃ k n',
      (e.asyncRuns p₀ n₀).Reachable (Prog.call (S := sig) .pollSendCompletion k, n') ∧
      n'.sendCQ = n.sendCQ ∧ n'.Unfinished := by
  have hic : i < e.clusterSize := hi.trans_le hN
  simp only [writeStep, node_lt page.index hi, if_neg hne] at hr
  have halive : e.asyncHandle (.isPeerAlive i) n = some (true, n) := by
    simp only [asyncHandle, handle, h.alive i hic, Option.map_some]
    rfl
  have hr₁ := hr.step (.call halive)
  obtain ⟨j, hj, ha⟩ := handle_getWriteRegion (h.slots i).2
  have hr₂ := hr₁.step (.call (by simp only [asyncHandle, ha]; rfl))
  have hr₃ := hr₂.step (.call rfl)
  have hr₄ := hr₃.step (.call (if_pos ⟨by exact h.up i hic, hrow, slot_lt hj⟩))
  exact ⟨_, _, hr₄, rfl, post_unfinished _ _ _⟩

theorem fetchBlock_posts {index d i : Nat} {f : Source → Prog sig Unit} (hd : d < N)
    (hne : d ≠ e.me) (hrow : e.InPool index)
    (hr : (e.asyncRuns p₀ n₀).Reachable (e.fetchBlock (e.getDataPos index) d i >>= f, n)) :
    ∃ k n', (e.asyncRuns p₀ n₀).Reachable (Prog.call (S := sig) .pollSendCompletion k, n') ∧
      n'.sendCQ = n.sendCQ ∧ n'.Unfinished := by
  have hpeer : (d + (e.getDataPos index).startNodeId) % N = d := by
    rw [Nat.add_comm, node_lt index hd]
  simp only [fetchBlock, hpeer, if_pos hne] at hr
  obtain ⟨j, hj, ha⟩ := handle_getReadRegion (h.slots d).1
  have hr₁ := hr.step (.call (by simp only [asyncHandle, ha]; rfl))
  have hr₂ := hr₁.step (.call (if_pos ⟨by exact h.up d (hd.trans_le hN), hrow, slot_lt hj⟩))
  exact ⟨_, _, hr₂, rfl, post_unfinished _ _ _⟩

theorem writeBlock_posts {page : Page} {f : Unit → Prog sig Unit} (hrow : e.InPool page.index)
    (hr : (e.asyncRuns p₀ n₀).Reachable (e.writeBlock page >>= f, n)) : ∃ k n',
      (e.asyncRuns p₀ n₀).Reachable (Prog.call (S := sig) .pollSendCompletion k, n') ∧
      n'.sendCQ = n.sendCQ ∧ n'.Unfinished := by
  have hsteps : e.writeBlock page = e.writeStep page 0 >>= fun _ => e.writeStep page 1 >>= fun _ =>
      [2].foldlM (fun _ i => e.writeStep page i) () := rfl
  rw [hsteps, Prog.bind_assoc] at hr
  by_cases hme : 0 = e.me
  · -- the own block is stored without a post, so the block of node 1 is the first
    have hown : (e.writeStep page 0).run e.asyncHandle n = some ((),
        { n with
          cluster := n.cluster.setArea e.me ((n.cluster.area e.me).store
            ((e.getDataPos page.index).row * blockSize) (e.blockOf page.page 0)) }) := by
      simp only [writeStep, node_lt page.index (show 0 < N by decide), if_pos hme]
      change (e.asyncHandle (.storePool _ _) n).bind _ = _
      simp only [asyncHandle, handle_storePool _ hrow]
      rfl
    have hr₁ := reach_run hr hown
    rw [Prog.bind_assoc] at hr₁
    exact writeStep_posts (n := { n with cluster := n.cluster.setArea e.me _ }) (h.setArea _ _) hN
      (by decide) (hme ▸ Nat.one_ne_zero) hrow hr₁
  · exact writeStep_posts h hN (by decide) hme hrow hr

theorem fetchBlocks_posts {index : Nat} {f : List Source → Prog sig Unit} (hrow : e.InPool index)
    (hr : (e.asyncRuns p₀ n₀).Reachable
      (e.fetchBlocks (e.getDataPos index) (List.range K) >>= f, n)) : ∃ k n',
      (e.asyncRuns p₀ n₀).Reachable (Prog.call (S := sig) .pollSendCompletion k, n') ∧
      n'.sendCQ = n.sendCQ ∧ n'.Unfinished := by
  have hsteps : e.fetchBlocks (e.getDataPos index) (List.range K) =
      e.fetchBlock (e.getDataPos index) 0 0 >>= fun src₀ =>
        e.fetchBlock (e.getDataPos index) 1 1 >>= fun src₁ => pure [src₀, src₁] := by
    rw [fetchBlocks, show List.range K = [0, 1] from rfl]
    simp only [List.foldlM_cons, entry, List.getElem?_cons_zero, List.getElem?_cons_succ, ret_bind,
      pure_eq, Prog.bind_assoc, List.foldlM_nil, List.nil_append, List.cons_append]
  rw [hsteps, Prog.bind_assoc] at hr
  by_cases hme : 0 = e.me
  · -- the own block is not fetched, so the block of node 1 is the first
    have hown : (e.fetchBlock (e.getDataPos index) 0 0).run e.asyncHandle n =
        some (.pool (e.getDataPos index).row, n) := by
      have hpeer : (0 + (e.getDataPos index).startNodeId) % N = 0 := by
        rw [Nat.add_comm, node_lt index (by decide)]
      simp only [fetchBlock, hpeer, if_neg (not_not.2 hme)]
      rfl
    have hr₁ := reach_run hr hown
    rw [Prog.bind_assoc] at hr₁
    exact fetchBlock_posts h hN (by decide) (hme ▸ Nat.one_ne_zero) hrow hr₁
  · exact fetchBlock_posts h hN (by decide) hme hrow hr

theorem readBlock_posts {index : Nat} {f : Page → Prog sig Unit} (hrow : e.InPool index)
    (hr : (e.asyncRuns p₀ n₀).Reachable (e.readBlock index >>= f, n)) : ∃ k n',
      (e.asyncRuns p₀ n₀).Reachable (Prog.call (S := sig) .pollSendCompletion k, n') ∧
      n'.sendCQ = n.sendCQ ∧ n'.Unfinished := by
  have halive : ∀ p, e.asyncHandle (.isPeerAlive p) n =
      some (n.cluster.isPeerAlive e.me p, n) := fun _ => rfl
  obtain ⟨acc, n₁, hrun, hacc, rfl⟩ := selectSurvivors_spec e index halive
  rw [select_intact fun d hd => h.alive d ((hd.trans (by decide)).trans_le hN)] at hacc
  subst hacc
  rw [readBlock, Prog.bind_assoc] at hr
  have hr₁ := reach_run hr hrun
  simp only [Prog.bind_assoc] at hr₁
  exact fetchBlocks_posts h hN hrow hr₁

theorem call_posts {c : Call} {cs : List Call} (hrow : e.InPool c.index)
    (hr : (e.asyncRuns p₀ n₀).Reachable (e.calls (c :: cs), n)) : ∃ k n',
      (e.asyncRuns p₀ n₀).Reachable (Prog.call (S := sig) .pollSendCompletion k, n') ∧
      n'.sendCQ = n.sendCQ ∧ n'.Unfinished := by
  cases c with
  | readBlock index =>
    rw [calls, Call.run, Prog.bind_assoc] at hr
    exact readBlock_posts h hN hrow hr
  | writeBlock page => exact writeBlock_posts h hN hrow hr

end FirstPost

/-- After every way the constructor can end, and in every order in which the network works, a
poll of the calls that follow returns only when the request just posted has finished. -/
def AlwaysMatched (e : ECAL) (n : Network) (cs : List Call) : Prop :=
  ∀ n', (e.asyncRuns e.selfTest n).Reachable (.ret (), n') → e.Matched (e.calls cs) n'

theorem alwaysMatched_nil (e : ECAL) (n : Network) : e.AlwaysMatched n [] := by
  rintro n' - k n'' ⟨w, hr⟩ - -
  have hret := hr.invariant (I := fun st => st.1 = Prog.ret ())
    (fun st hst => by rw [hst]; rfl) (fun st a st' hst hs => by
      cases hs with
      | call hr => cases hst
      | complete hq => exact hst)
  cases hret

variable {g : NodeSetup} {s : RDMASocket} {c : Cluster}

theorem Connected.ready (hc : Connected e c s) (hsize : e.clusterSize = g.clusterSize)
    (hme : e.me = g.me) (hall : RDMASocket.AllConnected g s) : Ready e c := by
  refine ⟨hc.up, fun p hp => ?_, hc.slots⟩
  rw [Cluster.isPeerAlive]
  split
  · rfl
  · next hne =>
    rw [if_neg (not_not.2 (hc.unforced p)), hc.connected p hp hne]
    exact (hall p (hsize ▸ hp) (hme ▸ hne)).1

theorem start_leaves (hr : (RDMASocket.handshake g).Run w s)
    (hall : RDMASocket.AllConnected g s) (hend : g.clusterSize - 1 ≤ s.incomingConns)
    (hc : Connected e c s) (hsize : e.clusterSize = g.clusterSize) (hme : e.me = g.me)
    (hlt : e.me < e.clusterSize) (hN : N ∣ e.clusterSize) (hpool : 4096 ≤ e.poolSize) :
    ∃ n, (e.asyncRuns e.selfTest (afterHandshake c s)).Reachable (.ret (), n) ∧
      Ready e n.cluster ∧ n.sendCQ ≠ [] ∧ pending n e.clusterSize = 0 := by
  have hle : N ≤ e.clusterSize := Nat.le_of_dvd (Nat.zero_lt_of_lt hlt) hN
  obtain ⟨hpeer, hcount⟩ := RDMASocket.handshake_sent hr
  obtain ⟨hcl, hpend⟩ := afterHandshake_spec (m := e.clusterSize) c s (hsize ▸ hpeer)
  have hready : Ready e (afterHandshake c s).cluster := by
    rw [hcl]
    exact hc.ready hsize hme hall
  have hsends : e.clusterSize ≤ pending (afterHandshake c s) e.clusterSize + 1 := by omega
  have hone : 1 < e.clusterSize := hle.trans_lt' (by decide)
  exact selfTest_leaves hready hpool hlt hone hsends

/-- The first poll of the first call can take the completion of a handshake send. -/
theorem not_alwaysMatched (hr : (RDMASocket.handshake g).Run w s)
    (hall : RDMASocket.AllConnected g s) (hend : g.clusterSize - 1 ≤ s.incomingConns)
    (hc : Connected e c s) (hsize : e.clusterSize = g.clusterSize) (hme : e.me = g.me)
    (hlt : e.me < e.clusterSize) (hN : N ∣ e.clusterSize) (hpool : 4096 ≤ e.poolSize)
    {call : Call} (hcall : call.index < e.getClusterCapacity) (cs : List Call) :
    ¬e.AlwaysMatched (afterHandshake c s) (call :: cs) := by
  intro hm
  have hle : N ≤ e.clusterSize := Nat.le_of_dvd (Nat.zero_lt_of_lt hlt) hN
  obtain ⟨n, hn, hrn, hcq, -⟩ := start_leaves hr hall hend hc hsize hme hlt hN hpool
  obtain ⟨k, n', hr', hcq', hun⟩ := call_posts hrn hle (inPool_of_lt hcall)
    ⟨[], System.Run.nil (M := e.asyncRuns (e.calls (call :: cs)) n) rfl⟩
  exact hm n hn k n' hr' (hcq' ▸ hcq) hun

/-- The sends of the handshake are never polled, so that polls are matched only if nothing is
called. -/
theorem alwaysMatched_iff (hr : (RDMASocket.handshake g).Run w s)
    (hall : RDMASocket.AllConnected g s) (hend : g.clusterSize - 1 ≤ s.incomingConns)
    (hc : Connected e c s) (hsize : e.clusterSize = g.clusterSize) (hme : e.me = g.me)
    (hlt : e.me < e.clusterSize) (hN : N ∣ e.clusterSize) (hpool : 4096 ≤ e.poolSize)
    {cs : List Call} (hcs : ∀ call ∈ cs, call.index < e.getClusterCapacity) :
    e.AlwaysMatched (afterHandshake c s) cs ↔ cs = [] := by
  constructor
  · intro hm
    cases cs with
    | nil => rfl
    | cons call cs =>
      exact absurd hm (not_alwaysMatched hr hall hend hc hsize hme hlt hN hpool
        (hcs call List.mem_cons_self) cs)
  · rintro rfl
    exact alwaysMatched_nil e _

def joined : RDMASocket := (RDMASocket.initial.join 1).join 2

theorem joined_run : ∃ w, (RDMASocket.handshake RDMASocket.threeNodes).Run w joined ∧
    RDMASocket.AllConnected RDMASocket.threeNodes joined ∧ joined.incomingConns = 2 := by
  obtain ⟨w, hr⟩ := RDMASocket.run_threeNodes
  exact ⟨w, hr.of_restrict, ((RDMASocket.inTurn_inv hr).safe (by decide)).2 (by decide), by decide⟩

theorem joined_connected : Connected ⟨IsaL.base, 3, 0, 4096⟩ .fresh joined :=
  ⟨fun _ _ => rfl, by decide, fun _ => rfl, Cluster.fresh_hasSlots 0⟩

/-- A read on node 0 of three uses a block that has not been fetched. -/
theorem readBlock_unmatched : ¬AlwaysMatched ⟨IsaL.base, 3, 0, 4096⟩
    (afterHandshake .fresh joined) [.readBlock 0] := by
  obtain ⟨w, hr, hall, hend⟩ := joined_run
  exact not_alwaysMatched hr hall hend.ge joined_connected rfl rfl (by decide) (by decide) le_rfl
    (by decide) []

theorem writeBlock_unmatched : ¬AlwaysMatched ⟨IsaL.base, 3, 0, 4096⟩
    (afterHandshake .fresh joined) [.writeBlock ⟨fun _ => 1, 0⟩] := by
  obtain ⟨w, hr, hall, hend⟩ := joined_run
  have hcs : ∀ call ∈ [Call.writeBlock ⟨fun _ => 1, 0⟩],
      call.index < ECAL.getClusterCapacity ⟨IsaL.base, 3, 0, 4096⟩ := by
    intro call hmem
    rw [List.mem_singleton.1 hmem]
    decide
  rw [alwaysMatched_iff hr hall hend.ge joined_connected rfl rfl (by decide) (by decide) le_rfl hcs]
  exact List.cons_ne_nil _ _

end ECAL

end Galois
