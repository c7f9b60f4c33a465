import Galois.Effect.Prog
import Galois.Effect.System
import Mathlib.Data.Finset.Card

namespace Galois
set_option autoImplicit true
set_option relaxedAutoImplicit false

namespace RPCInterface

inductive MessageType where
  | MESG_SYNC_REQUEST
  | MESG_SYNC_RESPONSE
  deriving DecidableEq

inductive SyncOp where
  | postSend (peerId : Nat) (type : MessageType)
  | postReceive (peerId : Nat)
  | pollRecvCompletion
  deriving DecidableEq

/-- The completions carry no id, so a poll does not tell whose message has come. -/
abbrev syncSig : Signature := ⟨SyncOp, fun _ => Unit⟩

def postSend (peerId : Nat) (type : MessageType) : Prog syncSig Unit :=
  Prog.perform (S := syncSig) (.postSend peerId type)

def postReceive (peerId : Nat) : Prog syncSig Unit :=
  Prog.perform (S := syncSig) (.postReceive peerId)

def pollRecvCompletion : Prog syncSig Unit := Prog.perform (S := syncSig) .pollRecvCompletion

/-- The expectations on completions and message types only log. -/
def syncAmongPeers (id clusterSize : Nat) : Prog syncSig Unit := do
  (List.range id).foldlM (fun _ i => do
    postSend i .MESG_SYNC_REQUEST
    postReceive i
    pollRecvCompletion) ()
  (List.range' (id + 1) (clusterSize - (id + 1))).foldlM (fun _ i => do
    postReceive i
    pollRecvCompletion
    postSend i .MESG_SYNC_RESPONSE) ()

structure Mail where
  src : Nat
  dst : Nat
  type : MessageType
  deriving DecidableEq

/-- A node has not yet entered its call, or has a rest of it to run. -/
inductive Node where
  | outside
  | inside (rest : Prog syncSig Unit)

/-- The nodes, and the messages that are on their way, that have been delivered, and whose
completions have been returned. -/
structure Cluster where
  node : Nat → Node
  inflight : List Mail
  delivered : List Mail
  polled : List Mail

namespace Cluster

def mail (c : Cluster) : List Mail := c.inflight ++ c.delivered ++ c.polled

def sent (c : Cluster) (i j : Nat) : Nat := c.mail.countP fun m => m.src = i ∧ m.dst = j

def received (c : Cluster) (i : Nat) : Nat := c.polled.countP fun m => m.dst = i

def goto (c : Cluster) (i : Nat) (rest : Prog syncSig Unit) : Cluster :=
  { c with node := Function.update c.node i (.inside rest) }

end Cluster

inductive Event where
  | enter (i : Nat)
  | send (i j : Nat)
  | receive (i j : Nat)
  | deliver (mail : Mail)
  | poll (i : Nat) (mail : Mail)

/-- Messages are delivered in any order, at most once, whatever receives are posted. -/
inductive Step (n : Nat) : Cluster → Event → Cluster → Prop
  | enter {c : Cluster} {i : Nat} (hi : i < n) (hc : c.node i = .outside) :
    Step n c (.enter i) (c.goto i (syncAmongPeers i n))
  | send {c : Cluster} {i j : Nat} {type : MessageType} {k : Unit → Prog syncSig Unit}
      (hc : c.node i = .inside (.call (.postSend j type) k)) :
    Step n c (.send i j) ({ c with inflight := ⟨i, j, type⟩ :: c.inflight }.goto i (k ()))
  | receive {c : Cluster} {i j : Nat} {k : Unit → Prog syncSig Unit}
      (hc : c.node i = .inside (.call (.postReceive j) k)) :
    Step n c (.receive i j) (c.goto i (k ()))
  | deliver {c : Cluster} {mail : Mail} (hm : mail ∈ c.inflight) :
    Step n c (.deliver mail)
      { c with inflight := c.inflight.erase mail, delivered := mail :: c.delivered }
  | poll {c : Cluster} {i : Nat} {mail : Mail} {k : Unit → Prog syncSig Unit}
      (hc : c.node i = .inside (.call .pollRecvCompletion k)) (hm : mail ∈ c.delivered)
      (hd : mail.dst = i) :
    Step n c (.poll i mail) ({ c with
      delivered := c.delivered.erase mail, polled := mail :: c.polled }.goto i (k ()))

def system (n : Nat) : System Cluster Event where
  init c := (∀ i, c.node i = .outside) ∧ c.inflight = [] ∧ c.delivered = [] ∧ c.polled = []
  step := Step n

def SyncOp.isSend (j : Nat) : SyncOp → Bool
  | .postSend peerId _ => peerId = j
  | _ => false

def SyncOp.isPoll : SyncOp → Bool
  | .pollRecvCompletion => true
  | _ => false

variable {i j n : Nat} {c c' : Cluster} {e : Event} {w : List Event}

theorem sync_makes (P : SyncOp → Bool) (i n : Nat) : (syncAmongPeers i n).Makes P
    (((List.range i).map fun x => (P (.postSend x .MESG_SYNC_REQUEST)).toNat +
      ((P (.postReceive x)).toNat + (P .pollRecvCompletion).toNat)).sum +
    ((List.range' (i + 1) (n - (i + 1))).map fun x => (P (.postReceive x)).toNat +
      ((P .pollRecvCompletion).toNat + (P (.postSend x .MESG_SYNC_RESPONSE)).toNat)).sum) := by
  refine Prog.Makes.bind (Prog.Makes.foldlM (fun x _ _ => ?_) ()) fun _ =>
    Prog.Makes.foldlM (fun x _ _ => ?_) ()
  · exact (Prog.Makes.perform _).bind fun _ => (Prog.Makes.perform _).bind
      fun _ => Prog.Makes.perform _
  · exact (Prog.Makes.perform _).bind fun _ => (Prog.Makes.perform _).bind
      fun _ => Prog.Makes.perform _

theorem sync_polls (hi : i < n) : (syncAmongPeers i n).Makes SyncOp.isPoll (n - 1) := by
  have h := sync_makes SyncOp.isPoll i n
  simp only [SyncOp.isPoll, Bool.toNat_false, Bool.toNat_true, List.map_const',
    List.sum_replicate_nat, List.length_range, List.length_range', Nat.zero_add, Nat.add_zero,
    Nat.mul_one] at h
  rwa [show i + (n - (i + 1)) = n - 1 by omega] at h

theorem sum_toNat_eq_count (l : List Nat) (j : Nat) :
    (l.map fun x => (decide (x = j)).toNat).sum = l.count j := by
  induction l with
  | nil => rfl
  | cons x l ih =>
    rw [List.map_cons, List.sum_cons, ih, List.count_cons, Nat.add_comm]
    by_cases hx : x = j
    · simp [hx]
    · simp [hx]

theorem sync_sends (hi : i < n) (j : Nat) : (syncAmongPeers i n).Makes (SyncOp.isSend j)
    (if j < n ∧ j ≠ i then 1 else 0) := by
  have h := sync_makes (SyncOp.isSend j) i n
  simp only [SyncOp.isSend, Bool.toNat_false, Nat.zero_add, Nat.add_zero,
    sum_toNat_eq_count] at h
  have hcount : (List.range i).count j + (List.range' (i + 1) (n - (i + 1))).count j =
      if j < n ∧ j ≠ i then 1 else 0 := by
    rw [List.nodup_range.count, (List.nodup_range' 1).count]
    simp only [List.mem_range, List.mem_range'_1]
    split <;> split <;> split <;> omega
  rwa [hcount] at h

structure Inside (n : Nat) (c : Cluster) (i : Nat) (rest : Prog syncSig Unit) : Prop where
  lt : i < n
  sends : ∀ j, ∃ k, rest.Makes (SyncOp.isSend j) k ∧
    c.sent i j + k = if j < n ∧ j ≠ i then 1 else 0
  polls : ∃ k, rest.Makes SyncOp.isPoll k ∧ c.received i + k = n - 1

/-- Messages come only from nodes inside their call. -/
structure Inv (n : Nat) (c : Cluster) : Prop where
  outside : ∀ i, c.node i = .outside → (∀ j, c.sent i j = 0) ∧ c.received i = 0
  inside : ∀ i rest, c.node i = .inside rest → Inside n c i rest

theorem Inv.of_goto (h : Inv n c) {rest : Prog syncSig Unit}
    (hnode : c'.node = Function.update c.node i (.inside rest))
    (hsent : ∀ k, k ≠ i → ∀ j, c'.sent k j = c.sent k j)
    (hreceived : ∀ k, k ≠ i → c'.received k = c.received k) (hi : Inside n c' i rest) :
    Inv n c' where
  outside k hk := by
    by_cases hki : k = i
    · rw [hnode, hki, Function.update_self] at hk
      cases hk
    · rw [hnode, Function.update_of_ne hki] at hk
      refine ⟨fun j => ?_, ?_⟩
      · rw [hsent k hki, (h.outside k hk).1]
      · rw [hreceived k hki, (h.outside k hk).2]
  inside k rest' hk := by
    by_cases hki : k = i
    · rw [hnode, hki, Function.update_self] at hk
      cases hk
      rw [hki]
      exact hi
    · rw [hnode, Function.update_of_ne hki] at hk
      obtain ⟨hlt, hsends, hpolls⟩ := h.inside k rest' hk
      refine ⟨hlt, fun j => ?_, ?_⟩
      · rw [hsent k hki]
        exact hsends j
      · rw [hreceived k hki]
        exact hpolls

theorem sent_of_perm (h : c'.mail.Perm c.mail) (i j : Nat) : c'.sent i j = c.sent i j :=
  h.countP_eq _

theorem deliver_perm {mail : Mail} (hm : mail ∈ c.inflight) : Cluster.mail { c with
    inflight := c.inflight.erase mail, delivered := mail :: c.delivered } |>.Perm c.mail := by
  simp only [Cluster.mail]
  refine List.Perm.append_right _ (List.perm_middle.trans ?_)
  exact (List.perm_cons_erase hm).symm.append_right _

theorem poll_perm {mail : Mail} (hm : mail ∈ c.delivered) : Cluster.mail { c with
    delivered := c.delivered.erase mail, polled := mail :: c.polled } |>.Perm c.mail := by
  simp only [Cluster.mail, List.append_assoc]
  refine List.Perm.append_left _ (List.perm_middle.trans ?_)
  exact (List.perm_cons_erase hm).symm.append_right _

@[simp] theorem sent_goto {a b : Nat} {k : Prog syncSig Unit} :
    (c.goto i k).sent a b = c.sent a b := rfl

@[simp] theorem received_goto {a : Nat} {k : Prog syncSig Unit} :
    (c.goto i k).received a = c.received a := rfl

theorem sent_cons {i j a b : Nat} {type : MessageType} {k : Prog syncSig Unit} :
    (({ c with inflight := ⟨i, j, type⟩ :: c.inflight } : Cluster).goto i k).sent a b =
      c.sent a b + if i = a ∧ j = b then 1 else 0 := by
  simp [Cluster.sent, Cluster.mail, Cluster.goto, List.countP_cons, Nat.add_comm]

theorem received_cons {mail : Mail} {a : Nat} {k : Prog syncSig Unit} :
    (({ c with delivered := c.delivered.erase mail, polled := mail :: c.polled } : Cluster).goto i
      k).received a = c.received a + if mail.dst = a then 1 else 0 := by
  simp [Cluster.received, Cluster.goto, List.countP_cons]

theorem step_inv (h : Inv n c) (hs : Step n c e c') : Inv n c' := by
  cases hs with
  | @enter i hi hc =>
    obtain ⟨hsent, hreceived⟩ := h.outside i hc
    refine h.of_goto rfl (fun _ _ _ => rfl) (fun _ _ => rfl) ⟨hi, fun j => ?_, ?_⟩
    · exact ⟨_, sync_sends hi j, by change c.sent i j + _ = _; rw [hsent, Nat.zero_add]⟩
    · exact ⟨_, sync_polls hi, by change c.received i + _ = _; rw [hreceived, Nat.zero_add]⟩
  | @send i j type k hc =>
    obtain ⟨hlt, hsends, _, ⟨m, rfl, hk⟩, hpolls⟩ := h.inside i _ hc
    refine h.of_goto rfl ?_ (fun _ _ => rfl) ⟨hlt, fun b => ?_, m, hk (), ?_⟩
    · intro a ha b
      rw [sent_cons, if_neg fun hab => ha hab.1.symm, Nat.add_zero]
    · obtain ⟨_, ⟨m, rfl, hk⟩, hm⟩ := hsends b
      refine ⟨m, hk (), ?_⟩
      rw [sent_cons, ← hm]
      by_cases hjb : j = b
      · simp [SyncOp.isSend, hjb, Nat.add_assoc]
      · simp [SyncOp.isSend, hjb]
    · change c.received i + m = n - 1
      simpa [SyncOp.isPoll] using hpolls
  | @receive i j k hc =>
    obtain ⟨hlt, hsends, _, ⟨m, rfl, hk⟩, hpolls⟩ := h.inside i _ hc
    refine h.of_goto rfl (fun _ _ _ => rfl) (fun _ _ => rfl) ⟨hlt, fun b => ?_, m, hk (), ?_⟩
    · obtain ⟨_, ⟨m, rfl, hk⟩, hm⟩ := hsends b
      exact ⟨m, hk (), by simpa [SyncOp.isSend] using hm⟩
    · simpa [SyncOp.isPoll] using hpolls
  | @deliver mail hm =>
    have hperm := deliver_perm hm
    constructor
    · intro i hi
      refine ⟨fun j => ?_, (h.outside i hi).2⟩
      rw [sent_of_perm hperm, (h.outside i hi).1]
    · intro i rest hi
      obtain ⟨hlt, hsends, hpolls⟩ := h.inside i rest hi
      refine ⟨hlt, fun j => ?_, hpolls⟩
      rw [sent_of_perm hperm]
      exact hsends j
  | @poll i mail k hc hm hd =>
    obtain ⟨hlt, hsends, _, ⟨m, rfl, hk⟩, hpolls⟩ := h.inside i _ hc
    have hsent : ∀ a b, (({ c with
        delivered := c.delivered.erase mail, polled := mail :: c.polled } : Cluster).goto i
          (k ())).sent a b = c.sent a b := fun a b => sent_of_perm (poll_perm hm) a b
    refine h.of_goto rfl (fun a _ b => hsent a b) ?_ ⟨hlt, fun b => ?_, m, hk (), ?_⟩
    · intro a ha
      rw [received_cons, if_neg fun hda => ha (hda.symm.trans hd), Nat.add_zero]
    · obtain ⟨_, ⟨m, rfl, hk⟩, hm⟩ := hsends b
      exact ⟨m, hk (), by rw [hsent]; simpa [SyncOp.isSend] using hm⟩
    · rw [received_cons, if_pos hd, ← hpolls]
      simp [SyncOp.isPoll, Nat.add_assoc]

theorem run_inv (h : (system n).Run w c) : Inv n c := by
  apply h.invariant (I := Inv n)
  · rintro c ⟨hnode, hi, hd, hp⟩
    constructor
    · intro i _
      simp [Cluster.sent, Cluster.mail, Cluster.received, hi, hd, hp]
    · intro i rest hc
      rw [hnode] at hc
      cases hc
  · intro c e c' hc hs
    exact step_inv hc hs

def heard (c : Cluster) (i : Nat) : List Nat :=
  (c.polled.filter fun m => m.dst = i).map Mail.src

theorem count_heard_le (c : Cluster) (i j : Nat) : (heard c i).count j ≤ c.sent j i := by
  have hcount : (heard c i).count j = c.polled.countP fun m => m.src = j ∧ m.dst = i := by
    rw [heard, List.count_eq_countP, List.countP_map, List.countP_filter]
    congr 1
    funext m
    rw [Bool.eq_iff_iff]
    simp
  rw [hcount, Cluster.sent, Cluster.mail, List.countP_append]
  exact Nat.le_add_left ..

/-- No node counts a message twice, or one from a node that has not entered. -/
theorem Inv.heard (h : Inv n c) (i : Nat) : (heard c i).Nodup ∧
    ∀ j ∈ heard c i, j < n ∧ j ≠ i ∧ c.node j ≠ .outside := by
  constructor
  · refine List.nodup_iff_count_le_one.2 fun j => (count_heard_le c i j).trans ?_
    cases hj : c.node j with
    | outside =>
      rw [(h.outside j hj).1]
      exact Nat.zero_le 1
    | inside rest =>
      obtain ⟨k, -, hk⟩ := (h.inside j rest hj).sends i
      split at hk <;> omega
  · intro j hj
    have hsent : 0 < c.sent j i := (List.count_pos_iff.2 hj).trans_le (count_heard_le c i j)
    cases hc : c.node j with
    | outside =>
      rw [(h.outside j hc).1] at hsent
      exact absurd hsent (Nat.lt_irrefl 0)
    | inside rest =>
      obtain ⟨k, -, hk⟩ := (h.inside j rest hc).sends i
      split at hk
      case isTrue hij => exact ⟨(h.inside j rest hc).lt, Ne.symm hij.2, nofun⟩
      case isFalse => omega

/-- When a call has returned, every node has entered its own one. -/
theorem barrier (h : (system n).Run w c) (hi : c.node i = .inside (.ret ())) :
    ∀ j < n, c.node j ≠ .outside := by
  have hinv := run_inv h
  obtain ⟨hlt, -, _, rfl, hpolls⟩ := hinv.inside i _ hi
  obtain ⟨hnodup, hheard⟩ := hinv.heard i
  have hlength : (heard c i).length = n - 1 := by
    rw [heard, List.length_map, ← List.countP_eq_length_filter, ← hpolls]
    rfl
  intro j hj hout
  have hji : j ≠ i := by
    rintro rfl
    rw [hi] at hout
    cases hout
  -- One of the other nodes is missing, so a message would have been counted twice.
  have hsub : (heard c i).toFinset ⊆ ((Finset.range n).erase i).erase j := by
    intro k hk
    obtain ⟨hkn, hki, hknode⟩ := hheard k (List.mem_toFinset.1 hk)
    rw [Finset.mem_erase, Finset.mem_erase, Finset.mem_range]
    exact ⟨fun hkj => hknode (hkj ▸ hout), hki, hkn⟩
  have hcard := Finset.card_le_card hsub
  rw [List.toFinset_card_of_nodup hnodup, hlength, Finset.card_erase_of_mem,
    Finset.card_erase_of_mem (Finset.mem_range.2 hlt), Finset.card_range] at hcard
  · omega
  · exact Finset.mem_erase.2 ⟨hji, Finset.mem_range.2 hj⟩

section Examples

def initial : Cluster := ⟨fun _ => .outside, [], [], []⟩

theorem twoNodes_run : ∃ w c, (system 2).Run w c ∧ c.node 0 = .inside (.ret ()) := by
  have h0 : (system 2).Run [] initial := .nil ⟨fun _ => rfl, rfl, rfl, rfl⟩
  have h1 := (h0.snoc (Step.enter (i := 0) (by decide) rfl)).snoc
    (Step.enter (i := 1) (by decide) rfl)
  have h2 := (h1.snoc (Step.send (i := 1) (j := 0) rfl)).snoc
    (Step.receive (i := 0) (j := 1) rfl)
  have h3 := (h2.snoc (Step.deliver (n := 2) List.mem_cons_self)).snoc
    (Step.poll (i := 0) rfl List.mem_cons_self rfl)
  exact ⟨_, _, h3.snoc (Step.send (i := 0) (j := 1) rfl), rfl⟩

theorem barrier_two : ∃ w c, (system 2).Run w c ∧ c.node 1 ≠ .outside := by
  obtain ⟨w, c, h, hi⟩ := twoNodes_run
  exact ⟨w, c, h, barrier h hi 1 (by decide)⟩

end Examples

end RPCInterface

end Galois
