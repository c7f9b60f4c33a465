import Galois.Effect.System
import Mathlib.Tactic

namespace Galois
set_option autoImplicit true
set_option relaxedAutoImplicit false

inductive MessageType where
  | MESG_UNDEF
  | MESG_REMOTE_MR
  | MESG_RECOVER_START
  | MESG_RECOVER_RESPONSE
  | MESG_RECOVER_END
  | MESG_RPC_CALL
  | MESG_RPC_RESPONSE
  | MESG_SYNC_REQUEST
  | MESG_SYNC_RESPONSE
  | MESG_INVALID
  deriving DecidableEq

/-- A registered memory region, as far as its peers use it. -/
structure MR where
  addr : Nat
  length : Nat
  rkey : Nat

structure Message where
  type : MessageType
  mr : MR

inductive Side where
  | active
  | passive
  deriving DecidableEq

/-- A connection of this node: one it asked for, or one it was asked for. -/
structure Conn where
  side : Side
  peer : Nat
  deriving DecidableEq

/-- `regions` are the memory regions that the nodes have registered. -/
structure NodeSetup where
  clusterSize : Nat
  me : Nat
  recover : Bool
  regions : Nat → MR

/-- The connections of a start: to all smaller ids and from all greater ones, or, to recover,
to all nodes, which includes one to itself. -/
def NodeSetup.opens (g : NodeSetup) (c : Conn) : Prop :=
  c.peer < g.clusterSize ∧ match c.side with
    | .active => g.recover = true ∨ c.peer < g.me
    | .passive => if g.recover then c.peer = g.me else g.me < c.peer

/-- The sockets of a node while its `RDMASocket` constructor waits. A receive buffer that no
message has been written to is `none`. -/
structure RDMASocket where
  built : Conn → Bool
  requested : Conn → Bool
  established : Conn → Bool
  arrived : Conn → Bool
  /-- The connection `peers[p]` was set up for last. -/
  current : Nat → Option Conn
  recvRegion : Conn → Option Message
  recvQueue : List Conn
  /-- The connection whose ESTABLISHED handler is polling. -/
  polling : Option Conn
  sends : List Conn
  connected : Nat → Bool
  peerMR : Nat → Option MR
  incomingConns : Nat
  initialized : Bool
  exited : Bool

namespace RDMASocket

def initial : RDMASocket where
  built := fun _ => false
  requested := fun _ => false
  established := fun _ => false
  arrived := fun _ => false
  current := fun _ => none
  recvRegion := fun _ => none
  recvQueue := []
  polling := none
  sends := []
  connected := fun _ => false
  peerMR := fun _ => none
  incomingConns := 0
  initialized := false
  exited := false

def setTrue [DecidableEq α] (f : α → Bool) (a : α) : α → Bool :=
  fun x => if x = a then true else f x

/-- `buildConnection`: fresh buffers, and a receive posted for the message of the peer. -/
def buildConnection (s : RDMASocket) (c : Conn) : RDMASocket :=
  { s with
    built := setTrue s.built c
    current := fun p => if p = c.peer then some c else s.current p
    connected := fun p => if p = c.peer then false else s.connected p }

def onAddrResolved (s : RDMASocket) (p : Nat) : RDMASocket := s.buildConnection ⟨.active, p⟩

def onRouteResolved (s : RDMASocket) (p : Nat) : RDMASocket :=
  { s with requested := setTrue s.requested ⟨.active, p⟩ }

def onConnectionRequest (s : RDMASocket) (p : Nat) : RDMASocket :=
  { s.buildConnection ⟨.passive, p⟩ with requested := setTrue s.requested ⟨.passive, p⟩ }

/-- `onConnectionEstablished` up to its call of `pollRecvCompletion`, which it does not make
any more once the constructor has ended. -/
def onConnectionEstablished (s : RDMASocket) (c : Conn) : RDMASocket :=
  { s with
    established := setTrue s.established c
    sends := s.sends ++ [c]
    polling := if s.initialized then none else some c }

/-- The message of the peer of `c` is written to the buffer of `c`. -/
def deliver (g : NodeSetup) (s : RDMASocket) (c : Conn) : RDMASocket :=
  { s with
    arrived := setTrue s.arrived c
    recvRegion := fun d =>
      if d = c then some ⟨.MESG_REMOTE_MR, g.regions c.peer⟩ else s.recvRegion d
    recvQueue := s.recvQueue ++ [c] }

/-- The type of the message in `peers[p].recvRegion`; `junk` is the one found in a buffer that
nothing was written to. -/
def messageType (s : RDMASocket) (p : Nat) (junk : MessageType) : MessageType :=
  (((s.current p).bind s.recvRegion).map Message.type).getD junk

/-- `onConnectionEstablished` for peer `p` once `pollRecvCompletion` has taken the oldest entry
of the receive queue. -/
def onRecvCompletion (s : RDMASocket) (p : Nat) (junk : MessageType) : RDMASocket :=
  let s' := { s with recvQueue := s.recvQueue.tail, polling := none }
  if s.messageType p junk = .MESG_REMOTE_MR then
    { s' with
      peerMR := fun q =>
        if q = p then ((s.current p).bind s.recvRegion).map Message.mr else s.peerMR q
      connected := setTrue s.connected p
      incomingConns := s.incomingConns + 1 }
  else { s' with exited := true }

inductive Event where
  | addrResolved (p : Nat)
  | routeResolved (p : Nat)
  | connectRequest (p : Nat)
  | established (c : Conn)
  | message (c : Conn)
  | recvCompletion (junk : MessageType)
  | constructed

/-- The event thread handles one event at a time; messages arrive at any time once the
connection was asked for or accepted. -/
inductive Step (g : NodeSetup) : RDMASocket → Event → RDMASocket → Prop
  | addrResolved {s : RDMASocket} {p : Nat} (hx : s.exited = false) (hidle : s.polling = none)
      (ho : g.opens ⟨.active, p⟩) (hb : s.built ⟨.active, p⟩ = false) :
      Step g s (.addrResolved p) (s.onAddrResolved p)
  | routeResolved {s : RDMASocket} {p : Nat} (hx : s.exited = false) (hidle : s.polling = none)
      (hb : s.built ⟨.active, p⟩ = true) (hr : s.requested ⟨.active, p⟩ = false) :
      Step g s (.routeResolved p) (s.onRouteResolved p)
  | connectRequest {s : RDMASocket} {p : Nat} (hx : s.exited = false) (hidle : s.polling = none)
      (ho : g.opens ⟨.passive, p⟩) (hb : s.built ⟨.passive, p⟩ = false) :
      Step g s (.connectRequest p) (s.onConnectionRequest p)
  | established {s : RDMASocket} {c : Conn} (hx : s.exited = false) (hidle : s.polling = none)
      (hr : s.requested c = true) (he : s.established c = false) :
      Step g s (.established c) (s.onConnectionEstablished c)
  | message {s : RDMASocket} {c : Conn} (hx : s.exited = false) (hr : s.requested c = true)
      (ha : s.arrived c = false) : Step g s (.message c) (s.deliver g c)
  | recvCompletion {s : RDMASocket} {c : Conn} (junk : MessageType) (hx : s.exited = false)
      (hp : s.polling = some c) (hq : s.recvQueue ≠ []) :
      Step g s (.recvCompletion junk) (s.onRecvCompletion c.peer junk)
  | constructed {s : RDMASocket} (hx : s.exited = false)
      (hn : g.clusterSize - 1 ≤ s.incomingConns) :
      Step g s .constructed { s with initialized := true }

def handshake (g : NodeSetup) : System RDMASocket Event := ⟨(· = initial), Step g⟩

/-- Every other node is connected, with the memory region that it sent. -/
def AllConnected (g : NodeSetup) (s : RDMASocket) : Prop :=
  ∀ p < g.clusterSize, p ≠ g.me → s.connected p = true ∧ s.peerMR p = some (g.regions p)

/-- The process has not exited, and wherever the wait loop may end all nodes are connected. -/
def Safe (g : NodeSetup) (s : RDMASocket) : Prop :=
  s.exited = false ∧ (g.clusterSize - 1 ≤ s.incomingConns → AllConnected g s)

/-- A completion is taken only for a connection whose own message has arrived; one to the node
itself only when all other nodes are connected and its buffer holds a memory region. -/
def InTurn (g : NodeSetup) (s : RDMASocket) : Event → Prop
  | .recvCompletion junk => ∀ c, s.polling = some c →
      if c.peer = g.me then (∀ p < g.clusterSize, p ≠ g.me → s.connected p = true) ∧
        s.messageType c.peer junk = .MESG_REMOTE_MR
      else s.arrived c = true
  | _ => True

def inTurn (g : NodeSetup) : System RDMASocket Event :=
  (handshake g).restrict fun s a _ => InTurn g s a

def safe (g : NodeSetup) : System RDMASocket Event :=
  (handshake g).restrict fun _ _ s' => Safe g s'

/-- What holds in every run: the state of each connection, and of the record of its peer. -/
structure Inv (g : NodeSetup) (s : RDMASocket) : Prop where
  built : ∀ c, s.built c = true → g.opens c
  requested : ∀ c, s.requested c = true → s.built c = true
  established : ∀ c, s.established c = true → s.requested c = true
  arrived : ∀ c, s.arrived c = true → s.recvRegion c = some ⟨.MESG_REMOTE_MR, g.regions c.peer⟩
  empty : ∀ c, s.arrived c = false → s.recvRegion c = none
  current : ∀ c, s.built c = true → c.peer ≠ g.me → s.current c.peer = some c
  polling : ∀ c, s.polling = some c → s.established c = true
  connected : ∀ p ≠ g.me, s.connected p = true → ∃ c, c.peer = p ∧ s.established c = true ∧
    s.polling ≠ some c

@[simp] theorem setTrue_eq_true [DecidableEq α] {f : α → Bool} {a x : α} :
    setTrue f a x = true ↔ x = a ∨ f x = true := by
  simp only [setTrue]
  split <;> simp_all

@[simp] theorem setTrue_eq_false [DecidableEq α] {f : α → Bool} {a x : α} :
    setTrue f a x = false ↔ x ≠ a ∧ f x = false := by
  simp only [setTrue]
  split <;> simp_all

theorem opens_unique {g : NodeSetup} {c d : Conn} (hc : g.opens c) (hd : g.opens d)
    (hp : c.peer = d.peer) (hne : c.peer ≠ g.me) : c = d := by
  obtain ⟨sc, p⟩ := c
  obtain ⟨sd, q⟩ := d
  simp only at hp hne
  subst hp
  have key : (g.recover = true ∨ p < g.me) → ¬(if g.recover then p = g.me else g.me < p) := by
    rintro (h | h) hif
    · rw [if_pos h] at hif
      exact hne hif
    · split at hif <;> omega
  cases sc <;> cases sd
  · rfl
  · exact absurd hd.2 (key hc.2)
  · exact absurd hc.2 (key hd.2)
  · rfl

namespace Inv

variable {g : NodeSetup} {s s' : RDMASocket} (h : Inv g s)
include h

theorem established_built {c : Conn} (hc : s.established c = true) : s.built c = true :=
  h.requested c (h.established c hc)

theorem buildConnection {c : Conn} (ho : g.opens c) (hb : s.built c = false) :
    Inv g (s.buildConnection c) := by
  constructor
  · intro d hd
    rcases setTrue_eq_true.1 hd with rfl | hd
    · exact ho
    · exact h.built d hd
  · exact fun d hd => setTrue_eq_true.2 (.inr (h.requested d hd))
  · exact h.established
  · exact h.arrived
  · exact h.empty
  · intro d hd hne
    rcases setTrue_eq_true.1 hd with rfl | hd
    · exact if_pos rfl
    · have hp : d.peer ≠ c.peer := by
        intro hp
        rw [opens_unique (h.built d hd) ho hp hne, hb] at hd
        cases hd
      exact (if_neg hp).trans (h.current d hd hne)
  · exact h.polling
  · intro p hp hcon
    simp only [RDMASocket.buildConnection] at hcon
    split at hcon
    · cases hcon
    · exact h.connected p hp hcon

theorem request {c : Conn} (hb : s.built c = true) :
    Inv g { s with requested := setTrue s.requested c } := by
  refine ⟨h.built, fun d hd => ?_, fun d hd => setTrue_eq_true.2 (.inr (h.established d hd)),
    h.arrived, h.empty, h.current, h.polling, h.connected⟩
  rcases setTrue_eq_true.1 hd with rfl | hd
  · exact hb
  · exact h.requested d hd

theorem onConnectionEstablished {c : Conn} (hr : s.requested c = true)
    (he : s.established c = false) :
    Inv g (s.onConnectionEstablished c) := by
  refine ⟨h.built, h.requested, fun d hd => ?_, h.arrived, h.empty, h.current, fun d hd => ?_,
    fun p hp hcon => ?_⟩
  · rcases setTrue_eq_true.1 hd with rfl | hd
    · exact hr
    · exact h.established d hd
  · simp only [RDMASocket.onConnectionEstablished] at hd ⊢
    split at hd
    · cases hd
    · exact setTrue_eq_true.2 (.inl (Option.some.inj hd).symm)
  · obtain ⟨d, hd, hed, -⟩ := h.connected p hp hcon
    refine ⟨d, hd, setTrue_eq_true.2 (.inr hed), ?_⟩
    simp only [RDMASocket.onConnectionEstablished]
    split
    · exact Option.some_ne_none d |>.symm
    · intro hcd
      rw [← Option.some.inj hcd, he] at hed
      cases hed

theorem deliver {c : Conn} : Inv g (s.deliver g c) := by
  refine ⟨h.built, h.requested, h.established, fun d hd => ?_, fun d hd => ?_, h.current, h.polling,
    h.connected⟩
  · simp only [RDMASocket.deliver]
    split
    · next hdc => rw [hdc]
    · next hdc => exact h.arrived d ((setTrue_eq_true.1 hd).resolve_left hdc)
  · obtain ⟨hdc, hd⟩ := setTrue_eq_false.1 hd
    exact (if_neg hdc).trans (h.empty d hd)

theorem onRecvCompletion {c : Conn} (hp : s.polling = some c) (junk : MessageType) :
    Inv g (s.onRecvCompletion c.peer junk) := by
  have hconn : ∀ p ≠ g.me, setTrue s.connected c.peer p = true →
      ∃ d, d.peer = p ∧ s.established d = true ∧ none ≠ some d := by
    intro p hne hcon
    rcases setTrue_eq_true.1 hcon with rfl | hcon
    · exact ⟨c, rfl, h.polling c hp, (Option.some_ne_none c).symm⟩
    · obtain ⟨d, hd, hed, -⟩ := h.connected p hne hcon
      exact ⟨d, hd, hed, (Option.some_ne_none d).symm⟩
  simp only [RDMASocket.onRecvCompletion]
  split
  · exact ⟨h.built, h.requested, h.established, h.arrived, h.empty, h.current, nofun, hconn⟩
  · exact ⟨h.built, h.requested, h.established, h.arrived, h.empty, h.current, nofun,
      fun p hne hcon => hconn p hne (setTrue_eq_true.2 (.inr hcon))⟩

theorem step {a : Event} (hs : Step g s a s') : Inv g s' := by
  cases hs with
  | addrResolved _ _ ho hb => exact h.buildConnection ho hb
  | routeResolved _ _ hb => exact h.request hb
  | connectRequest _ _ ho hb =>
    exact (h.buildConnection ho hb).request (setTrue_eq_true.2 (.inl rfl))
  | established _ _ hr he => exact h.onConnectionEstablished hr he
  | message => exact h.deliver
  | recvCompletion junk _ hp => exact h.onRecvCompletion hp junk
  | constructed =>
    exact ⟨h.built, h.requested, h.established, h.arrived, h.empty, h.current, h.polling,
      h.connected⟩

end Inv

theorem Inv.initial (g : NodeSetup) : Inv g initial :=
  ⟨nofun, nofun, nofun, nofun, fun _ _ => rfl, nofun, nofun, nofun⟩

theorem handshake_inv {g : NodeSetup} (hr : (handshake g).Run w s) : Inv g s := by
  apply hr.invariant (I := Inv g)
  · rintro s rfl
    exact Inv.initial g
  · exact fun _ _ _ h hs => h.step hs

/-- Every connection counted has cost a send, and no send is ever polled. -/
structure Sent (g : NodeSetup) (s : RDMASocket) : Prop where
  peer : ∀ c ∈ s.sends, c.peer < g.clusterSize
  count : s.incomingConns + s.polling.toList.length ≤ s.sends.length

theorem Sent.step {g : NodeSetup} {s s' : RDMASocket} {a : Event} (h : Sent g s) (hi : Inv g s)
    (hs : Step g s a s') : Sent g s' := by
  cases hs with
  | addrResolved => exact ⟨h.peer, h.count⟩
  | routeResolved => exact ⟨h.peer, h.count⟩
  | connectRequest => exact ⟨h.peer, h.count⟩
  | message => exact ⟨h.peer, h.count⟩
  | constructed => exact ⟨h.peer, h.count⟩
  | @established c _ hidle hr =>
    have hcount := h.count
    rw [hidle, Option.toList_none, List.length_nil] at hcount
    constructor
    · intro d hd
      rcases List.mem_append.1 hd with hd | hd
      · exact h.peer d hd
      · rw [List.mem_singleton.1 hd]
        exact (hi.built c (hi.requested c hr)).1
    · simp only [onConnectionEstablished, List.length_append, List.length_singleton]
      split
      · exact hcount.trans (Nat.le_succ _)
      · exact Nat.succ_le_succ hcount
  | @recvCompletion c junk _ hp =>
    have hcount := h.count
    rw [hp, Option.toList_some, List.length_singleton] at hcount
    simp only [onRecvCompletion]
    split
    · exact ⟨h.peer, hcount⟩
    · exact ⟨h.peer, (Nat.le_succ _).trans hcount⟩

theorem handshake_sent {g : NodeSetup} (hr : (handshake g).Run w s) : Sent g s := by
  have hboth : Inv g s ∧ Sent g s := by
    apply hr.invariant (I := fun s => Inv g s ∧ Sent g s)
    · rintro s rfl
      exact ⟨Inv.initial g, nofun, le_rfl⟩
    · exact fun _ _ _ h hs => ⟨h.1.step hs, h.2.step h.1 hs⟩
  exact hboth.2

def connectedOthers (g : NodeSetup) (s : RDMASocket) : Finset Nat :=
  ((Finset.range g.clusterSize).erase g.me).filter fun p => s.connected p = true

theorem mem_connectedOthers {g : NodeSetup} {s : RDMASocket} {p : Nat} :
    p ∈ connectedOthers g s ↔ (p ≠ g.me ∧ p < g.clusterSize) ∧ s.connected p = true := by
  rw [connectedOthers, Finset.mem_filter, Finset.mem_erase, Finset.mem_range]

theorem connectedOthers_full {g : NodeSetup} {s : RDMASocket} (hme : g.me < g.clusterSize) :
    (connectedOthers g s).card = g.clusterSize - 1 ↔
      ∀ p < g.clusterSize, p ≠ g.me → s.connected p = true := by
  have hcard : ((Finset.range g.clusterSize).erase g.me).card = g.clusterSize - 1 := by
    rw [Finset.card_erase_of_mem (Finset.mem_range.2 hme), Finset.card_range]
  rw [← hcard, connectedOthers, Finset.card_filter_eq_iff]
  simp only [Finset.mem_erase, Finset.mem_range]
  exact ⟨fun h p hp hne => h p ⟨hne, hp⟩, fun h p hp => h p hp.2 hp.1⟩

theorem connectedOthers_le {g : NodeSetup} {s : RDMASocket} (hme : g.me < g.clusterSize) :
    (connectedOthers g s).card ≤ g.clusterSize - 1 := by
  have hcard : ((Finset.range g.clusterSize).erase g.me).card = g.clusterSize - 1 := by
    rw [Finset.card_erase_of_mem (Finset.mem_range.2 hme), Finset.card_range]
  exact hcard ▸ Finset.card_filter_le _ _

/-- What a step that takes no completion leaves alone. -/
structure Quiet (g : NodeSetup) (s s' : RDMASocket) : Prop where
  connected : ∀ p ≠ g.me, s'.connected p = s.connected p
  peerMR : s'.peerMR = s.peerMR
  incomingConns : s'.incomingConns = s.incomingConns
  exited : s'.exited = s.exited

theorem Quiet.connectedOthers {g : NodeSetup} {s s' : RDMASocket} (h : Quiet g s s') :
    RDMASocket.connectedOthers g s' = RDMASocket.connectedOthers g s := by
  ext p
  rw [mem_connectedOthers, mem_connectedOthers]
  exact and_congr_right fun hp => by rw [h.connected p hp.1]

namespace Inv

variable {g : NodeSetup} {s s' : RDMASocket} (h : Inv g s)
include h

theorem not_connected_of_unbuilt {c : Conn} (ho : g.opens c) (hb : s.built c = false)
    (hne : c.peer ≠ g.me) : s.connected c.peer = false := by
  rw [Bool.eq_false_iff]
  intro hcon
  obtain ⟨d, hp, hed, -⟩ := h.connected c.peer hne hcon
  have hbd := h.established_built hed
  rw [opens_unique (h.built d hbd) ho hp (hp ▸ hne), hb] at hbd
  cases hbd

theorem not_connected_of_polling {c : Conn} (hp : s.polling = some c) (hne : c.peer ≠ g.me) :
    s.connected c.peer = false := by
  rw [Bool.eq_false_iff]
  intro hcon
  obtain ⟨d, hpd, hed, hpoll⟩ := h.connected c.peer hne hcon
  have hbc := h.built c (h.established_built (h.polling c hp))
  rw [opens_unique (h.built d (h.established_built hed)) hbc hpd (hpd ▸ hne)] at hpoll
  exact hpoll hp

theorem quiet_build {c : Conn} (ho : g.opens c) (hb : s.built c = false) :
    Quiet g s (s.buildConnection c) := by
  refine ⟨fun p hne => ?_, rfl, rfl, rfl⟩
  simp only [RDMASocket.buildConnection]
  split
  · next hp =>
    rw [hp] at hne ⊢
    exact (h.not_connected_of_unbuilt ho hb hne).symm
  · rfl

theorem quiet {a : Event} (hs : Step g s a s') (ha : ∀ junk, a ≠ .recvCompletion junk) :
    Quiet g s s' := by
  cases hs with
  | addrResolved _ _ ho hb => exact h.quiet_build ho hb
  | routeResolved => exact ⟨fun _ _ => rfl, rfl, rfl, rfl⟩
  | connectRequest _ _ ho hb =>
    obtain ⟨hc, hm, hi, hx⟩ := h.quiet_build ho hb
    exact ⟨hc, hm, hi, hx⟩
  | established => exact ⟨fun _ _ => rfl, rfl, rfl, rfl⟩
  | message => exact ⟨fun _ _ => rfl, rfl, rfl, rfl⟩
  | recvCompletion junk => exact absurd rfl (ha junk)
  | constructed => exact ⟨fun _ _ => rfl, rfl, rfl, rfl⟩

theorem recvRegion_polling {c : Conn} (hp : s.polling = some c) (hne : c.peer ≠ g.me) :
    (s.current c.peer).bind s.recvRegion = s.recvRegion c := by
  rw [h.current c (h.established_built (h.polling c hp)) hne, Option.bind_some]

end Inv

theorem onRecvCompletion_other {g : NodeSetup} {s : RDMASocket} (h : Inv g s) {c : Conn}
    {junk : MessageType} (hp : s.polling = some c) (hne : c.peer ≠ g.me)
    (hx : (s.onRecvCompletion c.peer junk).exited = false) :
    connectedOthers g (s.onRecvCompletion c.peer junk) =
      insert c.peer (connectedOthers g s) ∧ c.peer ∉ connectedOthers g s ∧
    (s.onRecvCompletion c.peer junk).incomingConns = s.incomingConns + 1 ∧
    (∀ q, (s.onRecvCompletion c.peer junk).peerMR q =
      if q = c.peer then (s.recvRegion c).map Message.mr else s.peerMR q) := by
  have hlt : c.peer < g.clusterSize := (h.built c (h.established_built (h.polling c hp))).1
  have hnot := h.not_connected_of_polling hp hne
  simp only [onRecvCompletion] at hx ⊢
  split
  · refine ⟨?_, ?_, rfl, fun q => by rw [h.recvRegion_polling hp hne]⟩
    · ext q
      rw [mem_connectedOthers, Finset.mem_insert, mem_connectedOthers, setTrue_eq_true]
      constructor
      · rintro ⟨hq, rfl | hcon⟩
        · exact .inl rfl
        · exact .inr ⟨hq, hcon⟩
      · rintro (rfl | ⟨hq, hcon⟩)
        · exact ⟨⟨hne, hlt⟩, .inl rfl⟩
        · exact ⟨hq, .inr hcon⟩
    · rw [mem_connectedOthers, hnot]
      exact fun hc => Bool.false_ne_true hc.2
  · next hm =>
    rw [if_neg hm] at hx
    cases hx

theorem onRecvCompletion_self {g : NodeSetup} {s : RDMASocket} {junk : MessageType}
    (hx : (s.onRecvCompletion g.me junk).exited = false) :
    connectedOthers g (s.onRecvCompletion g.me junk) = connectedOthers g s ∧
    (s.onRecvCompletion g.me junk).incomingConns = s.incomingConns + 1 ∧
    (∀ q ≠ g.me, (s.onRecvCompletion g.me junk).peerMR q = s.peerMR q) := by
  simp only [onRecvCompletion] at hx ⊢
  split
  · refine ⟨?_, rfl, fun q hq => if_neg hq⟩
    ext q
    rw [mem_connectedOthers, mem_connectedOthers, setTrue_eq_true]
    exact and_congr_right fun hq => or_iff_right hq.1
  · next hm =>
    rw [if_neg hm] at hx
    cases hx

/-- What runs in turn keep: the counter counts the other nodes that are connected, until all
are. -/
structure InTurnInv (g : NodeSetup) (s : RDMASocket) : Prop where
  inv : Inv g s
  running : s.exited = false
  peerMR : ∀ p ∈ connectedOthers g s, s.peerMR p = some (g.regions p)
  count : (∀ p < g.clusterSize, p ≠ g.me → s.connected p = true) ∨
    s.incomingConns = (connectedOthers g s).card

namespace InTurnInv

variable {g : NodeSetup} {s s' : RDMASocket} (h : InTurnInv g s)
include h

theorem safe (hme : g.me < g.clusterSize) : Safe g s := by
  refine ⟨h.running, fun hn => ?_⟩
  have hall : ∀ p < g.clusterSize, p ≠ g.me → s.connected p = true := by
    rcases h.count with hall | hcount
    · exact hall
    · apply (connectedOthers_full hme).1
      exact le_antisymm (connectedOthers_le hme) (hcount ▸ hn)
  intro p hp hne
  exact ⟨hall p hp hne, h.peerMR p (mem_connectedOthers.2 ⟨⟨hne, hp⟩, hall p hp hne⟩)⟩

theorem quiet (hi : Inv g s') (hq : Quiet g s s') : InTurnInv g s' := by
  refine ⟨hi, hq.exited ▸ h.running, fun p hp => ?_, ?_⟩
  · rw [hq.peerMR]
    exact h.peerMR p (hq.connectedOthers ▸ hp)
  · rw [hq.incomingConns, hq.connectedOthers]
    exact h.count.imp_left fun hall p hp hne => (hq.connected p hne).trans (hall p hp hne)

theorem recvCompletion {c : Conn} {junk : MessageType} (hp : s.polling = some c)
    (ht : InTurn g s (.recvCompletion junk)) : InTurnInv g (s.onRecvCompletion c.peer junk) := by
  have hi := h.inv.onRecvCompletion hp junk
  have ht := ht c hp
  by_cases hme : c.peer = g.me
  · rw [if_pos hme] at ht
    obtain ⟨hall, hm⟩ := ht
    have hx : (s.onRecvCompletion c.peer junk).exited = false := by
      simp only [onRecvCompletion, hm, ↓reduceIte]
      exact h.running
    rw [hme] at hx hi ⊢
    obtain ⟨hco, -, hmr⟩ := onRecvCompletion_self hx
    refine ⟨hi, hx, fun p hp => ?_, .inl fun p hp hne => ?_⟩
    · rw [hmr p (mem_connectedOthers.1 hp).1.1]
      exact h.peerMR p (hco ▸ hp)
    · have hmem := mem_connectedOthers.2 ⟨⟨hne, hp⟩, hall p hp hne⟩
      exact (mem_connectedOthers.1 (hco ▸ hmem)).2
  · rw [if_neg hme] at ht
    have hr := h.inv.arrived c ht
    have hx : (s.onRecvCompletion c.peer junk).exited = false := by
      simp only [onRecvCompletion, messageType, h.inv.recvRegion_polling hp hme, hr,
        Option.map_some, Option.getD_some, ↓reduceIte]
      exact h.running
    obtain ⟨hco, hnot, hcount, hmr⟩ := onRecvCompletion_other h.inv hp hme hx
    refine ⟨hi, hx, fun p hp => ?_, ?_⟩
    · rw [hmr p]
      split
      · next hpc => rw [hr, hpc, Option.map_some]
      · next hpc =>
        rw [hco, Finset.mem_insert] at hp
        exact h.peerMR p (hp.resolve_left hpc)
    · rcases h.count with hall | hcard
      · have hlt := (h.inv.built c (h.inv.established_built (h.inv.polling c hp))).1
        exact absurd (mem_connectedOthers.2 ⟨⟨hme, hlt⟩, hall c.peer hlt hme⟩) hnot
      · right
        rw [hcount, hco, Finset.card_insert_of_notMem hnot, hcard]

theorem step {a : Event} (hs : (RDMASocket.inTurn g).step s a s') : InTurnInv g s' := by
  obtain ⟨hs, ht⟩ := hs
  have hi := h.inv.step hs
  cases hs with
  | recvCompletion junk _ hp => exact h.recvCompletion hp ht
  | addrResolved hx hidle ho hb =>
    exact h.quiet hi (h.inv.quiet (.addrResolved hx hidle ho hb) nofun)
  | routeResolved hx hidle hb hr =>
    exact h.quiet hi (h.inv.quiet (.routeResolved hx hidle hb hr) nofun)
  | connectRequest hx hidle ho hb =>
    exact h.quiet hi (h.inv.quiet (.connectRequest hx hidle ho hb) nofun)
  | established hx hidle hr he =>
    exact h.quiet hi (h.inv.quiet (.established hx hidle hr he) nofun)
  | message hx hr ha => exact h.quiet hi (h.inv.quiet (.message hx hr ha) nofun)
  | constructed hx hn => exact h.quiet hi (h.inv.quiet (.constructed hx hn) nofun)

end InTurnInv

theorem inTurn_inv {g : NodeSetup} (hr : (inTurn g).Run w s) : InTurnInv g s := by
  apply hr.invariant (I := InTurnInv g)
  · rintro s rfl
    have hnone : connectedOthers g initial = ∅ := by
      ext p
      rw [mem_connectedOthers]
      simp [initial]
    refine ⟨Inv.initial g, rfl, fun p hp => ?_, .inr ?_⟩
    · rw [hnone] at hp
      exact absurd hp (Finset.notMem_empty p)
    · rw [hnone]
      rfl
  · exact fun _ _ _ h hs => h.step hs

/-- What an untimely completion leaves behind: a node without its memory region, or a counter
that is ahead of the nodes connected. -/
def Tainted (g : NodeSetup) (s : RDMASocket) : Prop :=
  (∃ p ∈ connectedOthers g s, s.peerMR p = none) ∨
  ((connectedOthers g s).card < s.incomingConns ∧ s.incomingConns < g.clusterSize - 1)

theorem AllConnected.full {g : NodeSetup} {s : RDMASocket} (h : AllConnected g s)
    (hme : g.me < g.clusterSize) : (connectedOthers g s).card = g.clusterSize - 1 :=
  (connectedOthers_full hme).2 fun p hp hne => (h p hp hne).1

theorem Safe.not_tainted {g : NodeSetup} {s : RDMASocket} (h : Safe g s)
    (hn : g.clusterSize - 1 ≤ s.incomingConns) : ¬Tainted g s := by
  rintro (⟨p, hp, hnone⟩ | ⟨-, hlt⟩)
  · obtain ⟨⟨hne, hlt⟩, -⟩ := mem_connectedOthers.1 hp
    rw [(h.2 hn p hlt hne).2] at hnone
    cases hnone
  · exact absurd hn hlt.not_ge

theorem Tainted.step {g : NodeSetup} {s s' : RDMASocket} {a : Event} (h : Tainted g s)
    (hi : Inv g s) (hme : g.me < g.clusterSize) (hs : Step g s a s') (hsafe : Safe g s') :
    Tainted g s' := by
  have hahead : (connectedOthers g s').card < s'.incomingConns →
      s'.incomingConns ≤ g.clusterSize - 1 → s'.incomingConns < g.clusterSize - 1 := by
    intro hlt hle
    rcases Nat.lt_or_ge s'.incomingConns (g.clusterSize - 1) with h | hge
    · exact h
    · have := (hsafe.2 hge).full hme
      omega
  by_cases hq : ∃ junk, a = .recvCompletion junk
  · obtain ⟨junk, rfl⟩ := hq
    cases hs with
    | @recvCompletion c _ hx hp =>
      by_cases hself : c.peer = g.me
      · rw [hself] at hsafe hahead ⊢
        obtain ⟨hco, hcount, hmr⟩ := onRecvCompletion_self hsafe.1
        rcases h with ⟨p, hp, hnone⟩ | ⟨hlt, hn⟩
        · refine .inl ⟨p, hco ▸ hp, ?_⟩
          rw [hmr p (mem_connectedOthers.1 hp).1.1, hnone]
        · have hlt' : (connectedOthers g (s.onRecvCompletion g.me junk)).card <
              (s.onRecvCompletion g.me junk).incomingConns := by
            rw [hco, hcount]
            exact Nat.lt_succ_of_lt hlt
          exact .inr ⟨hlt', hahead hlt' (hcount ▸ hn)⟩
      · obtain ⟨hco, hnot, hcount, hmr⟩ := onRecvCompletion_other hi hp hself hsafe.1
        rcases h with ⟨p, hp, hnone⟩ | ⟨hlt, hn⟩
        · refine .inl ⟨p, hco ▸ Finset.mem_insert_of_mem hp, ?_⟩
          have hne : p ≠ c.peer := fun hpc => hnot (hpc ▸ hp)
          rw [hmr p, if_neg hne, hnone]
        · have hlt' : (connectedOthers g (s.onRecvCompletion c.peer junk)).card <
              (s.onRecvCompletion c.peer junk).incomingConns := by
            rw [hco, Finset.card_insert_of_notMem hnot, hcount]
            exact Nat.succ_lt_succ hlt
          exact .inr ⟨hlt', hahead hlt' (hcount ▸ hn)⟩
  · have hquiet := hi.quiet hs fun junk hj => hq ⟨junk, hj⟩
    rcases h with ⟨p, hp, hnone⟩ | ⟨hlt, hn⟩
    · exact .inl ⟨p, hquiet.connectedOthers ▸ hp, hquiet.peerMR ▸ hnone⟩
    · exact .inr ⟨hquiet.connectedOthers ▸ hquiet.incomingConns ▸ hlt, hquiet.incomingConns ▸ hn⟩

/-- The first step out of turn of a safe run taints it. -/
theorem InTurnInv.tainted {g : NodeSetup} {s s' : RDMASocket} {a : Event} (h : InTurnInv g s)
    (hme : g.me < g.clusterSize) (hs : Step g s a s') (ht : ¬InTurn g s a) (hsafe : Safe g s') :
    Tainted g s' := by
  cases hs with
  | @recvCompletion c junk hx hp =>
    by_cases hself : c.peer = g.me
    · have hmt : s.messageType c.peer junk = .MESG_REMOTE_MR := by
        have hx' := hsafe.1
        simp only [onRecvCompletion] at hx'
        split at hx'
        · next hm => exact hm
        · cases hx'
      have hnot : ¬∀ p < g.clusterSize, p ≠ g.me → s.connected p = true := by
        intro hall
        apply ht
        intro d hd
        obtain rfl : c = d := Option.some.inj (hp.symm.trans hd)
        rw [if_pos hself]
        exact ⟨hall, hmt⟩
      rw [hself] at hsafe ⊢
      obtain ⟨hco, hcount, -⟩ := onRecvCompletion_self hsafe.1
      have hcard := h.count.resolve_left hnot
      refine .inr ⟨?_, ?_⟩
      · rw [hco, hcount, hcard]
        exact Nat.lt_succ_self _
      · rcases Nat.lt_or_ge (s.onRecvCompletion g.me junk).incomingConns (g.clusterSize - 1)
          with hlt | hge
        · exact hlt
        · exact absurd ((connectedOthers_full hme).1 (hco ▸ (hsafe.2 hge).full hme)) hnot
    · have hna : s.arrived c = false := by
        rw [Bool.eq_false_iff]
        intro ha
        apply ht
        intro d hd
        obtain rfl : c = d := Option.some.inj (hp.symm.trans hd)
        rwa [if_neg hself]
      obtain ⟨hco, -, -, hmr⟩ := onRecvCompletion_other h.inv hp hself hsafe.1
      refine .inl ⟨c.peer, hco ▸ Finset.mem_insert_self _ _, ?_⟩
      rw [hmr, if_pos rfl, h.inv.empty c hna, Option.map_none]
  | addrResolved => exact absurd trivial ht
  | routeResolved => exact absurd trivial ht
  | connectRequest => exact absurd trivial ht
  | established => exact absurd trivial ht
  | message => exact absurd trivial ht
  | constructed => exact absurd trivial ht

theorem safe_run {g : NodeSetup} (hme : g.me < g.clusterSize) (hr : (safe g).Run w s) :
    Safe g s ∧ ((inTurn g).Run w s ∨ Tainted g s) := by
  induction hr with
  | nil hi =>
    have hr : (inTurn g).Run [] _ := .nil hi
    exact ⟨(inTurn_inv hr).safe hme, .inl hr⟩
  | @snoc _ s a _ hr hs ih =>
    obtain ⟨hs, hsafe⟩ := hs
    refine ⟨hsafe, ?_⟩
    rcases ih.2 with hrun | ht
    · by_cases hturn : InTurn g s a
      · exact .inl (hrun.snoc ⟨hs, hturn⟩)
      · exact .inr ((inTurn_inv hrun).tainted hme hs hturn hsafe)
    · exact .inr (ht.step (handshake_inv hr.of_restrict) hme hs hsafe)

/-- Runs in turn are safe, and a run that has come to its end is safe only if it is in turn. -/
theorem safe_iff_inTurn {g : NodeSetup} (hme : g.me < g.clusterSize) (w : List Event)
    (s : RDMASocket) : ((inTurn g).Run w s → (safe g).Run w s) ∧
      (s.exited = true ∨ g.clusterSize - 1 ≤ s.incomingConns →
        ((safe g).Run w s ↔ (inTurn g).Run w s)) := by
  have hsafe : (inTurn g).Run w s → (safe g).Run w s := by
    intro hr
    induction hr with
    | nil hi => exact .nil hi
    | snoc hr hs ih => exact ih.snoc ⟨hs.1, (inTurn_inv (hr.snoc hs)).safe hme⟩
  refine ⟨hsafe, fun hend => ⟨fun hr => ?_, hsafe⟩⟩
  obtain ⟨hs, hrun | ht⟩ := safe_run hme hr
  · exact hrun
  · have hn := hend.resolve_left (by rw [hs.1]; exact Bool.false_ne_true)
    exact absurd ht (hs.not_tainted hn)

def threeNodes : NodeSetup := ⟨3, 0, false, fun p => ⟨p, 4096, p⟩⟩

/-- Both peers have asked for their connections, and the message of node 2 is the first. -/
def crossed : RDMASocket :=
  ((initial.onConnectionRequest 1).onConnectionRequest 2).deliver threeNodes ⟨.passive, 2⟩

theorem run_crossed : (handshake threeNodes).Run
    [.connectRequest 1, .connectRequest 2, .message ⟨.passive, 2⟩] crossed := by
  have h₁ : Step threeNodes initial (.connectRequest 1) (initial.onConnectionRequest 1) :=
    .connectRequest rfl rfl ⟨by decide, Nat.zero_lt_one⟩ rfl
  have h₂ : Step threeNodes (initial.onConnectionRequest 1) (.connectRequest 2)
      ((initial.onConnectionRequest 1).onConnectionRequest 2) :=
    .connectRequest rfl rfl ⟨by decide, Nat.zero_lt_two⟩ (by decide)
  exact (((System.Run.nil rfl).snoc h₁).snoc h₂).snoc (.message rfl (by decide) (by decide))

/-- The handler for node 1 takes the completion of node 2's message, looks into the empty
buffer of node 1, and the process exits. -/
theorem crossed_messages : ∃ s, (handshake threeNodes).Run
    ([.connectRequest 1, .connectRequest 2, .message ⟨.passive, 2⟩] ++
      [.established ⟨.passive, 1⟩] ++ [.recvCompletion .MESG_UNDEF]) s ∧ s.exited = true := by
  have h₁ : Step threeNodes crossed (.established ⟨.passive, 1⟩)
      (crossed.onConnectionEstablished ⟨.passive, 1⟩) :=
    .established rfl rfl (by decide) (by decide)
  have h₂ : Step threeNodes (crossed.onConnectionEstablished ⟨.passive, 1⟩)
      (.recvCompletion .MESG_UNDEF)
      ((crossed.onConnectionEstablished ⟨.passive, 1⟩).onRecvCompletion 1 .MESG_UNDEF) :=
    @Step.recvCompletion _ _ ⟨.passive, 1⟩ .MESG_UNDEF rfl rfl (List.cons_ne_nil _ _)
  exact ⟨_, (run_crossed.snoc h₁).snoc h₂, by decide⟩

def opened (s : RDMASocket) (p : Nat) : RDMASocket :=
  ((s.onConnectionRequest p).deliver threeNodes ⟨.passive, p⟩).onConnectionEstablished ⟨.passive, p⟩

def join (s : RDMASocket) (p : Nat) : RDMASocket := (s.opened p).onRecvCompletion p .MESG_UNDEF

theorem run_join {p : Nat} (hr : (inTurn threeNodes).Run w s) (hx : s.exited = false)
    (hinit : s.initialized = false) (hidle : s.polling = none) (hp : 0 < p ∧ p < 3)
    (hb : s.built ⟨.passive, p⟩ = false) (he : s.established ⟨.passive, p⟩ = false)
    (ha : s.arrived ⟨.passive, p⟩ = false) :
    ∃ w', (inTurn threeNodes).Run w' (s.join p) := by
  have hc : setTrue s.requested ⟨.passive, p⟩ ⟨.passive, p⟩ = true := setTrue_eq_true.2 (.inl rfl)
  have h₁ : (inTurn threeNodes).step s (.connectRequest p) (s.onConnectionRequest p) :=
    ⟨.connectRequest hx hidle ⟨hp.2, hp.1⟩ hb, trivial⟩
  have h₂ : (inTurn threeNodes).step (s.onConnectionRequest p) (.message ⟨.passive, p⟩)
      ((s.onConnectionRequest p).deliver threeNodes ⟨.passive, p⟩) :=
    ⟨.message hx hc ha, trivial⟩
  have h₃ : (inTurn threeNodes).step ((s.onConnectionRequest p).deliver threeNodes ⟨.passive, p⟩)
      (.established ⟨.passive, p⟩) (s.opened p) := ⟨.established hx hidle hc he, trivial⟩
  have hpoll : (s.opened p).polling = some ⟨.passive, p⟩ := if_neg (ne_true_of_eq_false hinit)
  have h₄ : (inTurn threeNodes).step (s.opened p) (.recvCompletion .MESG_UNDEF) (s.join p) := by
    refine ⟨@Step.recvCompletion _ _ ⟨.passive, p⟩ .MESG_UNDEF hx hpoll ?_, ?_⟩
    · exact List.append_ne_nil_of_right_ne_nil _ (List.cons_ne_nil _ _)
    · intro c hc
      obtain rfl := Option.some.inj (hpoll.symm.trans hc)
      have hne : (⟨.passive, p⟩ : Conn).peer ≠ threeNodes.me := hp.1.ne'
      rw [if_neg hne]
      exact setTrue_eq_true.2 (.inl rfl)
  exact ⟨_, (((hr.snoc h₁).snoc h₂).snoc h₃).snoc h₄⟩

theorem run_threeNodes : ∃ w, (inTurn threeNodes).Run w ((initial.join 1).join 2) := by
  obtain ⟨w, hr⟩ := run_join (.nil rfl) rfl rfl rfl ⟨Nat.zero_lt_one, by decide⟩ rfl rfl rfl
  exact run_join hr (by decide) rfl (by decide) ⟨Nat.zero_lt_two, by decide⟩ (by decide) (by decide)
    (by decide)

/-- The peers of `threeNodes` connect one after the other. -/
theorem safe_threeNodes : ∃ w, (safe threeNodes).Run w ((initial.join 1).join 2) ∧
    ((initial.join 1).join 2).incomingConns = 2 := by
  obtain ⟨w, hr⟩ := run_threeNodes
  have hme : threeNodes.me < threeNodes.clusterSize := by decide
  exact ⟨w, (safe_iff_inTurn hme w _).1 hr, by decide⟩

end RDMASocket

end Galois
