import Galois.Effect.System
import Galois.Erpc.Server

namespace Galois
set_option autoImplicit true
set_option relaxedAutoImplicit false

namespace Erpc

structure State (τ : Type) where
  client : Client τ
  server : Server
  enqueued : List (EnqReqArgs τ)

inductive Action (τ : Type) where
  | enqueue_request (a : EnqReqArgs τ) (uncongested : Bool)
  | enqueue_response (i : SlotIdx) (resp_msgbuf : MsgBuffer)
  | clientRx (p : Packet) (uncongested : Bool)
  | serverRx (p : Packet) (garbage : Mem)
  | process_credit_stall_queue_st (uncongested : Bool)
  | process_wheel_st (i : SlotIdx) (pkt_num : Nat)
  | pkt_loss_scan_st (expired : SlotIdx → Bool) (uncongested : Bool)
  /-- The network loses packets, delivers them out of order or more than once. -/
  | lose (toServer toClient : List Packet)

namespace State

variable {τ : Type}

def next (t : Transport) (s : State τ) : Action τ → Option (State τ)
  | .enqueue_request a uncongested => do
    let c ← s.client.enqueue_request t uncongested a
    some { s with client := c, enqueued := s.enqueued ++ [a] }
  | .enqueue_response i resp_msgbuf => do
    let v ← s.server.enqueue_response t i resp_msgbuf
    some { s with server := v }
  | .clientRx p uncongested => do
    let c ← s.client.process_comp t p uncongested
    some { s with client := c }
  | .serverRx p garbage => do
    let v ← s.server.process_comp t p garbage
    some { s with server := v }
  | .process_credit_stall_queue_st uncongested => do
    let c ← s.client.process_credit_stall_queue_st t uncongested
    some { s with client := c }
  | .process_wheel_st i pkt_num => do
    let c ← s.client.process_wheel_st t i pkt_num
    some { s with client := c }
  | .pkt_loss_scan_st expired uncongested => do
    let c ← s.client.pkt_loss_scan_st t expired uncongested
    some { s with client := c }
  | .lose toServer toClient =>
    some { s with
      client := { s.client with wire := toServer }
      server := { s.server with wire := toClient } }

/-- What the users of the session and the network may do. Every request has a tag of its own, a
valid type and a response buffer of `respSize` bytes, which is enough for every response. A
response is enqueued only after the handler was called for it. -/
def Allowed (t : Transport) (respSize : Nat) (s : State τ) : Action τ → Prop
  | .enqueue_request a _ =>
    a.tag ∉ s.enqueued.map (·.tag) ∧ a.req_type ≠ kInvalidReqType ∧
      a.req_msgbuf.data_size ≤ t.kMaxMsgSize ∧ respSize ≤ a.resp_msgbuf.max_data_size
  | .enqueue_response i resp_msgbuf =>
    (s.server.sslot_arr i).req_type ≠ kInvalidReqType ∧
      resp_msgbuf.data_size ≤ t.kMaxMsgSize ∧ resp_msgbuf.data_size ≤ respSize
  | .clientRx p _ => p ∈ s.server.wire
  | .serverRx p _ => p ∈ s.client.wire
  | .process_wheel_st i pkt_num => (i, pkt_num) ∈ s.client.wheel
  | .lose toServer toClient => toServer ⊆ s.client.wire ∧ toClient ⊆ s.server.wire
  | _ => True

def initial : State τ where
  client :=
    { credits := kSessionCredits
      sslot_arr := fun i =>
        { tx_msgbuf := none
          cur_req_num := i
          resp_msgbuf := ⟨default, 0, 0, fun _ => 0⟩
          tag := none
          num_tx := 0
          num_rx := 0
          in_wheel := fun _ => false
          wheel_count := 0 }
      sslot_free_vec := List.finRange kSessionReqWindow
      enq_req_backlog := []
      stallq := []
      active_rpcs := []
      wheel := []
      wire := []
      started := []
      finished := [] }
  server :=
    { sslot_arr := fun i =>
        { cur_req_num := i
          num_rx := 0
          sav_num_req_pkts := 0
          req_msgbuf := none
          req_type := kInvalidReqType
          tx_msgbuf := none }
      wire := []
      calls := []
      responses := [] }
  enqueued := []

end State

/-- All runs of a session. An action that fails an assertion is no step. -/
def session (t : Transport) (respSize : Nat) : System (State τ) (Action τ) where
  init s := s = .initial
  step s a s' := s.Allowed t respSize a ∧ s.next t a = some s'

end Erpc

end Galois
