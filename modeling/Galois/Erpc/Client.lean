import Galois.Effect.Total
import Galois.Erpc.Packet

namespace Galois
set_option autoImplicit true
set_option relaxedAutoImplicit false

namespace Erpc

abbrev SlotIdx := Fin kSessionReqWindow

theorem Packet.slot_lt (p : Packet) : p.req_num % kSessionReqWindow < kSessionReqWindow :=
  Nat.mod_lt _ (by decide)

/-- `enq_req_args_t`; nothing but the continuation reads the tag. -/
structure EnqReqArgs (τ : Type) where
  req_type : BitVec 8
  req_msgbuf : MsgBuffer
  resp_msgbuf : MsgBuffer
  tag : τ

/-- An `SSlot` of the client. Its request is active while `tx_msgbuf` is not null. -/
structure ClientSlot (τ : Type) where
  tx_msgbuf : Option MsgBuffer
  cur_req_num : Nat
  resp_msgbuf : MsgBuffer
  tag : Option τ
  num_tx : Nat
  num_rx : Nat
  in_wheel : Nat → Bool
  wheel_count : Nat

/-- The client's end of a session. The free slots are a stack with its top first, `wire` holds the
packets under way to the server; `started` and `finished` record which request number each request
was given, and the continuations run, each with its response buffer. -/
structure Client (τ : Type) where
  credits : Nat
  sslot_arr : SlotIdx → ClientSlot τ
  sslot_free_vec : List SlotIdx
  enq_req_backlog : List (EnqReqArgs τ)
  stallq : List SlotIdx
  active_rpcs : List SlotIdx
  wheel : List (SlotIdx × Nat)
  wire : List Packet
  started : List (τ × Nat)
  finished : List (τ × MsgBuffer)

variable {τ : Type}

/-- The number of packets that either end sends for a request and its response. -/
def wire_pkts (t : Transport) (req_msgbuf resp_msgbuf : MsgBuffer) : Nat :=
  req_msgbuf.num_pkts t + resp_msgbuf.num_pkts t - 1

def resp_ntoi (pkt_num num_req_pkts : Nat) : Nat := pkt_num - (num_req_pkts - 1)

namespace ClientSlot

def req_pkts_pending (t : Transport) (s : ClientSlot τ) : Bool :=
  match s.tx_msgbuf with
  | some m => s.num_tx < m.num_pkts t
  | none => false

def in_order_client (s : ClientSlot τ) (p : Packet) : Bool :=
  p.req_num = s.cur_req_num ∧ p.pkt_num = s.num_rx ∧ p.pkt_num < s.num_tx ∧
    s.in_wheel (p.pkt_num % kSessionCredits) = false

end ClientSlot

namespace Client

variable (t : Transport)

def modify (c : Client τ) (i : SlotIdx) (f : ClientSlot τ → ClientSlot τ) : Client τ :=
  { c with sslot_arr := Function.update c.sslot_arr i (f (c.sslot_arr i)) }

/-- Sends a packet of the request of a slot. -/
def enqueue_pkt_tx_burst_st (c : Client τ) (i : SlotIdx) (pkt_idx : Nat) : Option (Client τ) := do
  let m ← (c.sslot_arr i).tx_msgbuf
  some { c with wire := c.wire ++ [m.packet t pkt_idx] }

def enqueue_wheel_req_st (c : Client τ) (i : SlotIdx) (pkt_num : Nat) : Client τ :=
  { c with wheel := c.wheel ++ [(i, pkt_num)] }.modify i fun s =>
    { s with
      in_wheel := Function.update s.in_wheel (pkt_num % kSessionCredits) true
      wheel_count := s.wheel_count + 1 }

def can_bypass_wheel (c : Client τ) (i : SlotIdx) (uncongested : Bool) : Bool :=
  (c.sslot_arr i).wheel_count = 0 ∧ uncongested

/-- `ci.num_tx++` and `credits--`. -/
def useCredit (c : Client τ) (i : SlotIdx) : Client τ :=
  { c with credits := c.credits - 1 }.modify i fun s => { s with num_tx := s.num_tx + 1 }

def sendReq (i : SlotIdx) (bypass : Bool) (c : Client τ) : Option (Client τ) := do
  let num_tx := (c.sslot_arr i).num_tx
  let c ← if bypass then c.enqueue_pkt_tx_burst_st t i num_tx
    else some (c.enqueue_wheel_req_st i num_tx)
  some (c.useCredit i)

def kick_req_st (i : SlotIdx) (uncongested : Bool) (c : Client τ) : Option (Client τ) := do
  guard (0 < c.credits)
  let m ← (c.sslot_arr i).tx_msgbuf
  let sending := min c.credits (m.num_pkts t - (c.sslot_arr i).num_tx)
  let bypass := c.can_bypass_wheel i uncongested
  (List.range sending).foldlM (fun c _ => c.sendReq t i bypass) c

/-- A request-for-response has the type and the number of the response's header. -/
def rfr (resp_pkthdr : PktHdr) (pkt_num : Nat) : Packet where
  req_type := resp_pkthdr.req_type
  msg_size := 0
  pkt_type := .rfr
  pkt_num := pkt_num % 2 ^ kPktNumBits
  req_num := resp_pkthdr.req_num
  data := fun _ => 0

def enqueue_rfr_st (c : Client τ) (i : SlotIdx) : Client τ :=
  let s := c.sslot_arr i
  { c with wire := c.wire ++ [rfr s.resp_msgbuf.pkthdr_0 s.num_tx] }

def kick_rfr_st (i : SlotIdx) (c : Client τ) : Option (Client τ) := do
  let s := c.sslot_arr i
  guard (0 < c.credits)
  let m ← s.tx_msgbuf
  guard (m.num_pkts t ≤ s.num_rx)
  guard (s.num_rx < wire_pkts t m s.resp_msgbuf)
  let rfr_pndng := wire_pkts t m s.resp_msgbuf - s.num_tx
  let sending := min c.credits rfr_pndng
  (List.range sending).foldlM (fun c _ => some ((c.enqueue_rfr_st i).useCredit i)) c

def fillSlot (i : SlotIdx) (a : EnqReqArgs τ) (c : Client τ) : Client τ :=
  let cur_req_num := (c.sslot_arr i).cur_req_num + kSessionReqWindow
  let pkthdr_0 : PktHdr :=
    { req_type := a.req_type
      msg_size := a.req_msgbuf.data_size % 2 ^ kMsgSizeBits
      pkt_type := .req
      pkt_num := 0
      req_num := cur_req_num % 2 ^ kReqNumBits }
  { c with
    active_rpcs := c.active_rpcs ++ [i]
    started := c.started ++ [(a.tag, cur_req_num)] }.modify i fun s =>
    { s with
      tx_msgbuf := some { a.req_msgbuf with pkthdr_0 := pkthdr_0 }
      cur_req_num := cur_req_num
      resp_msgbuf := a.resp_msgbuf
      tag := some a.tag
      num_rx := 0
      num_tx := 0 }

/-- `enqueue_request` in the thread that created the `Rpc`. -/
def enqueue_request (uncongested : Bool) (a : EnqReqArgs τ) (c : Client τ) : Option (Client τ) :=
  match c.sslot_free_vec with
  | [] => some { c with enq_req_backlog := c.enq_req_backlog ++ [a] }
  | i :: free => do
    guard (c.sslot_arr i).tx_msgbuf.isNone
    let c := { c with sslot_free_vec := free }.fillSlot i a
    if 0 < c.credits then c.kick_req_st t i uncongested
    else some { c with stallq := c.stallq ++ [i] }

def bump_credits (c : Client τ) : Option (Client τ) := do
  guard (c.credits < kSessionCredits)
  some { c with credits := c.credits + 1 }

/-- The end of `process_resp_one_st`, when the whole response is there. -/
def finish (i : SlotIdx) (uncongested : Bool) (c : Client τ) : Option (Client τ) := do
  let s := c.sslot_arr i
  guard (s.wheel_count = 0)
  let tag ← s.tag
  guard (c.sslot_free_vec.length < kSessionReqWindow)
  let c := { c with
    active_rpcs := c.active_rpcs.erase i
    sslot_free_vec := i :: c.sslot_free_vec }.modify i fun s => { s with tx_msgbuf := none }
  let c ← match c.enq_req_backlog with
    | [] => some c
    | a :: backlog => do
      guard (c.sslot_free_vec.length = 1)
      let c ← c.enqueue_request t uncongested a
      some { c with enq_req_backlog := backlog }
  some { c with finished := c.finished ++ [(tag, s.resp_msgbuf)] }

def acknowledge (i : SlotIdx) (c : Client τ) : Option (Client τ) := do
  let c ← c.bump_credits
  some (c.modify i fun s => { s with num_rx := s.num_rx + 1 })

def process_resp_one_st (i : SlotIdx) (p : Packet) (uncongested : Bool) (c : Client τ) :
    Option (Client τ) := do
  guard (p.req_num ≤ (c.sslot_arr i).cur_req_num)
  if (c.sslot_arr i).in_order_client p = false then some c
  else
    let c ← c.acknowledge i
    if p.msg_size ≤ t.kMaxDataPerPkt then
      let resp_msgbuf ← (c.sslot_arr i).resp_msgbuf.resize_msg_buffer p.msg_size
      let resp_msgbuf := { resp_msgbuf with pkthdr_0 := p.toPktHdr }.copy_data_to_msgbuf t 0 p
      (c.modify i fun s => { s with resp_msgbuf := resp_msgbuf }).finish t i uncongested
    else
      let m ← (c.sslot_arr i).tx_msgbuf
      let resp_msgbuf := (c.sslot_arr i).resp_msgbuf
      -- the first packet of the response
      let resp_msgbuf ← if p.pkt_num = m.num_pkts t - 1 then do
          let resp_msgbuf ← resp_msgbuf.resize_msg_buffer p.msg_size
          some { resp_msgbuf with pkthdr_0 := p.toPktHdr }
        else some resp_msgbuf
      let c := c.modify i fun s => { s with resp_msgbuf := resp_msgbuf }
      let c ← if (c.sslot_arr i).num_tx ≠ wire_pkts t m resp_msgbuf then c.kick_rfr_st t i
        else some c
      let resp_msgbuf := resp_msgbuf.copy_data_to_msgbuf t (resp_ntoi p.pkt_num (m.num_pkts t)) p
      let c := c.modify i fun s => { s with resp_msgbuf := resp_msgbuf }
      if (c.sslot_arr i).num_rx ≠ wire_pkts t m resp_msgbuf then some c
      else c.finish t i uncongested

def process_expl_cr_st (i : SlotIdx) (p : Packet) (uncongested : Bool) (c : Client τ) :
    Option (Client τ) := do
  guard (p.req_num ≤ (c.sslot_arr i).cur_req_num)
  if (c.sslot_arr i).in_order_client p = false then some c
  else
    let c ← c.acknowledge i
    if (c.sslot_arr i).req_pkts_pending t then c.kick_req_st t i uncongested else some c

/-- What `process_comps_st` does with a packet; the server sends nothing else. -/
def process_comp (p : Packet) (uncongested : Bool) (c : Client τ) : Option (Client τ) :=
  let i : SlotIdx := ⟨p.req_num % kSessionReqWindow, p.slot_lt⟩
  match p.pkt_type with
  | .resp => c.process_resp_one_st t i p uncongested
  | .explCR => c.process_expl_cr_st t i p uncongested
  | _ => none

def kick (i : SlotIdx) (uncongested : Bool) (c : Client τ) : Option (Client τ) :=
  if (c.sslot_arr i).req_pkts_pending t then c.kick_req_st t i uncongested else c.kick_rfr_st t i

def process_credit_stall_queue_st (uncongested : Bool) (c : Client τ) : Option (Client τ) :=
  c.stallq.foldlM (fun c i =>
    if 0 < c.credits then c.kick t i uncongested
    else some { c with stallq := c.stallq ++ [i] }) { c with stallq := [] }

/-- `process_wheel_st` with one packet that has come out of the wheel. -/
def process_wheel_st (i : SlotIdx) (pkt_num : Nat) (c : Client τ) : Option (Client τ) := do
  guard ((i, pkt_num) ∈ c.wheel)
  let m ← (c.sslot_arr i).tx_msgbuf
  let c ← if pkt_num < m.num_pkts t then c.enqueue_pkt_tx_burst_st t i pkt_num
    else some (c.enqueue_rfr_st i)
  some ({ c with wheel := c.wheel.erase (i, pkt_num) }.modify i fun s =>
    { s with
      wheel_count := s.wheel_count - 1
      in_wheel := Function.update s.in_wheel (pkt_num % kSessionCredits) false })

def pkt_loss_retransmit_st (i : SlotIdx) (uncongested : Bool) (c : Client τ) :
    Option (Client τ) := do
  let s := c.sslot_arr i
  guard s.tx_msgbuf.isSome
  let delta := s.num_tx - s.num_rx
  guard (c.credits + delta ≤ kSessionCredits)
  if delta = 0 then some c
  else
    guard (i ∉ c.stallq)
    if 0 < s.wheel_count then some c
    else
      ({ c with credits := c.credits + delta }.modify i fun s =>
        { s with num_tx := s.num_rx }).kick t i uncongested

/-- The slots in `expired` have made no progress for too long. -/
def pkt_loss_scan_st (expired : SlotIdx → Bool) (uncongested : Bool) (c : Client τ) :
    Option (Client τ) :=
  c.active_rpcs.foldlM (fun c i =>
    if (c.sslot_arr i).num_tx = (c.sslot_arr i).num_rx then some c
    else if expired i then c.pkt_loss_retransmit_st t i uncongested
    else some c) c

end Client

end Erpc

end Galois
