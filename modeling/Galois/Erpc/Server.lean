import Galois.Erpc.Client

namespace Galois
set_option autoImplicit true
set_option relaxedAutoImplicit false

namespace Erpc

/-- An `SSlot` of the server: `req_msgbuf` is `none` while it is buried, and `req_type` is valid
while the response is awaited. -/
structure ServerSlot where
  cur_req_num : Nat
  num_rx : Nat
  sav_num_req_pkts : Nat
  req_msgbuf : Option MsgBuffer
  req_type : BitVec 8
  tx_msgbuf : Option MsgBuffer

structure Call where
  req_num : Nat
  req_type : BitVec 8
  req_msgbuf : MsgBuffer

/-- The server's end of a session. `wire` holds the packets under way to the client; `calls` and
`responses` record the handler's calls and what was enqueued for each request number. -/
structure Server where
  sslot_arr : SlotIdx → ServerSlot
  wire : List Packet
  calls : List Call
  responses : List (Nat × MsgBuffer)

namespace Server

variable (t : Transport)

def modify (v : Server) (i : SlotIdx) (f : ServerSlot → ServerSlot) : Server :=
  { v with sslot_arr := Function.update v.sslot_arr i (f (v.sslot_arr i)) }

def enqueue_pkt_tx_burst_st (v : Server) (i : SlotIdx) (pkt_idx : Nat) : Option Server := do
  let m ← (v.sslot_arr i).tx_msgbuf
  guard (pkt_idx < m.num_pkts t)
  some { v with wire := v.wire ++ [m.packet t pkt_idx] }

def expl_cr (req_pkthdr : PktHdr) : Packet where
  req_type := req_pkthdr.req_type
  msg_size := 0
  pkt_type := .explCR
  pkt_num := req_pkthdr.pkt_num
  req_num := req_pkthdr.req_num
  data := fun _ => 0

def enqueue_cr_st (v : Server) (p : Packet) : Server :=
  { v with wire := v.wire ++ [expl_cr p.toPktHdr] }

/-- Calls the request handler of a slot, which may answer now or later. -/
def callHandler (v : Server) (i : SlotIdx) (req_type : BitVec 8) : Option Server := do
  let s := v.sslot_arr i
  guard (s.req_type = kInvalidReqType)
  let m ← s.req_msgbuf
  let call : Call := ⟨s.cur_req_num, req_type, m⟩
  some ({ v with calls := v.calls ++ [call] }.modify i fun s =>
    { s with req_type := req_type })

def process_small_req_st (i : SlotIdx) (p : Packet) (v : Server) : Option Server :=
  let s := v.sslot_arr i
  if p.req_num < s.cur_req_num then some v
  else if p.req_num = s.cur_req_num then
    if s.tx_msgbuf.isSome then v.enqueue_pkt_tx_burst_st t i 0 else some v
  else do
    guard (p.req_num = s.cur_req_num + kSessionReqWindow)
    guard s.req_msgbuf.isNone
    let v := v.modify i fun s =>
      { s with
        tx_msgbuf := none
        cur_req_num := p.req_num
        num_rx := 1
        req_msgbuf := some (.fake p) }
    v.callHandler i p.req_type

def process_large_req_one_st (i : SlotIdx) (p : Packet) (garbage : Mem) (v : Server) :
    Option Server :=
  let s := v.sslot_arr i
  let is_next_pkt_same_req := p.req_num = s.cur_req_num ∧ p.pkt_num = s.num_rx
  let is_first_pkt_next_req :=
    p.req_num = s.cur_req_num + kSessionReqWindow ∧ p.pkt_num = 0
  if is_next_pkt_same_req ∨ is_first_pkt_next_req then do
    let v ← if p.pkt_num = 0 then do
        guard s.req_msgbuf.isNone
        some (v.modify i fun s =>
          { s with
            tx_msgbuf := none
            req_msgbuf := some (.alloc garbage p.msg_size)
            cur_req_num := p.req_num
            num_rx := 1 })
      else some (v.modify i fun s => { s with num_rx := s.num_rx + 1 })
    let m ← (v.sslot_arr i).req_msgbuf
    let v := if p.pkt_num ≠ m.num_pkts t - 1 then v.enqueue_cr_st p else v
    let m := m.copy_data_to_msgbuf t p.pkt_num p
    let v := v.modify i fun s => { s with req_msgbuf := some m }
    if (v.sslot_arr i).num_rx ≠ m.num_pkts t then some v else v.callHandler i p.req_type
  else if p.req_num ≠ s.cur_req_num ∨ s.num_rx < p.pkt_num then some v
  else if p.pkt_num ≠ t.data_size_to_num_pkts p.msg_size - 1 then some (v.enqueue_cr_st p)
  else if s.tx_msgbuf.isSome then v.enqueue_pkt_tx_burst_st t i 0
  else some v

def process_rfr_st (i : SlotIdx) (p : Packet) (v : Server) : Option Server := do
  let s := v.sslot_arr i
  guard (p.req_num ≤ s.cur_req_num)
  if p.req_num = s.cur_req_num ∧ p.pkt_num = s.num_rx then
    (v.modify i fun s => { s with num_rx := s.num_rx + 1 }).enqueue_pkt_tx_burst_st t i
      (resp_ntoi p.pkt_num s.sav_num_req_pkts)
  else if p.req_num < s.cur_req_num ∨ s.num_rx < p.pkt_num then some v
  else v.enqueue_pkt_tx_burst_st t i (resp_ntoi p.pkt_num s.sav_num_req_pkts)

/-- What `process_comps_st` does with a packet; the client sends nothing else. -/
def process_comp (p : Packet) (garbage : Mem) (v : Server) : Option Server :=
  let i : SlotIdx := ⟨p.req_num % kSessionReqWindow, p.slot_lt⟩
  match p.pkt_type with
  | .req =>
    if p.msg_size ≤ t.kMaxDataPerPkt then v.process_small_req_st t i p
    else v.process_large_req_one_st t i p garbage
  | .rfr => v.process_rfr_st t i p
  | _ => none

def respHdr (s : ServerSlot) (data_size num_req_pkts : Nat) : PktHdr where
  req_type := s.req_type
  msg_size := data_size % 2 ^ kMsgSizeBits
  pkt_type := .resp
  pkt_num := (num_req_pkts - 1) % 2 ^ kPktNumBits
  req_num := s.cur_req_num % 2 ^ kReqNumBits

def enqueue_response (i : SlotIdx) (resp_msgbuf : MsgBuffer) (v : Server) : Option Server := do
  let s := v.sslot_arr i
  let m ← s.req_msgbuf
  let sav_num_req_pkts := m.num_pkts t
  let resp_msgbuf :=
    { resp_msgbuf with pkthdr_0 := respHdr s resp_msgbuf.data_size sav_num_req_pkts }
  guard s.tx_msgbuf.isNone
  guard (s.req_type ≠ kInvalidReqType)
  let v := { v with responses := v.responses ++ [(s.cur_req_num, resp_msgbuf)] }.modify i fun s =>
    { s with
      sav_num_req_pkts := sav_num_req_pkts
      req_msgbuf := none
      tx_msgbuf := some resp_msgbuf
      req_type := kInvalidReqType }
  v.enqueue_pkt_tx_burst_st t i 0

end Server

end Erpc

end Galois
