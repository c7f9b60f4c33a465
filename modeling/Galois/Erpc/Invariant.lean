import Galois.Erpc.Datapath
import Mathlib.Algebra.BigOperators.Fin
import Mathlib.Algebra.BigOperators.Group.Finset.Basic

namespace Galois
set_option autoImplicit true
set_option relaxedAutoImplicit false

namespace Erpc

/-- The requests and the responses that are known for the request numbers, and the size of the
response buffers. -/
structure Known where
  respSize : Nat
  request : Nat → MsgBuffer → Prop
  response : Nat → MsgBuffer → Prop

structure Known.Le (K K' : Known) : Prop where
  respSize : K'.respSize = K.respSize
  request : ∀ r m, K.request r m → K'.request r m
  response : ∀ r q, K.response r q → K'.response r q

variable {τ : Type} {t : Transport} {K : Known}

/-- The request with number `r`, as its slot holds it. -/
structure IsRequest (t : Transport) (K : Known) (r : Nat) (m : MsgBuffer) : Prop where
  known : K.request r m
  number : kSessionReqWindow ≤ r
  size : m.data_size ≤ t.kMaxMsgSize
  req_type : m.pkthdr_0.req_type ≠ kInvalidReqType
  msg_size : m.pkthdr_0.msg_size = m.data_size
  pkt_type : m.pkthdr_0.pkt_type = .req
  pkt_num : m.pkthdr_0.pkt_num = 0
  req_num : m.pkthdr_0.req_num = r % 2 ^ kReqNumBits

/-- The response to the request with number `r`, which had `n` packets. -/
structure IsResponse (t : Transport) (K : Known) (r n : Nat) (q : MsgBuffer) : Prop where
  known : K.response r q
  size : q.data_size ≤ t.kMaxMsgSize
  fits : q.data_size ≤ K.respSize
  msg_size : q.pkthdr_0.msg_size = q.data_size
  pkt_type : q.pkthdr_0.pkt_type = .resp
  pkt_num : q.pkthdr_0.pkt_num = n - 1
  req_num : q.pkthdr_0.req_num = r % 2 ^ kReqNumBits

/-- How far the server is with the request of its slot, whose message is `m`. -/
inductive ServerPhase (t : Transport) (K : Known) (m : MsgBuffer) (v : ServerSlot) : Prop
  | fresh (number : v.cur_req_num < kSessionReqWindow) (req : v.req_msgbuf = none)
      (type : v.req_type = kInvalidReqType) (resp : v.tx_msgbuf = none)
  | receiving (b : MsgBuffer) (request : IsRequest t K v.cur_req_num m)
      (req : v.req_msgbuf = some b) (type : v.req_type = kInvalidReqType)
      (resp : v.tx_msgbuf = none) (received : m.Received t b v.num_rx) (pos : 0 < v.num_rx)
      (lt : v.num_rx < m.num_pkts t)
  | called (b : MsgBuffer) (request : IsRequest t K v.cur_req_num m) (req : v.req_msgbuf = some b)
      (type : v.req_type ≠ kInvalidReqType) (resp : v.tx_msgbuf = none)
      (size : b.data_size = m.data_size) (all : v.num_rx = m.num_pkts t)
  | answered (q : MsgBuffer) (request : IsRequest t K v.cur_req_num m) (req : v.req_msgbuf = none)
      (type : v.req_type = kInvalidReqType) (resp : v.tx_msgbuf = some q)
      (response : IsResponse t K v.cur_req_num (m.num_pkts t) q)
      (sav : v.sav_num_req_pkts = m.num_pkts t) (ge : m.num_pkts t ≤ v.num_rx)
      (le : v.num_rx ≤ wire_pkts t m q)

/-- The server awaits no packet and no response for the slot. -/
structure Settled (v : ServerSlot) : Prop where
  req : v.req_msgbuf = none
  type : v.req_type = kInvalidReqType

/-- How far the client is with the request of its slot. Here `mc` is the request if the server has
seen nothing of it yet, and `mv` is the request that the server's slot is about. -/
inductive ClientPhase (t : Transport) (K : Known) (mc mv : MsgBuffer) (c : ClientSlot τ)
    (v : ServerSlot) : Prop
  | idle (tx : c.tx_msgbuf = none) (same : v.cur_req_num = c.cur_req_num) (settled : Settled v)
      (sent : c.num_tx = c.num_rx)
  | unseen (tx : c.tx_msgbuf = some mc) (request : IsRequest t K c.cur_req_num mc)
      (behind : v.cur_req_num + kSessionReqWindow = c.cur_req_num) (settled : Settled v)
      (rx : c.num_rx = 0) (le : c.num_tx ≤ mc.num_pkts t)
  | requesting (tx : c.tx_msgbuf = some mv) (request : IsRequest t K c.cur_req_num mv)
      (same : v.cur_req_num = c.cur_req_num) (lt : c.num_rx < mv.num_pkts t)
      (le : c.num_tx ≤ mv.num_pkts t) (rx : c.num_rx ≤ v.num_rx)
  | reading (q : MsgBuffer) (tx : c.tx_msgbuf = some mv) (request : IsRequest t K c.cur_req_num mv)
      (same : v.cur_req_num = c.cur_req_num) (resp : v.tx_msgbuf = some q)
      (large : t.kMaxDataPerPkt < q.data_size) (ge : mv.num_pkts t ≤ c.num_rx)
      (lt : c.num_rx < wire_pkts t mv q) (le : c.num_tx ≤ wire_pkts t mv q)
      (rx : c.num_rx ≤ v.num_rx)
      (hdr : c.resp_msgbuf.pkthdr_0.req_num = c.cur_req_num % 2 ^ kReqNumBits)
      (received : q.Received t c.resp_msgbuf (resp_ntoi c.num_rx (mv.num_pkts t)))

/-- A packet of slot `i` on its way to the server, for the request with number `n`. -/
structure ToServer (t : Transport) (i : SlotIdx) (mc mv : MsgBuffer) (r : Nat) (v : ServerSlot)
    (p : Packet) (n : Nat) : Prop where
  started : kSessionReqWindow ≤ n
  slot : n % kSessionReqWindow = i
  le : n ≤ r
  req_num : p.req_num = n % 2 ^ kReqNumBits
  pkt_type : p.pkt_type = .req ∨ p.pkt_type = .rfr
  current : n = v.cur_req_num → (∃ k < mv.num_pkts t, p = mv.packet t k) ∨
    p.pkt_type = .rfr ∧ ∃ q, v.tx_msgbuf = some q ∧ mv.num_pkts t ≤ p.pkt_num ∧
      p.pkt_num < wire_pkts t mv q
  ahead : n = v.cur_req_num + kSessionReqWindow → ∃ k < mc.num_pkts t, p = mc.packet t k

/-- A packet of slot `i` on its way to the client, for the request with number `n`. -/
structure ToClient (t : Transport) (i : SlotIdx) (m : MsgBuffer) (v : ServerSlot) (p : Packet)
    (n : Nat) : Prop where
  started : kSessionReqWindow ≤ n
  slot : n % kSessionReqWindow = i
  le : n ≤ v.cur_req_num
  req_num : p.req_num = n % 2 ^ kReqNumBits
  pkt_type : p.pkt_type = .explCR ∨ p.pkt_type = .resp
  current : n = v.cur_req_num → p.pkt_num < v.num_rx ∧
    ((p.pkt_type = .explCR ∧ p.pkt_num + 1 < m.num_pkts t) ∨
      ∃ q k, v.tx_msgbuf = some q ∧ k < q.num_pkts t ∧ p = q.packet t k)

/-- The packets of a slot in the wheel are packets of its request, sent and not acknowledged. -/
structure InWheel (t : Transport) (i : SlotIdx) (c : ClientSlot τ) (wheel : List (SlotIdx × Nat)) :
    Prop where
  range : ∀ k, (i, k) ∈ wheel → c.num_rx ≤ k ∧ k < c.num_tx
  request : ∀ k, (i, k) ∈ wheel → ∀ m, c.tx_msgbuf = some m → k < m.num_pkts t
  flag : ∀ x, c.in_wheel x = true ↔ ∃ k, (i, k) ∈ wheel ∧ k % kSessionCredits = x
  count : c.wheel_count = wheel.countP fun e => e.1 = i

/-- Both ends of a slot, and what is under way between them. -/
structure Slot (t : Transport) (K : Known) (i : SlotIdx) (c : ClientSlot τ) (v : ServerSlot)
    (toServer toClient : List Packet) (wheel : List (SlotIdx × Nat)) (mc mv : MsgBuffer) :
    Prop where
  number : c.cur_req_num % kSessionReqWindow = i
  counts : c.num_rx ≤ c.num_tx
  room : c.tx_msgbuf.isSome → K.respSize ≤ c.resp_msgbuf.max_data_size
  tag : c.tx_msgbuf.isSome → c.tag.isSome
  client : ClientPhase t K mc mv c v
  server : ServerPhase t K mv v
  toServer : ∀ p ∈ toServer, p.req_num % kSessionReqWindow = i →
    ∃ n, ToServer t i mc mv c.cur_req_num v p n
  toClient : ∀ p ∈ toClient, p.req_num % kSessionReqWindow = i → ∃ n, ToClient t i mv v p n
  inWheel : InWheel t i c wheel

/-- The credits, and the lists of slots that the client keeps. -/
structure Lists (t : Transport) (K : Known) (c : Client τ) : Prop where
  credits : c.credits + ∑ i, ((c.sslot_arr i).num_tx - (c.sslot_arr i).num_rx) = kSessionCredits
  wheel : c.wheel.Nodup
  free_nodup : c.sslot_free_vec.Nodup
  free : ∀ i, i ∈ c.sslot_free_vec ↔ (c.sslot_arr i).tx_msgbuf = none
  active_nodup : c.active_rpcs.Nodup
  active : ∀ i, i ∈ c.active_rpcs ↔ (c.sslot_arr i).tx_msgbuf ≠ none
  stalled_nodup : c.stallq.Nodup
  stalled : ∀ i ∈ c.stallq, (c.sslot_arr i).tx_msgbuf ≠ none ∧ (c.sslot_arr i).num_tx = 0
  waiting : ∀ a ∈ c.enq_req_backlog, a.req_type ≠ kInvalidReqType ∧
    a.req_msgbuf.data_size ≤ t.kMaxMsgSize ∧ K.respSize ≤ a.resp_msgbuf.max_data_size

/-- What also holds whenever the client is not inside one of its functions: requests wait only for
a slot, and slots only for credits. -/
structure Ready (c : Client τ) : Prop where
  backlog : c.enq_req_backlog ≠ [] → c.sslot_free_vec = []
  stalled : ∀ i, (c.sslot_arr i).tx_msgbuf ≠ none →
    (c.sslot_arr i).num_tx = (c.sslot_arr i).num_rx → i ∈ c.stallq

/-- The two clients have the same requests, and differ in how far these are. -/
structure SameRequests (c c' : Client τ) : Prop where
  tx_msgbuf : ∀ i, (c'.sslot_arr i).tx_msgbuf = (c.sslot_arr i).tx_msgbuf
  cur_req_num : ∀ i, (c'.sslot_arr i).cur_req_num = (c.sslot_arr i).cur_req_num
  tag : ∀ i, (c'.sslot_arr i).tag = (c.sslot_arr i).tag
  enq_req_backlog : c'.enq_req_backlog = c.enq_req_backlog
  started : c'.started = c.started
  finished : c'.finished = c.finished

theorem SameRequests.refl (c : Client τ) : SameRequests c c :=
  ⟨fun _ => rfl, fun _ => rfl, fun _ => rfl, rfl, rfl, rfl⟩

theorem SameRequests.trans {c c' c'' : Client τ} (h : SameRequests c c')
    (h' : SameRequests c' c'') : SameRequests c c'' :=
  ⟨fun i => (h'.tx_msgbuf i).trans (h.tx_msgbuf i),
    fun i => (h'.cur_req_num i).trans (h.cur_req_num i), fun i => (h'.tag i).trans (h.tag i),
    h'.enq_req_backlog.trans h.enq_req_backlog, h'.started.trans h.started,
    h'.finished.trans h.finished⟩

/-- What holds in every state that a session reaches. -/
structure Inv (t : Transport) (K : Known) (c : Client τ) (v : Server) : Prop where
  slot : ∀ i, ∃ mc mv, Slot t K i (c.sslot_arr i) (v.sslot_arr i) c.wire v.wire c.wheel mc mv
  lists : Lists t K c

section

variable {K' : Known} {r n : Nat} {m q mc mv : MsgBuffer} {i : SlotIdx} {c : Client τ}

theorem IsRequest.mono (h : IsRequest t K r m) (hK : K.Le K') : IsRequest t K' r m :=
  { h with known := hK.request r m h.known }

theorem IsResponse.mono (h : IsResponse t K r n q) (hK : K.Le K') : IsResponse t K' r n q :=
  { h with known := hK.response r q h.known, fits := hK.respSize ▸ h.fits }

theorem ServerPhase.mono {u : ServerSlot} (h : ServerPhase t K m u) (hK : K.Le K') :
    ServerPhase t K' m u := by
  cases h with
  | fresh number req type resp => exact .fresh number req type resp
  | receiving b request req type resp received pos lt =>
    exact .receiving b (request.mono hK) req type resp received pos lt
  | called b request req type resp size all =>
    exact .called b (request.mono hK) req type resp size all
  | answered q request req type resp response sav ge le =>
    exact .answered q (request.mono hK) req type resp (response.mono hK) sav ge le

theorem ClientPhase.mono {s : ClientSlot τ} {u : ServerSlot} (h : ClientPhase t K mc mv s u)
    (hK : K.Le K') : ClientPhase t K' mc mv s u := by
  cases h with
  | idle tx same settled sent => exact .idle tx same settled sent
  | unseen tx request behind settled rx le =>
    exact .unseen tx (request.mono hK) behind settled rx le
  | requesting tx request same lt le rx => exact .requesting tx (request.mono hK) same lt le rx
  | reading q tx request same resp large ge lt le rx hdr received =>
    exact .reading q tx (request.mono hK) same resp large ge lt le rx hdr received

theorem Inv.mono {v : Server} (h : Inv t K c v) (hK : K.Le K') : Inv t K' c v := by
  refine ⟨fun i => ?_, { h.lists with waiting := fun a ha => ?_ }⟩
  · obtain ⟨mc, mv, hs⟩ := h.slot i
    exact ⟨mc, mv, { hs with
      room := hK.respSize ▸ hs.room
      client := hs.client.mono hK
      server := hs.server.mono hK }⟩
  · rw [hK.respSize]
    exact h.lists.waiting a ha

end

theorem req_num_slot (n : Nat) : n % 2 ^ kReqNumBits % kSessionReqWindow = n % kSessionReqWindow :=
  Nat.mod_mod_of_dvd n ⟨2 ^ 41, rfl⟩

/-- A request number in a header is that of the slot only if it is the same one. -/
theorem number_eq {n r : Nat} (hle : n ≤ r) (h : n % 2 ^ kReqNumBits = r) : n = r := by
  have hmod := Nat.mod_le n (2 ^ kReqNumBits)
  omega

namespace IsRequest

variable {r k : Nat} {m : MsgBuffer}

theorem pkts_le (h : IsRequest t K r m) : m.num_pkts t ≤ 2 ^ (kPktNumBits - 1) :=
  Transport.num_pkts_le h.size

theorem packet_pkt_num (h : IsRequest t K r m) (hk : k < m.num_pkts t) :
    (m.packet t k).pkt_num = k := by
  have hle := h.pkts_le
  simp only [MsgBuffer.packet, MsgBuffer.pkthdr_n, h.pkt_num, Nat.zero_add]
  apply Nat.mod_eq_of_lt
  simp only [kPktNumBits] at hle ⊢
  omega

theorem packet_req_num (h : IsRequest t K r m) : (m.packet t k).req_num = r % 2 ^ kReqNumBits :=
  h.req_num

theorem packet_pkt_type (h : IsRequest t K r m) : (m.packet t k).pkt_type = .req := h.pkt_type

theorem packet_msg_size (h : IsRequest t K r m) : (m.packet t k).msg_size = m.data_size :=
  h.msg_size

end IsRequest

namespace IsResponse

variable {r n k : Nat} {q : MsgBuffer}

theorem pkts_le (h : IsResponse t K r n q) : q.num_pkts t ≤ 2 ^ (kPktNumBits - 1) :=
  Transport.num_pkts_le h.size

theorem packet_pkt_num (h : IsResponse t K r n q) (hn : n ≤ 2 ^ (kPktNumBits - 1))
    (hk : k < q.num_pkts t) : (q.packet t k).pkt_num = n - 1 + k := by
  have hle := h.pkts_le
  simp only [MsgBuffer.packet, MsgBuffer.pkthdr_n, h.pkt_num]
  apply Nat.mod_eq_of_lt
  simp only [kPktNumBits] at hn hle ⊢
  omega

theorem packet_req_num (h : IsResponse t K r n q) :
    (q.packet t k).req_num = r % 2 ^ kReqNumBits := h.req_num

theorem packet_pkt_type (h : IsResponse t K r n q) : (q.packet t k).pkt_type = .resp :=
  h.pkt_type

theorem packet_msg_size (h : IsResponse t K r n q) :
    (q.packet t k).msg_size = q.data_size := h.msg_size

end IsResponse

end Erpc

end Galois
