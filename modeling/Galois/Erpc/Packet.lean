import Galois.Effect.ByteMem

namespace Galois
set_option autoImplicit true
set_option relaxedAutoImplicit false

namespace Erpc

abbrev kMsgSizeBits : Nat := 24
abbrev kReqNumBits : Nat := 44
abbrev kPktNumBits : Nat := 14
abbrev kSessionCredits : Nat := 32
abbrev kSessionReqWindow : Nat := 8
abbrev kInvalidReqType : BitVec 8 := 255

/-- `HugeAlloc::kMaxClassSize`. -/
abbrev kMaxClassSize : Nat := 8 * 2 ^ 20

/-- `sizeof(pkthdr_t)`: the headroom, with its two more bytes, and 112 bits of fields. -/
def pkthdrSize (kHeadroom : Nat) : Nat := kHeadroom + 2 + 112 / 8

/-- `Rpc::kMaxMsgSize`. -/
def maxMsgSize (kMaxDataPerPkt kHeadroom : Nat) : Nat :=
  kMaxClassSize - kMaxClassSize / kMaxDataPerPkt * pkthdrSize kHeadroom

/-- The constants of a transport, with what `Rpc` asserts of them when it is compiled. -/
structure Transport where
  kMaxDataPerPkt : Nat
  kHeadroom : Nat
  data_pos : 0 < kMaxDataPerPkt
  pktNum : 2 * maxMsgSize kMaxDataPerPkt kHeadroom < 2 ^ kPktNumBits * kMaxDataPerPkt

/-- `IBTransport`, whose `kMTU` is 3840 bytes. -/
def infiniband : Transport where
  kMaxDataPerPkt := 3840 - pkthdrSize 0
  kHeadroom := 0
  data_pos := by decide
  pktNum := by decide

inductive PktType where
  | req
  | rfr
  | explCR
  | resp
deriving DecidableEq, Inhabited

/-- `pkthdr_t`, without the numbers that lead a packet to its session. -/
structure PktHdr where
  req_type : BitVec 8
  msg_size : Nat
  pkt_type : PktType
  pkt_num : Nat
  req_num : Nat
deriving DecidableEq, Inhabited

structure Packet extends PktHdr where
  data : Mem

/-- A message buffer with its zeroth header; the other headers are copies of this one. -/
structure MsgBuffer where
  pkthdr_0 : PktHdr
  max_data_size : Nat
  data_size : Nat
  buf : Mem

namespace Transport

variable (t : Transport)

def kMaxMsgSize : Nat := maxMsgSize t.kMaxDataPerPkt t.kHeadroom

def data_size_to_num_pkts (data_size : Nat) : Nat :=
  if data_size ≤ t.kMaxDataPerPkt then 1
  else (data_size + t.kMaxDataPerPkt - 1) / t.kMaxDataPerPkt

variable {t} {n k : Nat}

theorem kMaxMsgSize_lt : t.kMaxMsgSize < 2 ^ kMsgSizeBits := by
  have h : t.kMaxMsgSize ≤ kMaxClassSize := Nat.sub_le _ _
  exact Nat.lt_of_le_of_lt h (by decide)

theorem num_pkts_pos : 0 < t.data_size_to_num_pkts n := by
  have hpos := t.data_pos
  rw [data_size_to_num_pkts]
  split
  · exact Nat.one_pos
  · exact Nat.div_pos (by omega) hpos

theorem one_lt_num_pkts : 1 < t.data_size_to_num_pkts n ↔ t.kMaxDataPerPkt < n := by
  have hpos := t.data_pos
  rw [data_size_to_num_pkts]
  split
  · omega
  · next h =>
    rw [Nat.lt_iff_add_one_le, Nat.le_div_iff_mul_le hpos]
    omega

theorem num_pkts_eq_one : t.data_size_to_num_pkts n = 1 ↔ n ≤ t.kMaxDataPerPkt := by
  have hpos := num_pkts_pos (t := t) (n := n)
  have hone := one_lt_num_pkts (t := t) (n := n)
  omega

theorem le_num_pkts_mul : n ≤ t.data_size_to_num_pkts n * t.kMaxDataPerPkt := by
  have hpos := t.data_pos
  rw [data_size_to_num_pkts]
  split
  · next h => rwa [Nat.one_mul]
  · have hdiv := Nat.lt_div_mul_add (a := n + t.kMaxDataPerPkt - 1) hpos
    omega

/-- Requests and responses are so short that their packets have numbers of their own. -/
theorem num_pkts_le (h : n ≤ t.kMaxMsgSize) :
    t.data_size_to_num_pkts n ≤ 2 ^ (kPktNumBits - 1) := by
  have hpos := t.data_pos
  have hnum : 2 * t.kMaxMsgSize < 2 ^ kPktNumBits * t.kMaxDataPerPkt := t.pktNum
  rw [data_size_to_num_pkts]
  split
  · exact Nat.one_le_two_pow
  · rw [← Nat.lt_succ_iff, Nat.div_lt_iff_lt_mul hpos]
    simp only [kPktNumBits] at hnum ⊢
    omega

end Transport

namespace MsgBuffer

variable (t : Transport)

def num_pkts (m : MsgBuffer) : Nat := t.data_size_to_num_pkts m.data_size

def bytes (m : MsgBuffer) : List Byte := (List.range m.data_size).map m.buf

def pkthdr_n (m : MsgBuffer) (n : Nat) : PktHdr :=
  { m.pkthdr_0 with pkt_num := (m.pkthdr_0.pkt_num + n) % 2 ^ kPktNumBits }

/-- The `pkt_idx`-th packet, as the transport sends it. -/
def packet (m : MsgBuffer) (pkt_idx : Nat) : Packet :=
  { m.pkthdr_n pkt_idx with data := fun x => m.buf (pkt_idx * t.kMaxDataPerPkt + x) }

/-- `alloc_msg_buffer`; what it allocates is not cleared. -/
def alloc (garbage : Mem) (max_data_size : Nat) : MsgBuffer :=
  ⟨default, max_data_size, max_data_size, garbage⟩

/-- The message buffer around a received packet. -/
def fake (p : Packet) : MsgBuffer := ⟨p.toPktHdr, p.msg_size, p.msg_size, p.data⟩

def resize_msg_buffer (m : MsgBuffer) (new_data_size : Nat) : Option MsgBuffer := do
  guard (new_data_size ≤ m.max_data_size)
  some { m with data_size := new_data_size }

def copy_data_to_msgbuf (m : MsgBuffer) (pkt_idx : Nat) (p : Packet) : MsgBuffer :=
  let offset := pkt_idx * t.kMaxDataPerPkt
  let to_copy := min t.kMaxDataPerPkt (p.msg_size - offset)
  { m with buf := m.buf.store offset fun x : Fin to_copy => p.data x }

/-- The first `k` packets of the message `m` have been copied into `b`. -/
structure Received (m b : MsgBuffer) (k : Nat) : Prop where
  size : b.data_size = m.data_size
  data : ∀ x < m.data_size, x < k * t.kMaxDataPerPkt → b.buf x = m.buf x

variable {t} {m b : MsgBuffer} {k : Nat}

@[simp] theorem copy_data_size (p : Packet) :
    (b.copy_data_to_msgbuf t k p).data_size = b.data_size := rfl

@[simp] theorem copy_max_data_size (p : Packet) :
    (b.copy_data_to_msgbuf t k p).max_data_size = b.max_data_size := rfl

@[simp] theorem copy_pkthdr_0 (p : Packet) :
    (b.copy_data_to_msgbuf t k p).pkthdr_0 = b.pkthdr_0 := rfl

theorem Received.nothing (h : b.data_size = m.data_size) : Received t m b 0 :=
  ⟨h, fun x _ hx => absurd hx (by omega)⟩

theorem Received.copy (h : Received t m b k) (hsize : m.pkthdr_0.msg_size = m.data_size) :
    Received t m (b.copy_data_to_msgbuf t k (m.packet t k)) (k + 1) := by
  refine ⟨h.size, fun x hx hk => ?_⟩
  simp only [copy_data_to_msgbuf, Mem.store, packet, pkthdr_n, hsize]
  rw [Nat.add_mul, Nat.one_mul] at hk
  split
  · next hin =>
    congr 1
    omega
  · next hout => exact h.data x hx (by omega)

theorem Received.bytes_eq (h : Received t m b (m.num_pkts t)) : b.bytes = m.bytes := by
  rw [bytes, bytes, h.size]
  apply List.map_congr_left
  intro x hx
  rw [List.mem_range] at hx
  exact h.data x hx (Nat.lt_of_lt_of_le hx Transport.le_num_pkts_mul)

theorem resize_yields (h : n ≤ m.max_data_size) :
    m.resize_msg_buffer n = some { m with data_size := n } := by
  rw [resize_msg_buffer, guard, if_pos h]
  rfl

end MsgBuffer

end Erpc

end Galois
