import Galois.Erpc.Responses

namespace Galois
set_option autoImplicit true
set_option relaxedAutoImplicit false

namespace Erpc

variable {τ : Type} {t : Transport} {K : Known} {c : Client τ} {v v' : Server} {i j : SlotIdx}
  {s : ClientSlot τ} {u u' : ServerSlot} {b m q mc mv : MsgBuffer} {p : Packet} {n k : Nat}
  {toServer toClient toClient' : List Packet} {wheel : List (SlotIdx × Nat)}

theorem ClientPhase.server (h : ClientPhase t K mc mv s u) (hcur : u'.cur_req_num = u.cur_req_num)
    (hsettled : Settled u → Settled u')
    (htx : ∀ q, u.tx_msgbuf = some q → u'.tx_msgbuf = some q) (hrx : u.num_rx ≤ u'.num_rx) :
    ClientPhase t K mc mv s u' := by
  cases h with
  | idle tx same settled sent => exact .idle tx (hcur.trans same) (hsettled settled) sent
  | unseen tx request behind settled rx le =>
    exact .unseen tx request (by rw [hcur]; exact behind) (hsettled settled) rx le
  | requesting tx request same lt le rx =>
    exact .requesting tx request (hcur.trans same) lt le (rx.trans hrx)
  | reading q tx request same resp large ge lt le rx hdr received =>
    exact .reading q tx request (hcur.trans same) (htx q resp) large ge lt le (rx.trans hrx) hdr
      received

theorem Slot.serve (hs : Slot t K i s u toServer toClient wheel mc mv)
    (hcur : u'.cur_req_num = u.cur_req_num) (hphase : ServerPhase t K mv u')
    (hsettled : Settled u → Settled u')
    (htx : ∀ q, u.tx_msgbuf = some q → u'.tx_msgbuf = some q) (hrx : u.num_rx ≤ u'.num_rx)
    (hnew : ∀ p ∈ toClient', p ∈ toClient ∨ ∃ n, ToClient t i mv u' p n) :
    Slot t K i s u' toServer toClient' wheel mc mv := by
  refine ⟨hs.number, hs.counts, hs.room, hs.tag, hs.client.server hcur hsettled htx hrx, hphase,
    fun p hp hi => ?_, fun p hp hi => ?_, hs.inWheel⟩
  · obtain ⟨n, hn⟩ := hs.toServer p hp hi
    refine ⟨n, hn.started, hn.slot, hn.le, hn.req_num, hn.pkt_type, fun he => ?_, fun he => ?_⟩
    · rw [hcur] at he
      refine (hn.current he).imp_right fun hrfr => ⟨hrfr.1, ?_⟩
      obtain ⟨q, hq, hle, hlt⟩ := hrfr.2
      exact ⟨q, htx q hq, hle, hlt⟩
    · rw [hcur] at he
      exact hn.ahead he
  · obtain hold | hnew := hnew p hp
    · obtain ⟨n, hn⟩ := hs.toClient p hold hi
      refine ⟨n, hn.started, hn.slot, by rw [hcur]; exact hn.le, hn.req_num, hn.pkt_type,
        fun he => ?_⟩
      rw [hcur] at he
      obtain ⟨hlt, hkind⟩ := hn.current he
      refine ⟨Nat.lt_of_lt_of_le hlt hrx, hkind.imp_right ?_⟩
      rintro ⟨q, k, hq, hk⟩
      exact ⟨q, k, htx q hq, hk⟩
    · exact hnew

theorem Slot.accept (hs : Slot t K i s u toServer toClient wheel mc mv)
    (htx : s.tx_msgbuf = some mc) (hreq : IsRequest t K s.cur_req_num mc)
    (hbehind : u.cur_req_num + kSessionReqWindow = s.cur_req_num) (hrx : s.num_rx = 0)
    (hle : s.num_tx ≤ mc.num_pkts t) (hcur : u'.cur_req_num = s.cur_req_num)
    (hphase : ServerPhase t K mc u')
    (hnew : ∀ p ∈ toClient', p ∈ toClient ∨ ∃ n, ToClient t i mc u' p n) :
    Slot t K i s u' toServer toClient' wheel mc mc := by
  simp only [kSessionReqWindow] at hbehind
  have hpos : 0 < mc.num_pkts t := Transport.num_pkts_pos
  refine ⟨hs.number, hs.counts, hs.room, hs.tag,
    .requesting htx hreq hcur (by omega) hle (by omega), hphase, fun p hp hi => ?_,
    fun p hp hi => ?_, hs.inWheel⟩
  · obtain ⟨n, hn⟩ := hs.toServer p hp hi
    have hlast := hn.le
    refine ⟨n, hn.started, hn.slot, hn.le, hn.req_num, hn.pkt_type, fun he => ?_, fun he => ?_⟩
    · exact .inl (hn.ahead (by simp only [kSessionReqWindow]; omega))
    · simp only [kSessionReqWindow] at he
      omega
  · obtain hold | hnew := hnew p hp
    · obtain ⟨n, hn⟩ := hs.toClient p hold hi
      have hlast := hn.le
      exact ⟨n, hn.started, hn.slot, by omega, hn.req_num, hn.pkt_type, fun he => by omega⟩
    · exact hnew

theorem Inv.server (h : Inv t K c v) (i : SlotIdx)
    (others : ∀ j, j ≠ i → v'.sslot_arr j = v.sslot_arr j)
    (wire : ∀ p ∈ v'.wire, p ∈ v.wire ∨ p.req_num % kSessionReqWindow = i)
    (slot : ∃ mc mv, Slot t K i (c.sslot_arr i) (v'.sslot_arr i) c.wire v'.wire c.wheel mc mv) :
    Inv t K c v' := by
  refine ⟨fun j => ?_, h.lists⟩
  by_cases hj : j = i
  · subst hj
    exact slot
  · obtain ⟨mc, mv, hs⟩ := h.slot j
    rw [others j hj]
    refine ⟨mc, mv, hs.frame (fun p hp => .inl hp) (fun p hp => ?_) hs.inWheel⟩
    cases wire p hp with
    | inl hold => exact .inl hold
    | inr hi =>
      refine .inr fun hj' => hj (Fin.ext ?_)
      rw [← hj', hi]

@[simp] theorem server_modify_self (f : ServerSlot → ServerSlot) :
    (v.modify i f).sslot_arr i = f (v.sslot_arr i) := Function.update_self ..

theorem server_modify_other (f : ServerSlot → ServerSlot) (hj : j ≠ i) :
    (v.modify i f).sslot_arr j = v.sslot_arr j := Function.update_of_ne hj ..

theorem Slot.ahead (hs : Slot t K i s u toServer toClient wheel mc mv) :
    u.cur_req_num % kSessionReqWindow = i ∧ (s.cur_req_num = u.cur_req_num ∨
      s.cur_req_num = u.cur_req_num + kSessionReqWindow ∧ s.tx_msgbuf = some mc ∧
        IsRequest t K s.cur_req_num mc ∧ Settled u ∧ s.num_rx = 0 ∧
        s.num_tx ≤ mc.num_pkts t) := by
  have hnumber := hs.number
  cases hs.client with
  | idle tx same => exact ⟨by rw [same]; exact hnumber, .inl same.symm⟩
  | unseen tx request behind settled rx le =>
    refine ⟨?_, .inr ⟨behind.symm, tx, request, settled, rx, le⟩⟩
    rw [← behind, Nat.add_mod_right] at hnumber
    exact hnumber
  | requesting tx request same => exact ⟨by rw [same]; exact hnumber, .inl same.symm⟩
  | reading q tx request same => exact ⟨by rw [same]; exact hnumber, .inl same.symm⟩

theorem Slot.arrives (hs : Slot t K i s u toServer toClient wheel mc mv)
    (hp : p ∈ toServer) (hi : p.req_num % kSessionReqWindow = i) :
    p.req_num < u.cur_req_num ∨ (p.req_num = u.cur_req_num ∧ ∃ n, n = u.cur_req_num ∧
      ToServer t i mc mv s.cur_req_num u p n) ∨
    (p.req_num = u.cur_req_num + kSessionReqWindow ∧ s.cur_req_num = p.req_num ∧
      ∃ k < mc.num_pkts t, p = mc.packet t k) := by
  obtain ⟨n, hn⟩ := hs.toServer p hp hi
  obtain ⟨hslot, hahead⟩ := hs.ahead
  have hle := hn.le
  have hnum := hn.req_num
  have hnslot := hn.slot
  have hstarted := hn.started
  simp only [kReqNumBits, kSessionReqWindow] at *
  by_cases hlt : p.req_num < u.cur_req_num
  · exact .inl hlt
  · have hmod := Nat.mod_le n (2 ^ 44)
    by_cases heq : p.req_num = u.cur_req_num
    · exact .inr (.inl ⟨heq, n, by omega, hn⟩)
    · have hn8 : n = u.cur_req_num + 8 := by omega
      exact .inr (.inr ⟨by omega, by omega, hn.ahead hn8⟩)

structure Serves (K : Known) (i : SlotIdx) (v v' : Server) : Prop where
  responses : v'.responses = v.responses
  others : ∀ j, j ≠ i → v'.sslot_arr j = v.sslot_arr j
  calls : (v'.calls = v.calls ∧ ((v.sslot_arr i).cur_req_num < (v'.sslot_arr i).cur_req_num ∧
        (v'.sslot_arr i).req_type = kInvalidReqType ∨
      (v'.sslot_arr i).cur_req_num = (v.sslot_arr i).cur_req_num ∧
        (v'.sslot_arr i).req_type = (v.sslot_arr i).req_type ∧
        (v'.sslot_arr i).tx_msgbuf = (v.sslot_arr i).tx_msgbuf)) ∨
    ∃ m b, K.request (v'.sslot_arr i).cur_req_num m ∧
      v'.calls = v.calls ++ [⟨(v'.sslot_arr i).cur_req_num, (v'.sslot_arr i).req_type, b⟩] ∧
      (v'.sslot_arr i).req_type = m.pkthdr_0.req_type ∧ b.bytes = m.bytes ∧
      (v'.sslot_arr i).req_type ≠ kInvalidReqType ∧
      ((v.sslot_arr i).cur_req_num < (v'.sslot_arr i).cur_req_num ∨
        (v.sslot_arr i).cur_req_num = (v'.sslot_arr i).cur_req_num ∧
          (v.sslot_arr i).req_type = kInvalidReqType ∧ (v.sslot_arr i).tx_msgbuf = none)

theorem Serves.refl (i : SlotIdx) (v : Server) : Serves K i v v :=
  ⟨rfl, fun _ _ => rfl, .inl ⟨rfl, .inr ⟨rfl, rfl, rfl⟩⟩⟩

/-- A packet that the server does not find to be early or late. -/
def Timely (u : ServerSlot) (p : Packet) : Prop :=
  p.req_num = u.cur_req_num ∧ p.pkt_num ≤ u.num_rx ∨
    p.req_num = u.cur_req_num + kSessionReqWindow ∧ p.pkt_num = 0

def Replied (i : SlotIdx) (p : Packet) (v : Server) : Prop :=
  (∃ r ∈ v.wire, r.req_num = p.req_num ∧ r.pkt_num = p.pkt_num) ∨
    (v.sslot_arr i).cur_req_num = p.req_num ∧ (v.sslot_arr i).req_type ≠ kInvalidReqType ∧
      p.pkt_num + 1 = (v.sslot_arr i).num_rx

theorem Inv.reply (h : Inv t K c v) (hq : (v.sslot_arr i).tx_msgbuf = some q)
    (hk : k < q.num_pkts t)
    (hrx : (v.sslot_arr i).sav_num_req_pkts - 1 + k < (v.sslot_arr i).num_rx) :
    Yields (v.enqueue_pkt_tx_burst_st t i k) fun v' =>
      v' = { v with wire := v.wire ++ [q.packet t k] } ∧ Inv t K c v' ∧ Serves K i v v' ∧
      ∃ r ∈ v'.wire, r.req_num = (v.sslot_arr i).cur_req_num % 2 ^ kReqNumBits ∧
        r.pkt_num = (v.sslot_arr i).sav_num_req_pkts - 1 + k := by
  obtain ⟨mc, mv, hs⟩ := h.slot i
  obtain ⟨hreq, -, hresp, hsav, -, -⟩ := hs.server.response hq
  obtain ⟨hslot, -⟩ := hs.ahead
  have hpkt := hresp.packet_pkt_num hreq.pkts_le hk
  rw [hsav] at hrx ⊢
  have hnew : ToClient t i mv (v.sslot_arr i) (q.packet t k) (v.sslot_arr i).cur_req_num :=
    ⟨hreq.number, hslot, Nat.le_refl _, hresp.packet_req_num, .inr hresp.packet_pkt_type,
      fun _ => ⟨by rw [hpkt]; exact hrx, .inr ⟨q, k, hq, hk, rfl⟩⟩⟩
  rw [Server.enqueue_pkt_tx_burst_st, hq, Option.bind_eq_bind, Option.bind_some]
  refine Yields.check hk (Yields.ret ⟨rfl, ?_,
    ⟨rfl, fun _ _ => rfl, .inl ⟨rfl, .inr ⟨rfl, rfl, rfl⟩⟩⟩, q.packet t k, ?_,
    hresp.packet_req_num, hpkt⟩)
  · refine h.server i (fun _ _ => rfl) (fun p hp => ?_) ⟨mc, mv, hs.serve rfl hs.server id
      (fun _ hq => hq) (Nat.le_refl _) fun p hp => ?_⟩
    · rw [List.mem_append, List.mem_singleton] at hp
      refine hp.imp_right ?_
      rintro rfl
      rw [hresp.packet_req_num, req_num_slot, hslot]
    · rw [List.mem_append, List.mem_singleton] at hp
      refine hp.imp_right ?_
      rintro rfl
      exact ⟨_, hnew⟩
  · exact List.mem_append_right _ (List.mem_singleton_self _)

theorem ServerPhase.request (h : ServerPhase t K m u) (hnum : kSessionReqWindow ≤ u.cur_req_num) :
    IsRequest t K u.cur_req_num m := by
  cases h with
  | fresh number => omega
  | receiving b request => exact request
  | called b request => exact request
  | answered q request => exact request

structure CalledWith (t : Transport) (K : Known) (m : MsgBuffer) (r : Nat) (u : ServerSlot)
    (b : MsgBuffer) : Prop where
  request : IsRequest t K r m
  number : u.cur_req_num = r
  req : u.req_msgbuf = some b
  type : u.req_type = kInvalidReqType
  resp : u.tx_msgbuf = none
  received : m.Received t b (m.num_pkts t)
  all : u.num_rx = m.num_pkts t

theorem Inv.callHandler {r : Nat} {w : Server} (h : Inv t K c v)
    (hcalls : w.calls = v.calls) (hresponses : w.responses = v.responses)
    (hothers : ∀ j, j ≠ i → w.sslot_arr j = v.sslot_arr j) (hwire : w.wire = v.wire)
    (hwith : CalledWith t K m r (w.sslot_arr i) b)
    (hslot : ∀ u', u'.cur_req_num = r → u'.num_rx = m.num_pkts t → ServerPhase t K m u' →
      ∃ mc, Slot t K i (c.sslot_arr i) u' c.wire v.wire c.wheel mc m)
    (hfresh : (v.sslot_arr i).cur_req_num < r ∨ (v.sslot_arr i).cur_req_num = r ∧
      (v.sslot_arr i).req_type = kInvalidReqType ∧ (v.sslot_arr i).tx_msgbuf = none) :
    Yields (w.callHandler i m.pkthdr_0.req_type) fun v' => Inv t K c v' ∧ Serves K i v v' ∧
      (v'.sslot_arr i).cur_req_num = r ∧ (v'.sslot_arr i).req_type ≠ kInvalidReqType ∧
      (v'.sslot_arr i).num_rx = m.num_pkts t := by
  have hreq := hwith.request
  rw [Server.callHandler]
  refine Yields.check hwith.type ?_
  rw [hwith.req, hwith.number, Option.bind_eq_bind, Option.bind_some]
  set v' : Server := { w with calls := w.calls ++ [Call.mk r m.pkthdr_0.req_type b] }.modify i
    fun s => { s with req_type := m.pkthdr_0.req_type } with hv'
  have hself : v'.sslot_arr i = { w.sslot_arr i with req_type := m.pkthdr_0.req_type } :=
    server_modify_self _
  have hother : ∀ j, j ≠ i → v'.sslot_arr j = v.sslot_arr j := fun j hj =>
    (Function.update_of_ne hj ..).trans (hothers j hj)
  have hnumber : (v'.sslot_arr i).cur_req_num = r := by
    rw [hself]
    exact hwith.number
  have htype : (v'.sslot_arr i).req_type = m.pkthdr_0.req_type := by rw [hself]
  refine Yields.ret ⟨?_, ⟨hresponses, hother, .inr ⟨m, b, ?_, ?_, htype, ?_, ?_, ?_⟩⟩, hnumber,
    ?_, ?_⟩
  · have hslot' := hslot (v'.sslot_arr i) hnumber (by rw [hself]; exact hwith.all) (by
      rw [hself]
      refine .called b ?_ hwith.req hreq.req_type hwith.resp hwith.received.size hwith.all
      rw [← hwith.number] at hreq
      exact hreq)
    obtain ⟨mc, hs⟩ := hslot'
    refine h.server i hother (fun p hp => .inl ?_) ⟨mc, m, ?_⟩
    · rw [← hwire]
      exact hp
    · rw [← hwire] at hs
      exact hs
  · rw [hnumber]
    exact hreq.known
  · rw [hnumber, htype, ← hcalls]
    rfl
  · exact hwith.received.bytes_eq
  · rw [htype]
    exact hreq.req_type
  · rw [hnumber]
    exact hfresh
  · rw [htype]
    exact hreq.req_type
  · rw [hself]
    exact hwith.all

theorem Inv.answerAgain (h : Inv t K c v)
    (hs : Slot t K i (c.sslot_arr i) (v.sslot_arr i) c.wire v.wire c.wheel mc mv)
    (hreq : IsRequest t K (v.sslot_arr i).cur_req_num mv)
    (hcur : (mv.packet t k).req_num = (v.sslot_arr i).cur_req_num)
    (hlast : k + 1 = mv.num_pkts t) (hrx : k < (v.sslot_arr i).num_rx ∨ k = 0) :
    Yields (if (v.sslot_arr i).tx_msgbuf.isSome then v.enqueue_pkt_tx_burst_st t i 0 else some v)
      fun v' => Inv t K c v' ∧ Serves K i v v' ∧
        (Timely (v.sslot_arr i) (mv.packet t k) → Replied i (mv.packet t k) v') := by
  have hnumber := hreq.number
  split
  · next hsome =>
    obtain ⟨q, hq⟩ := Option.isSome_iff_exists.1 hsome
    obtain ⟨-, -, -, hsav, hge, -⟩ := hs.server.response hq
    refine (h.reply hq Transport.num_pkts_pos (by omega)).mono fun v' hP => ?_
    obtain ⟨-, hinv, hserves, r, hr, hrnum, hrpkt⟩ := hP
    refine ⟨hinv, hserves, fun _ => .inl ⟨r, hr, ?_, ?_⟩⟩
    · rw [hrnum, hreq.packet_req_num]
    · rw [hrpkt, hreq.packet_pkt_num (by omega), hsav]
      omega
  · next hnone =>
    rw [Option.not_isSome_iff_eq_none] at hnone
    refine Yields.ret ⟨h, .refl i v, fun _ => .inr ⟨hcur.symm, ?_⟩⟩
    cases hs.server with
    | fresh number => omega
    | receiving b request req type resp received pos lt => omega
    | called b request req type resp size all =>
      exact ⟨type, by rw [hreq.packet_pkt_num (by omega), all]; exact hlast⟩
    | answered q request req type resp =>
      rw [resp] at hnone
      cases hnone

theorem Inv.process_small_req_st (h : Inv t K c v) (hp : p ∈ c.wire)
    (hi : p.req_num % kSessionReqWindow = i) (htype : p.pkt_type = .req)
    (hsmall : p.msg_size ≤ t.kMaxDataPerPkt) :
    Yields (v.process_small_req_st t i p) fun v' => Inv t K c v' ∧ Serves K i v v' ∧
      (Timely (v.sslot_arr i) p → Replied i p v') := by
  obtain ⟨mc, mv, hs⟩ := h.slot i
  rw [Server.process_small_req_st]
  dsimp only
  obtain hold | ⟨hcur, n, hn, hto⟩ | ⟨hnext, hs', k, hk, rfl⟩ := hs.arrives hp hi
  · rw [if_pos hold]
    refine Yields.ret ⟨h, .refl i v, fun ht => ?_⟩
    simp only [Timely, kSessionReqWindow] at ht
    omega
  · rw [if_neg (by omega), if_pos hcur]
    have hstarted := hto.started
    obtain ⟨k, hk, rfl⟩ | ⟨hrfr, -⟩ := hto.current hn
    · have hreq := hs.server.request (by omega)
      rw [hreq.packet_msg_size] at hsmall
      have hone : mv.num_pkts t = 1 := Transport.num_pkts_eq_one.2 hsmall
      obtain rfl : k = 0 := by omega
      exact h.answerAgain hs hreq hcur (by omega) (.inr rfl)
    · rw [htype] at hrfr
      cases hrfr
  · obtain ⟨hslot, hsame | ⟨hbehind, htx, hreq, hsettled, hrx, hle⟩⟩ := hs.ahead
    · simp only [kSessionReqWindow] at hnext
      omega
    · have hlt : (v.sslot_arr i).cur_req_num < (mc.packet t k).req_num := by
        simp only [kSessionReqWindow] at hnext
        omega
      rw [hreq.packet_msg_size] at hsmall
      have hone : mc.num_pkts t = 1 := Transport.num_pkts_eq_one.2 hsmall
      obtain rfl : k = 0 := by omega
      rw [if_neg (by omega), if_neg (by omega)]
      refine Yields.check hnext (Yields.check (by rw [hsettled.req]; rfl) ?_)
      set p := mc.packet t 0 with hpacket
      refine (h.callHandler (m := mc) (b := .fake p) (w := v.modify i fun s =>
          { s with
            tx_msgbuf := none
            cur_req_num := p.req_num
            num_rx := 1
            req_msgbuf := some (.fake p) }) rfl rfl (fun j hj => server_modify_other _ hj) rfl ?_
        (fun u' hu' _ hphase => ⟨mc, hs.accept htx hreq hbehind.symm hrx hle (hu'.trans hs'.symm)
          hphase fun p hp => .inl hp⟩) (.inl hlt)).mono fun v' hP =>
        ⟨hP.1, hP.2.1, fun _ => .inr ⟨hP.2.2.1, hP.2.2.2.1, by
          rw [hP.2.2.2.2, hone, hreq.packet_pkt_num hk]⟩⟩
      rw [server_modify_self]
      refine ⟨hs' ▸ hreq, rfl, rfl, hsettled.type, rfl, ⟨?_, fun x hx _ => ?_⟩, hone.symm⟩
      · exact hreq.packet_msg_size (k := 0)
      · simp only [hpacket, MsgBuffer.fake, MsgBuffer.packet, Nat.zero_mul, Nat.zero_add]

theorem toClient_expl_cr (hreq : IsRequest t K u.cur_req_num m)
    (hslot : u.cur_req_num % kSessionReqWindow = i) (hk : k + 1 < m.num_pkts t)
    (hrx : k < u.num_rx) :
    ToClient t i m u (Server.expl_cr (m.packet t k).toPktHdr) u.cur_req_num := by
  have hpkt : (Server.expl_cr (m.packet t k).toPktHdr).pkt_num = k :=
    hreq.packet_pkt_num (Nat.lt_of_succ_lt hk)
  exact ⟨hreq.number, hslot, Nat.le_refl _, hreq.req_num, .inl rfl,
    fun _ => ⟨by rw [hpkt]; exact hrx, .inl ⟨rfl, by rw [hpkt]; exact hk⟩⟩⟩

theorem Inv.receive {w : Server} (h : Inv t K c v)
    (hcalls : w.calls = v.calls) (hresponses : w.responses = v.responses)
    (hothers : ∀ j, j ≠ i → w.sslot_arr j = v.sslot_arr j)
    (hwire : w.wire = v.wire ++ [Server.expl_cr (m.packet t k).toPktHdr])
    (hreq : IsRequest t K (w.sslot_arr i).cur_req_num m)
    (hnumber : (w.sslot_arr i).cur_req_num % kSessionReqWindow = i) (hk : k + 1 < m.num_pkts t)
    (hrx : (w.sslot_arr i).num_rx = k + 1) (hbuf : (w.sslot_arr i).req_msgbuf = some b)
    (htype : (w.sslot_arr i).req_type = kInvalidReqType)
    (htx : (w.sslot_arr i).tx_msgbuf = none) (hrec : m.Received t b (k + 1))
    (hslot : ServerPhase t K m (w.sslot_arr i) →
      (∀ p ∈ w.wire, p ∈ v.wire ∨ ∃ n, ToClient t i m (w.sslot_arr i) p n) →
      ∃ mc, Slot t K i (c.sslot_arr i) (w.sslot_arr i) c.wire w.wire c.wheel mc m)
    (hfresh : (v.sslot_arr i).cur_req_num < (w.sslot_arr i).cur_req_num ∨
      (w.sslot_arr i).cur_req_num = (v.sslot_arr i).cur_req_num ∧
        (v.sslot_arr i).req_type = kInvalidReqType ∧ (v.sslot_arr i).tx_msgbuf = none) :
    Inv t K c w ∧ Serves K i v w ∧ ∃ r ∈ w.wire,
      r.req_num = (m.packet t k).req_num ∧ r.pkt_num = (m.packet t k).pkt_num := by
  have hphase : ServerPhase t K m (w.sslot_arr i) :=
    .receiving b hreq hbuf htype htx (hrx ▸ hrec) (by omega) (by omega)
  have hcr := toClient_expl_cr hreq hnumber hk (by omega)
  refine ⟨?_, ⟨hresponses, hothers, .inl ⟨hcalls, hfresh.imp (fun hlt => ⟨hlt, htype⟩)
    fun hsame => ?_⟩⟩, Server.expl_cr (m.packet t k).toPktHdr, ?_, rfl, rfl⟩
  · have hnew : ∀ p ∈ w.wire, p ∈ v.wire ∨ p = Server.expl_cr (m.packet t k).toPktHdr := by
      intro p hp
      rw [hwire, List.mem_append, List.mem_singleton] at hp
      exact hp
    obtain ⟨mc, hs⟩ := hslot hphase fun p hp => (hnew p hp).imp_right fun he => ⟨_, he ▸ hcr⟩
    refine h.server i hothers (fun p hp => (hnew p hp).imp_right ?_) ⟨mc, m, hs⟩
    rintro rfl
    rw [hcr.req_num, req_num_slot, hnumber]
  · exact ⟨hsame.1, by rw [htype, hsame.2.1], by rw [htx, hsame.2.2]⟩
  · rw [hwire]
    exact List.mem_append_right _ (List.mem_singleton_self _)

theorem Inv.process_large_req_one_st (h : Inv t K c v) (hp : p ∈ c.wire)
    (hi : p.req_num % kSessionReqWindow = i) (htype : p.pkt_type = .req)
    (hlarge : t.kMaxDataPerPkt < p.msg_size) (garbage : Mem) :
    Yields (v.process_large_req_one_st t i p garbage) fun v' => Inv t K c v' ∧ Serves K i v v' ∧
      (Timely (v.sslot_arr i) p → Replied i p v') := by
  obtain ⟨mc, mv, hs⟩ := h.slot i
  rw [Server.process_large_req_one_st]
  dsimp only
  obtain hold | ⟨hcur, n, hn, hto⟩ | ⟨hnext, hs', k, hk, rfl⟩ := hs.arrives hp hi
  · simp only [kSessionReqWindow]
    rw [if_neg (by omega), if_pos (by omega)]
    refine Yields.ret ⟨h, .refl i v, fun ht => ?_⟩
    simp only [Timely, kSessionReqWindow] at ht
    omega
  · have hstarted := hto.started
    have hslot := hs.ahead.1
    obtain ⟨k, hk, rfl⟩ | ⟨hrfr, -⟩ := hto.current hn
    · have hreq := hs.server.request (by omega)
      have hpkt := hreq.packet_pkt_num hk
      have hmany : 1 < mv.num_pkts t := Transport.one_lt_num_pkts.2 (hreq.packet_msg_size ▸ hlarge)
      by_cases hdue : k = (v.sslot_arr i).num_rx
      · rw [if_pos (.inl ⟨hcur, hpkt.trans hdue⟩)]
        cases hs.server with
        | fresh number => omega
        | called b request req type resp size all => omega
        | answered q request req type resp response sav ge le => omega
        | receiving b request req type resp received pos lt =>
          have hrec := received.copy hreq.msg_size
          rw [← hdue] at hrec
          have hunsettled : ¬Settled (v.sslot_arr i) := by
            rintro ⟨hnone, -⟩
            rw [hnone] at req
            cases req
          have hnotx : ∀ q, (v.sslot_arr i).tx_msgbuf ≠ some q := by
            intro q hq
            rw [resp] at hq
            cases hq
          have hsize : b.num_pkts t = mv.num_pkts t := by
            rw [MsgBuffer.num_pkts, received.size, MsgBuffer.num_pkts]
          have hsize' : (b.copy_data_to_msgbuf t k (mv.packet t k)).num_pkts t =
              mv.num_pkts t := hsize
          rw [if_neg (by rw [hpkt]; omega), Option.bind_eq_bind, Option.bind_some,
            server_modify_self]
          dsimp only
          rw [req, Option.bind_eq_bind, Option.bind_some, hpkt, hsize]
          by_cases hlast : k + 1 = mv.num_pkts t
          · have hcond : ¬k ≠ mv.num_pkts t - 1 := by omega
            rw [if_neg hcond, server_modify_self, server_modify_self]
            dsimp only
            rw [hsize', if_neg (by omega)]
            refine (h.callHandler (m := mv) (b := b.copy_data_to_msgbuf t k (mv.packet t k))
                (w := (v.modify i fun s => { s with num_rx := s.num_rx + 1 }).modify i fun s =>
                  { s with req_msgbuf := some (b.copy_data_to_msgbuf t k (mv.packet t k)) })
                rfl rfl (fun j hj => ?_) rfl ?_ (fun u' hu' hrx hphase => ?_)
                (.inr ⟨hcur.symm, type, resp⟩)).mono fun v' hP =>
              ⟨hP.1, hP.2.1, fun _ => .inr ⟨hP.2.2.1, hP.2.2.2.1, by
                rw [hP.2.2.2.2, hpkt]; exact hlast⟩⟩
            · rw [server_modify_other _ hj, server_modify_other _ hj]
            · rw [server_modify_self, server_modify_self]
              refine ⟨hcur ▸ hreq, hcur.symm, rfl, type, resp, ?_, ?_⟩
              · rw [hlast] at hrec
                exact hrec
              · rw [← hlast, hdue]
            · exact ⟨mc, hs.serve (hu'.trans hcur) hphase (fun hset => absurd hset hunsettled)
                (fun q hq => absurd hq (hnotx q)) (by omega) fun p hp => .inl hp⟩
          · have hcond : k ≠ mv.num_pkts t - 1 := by omega
            rw [if_pos hcond]
            set b' := b.copy_data_to_msgbuf t k (mv.packet t k) with hb'
            set w : Server := ((v.modify i fun s => { s with num_rx := s.num_rx + 1 }).enqueue_cr_st
              (mv.packet t k)).modify i (fun s => { s with req_msgbuf := some b' }) with hw
            have hself : w.sslot_arr i = { v.sslot_arr i with
                num_rx := (v.sslot_arr i).num_rx + 1, req_msgbuf := some b' } := by
              simp only [hw, Server.enqueue_cr_st, Server.modify, Function.update_self]
            have hrx : (w.sslot_arr i).num_rx = k + 1 := by
              rw [hself, hdue]
            rw [hrx, hsize', if_pos hlast]
            have hcur' : (w.sslot_arr i).cur_req_num = (v.sslot_arr i).cur_req_num := by
              rw [hself]
            have hothers : ∀ j, j ≠ i → w.sslot_arr j = v.sslot_arr j := fun j hj =>
              (server_modify_other _ hj).trans (Function.update_of_ne hj ..)
            obtain ⟨hinv, hserves, r, hr, hrnum, hrpkt⟩ := h.receive (i := i) (w := w) (m := mv)
              (k := k) (b := b') rfl rfl hothers rfl (by rw [hcur']; exact hreq)
              (by rw [hcur']; exact hslot) (by omega) hrx (by rw [hself])
              (by rw [hself]; exact type) (by rw [hself]; exact resp) hrec
              (fun hphase hnew => ⟨mc, hs.serve hcur' hphase (fun hset => absurd hset hunsettled)
                (fun q hq => absurd hq (hnotx q)) (by omega) hnew⟩) (.inr ⟨hcur', type, resp⟩)
            exact Yields.ret ⟨hinv, hserves, fun _ => .inl ⟨r, hr, hrnum, hrpkt⟩⟩
      · rw [if_neg (by rw [hpkt, hcur]; simp only [kSessionReqWindow]; omega)]
        by_cases hearly : (v.sslot_arr i).num_rx < k
        · rw [if_pos (.inr (by rw [hpkt]; exact hearly))]
          refine Yields.ret ⟨h, .refl i v, fun ht => ?_⟩
          simp only [Timely, kSessionReqWindow] at ht
          omega
        · rw [if_neg (by rw [hpkt]; omega), hpkt, hreq.packet_msg_size]
          by_cases hlast : k + 1 = mv.num_pkts t
          · have hcond : ¬k ≠ mv.num_pkts t - 1 := by omega
            change Yields (if k ≠ mv.num_pkts t - 1 then _ else _) _
            rw [if_neg hcond]
            exact h.answerAgain hs hreq hcur hlast (.inl (by omega))
          · have hcond : k ≠ mv.num_pkts t - 1 := by omega
            change Yields (if k ≠ mv.num_pkts t - 1 then _ else _) _
            rw [if_pos hcond]
            have hcr := toClient_expl_cr hreq hslot (k := k) (by omega) (by omega)
            refine Yields.ret ⟨?_, ⟨rfl, fun _ _ => rfl, .inl ⟨rfl, .inr ⟨rfl, rfl, rfl⟩⟩⟩,
              fun _ => .inl ⟨_, List.mem_append_right _ (List.mem_singleton_self _), rfl, rfl⟩⟩
            have hnew : ∀ p ∈ (v.enqueue_cr_st (mv.packet t k)).wire, p ∈ v.wire ∨
                p = Server.expl_cr (mv.packet t k).toPktHdr := by
              intro p hp
              rw [Server.enqueue_cr_st, List.mem_append, List.mem_singleton] at hp
              exact hp
            refine h.server i (fun _ _ => rfl) (fun p hp => (hnew p hp).imp_right ?_) ⟨mc, mv,
              hs.serve rfl hs.server id (fun _ hq => hq) (Nat.le_refl _) fun p hp =>
                (hnew p hp).imp_right fun he => ⟨_, he ▸ hcr⟩⟩
            rintro rfl
            rw [hcr.req_num, req_num_slot, hslot]
    · rw [htype] at hrfr
      cases hrfr
  · obtain ⟨hslot, hsame | ⟨hbehind, htx, hreq, hsettled, hrx, hle⟩⟩ := hs.ahead
    · simp only [kSessionReqWindow] at hnext
      omega
    · have hlt : (v.sslot_arr i).cur_req_num < (mc.packet t k).req_num := by
        simp only [kSessionReqWindow] at hnext
        omega
      have hpkt := hreq.packet_pkt_num hk
      have hmany : 1 < mc.num_pkts t := Transport.one_lt_num_pkts.2 (hreq.packet_msg_size ▸ hlarge)
      by_cases hzero : k = 0
      · subst hzero
        have hguard :
            (guard ((v.sslot_arr i).req_msgbuf.isNone = true) : Option Unit) = some () := by
          rw [hsettled.req]
          rfl
        have hsize : (mc.packet t 0).msg_size = mc.data_size := hreq.packet_msg_size
        rw [if_pos (.inr ⟨hnext, hpkt⟩), if_pos hpkt, hguard]
        simp only [Option.bind_eq_bind, Option.bind_some, hpkt]
        rw [server_modify_self]
        simp only [Option.bind_some]
        set b := MsgBuffer.alloc garbage (mc.packet t 0).msg_size with hb
        have hnum : b.num_pkts t = mc.num_pkts t := congrArg t.data_size_to_num_pkts hsize
        have hnum' : (b.copy_data_to_msgbuf t 0 (mc.packet t 0)).num_pkts t = mc.num_pkts t := hnum
        have hcond : 0 ≠ b.num_pkts t - 1 := by omega
        rw [if_pos hcond]
        set b' := b.copy_data_to_msgbuf t 0 (mc.packet t 0) with hb'
        set w : Server := ((v.modify i fun s =>
          { s with
            tx_msgbuf := none
            req_msgbuf := some b
            cur_req_num := (mc.packet t 0).req_num
            num_rx := 1 }).enqueue_cr_st (mc.packet t 0)).modify i
          (fun s => { s with req_msgbuf := some b' }) with hw
        have hself : w.sslot_arr i = { v.sslot_arr i with
            tx_msgbuf := none
            req_msgbuf := some b'
            cur_req_num := (mc.packet t 0).req_num
            num_rx := 1 } := by
          simp only [hw, Server.enqueue_cr_st, Server.modify, Function.update_self]
        have hrx' : (w.sslot_arr i).num_rx = 1 := by rw [hself]
        have hcur : (w.sslot_arr i).cur_req_num = (c.sslot_arr i).cur_req_num := by
          rw [hself, hs']
        rw [hrx', hnum', if_pos (by omega)]
        have hothers : ∀ j, j ≠ i → w.sslot_arr j = v.sslot_arr j := fun j hj =>
          (server_modify_other _ hj).trans (Function.update_of_ne hj ..)
        obtain ⟨hinv, hserves, r, hr, hrnum, hrpkt⟩ := h.receive (i := i) (w := w) (m := mc)
          (k := 0) (b := b') rfl rfl hothers rfl (by rw [hcur]; exact hreq)
          (by rw [hcur]; exact hs.number) (by omega) hrx' (by rw [hself])
          (by rw [hself]; exact hsettled.type) (by rw [hself])
          (MsgBuffer.Received.copy (.nothing hsize) hreq.msg_size)
          (fun hphase hnew => ⟨mc, hs.accept htx hreq hbehind.symm hrx hle hcur hphase hnew⟩)
          (.inl (by omega))
        exact Yields.ret ⟨hinv, hserves, fun _ => .inl ⟨r, hr, hrnum, hrpkt⟩⟩
      · rw [if_neg (by rw [hpkt]; omega), if_pos (.inl (by omega))]
        refine Yields.ret ⟨h, .refl i v, fun ht => ?_⟩
        simp only [Timely, kSessionReqWindow] at ht
        omega

theorem Inv.process_rfr_st (h : Inv t K c v) (hp : p ∈ c.wire)
    (hi : p.req_num % kSessionReqWindow = i) (htype : p.pkt_type = .rfr) :
    Yields (v.process_rfr_st t i p) fun v' => Inv t K c v' ∧ Serves K i v v' ∧
      (Timely (v.sslot_arr i) p → Replied i p v') := by
  obtain ⟨mc, mv, hs⟩ := h.slot i
  rw [Server.process_rfr_st]
  obtain hold | ⟨hcur, n, hn, hto⟩ | ⟨hnext, hs', k, hk, rfl⟩ := hs.arrives hp hi
  · refine Yields.check (Nat.le_of_lt hold) ?_
    rw [if_neg (fun he => Nat.ne_of_lt hold he.1), if_pos (.inl hold)]
    refine Yields.ret ⟨h, .refl i v, fun ht => ?_⟩
    simp only [Timely, kSessionReqWindow] at ht
    omega
  · refine Yields.check (Nat.le_of_eq hcur) ?_
    have hstarted := hto.started
    have hslot := hs.ahead.1
    have hmod := hto.req_num
    have hreq := hs.server.request (by omega)
    obtain ⟨k, hk, rfl⟩ | ⟨-, q, hq, hge, hlt⟩ := hto.current hn
    · rw [hreq.packet_pkt_type] at htype
      cases htype
    · obtain ⟨-, -, hresp, hsav, hrx, hle⟩ := hs.server.response hq
      have hpos : 0 < mv.num_pkts t := Transport.num_pkts_pos
      have hindex : resp_ntoi p.pkt_num (v.sslot_arr i).sav_num_req_pkts < q.num_pkts t := by
        rw [hsav, resp_ntoi]
        rw [wire_pkts] at hlt
        omega
      have hback : (v.sslot_arr i).sav_num_req_pkts - 1 +
          resp_ntoi p.pkt_num (v.sslot_arr i).sav_num_req_pkts = p.pkt_num := by
        rw [hsav, resp_ntoi]
        omega
      split
      · next hdue =>
        set w : Server := v.modify i fun s => { s with num_rx := s.num_rx + 1 } with hw
        have hself : w.sslot_arr i = { v.sslot_arr i with
            num_rx := (v.sslot_arr i).num_rx + 1 } := server_modify_self _
        have hothers : ∀ j, j ≠ i → w.sslot_arr j = v.sslot_arr j := fun j hj =>
          server_modify_other _ hj
        have hphase : ServerPhase t K mv (w.sslot_arr i) := by
          rw [hself]
          cases hs.server with
          | fresh number req type resp =>
            rw [resp] at hq
            cases hq
          | receiving b request req type resp =>
            rw [resp] at hq
            cases hq
          | called b request req type resp =>
            rw [resp] at hq
            cases hq
          | answered q' request req type resp response sav ge le =>
            rw [resp] at hq
            cases hq
            exact .answered q request req type resp response sav (Nat.le_succ_of_le ge)
              (by dsimp only; omega)
        have hinv : Inv t K c w := by
          refine h.server i hothers (fun p hp => .inl hp) ⟨mc, mv, hs.serve ?_ hphase
            (fun hset => ?_) (fun q hq => ?_) ?_ fun p hp => .inl hp⟩
          · rw [hself]
          · rw [hself]
            exact ⟨hset.req, hset.type⟩
          · rw [hself]
            exact hq
          · rw [hself]
            exact Nat.le_succ _
        refine (hinv.reply (i := i) (q := q) (k := resp_ntoi p.pkt_num
          (v.sslot_arr i).sav_num_req_pkts) (by rw [hself]; exact hq) hindex ?_).mono
          fun v' hP => ?_
        · rw [hself]
          dsimp only
          omega
        · obtain ⟨-, hinv', hserves, r, hr, hrnum, hrpkt⟩ := hP
          rw [hself] at hrnum hrpkt
          dsimp only at hrnum hrpkt
          refine ⟨hinv', ⟨hserves.responses, fun j hj => (hserves.others j hj).trans (hothers j hj),
            ?_⟩, fun _ => .inl ⟨r, hr, ?_, ?_⟩⟩
          · have hcalls := hserves.calls
            rw [hself] at hcalls
            exact hcalls
          · rw [hrnum, ← hn, hmod]
          · rw [hrpkt, hback]
      · next hdue =>
        split
        · next hearly =>
          refine Yields.ret ⟨h, .refl i v, fun ht => ?_⟩
          simp only [Timely, kSessionReqWindow] at ht
          omega
        · next hearly =>
          refine (h.reply hq hindex (by omega)).mono fun v' hP => ?_
          obtain ⟨-, hinv', hserves, r, hr, hrnum, hrpkt⟩ := hP
          refine ⟨hinv', hserves, fun _ => .inl ⟨r, hr, ?_, ?_⟩⟩
          · rw [hrnum, ← hn, hmod]
          · rw [hrpkt, hback]
  · obtain ⟨hslot, hsame | ⟨hbehind, htx, hreq, hsettled, hrx, hle⟩⟩ := hs.ahead
    · simp only [kSessionReqWindow] at hnext
      omega
    · rw [hreq.packet_pkt_type] at htype
      cases htype

/-- The server takes every packet that the client has sent, in any order and any number of times. -/
theorem Inv.serverRx (h : Inv t K c v) (hp : p ∈ c.wire) (garbage : Mem) :
    Yields (v.process_comp t p garbage) fun v' => ∃ i, p.req_num % kSessionReqWindow = i.val ∧
      Inv t K c v' ∧ Serves K i v v' ∧ (Timely (v.sslot_arr i) p → Replied i p v') := by
  set i : SlotIdx := ⟨p.req_num % kSessionReqWindow, p.slot_lt⟩ with hi
  have hslot : p.req_num % kSessionReqWindow = i := rfl
  obtain ⟨mc, mv, hs⟩ := h.slot i
  obtain ⟨n, hn⟩ := hs.toServer p hp hslot
  rw [Server.process_comp]
  obtain htype | htype := hn.pkt_type
  · rw [htype]
    dsimp only
    split
    · next hsmall =>
      exact (h.process_small_req_st hp hslot htype hsmall).mono fun v' hP => ⟨i, hslot, hP⟩
    · next hlarge =>
      exact (h.process_large_req_one_st hp hslot htype (Nat.lt_of_not_le hlarge) garbage).mono
        fun v' hP => ⟨i, hslot, hP⟩
  · rw [htype]
    exact (h.process_rfr_st hp hslot htype).mono fun v' hP => ⟨i, hslot, hP⟩

def Known.answer (K : Known) (r : Nat) (q : MsgBuffer) : Known :=
  { K with response := fun n q' => K.response n q' ∨ n = r ∧ q' = q }

theorem Known.le_answer (K : Known) (r : Nat) (q : MsgBuffer) : K.Le (K.answer r q) :=
  ⟨rfl, fun _ _ hr => hr, fun _ _ hq => .inl hq⟩

structure Responds (i : SlotIdx) (q : MsgBuffer) (v v' : Server) : Prop where
  calls : v'.calls = v.calls
  responses : v'.responses = v.responses ++ [((v.sslot_arr i).cur_req_num, q)]
  others : ∀ j, j ≠ i → v'.sslot_arr j = v.sslot_arr j
  cur_req_num : (v'.sslot_arr i).cur_req_num = (v.sslot_arr i).cur_req_num
  before : (v.sslot_arr i).tx_msgbuf = none
  after : (v'.sslot_arr i).tx_msgbuf = some q

theorem Inv.enqueue_response (h : Inv t K c v) (htype : (v.sslot_arr i).req_type ≠ kInvalidReqType)
    (hsize : b.data_size ≤ t.kMaxMsgSize) (hfits : b.data_size ≤ K.respSize) :
    Yields (v.enqueue_response t i b) fun v' => ∃ q, q.bytes = b.bytes ∧
      Inv t (K.answer (v.sslot_arr i).cur_req_num q) c v' ∧ Responds i q v v' ∧
      (v'.sslot_arr i).req_type = kInvalidReqType ∧
      ∃ r ∈ v'.wire, r.req_num = (v.sslot_arr i).cur_req_num % 2 ^ kReqNumBits ∧
        r.pkt_num + 1 = (v.sslot_arr i).num_rx := by
  set K' : MsgBuffer → Known := fun q => K.answer (v.sslot_arr i).cur_req_num q with hK'
  have hask : ∀ q, ∃ mc mv, Slot t (K' q) i (c.sslot_arr i) (v.sslot_arr i) c.wire v.wire c.wheel
      mc mv := fun q => (h.mono (K.le_answer (v.sslot_arr i).cur_req_num q)).slot i
  obtain ⟨m, hm⟩ : ∃ m, (v.sslot_arr i).req_msgbuf = some m := by
    obtain ⟨mc, mv, hs⟩ := h.slot i
    cases hs.server with
    | fresh number req type => exact absurd type htype
    | receiving b' request req type => exact absurd type htype
    | answered q' request req type => exact absurd type htype
    | called b' request req type => exact ⟨b', req⟩
  set q : MsgBuffer :=
    { b with pkthdr_0 := Server.respHdr (v.sslot_arr i) b.data_size (m.num_pkts t) } with hq
  set w : Server := { v with
      responses := v.responses ++ [((v.sslot_arr i).cur_req_num, q)] }.modify i fun s =>
    { s with
      sav_num_req_pkts := m.num_pkts t
      req_msgbuf := none
      tx_msgbuf := some q
      req_type := kInvalidReqType } with hw
  have hself : w.sslot_arr i = { v.sslot_arr i with
      sav_num_req_pkts := m.num_pkts t
      req_msgbuf := none
      tx_msgbuf := some q
      req_type := kInvalidReqType } := server_modify_self _
  have hothers : ∀ j, j ≠ i → w.sslot_arr j = v.sslot_arr j := fun j hj =>
    Function.update_of_ne hj ..
  obtain ⟨mc, mv, hs⟩ := hask q
  cases hs.server with
  | fresh number req type => exact absurd type htype
  | receiving b' request req type => exact absurd type htype
  | answered q' request req type => exact absurd type htype
  | called b' request req type resp size all =>
    rw [hm] at req
    cases req
    have hnum : m.num_pkts t = mv.num_pkts t := congrArg t.data_size_to_num_pkts size
    have hpkts := request.pkts_le
    have hpos : 0 < mv.num_pkts t := Transport.num_pkts_pos
    have hresp : IsResponse t (K' q) (v.sslot_arr i).cur_req_num (mv.num_pkts t) q := by
      refine ⟨.inr ⟨rfl, rfl⟩, hsize, hfits, ?_, rfl, ?_, rfl⟩
      · exact Nat.mod_eq_of_lt (Nat.lt_of_le_of_lt hsize Transport.kMaxMsgSize_lt)
      · change (m.num_pkts t - 1) % 2 ^ kPktNumBits = _
        rw [hnum]
        apply Nat.mod_eq_of_lt
        simp only [kPktNumBits] at hpkts ⊢
        omega
    have hphase : ServerPhase t (K' q) mv (w.sslot_arr i) := by
      rw [hself]
      refine .answered q request rfl rfl rfl hresp hnum (Nat.le_of_eq all.symm) ?_
      have hqpos : 0 < q.num_pkts t := Transport.num_pkts_pos
      rw [wire_pkts]
      dsimp only
      omega
    have hinv : Inv t (K' q) c w := by
      refine (h.mono (K.le_answer _ q)).server i hothers (fun p hp => .inl hp) ⟨mc, mv,
        hs.serve ?_ hphase (fun _ => ?_) (fun q' hq' => ?_) ?_ fun p hp => .inl hp⟩
      · rw [hself]
      · rw [hself]
        exact ⟨rfl, rfl⟩
      · rw [resp] at hq'
        cases hq'
      · rw [hself]
    rw [Server.enqueue_response, hm, Option.bind_eq_bind, Option.bind_some]
    refine Yields.check (by rw [resp]; rfl) (Yields.check htype ?_)
    refine (hinv.reply (i := i) (q := q) (k := 0) (by rw [hself]) Transport.num_pkts_pos
      ?_).mono fun v' hP => ?_
    · rw [hself]
      dsimp only
      omega
    · obtain ⟨rfl, hinv', -, r, hr, hrnum, hrpkt⟩ := hP
      rw [hself] at hrnum hrpkt
      dsimp only at hrnum hrpkt
      refine ⟨q, rfl, hinv', ⟨rfl, rfl, hothers, ?_, resp, ?_⟩, ?_, r, hr, hrnum, ?_⟩
      · change (w.sslot_arr i).cur_req_num = _
        rw [hself]
      · change (w.sslot_arr i).tx_msgbuf = _
        rw [hself]
      · change (w.sslot_arr i).req_type = _
        rw [hself]
      · rw [hrpkt, all]
        omega

end Erpc

end Galois
