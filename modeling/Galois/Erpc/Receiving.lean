import Galois.Erpc.PacketLoss

namespace Galois
set_option autoImplicit true
set_option relaxedAutoImplicit false

namespace Erpc

variable {τ : Type} {t : Transport} {K : Known} {c c' : Client τ} {v : Server} {i j : SlotIdx}
  {s : ClientSlot τ} {u : ServerSlot} {b m q mc mv : MsgBuffer} {p : Packet} {n k : Nat}

/-- A packet that arrives in order at a slot answers a packet of the slot's request. -/
structure Answer (t : Transport) (K : Known) (s : ClientSlot τ) (u : ServerSlot) (m : MsgBuffer)
    (p : Packet) : Prop where
  tx : s.tx_msgbuf = some m
  request : IsRequest t K s.cur_req_num m
  same : u.cur_req_num = s.cur_req_num
  sent : s.num_rx < s.num_tx
  rx : s.num_rx < u.num_rx
  answer : (p.pkt_type = .explCR ∧ s.num_rx + 1 < m.num_pkts t) ∨
    ∃ q k, u.tx_msgbuf = some q ∧ k < q.num_pkts t ∧ p = q.packet t k ∧
      s.num_rx + 1 = m.num_pkts t + k

theorem ClientPhase.behind (h : ClientPhase t K mc mv s u) : u.cur_req_num ≤ s.cur_req_num := by
  cases h with
  | idle tx same => exact Nat.le_of_eq same
  | unseen tx request behind => exact behind ▸ Nat.le_add_right _ _
  | requesting tx request same => exact Nat.le_of_eq same
  | reading q tx request same => exact Nat.le_of_eq same

theorem Slot.req_num_le {toServer toClient : List Packet} {wheel : List (SlotIdx × Nat)}
    (hs : Slot t K i s u toServer toClient wheel mc mv) (hp : p ∈ toClient)
    (hi : p.req_num % kSessionReqWindow = i) : p.req_num ≤ s.cur_req_num := by
  obtain ⟨n, hn⟩ := hs.toClient p hp hi
  rw [hn.req_num]
  exact ((Nat.mod_le _ _).trans hn.le).trans hs.client.behind

theorem Slot.answer {toServer toClient : List Packet} {wheel : List (SlotIdx × Nat)}
    (hs : Slot t K i s u toServer toClient wheel mc mv) (hp : p ∈ toClient)
    (hi : p.req_num % kSessionReqWindow = i) (hord : s.in_order_client p = true) :
    Answer t K s u mv p ∧ (i, s.num_rx) ∉ wheel := by
  rw [ClientSlot.in_order_client, decide_eq_true_eq] at hord
  obtain ⟨hreq, hpkt, hsent, hfree⟩ := hord
  obtain ⟨n, hn⟩ := hs.toClient p hp hi
  have hwheel : (i, s.num_rx) ∉ wheel := by
    intro hmem
    have hflag := (hs.inWheel.flag (p.pkt_num % kSessionCredits)).2 ⟨_, hmem, by rw [hpkt]⟩
    rw [hfree] at hflag
    exact Bool.false_ne_true hflag
  have hle := hn.le
  have hnum := hn.req_num
  rw [hreq] at hnum
  refine ⟨?_, hwheel⟩
  cases hs.client with
  | idle tx same settled sent => omega
  | unseen tx request behind settled rx le =>
    have heq := number_eq (r := s.cur_req_num) (by simp only [kSessionReqWindow] at behind; omega)
      hnum.symm
    simp only [kSessionReqWindow] at behind
    omega
  | requesting tx request same lt le rx =>
    have heq := number_eq (by omega) hnum.symm
    obtain ⟨hrx, hcr | ⟨q, k, hq, hk, rfl⟩⟩ := hn.current (by omega)
    · exact ⟨tx, request, same, by omega, by omega, .inl ⟨hcr.1, by omega⟩⟩
    · obtain ⟨-, -, hresp, -⟩ := hs.server.response hq
      have hpos : 0 < mv.num_pkts t := Transport.num_pkts_pos
      rw [hresp.packet_pkt_num request.pkts_le hk] at hpkt hrx hsent
      exact ⟨tx, request, same, by omega, by omega, .inr ⟨q, k, hq, hk, rfl, by omega⟩⟩
  | reading q' tx request same resp large ge lt le rx hdr received =>
    have heq := number_eq (by omega) hnum.symm
    obtain ⟨hrx, hcr | ⟨q, k, hq, hk, rfl⟩⟩ := hn.current (by omega)
    · omega
    · obtain ⟨-, -, hresp, -⟩ := hs.server.response hq
      have hpos : 0 < mv.num_pkts t := Transport.num_pkts_pos
      rw [hresp.packet_pkt_num request.pkts_le hk] at hpkt hrx hsent
      exact ⟨tx, request, same, by omega, by omega, .inr ⟨q, k, hq, hk, rfl, by omega⟩⟩

def acked (i : SlotIdx) (b : MsgBuffer) (c : Client τ) : Client τ :=
  { c with credits := c.credits + 1 }.modify i fun s =>
    { s with num_rx := s.num_rx + 1, resp_msgbuf := b }

def released (i : SlotIdx) (b : MsgBuffer) (c : Client τ) : Client τ :=
  { c with
    credits := c.credits + 1
    active_rpcs := c.active_rpcs.erase i
    sslot_free_vec := i :: c.sslot_free_vec }.modify i fun s =>
    { s with num_rx := s.num_rx + 1, resp_msgbuf := b, tx_msgbuf := none }

theorem InWheel.answered {wheel : List (SlotIdx × Nat)} (h : InWheel t i s wheel)
    (hwheel : (i, s.num_rx) ∉ wheel) (b : MsgBuffer) :
    InWheel t i { s with num_rx := s.num_rx + 1, resp_msgbuf := b } wheel := by
  refine ⟨fun k hk => ?_, h.request, h.flag, h.count⟩
  obtain ⟨hle, hlt⟩ := h.range k hk
  refine ⟨Nat.lt_of_le_of_ne hle ?_, hlt⟩
  rintro rfl
  exact hwheel hk

theorem Lists.credit (h : Lists t K c) (hother : ∀ j, j ≠ i → c'.sslot_arr j = c.sslot_arr j)
    (htx : (c'.sslot_arr i).num_tx = (c.sslot_arr i).num_tx)
    (hrx : (c'.sslot_arr i).num_rx = (c.sslot_arr i).num_rx + 1)
    (hlt : (c.sslot_arr i).num_rx < (c.sslot_arr i).num_tx) (hc : c'.credits = c.credits + 1) :
    c'.credits + ∑ j, ((c'.sslot_arr j).num_tx - (c'.sslot_arr j).num_rx) = kSessionCredits := by
  have hcredits := h.credits
  have hsum := sum_outstanding
    (fun j => (c.sslot_arr j).num_tx - (c.sslot_arr j).num_rx)
    (fun j => (c'.sslot_arr j).num_tx - (c'.sslot_arr j).num_rx) i
    fun j hj => by rw [hother j hj]
  rw [htx, hrx] at hsum
  omega

theorem Inv.acked (h : Inv t K c v)
    (hs : Slot t K i (c.sslot_arr i) (v.sslot_arr i) c.wire v.wire c.wheel mc mv)
    (hlt : (c.sslot_arr i).num_rx < (c.sslot_arr i).num_tx)
    (hwheel : (i, (c.sslot_arr i).num_rx) ∉ c.wheel) (hroom : K.respSize ≤ b.max_data_size)
    (hphase : ClientPhase t K mc mv { c.sslot_arr i with
      num_rx := (c.sslot_arr i).num_rx + 1, resp_msgbuf := b } (v.sslot_arr i)) :
    Inv t K (acked i b c) v := by
  have hself : (Erpc.acked i b c).sslot_arr i = { c.sslot_arr i with
      num_rx := (c.sslot_arr i).num_rx + 1, resp_msgbuf := b } := modify_self _
  have hother : ∀ j, j ≠ i → (Erpc.acked i b c).sslot_arr j = c.sslot_arr j :=
    fun j hj => Function.update_of_ne hj ..
  have htx : ∀ j, ((Erpc.acked i b c).sslot_arr j).tx_msgbuf = (c.sslot_arr j).tx_msgbuf := by
    intro j
    by_cases hj : j = i
    · rw [hj, hself]
    · rw [hother j hj]
  refine h.client i hother (fun p hp => .inl hp) (fun _ _ _ => Iff.rfl) (fun _ _ => rfl)
    ⟨mc, mv, ?_⟩ ?_
  · rw [hself]
    exact ⟨hs.number, hlt, fun _ => hroom, hs.tag, hphase, hs.server, hs.toServer, hs.toClient,
      hs.inWheel.answered hwheel b⟩
  · have hlists := h.lists
    refine ⟨hlists.credit (i := i) hother ?_ ?_ hlt rfl, hlists.wheel, hlists.free_nodup,
      fun j => ?_, hlists.active_nodup, fun j => ?_, hlists.stalled_nodup, fun j hj => ?_,
      hlists.waiting⟩
    · rw [hself]
    · rw [hself]
    · rw [htx]
      exact hlists.free j
    · rw [htx]
      exact hlists.active j
    · have hstalled := hlists.stalled j hj
      rw [hother j (by rintro rfl; omega)]
      exact hstalled

theorem Inv.released (h : Inv t K c v)
    (hs : Slot t K i (c.sslot_arr i) (v.sslot_arr i) c.wire v.wire c.wheel mc mv)
    (hactive : (c.sslot_arr i).tx_msgbuf ≠ none)
    (hlast : (c.sslot_arr i).num_tx = (c.sslot_arr i).num_rx + 1)
    (hwheel : (i, (c.sslot_arr i).num_rx) ∉ c.wheel)
    (hsame : (v.sslot_arr i).cur_req_num = (c.sslot_arr i).cur_req_num)
    (hsettled : Settled (v.sslot_arr i)) (b : MsgBuffer) : Inv t K (released i b c) v := by
  have hself : (Erpc.released i b c).sslot_arr i = { c.sslot_arr i with
      num_rx := (c.sslot_arr i).num_rx + 1, resp_msgbuf := b, tx_msgbuf := none } := modify_self _
  have hother : ∀ j, j ≠ i → (Erpc.released i b c).sslot_arr j = c.sslot_arr j :=
    fun j hj => Function.update_of_ne hj ..
  have hanswered := hs.inWheel.answered hwheel b
  refine h.client i hother (fun p hp => .inl hp) (fun _ _ _ => Iff.rfl) (fun _ _ => rfl)
    ⟨mc, mv, ?_⟩ ?_
  · rw [hself]
    exact ⟨hs.number, Nat.le_of_eq hlast.symm, nofun, nofun, .idle rfl hsame hsettled hlast,
      hs.server, hs.toServer, hs.toClient, hanswered.range, nofun, hanswered.flag,
      hanswered.count⟩
  · have hlists := h.lists
    have hfree : i ∉ c.sslot_free_vec := fun hi => hactive ((hlists.free i).1 hi)
    refine ⟨hlists.credit (i := i) hother ?_ ?_ (by omega) rfl, hlists.wheel,
      List.nodup_cons.2 ⟨hfree, hlists.free_nodup⟩, fun j => ?_, hlists.active_nodup.erase i,
      fun j => ?_, hlists.stalled_nodup, fun j hj => ?_, hlists.waiting⟩
    · rw [hself]
    · rw [hself]
    · change j ∈ i :: c.sslot_free_vec ↔ _
      rw [List.mem_cons]
      by_cases hj : j = i
      · rw [hj, hself]
        exact iff_of_true (.inl rfl) rfl
      · rw [hother j hj, or_iff_right hj]
        exact hlists.free j
    · change j ∈ c.active_rpcs.erase i ↔ _
      rw [hlists.active_nodup.mem_erase_iff]
      by_cases hj : j = i
      · rw [hj, hself]
        exact iff_of_false (fun he => he.1 rfl) fun hne => hne rfl
      · rw [hother j hj, and_iff_right hj]
        exact hlists.active j
    · have hstalled := hlists.stalled j hj
      rw [hother j (by rintro rfl; omega)]
      exact hstalled

end Erpc

end Galois
