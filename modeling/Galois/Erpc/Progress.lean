import Galois.Erpc.ExactlyOnce

namespace Galois
set_option autoImplicit true
set_option relaxedAutoImplicit false

namespace Erpc

variable {τ : Type} {t : Transport} {respSize : Nat} {s s' s'' : State τ} {i : SlotIdx}
  {m mc mv : MsgBuffer} {p : Packet} {x : Action τ} {answer : Server → SlotIdx → MsgBuffer}
  {w w' : List (Action τ)}

/-- The steps that are left when no more requests come, the network loses nothing more, and the
handler answers with `answer`. -/
def Answers (answer : Server → SlotIdx → MsgBuffer) (s : State τ) : Action τ → State τ → Prop
  | .enqueue_request _ _, _ => False
  | .lose _ _, _ => False
  | .enqueue_response i resp_msgbuf, _ => resp_msgbuf = answer s.server i
  | _, _ => True

/-- The two states are steps of one session apart, which have brought no answer. -/
structure Prepares (t : Transport) (respSize : Nat) (answer : Server → SlotIdx → MsgBuffer)
    (s s' : State τ) : Prop where
  steps : ∃ w, ((session t respSize).restrict (Answers answer)).Steps s w s'
  safe : Safe t respSize s'
  enqueued : s'.enqueued = s.enqueued
  same : SameRequests s.client s'.client
  num_rx : ∀ i, (s'.client.sslot_arr i).num_rx = (s.client.sslot_arr i).num_rx

theorem Prepares.refl (h : Safe t respSize s) : Prepares t respSize answer s s :=
  ⟨⟨[], .nil⟩, h, rfl, .refl _, fun _ => rfl⟩

theorem Prepares.trans (h : Prepares t respSize answer s s')
    (h' : Prepares t respSize answer s' s'') : Prepares t respSize answer s s'' := by
  obtain ⟨w, hw⟩ := h.steps
  obtain ⟨w', hw'⟩ := h'.steps
  exact ⟨⟨w ++ w', hw.trans hw'⟩, h'.safe, h'.enqueued.trans h.enqueued, h.same.trans h'.same,
    fun i => (h'.num_rx i).trans (h.num_rx i)⟩

theorem Prepares.client {c' : Client τ} (h : Safe t respSize s) (ha : s.Allowed t respSize x)
    (hanswers : Answers answer s x { s with client := c' })
    (hnext : s.next t x = some { s with client := c' })
    (hinv : Inv t (s.known respSize) c' s.server) (hkeeps : Keeps s.client c') :
    Prepares t respSize answer s { s with client := c' } :=
  ⟨⟨[x], .single ⟨⟨ha, hnext⟩, hanswers⟩⟩, h.keep hinv (hkeeps.ready h.ready) hkeeps.same, rfl,
    hkeeps.same, hkeeps.num_rx⟩

theorem Prepares.server {v' : Server} (ha : s.Allowed t respSize x)
    (hanswers : Answers answer s x { s with server := v' })
    (hnext : s.next t x = some { s with server := v' })
    (hsafe : Safe t respSize { s with server := v' }) :
    Prepares t respSize answer s { s with server := v' } :=
  ⟨⟨[x], .single ⟨⟨ha, hnext⟩, hanswers⟩⟩, hsafe, rfl, .refl _, fun _ => rfl⟩

theorem Safe.active (h : Safe t respSize s)
    (hopen : ∃ a ∈ s.enqueued, a.tag ∉ s.client.finished.map Prod.fst) :
    ∃ i, (s.client.sslot_arr i).tx_msgbuf ≠ none := by
  obtain ⟨a, ha, hfin⟩ := hopen
  have htag : a.tag ∈ s.enqueued.map (·.tag) := List.mem_map.2 ⟨a, ha, rfl⟩
  rw [h.clientLog.fifo, List.mem_append] at htag
  obtain hstarted | hwaiting := htag
  · obtain ⟨e, he, hetag⟩ := List.mem_map.1 hstarted
    obtain hdone | ⟨i, hi, -⟩ := h.clientLog.pending e he
    · exact absurd (hetag ▸ hdone) hfin
    · exact ⟨i, hi⟩
  · have hfree := h.ready.backlog fun hnil => by
      rw [hnil] at hwaiting
      cases hwaiting
    refine ⟨0, fun hnone => ?_⟩
    have hmem := (h.inv.lists.free 0).2 hnone
    rw [hfree] at hmem
    cases hmem

variable (answer) in
theorem Safe.outstanding (h : Safe t respSize s)
    (hactive : ∃ i, (s.client.sslot_arr i).tx_msgbuf ≠ none) :
    ∃ s', Prepares t respSize answer s s' ∧
      ∃ i, (s'.client.sslot_arr i).num_rx < (s'.client.sslot_arr i).num_tx := by
  by_cases hsome : ∃ i, (s.client.sslot_arr i).num_rx < (s.client.sslot_arr i).num_tx
  · exact ⟨s, .refl h, hsome⟩
  · -- no credit is used, so those that wait for credits can go
    have hall : ∀ i, (s.client.sslot_arr i).num_tx = (s.client.sslot_arr i).num_rx := by
      intro i
      obtain ⟨mc, mv, hs⟩ := h.inv.slot i
      have hcounts := hs.counts
      by_contra hne
      exact hsome ⟨i, by omega⟩
    have hcredits := h.inv.lists.credits
    rw [Finset.sum_eq_zero fun i _ => by rw [hall i, Nat.sub_self]] at hcredits
    obtain ⟨i, hi⟩ := hactive
    have hstalled : s.client.stallq ≠ [] :=
      List.ne_nil_of_mem (h.ready.stalled i hi (hall i))
    obtain ⟨c', hc', hinv, hkeeps, hused⟩ := h.inv.process_credit_stall_queue_st true
    have hless := hused hstalled (by rw [Nat.add_zero] at hcredits; rw [hcredits]; decide)
    refine ⟨{ s with client := c' }, .client (x := .process_credit_stall_queue_st true) h trivial
      trivial (by rw [State.next, hc']; rfl) hinv hkeeps, ?_⟩
    by_contra hnone
    have hcredits' := hinv.lists.credits
    rw [Finset.sum_eq_zero fun i _ => Nat.sub_eq_zero_of_le (Nat.le_of_not_lt fun hlt =>
      hnone ⟨i, hlt⟩)] at hcredits'
    omega

variable (answer) in
theorem Safe.reap (h : Safe t respSize s) (i : SlotIdx) :
    ∃ s', Prepares t respSize answer s s' ∧ (∀ k, (i, k) ∉ s'.client.wheel) ∧
      (s'.client.sslot_arr i).num_tx = (s.client.sslot_arr i).num_tx := by
  generalize hn : (s.client.wheel.countP fun e => e.1 = i) = n
  induction n generalizing s with
  | zero =>
    rw [List.countP_eq_zero] at hn
    exact ⟨s, .refl h, fun k hk => hn _ hk (decide_eq_true rfl), rfl⟩
  | succ n ih =>
    have hpos : 0 < s.client.wheel.countP fun e => e.1 = i := by
      rw [hn]
      exact Nat.succ_pos n
    obtain ⟨⟨j, k⟩, hk, hj⟩ := List.countP_pos_iff.1 hpos
    obtain rfl : j = i := of_decide_eq_true hj
    obtain ⟨c', hc', hinv, hkeeps, htx, hwheel⟩ := h.inv.process_wheel_st hk
    have hstep : Prepares t respSize answer s { s with client := c' } :=
      .client (x := .process_wheel_st j k) h hk trivial (by rw [State.next, hc']; rfl) hinv hkeeps
    obtain ⟨s'', hprep, hempty, hnum⟩ := ih hstep.safe (by
      change (c'.wheel.countP fun e => e.1 = j) = n
      rw [hwheel, List.countP_erase, if_pos ⟨hk, decide_eq_true rfl⟩, hn, Nat.add_sub_cancel])
    exact ⟨s'', hstep.trans hprep, hempty, hnum.trans (htx j)⟩

theorem Slot.timely {c : ClientSlot τ} {u : ServerSlot} {K : Known}
    {toServer toClient : List Packet} {wheel : List (SlotIdx × Nat)}
    (hs : Slot t K i c u toServer toClient wheel mc mv)
    (hm : c.tx_msgbuf = some m) (hnum : c.cur_req_num < 2 ^ kReqNumBits) :
    (due t m c).req_num = c.cur_req_num ∧ (due t m c).pkt_num = c.num_rx ∧
      Timely u (due t m c) := by
  have hreq := (hs.client.request hm).1
  have hmod := Nat.mod_eq_of_lt hnum
  have hpos : 0 < m.num_pkts t := Transport.num_pkts_pos
  rw [Timely]
  cases hs.client with
  | idle tx =>
    rw [tx] at hm
    cases hm
  | unseen tx request behind settled rx le =>
    rw [tx] at hm
    cases hm
    rw [due, if_pos (by omega), hreq.packet_req_num, hreq.packet_pkt_num (by omega), hmod]
    exact ⟨rfl, rfl, .inr ⟨behind.symm, rx⟩⟩
  | requesting tx request same lt le rx =>
    rw [tx] at hm
    cases hm
    rw [due, if_pos lt, hreq.packet_req_num, hreq.packet_pkt_num lt, hmod]
    exact ⟨rfl, rfl, .inl ⟨same.symm, rx⟩⟩
  | reading q tx request same resp large ge lt le rx hdr received =>
    rw [tx] at hm
    cases hm
    have hrfr : c.num_rx % 2 ^ kPktNumBits = c.num_rx :=
      Nat.mod_eq_of_lt (lt.trans (wire_pkts_lt request (hs.server.response resp).2.2.1))
    rw [due, if_neg (by omega)]
    simp only [Client.rfr, hdr, hmod, hrfr]
    exact ⟨trivial, trivial, .inl ⟨same.symm, rx⟩⟩

/-- Some answer to the slot `i` is under way, and the slot takes it. -/
structure Answerable (i : SlotIdx) (s : State τ) : Prop where
  sent : (s.client.sslot_arr i).num_rx < (s.client.sslot_arr i).num_tx
  empty : ∀ k, (i, k) ∉ s.client.wheel
  answer : ∃ r ∈ s.server.wire, r.req_num = (s.client.sslot_arr i).cur_req_num ∧
    r.pkt_num = (s.client.sslot_arr i).num_rx

variable (answer) in
theorem Safe.resend (h : Safe t respSize s) (hempty : ∀ k, (i, k) ∉ s.client.wheel)
    (hsent : (s.client.sslot_arr i).num_rx < (s.client.sslot_arr i).num_tx)
    (hm : (s.client.sslot_arr i).tx_msgbuf = some m) :
    ∃ s', Prepares t respSize answer s s' ∧ (∀ k, (i, k) ∉ s'.client.wheel) ∧
      (s'.client.sslot_arr i).num_rx < (s'.client.sslot_arr i).num_tx ∧
      due t m (s'.client.sslot_arr i) ∈ s'.client.wire := by
  have hactive := (h.inv.lists.active i).2 (by rw [hm]; exact Option.some_ne_none _)
  have hcount : (s.client.sslot_arr i).wheel_count = 0 := by
    obtain ⟨mc, mv, hs⟩ := h.inv.slot i
    rw [hs.inWheel.count, List.countP_eq_zero]
    rintro ⟨j, k⟩ hk hj
    obtain rfl : j = i := of_decide_eq_true hj
    exact hempty k hk
  obtain ⟨c', hc', hinv, hkeeps, hresent⟩ := h.inv.pkt_loss_scan_st (fun j => decide (j = i)) true
  have hres := hresent i hactive (fun j => decide_eq_true_iff) (by omega)
  obtain ⟨hwheel, hwire⟩ := hres.sent m hm hcount rfl
  refine ⟨{ s with client := c' }, .client (x := .pkt_loss_scan_st (fun j => decide (j = i)) true)
    h trivial trivial (by rw [State.next, hc']; rfl) hinv hkeeps, ?_, hres.num_tx, ?_⟩
  · rw [hwheel]
    exact hempty
  · have hdue : due t m (c'.sslot_arr i) = due t m (s.client.sslot_arr i) := by
      rw [due, due, hkeeps.num_rx, hkeeps.resp_msgbuf]
    rw [hdue]
    exact hwire

theorem Safe.reply (h : Safe t respSize s)
    (hanswer : ∀ v i, (answer v i).data_size ≤ t.kMaxMsgSize ∧ (answer v i).data_size ≤ respSize)
    (hnum : (s.client.sslot_arr i).cur_req_num < 2 ^ kReqNumBits)
    (hempty : ∀ k, (i, k) ∉ s.client.wheel)
    (hsent : (s.client.sslot_arr i).num_rx < (s.client.sslot_arr i).num_tx)
    (hm : (s.client.sslot_arr i).tx_msgbuf = some m)
    (hdue : due t m (s.client.sslot_arr i) ∈ s.client.wire) :
    ∃ s', Prepares t respSize answer s s' ∧ Answerable i s' := by
  obtain ⟨mc, mv, hs⟩ := h.inv.slot i
  obtain ⟨hreq, hpkt, htimely⟩ := hs.timely hm hnum
  obtain ⟨v', hv', j, hj, hinv, hserves, hreplied⟩ := h.inv.serverRx hdue fun _ => 0
  obtain rfl : j = i := by
    rw [hreq, hs.number] at hj
    exact Fin.ext hj.symm
  have hsafe := h.serve hinv hserves
  have hstep : Prepares t respSize answer s { s with server := v' } :=
    .server (x := .serverRx (due t m (s.client.sslot_arr j)) fun _ => 0) hdue trivial
      (by rw [State.next, hv']; rfl) hsafe
  obtain ⟨r, hr, hrnum, hrpkt⟩ | ⟨hcur, htype, hlast⟩ := hreplied htimely
  · exact ⟨_, hstep, hsent, hempty, r, hr, hrnum.trans hreq, hrpkt.trans hpkt⟩
  · obtain ⟨hsize, hfits⟩ := hanswer v' j
    obtain ⟨v'', hv'', q, -, hinv', hresponds, htype', r, hr, hrnum, hrpkt⟩ :=
      hsafe.inv.enqueue_response (i := j) htype hsize hfits
    have hsafe' := hsafe.respond hinv' hresponds htype htype'
    refine ⟨_, hstep.trans (.server (x := .enqueue_response j (answer v' j)) ⟨htype, hsize, hfits⟩
      rfl (by rw [State.next, hv'']; rfl) hsafe'), hsent, hempty, r, hr, ?_, ?_⟩
    · rw [hrnum, hcur, hreq]
      exact Nat.mod_eq_of_lt hnum
    · change r.pkt_num + 1 = (v'.sslot_arr j).num_rx at hrpkt
      change r.pkt_num = (s.client.sslot_arr j).num_rx
      omega

/-- Request numbers have room for all that waits. -/
def Numbered (s : State τ) : Prop := ∀ i, (s.client.sslot_arr i).cur_req_num +
  kSessionReqWindow * s.client.enq_req_backlog.length < 2 ^ kReqNumBits

def remaining (s : State τ) : Nat :=
  (s.enqueued.length - s.client.finished.length) * (kSessionReqWindow * 2 ^ kPktNumBits + 1) +
    ∑ i, (2 ^ kPktNumBits - (s.client.sslot_arr i).num_rx)

theorem Prepares.numbered (h : Prepares t respSize answer s s') (hnum : Numbered s) :
    Numbered s' := by
  intro i
  rw [h.same.cur_req_num, h.same.enq_req_backlog]
  exact hnum i

theorem Prepares.remaining (h : Prepares t respSize answer s s') : remaining s' = remaining s := by
  simp only [Erpc.remaining, h.enqueued, h.same.finished, h.num_rx]

theorem Safe.finished_le (h : Safe t respSize s) :
    s.client.finished.length ≤ s.enqueued.length := by
  have hsub : s.client.finished.map Prod.fst ⊆ s.enqueued.map (·.tag) := by
    intro tag htag
    obtain ⟨e, he, rfl⟩ := List.mem_map.1 htag
    rw [h.clientLog.fifo]
    exact List.mem_append_left _ (h.clientLog.done e he)
  have hle := (List.subperm_of_subset h.clientLog.finished hsub).length_le
  rwa [List.length_map, List.length_map] at hle

theorem Answer.num_rx_lt {K : Known} {c : ClientSlot τ} {u : ServerSlot}
    (h : Answer t K c u m p) (hresp : ∀ q, u.tx_msgbuf = some q → q.data_size ≤ t.kMaxMsgSize) :
    c.num_rx < 2 ^ kPktNumBits := by
  have hle := h.request.pkts_le
  simp only [kPktNumBits] at hle ⊢
  obtain ⟨-, hlt⟩ | ⟨q, k, hq, hk, -, hnum⟩ := h.answer
  · omega
  · have hle' : q.num_pkts t ≤ 2 ^ (kPktNumBits - 1) := Transport.num_pkts_le (hresp q hq)
    simp only [kPktNumBits] at hle'
    omega

theorem Finishes.effect {K K' : Known} {c c' : Client τ} (h : Finishes K i c K' c') :
    c'.finished.length = c.finished.length + 1 ∧
      ∀ k, (c'.sslot_arr k).cur_req_num + kSessionReqWindow * c'.enq_req_backlog.length ≤
        (c.sslot_arr k).cur_req_num + kSessionReqWindow * c.enq_req_backlog.length := by
  obtain ⟨b, tag, q, -, -, -, -, -, hrefilled⟩ := h.finished
  have hcur : ∀ k, ((completed i b tag c).sslot_arr k).cur_req_num =
      (c.sslot_arr k).cur_req_num := by
    intro k
    rw [completed, released]
    by_cases hk : k = i
    · rw [hk, modify_self]
    · rw [modify_other _ hk]
  cases hrefilled with
  | nothing hbacklog =>
    refine ⟨List.length_append, fun k => ?_⟩
    rw [hcur]
    exact Nat.le_refl _
  | @next a backlog c' hwaiting hsame =>
    refine ⟨?_, fun k => ?_⟩
    · rw [hsame.finished]
      exact List.length_append
    · have hback : c.enq_req_backlog = a :: backlog := hwaiting
      have hback' : c'.enq_req_backlog = backlog := hsame.enq_req_backlog
      have hcur' := hsame.cur_req_num k
      rw [hback, hback', List.length_cons, Nat.mul_succ]
      by_cases hk : k = i
      · rw [hk, Client.fillSlot, modify_self] at hcur'
        change (c'.sslot_arr i).cur_req_num =
          ((completed i b tag c).sslot_arr i).cur_req_num + kSessionReqWindow at hcur'
        rw [hcur] at hcur'
        rw [hk]
        omega
      · rw [Client.fillSlot, modify_other _ hk] at hcur'
        change (c'.sslot_arr k).cur_req_num =
          ((completed i b tag c).sslot_arr k).cur_req_num at hcur'
        rw [hcur] at hcur'
        omega

variable (answer) in
theorem Safe.advance (h : Safe t respSize s) (hnum : Numbered s) (ha : Answerable i s) :
    ∃ w s', ((session t respSize).restrict (Answers answer)).Steps s w s' ∧ Safe t respSize s' ∧
      s'.enqueued = s.enqueued ∧ Numbered s' ∧ remaining s' < remaining s := by
  obtain ⟨r, hr, hrnum, hrpkt⟩ := ha.answer
  obtain ⟨mc, mv, hs⟩ := h.inv.slot i
  have hslot : r.req_num % kSessionReqWindow = i := by rw [hrnum, hs.number]
  have hord : (s.client.sslot_arr i).in_order_client r = true := by
    rw [ClientSlot.in_order_client, decide_eq_true_eq]
    have hsent := ha.sent
    refine ⟨hrnum, hrpkt, by omega, ?_⟩
    rw [← Bool.not_eq_true, hs.inWheel.flag]
    rintro ⟨k, hk, -⟩
    exact ha.empty k hk
  obtain ⟨hans, hwheel⟩ := hs.answer hr hslot hord
  obtain ⟨c', hc', K', j, hj, hinv, hready, hout⟩ := h.inv.clientRx h.ready hr true
  obtain rfl : j = i := by
    rw [hslot] at hj
    exact Fin.ext hj.symm
  have hstep : ((session t respSize).restrict (Answers answer)).Steps s [.clientRx r true]
      { s with client := c' } :=
    .single ⟨⟨hr, by rw [State.next, hc']; rfl⟩, trivial⟩
  rw [Progresses, if_pos hord] at hout
  obtain ⟨rfl, hadv⟩ | hfin := hout
  · have hsafe := h.keep hinv hready hadv.same
    refine ⟨_, _, hstep, hsafe, rfl, fun k => ?_, ?_⟩
    · change (c'.sslot_arr k).cur_req_num + kSessionReqWindow * c'.enq_req_backlog.length < _
      rw [hadv.same.cur_req_num, hadv.same.enq_req_backlog]
      exact hnum k
    · have hlt : (s.client.sslot_arr j).num_rx < 2 ^ kPktNumBits :=
        hans.num_rx_lt fun q hq => (hs.server.response hq).2.2.1.size
      have hsum := sum_outstanding
        (fun k => 2 ^ kPktNumBits - (s.client.sslot_arr k).num_rx)
        (fun k => 2 ^ kPktNumBits - (c'.sslot_arr k).num_rx) j
        fun k hk => by rw [hadv.others k hk]
      rw [hadv.num_rx] at hsum
      simp only [remaining, hadv.same.finished]
      omega
  · have hsafe := h.finish hinv hready hfin
    obtain ⟨hlength, hcur⟩ := hfin.effect
    refine ⟨_, _, hstep, hsafe, rfl, fun k => Nat.lt_of_le_of_lt (hcur k) (hnum k), ?_⟩
    have hle := hsafe.finished_le
    change c'.finished.length ≤ s.enqueued.length at hle
    have hsum : ∑ k, (2 ^ kPktNumBits - (c'.sslot_arr k).num_rx) ≤
        kSessionReqWindow * 2 ^ kPktNumBits := by
      refine (Finset.sum_le_card_nsmul _ _ (2 ^ kPktNumBits) fun k _ => Nat.sub_le _ _).trans ?_
      rw [Finset.card_univ, Fintype.card_fin, smul_eq_mul]
    have hleft : s.enqueued.length - s.client.finished.length =
        s.enqueued.length - c'.finished.length + 1 := by omega
    simp only [remaining]
    rw [hleft, Nat.add_mul, Nat.one_mul]
    omega

/-- From every state that a session reaches, all requests can be finished, whatever was lost. -/
theorem Safe.drains (h : Safe t respSize s) (hnum : Numbered s)
    (hanswer : ∀ v i, (answer v i).data_size ≤ t.kMaxMsgSize ∧ (answer v i).data_size ≤ respSize) :
    ∃ w s', ((session t respSize).restrict (Answers answer)).Steps s w s' ∧
      s'.enqueued = s.enqueued ∧ ∀ a ∈ s'.enqueued, a.tag ∈ s'.client.finished.map Prod.fst := by
  generalize hn : remaining s = n
  induction n using Nat.strong_induction_on generalizing s with
  | _ n ih =>
    by_cases hopen : ∃ a ∈ s.enqueued, a.tag ∉ s.client.finished.map Prod.fst
    · obtain ⟨s₁, hprep₁, i, hsent₁⟩ := h.outstanding answer (h.active hopen)
      obtain ⟨s₂, hprep₂, hempty₂, htx₂⟩ := hprep₁.safe.reap answer i
      have hsent₂ : (s₂.client.sslot_arr i).num_rx < (s₂.client.sslot_arr i).num_tx := by
        rw [htx₂, hprep₂.num_rx]
        exact hsent₁
      obtain ⟨m, hm⟩ : ∃ m, (s₂.client.sslot_arr i).tx_msgbuf = some m := by
        obtain ⟨mc, mv, hs⟩ := hprep₂.safe.inv.slot i
        cases hs.client with
        | idle tx same settled sent => omega
        | unseen tx => exact ⟨_, tx⟩
        | requesting tx => exact ⟨_, tx⟩
        | reading q tx => exact ⟨_, tx⟩
      obtain ⟨s₃, hprep₃, hempty₃, hsent₃, hdue⟩ :=
        hprep₂.safe.resend answer hempty₂ hsent₂ hm
      have hprep := (hprep₁.trans hprep₂).trans hprep₃
      have hnum₃ := hprep.numbered hnum
      obtain ⟨s₄, hprep₄, hanswerable⟩ := hprep₃.safe.reply hanswer
        (Nat.lt_of_le_of_lt (Nat.le_add_right _ _) (hnum₃ i)) hempty₃ hsent₃
        ((hprep₃.same.tx_msgbuf i).trans hm) hdue
      have hprep' := hprep.trans hprep₄
      obtain ⟨w, s₅, hsteps, hsafe₅, henq₅, hnum₅, hless⟩ :=
        hprep₄.safe.advance answer (hprep'.numbered hnum) hanswerable
      obtain ⟨v, hv⟩ := hprep'.steps
      rw [hprep'.remaining, hn] at hless
      obtain ⟨w', s', hsteps', henq, hdone⟩ := ih _ hless hsafe₅ hnum₅ rfl
      exact ⟨_, s', (hv.trans hsteps).trans hsteps',
        henq.trans (henq₅.trans hprep'.enqueued), hdone⟩
    · refine ⟨[], s, .nil, rfl, fun a ha => ?_⟩
      by_contra hfin
      exact hopen ⟨a, ha, hfin⟩

/-- From every state that a session reaches, however much was lost on the way, the ends can finish
all requests, whatever the handler answers. -/
theorem finishes (h : (session t respSize).Reachable s) (hnum : Numbered s)
    (hanswer : ∀ v i, (answer v i).data_size ≤ t.kMaxMsgSize ∧ (answer v i).data_size ≤ respSize) :
    ∃ w s', ((session t respSize).restrict (Answers answer)).Steps s w s' ∧
      s'.enqueued = s.enqueued ∧ ∀ a ∈ s'.enqueued, a.tag ∈ s'.client.finished.map Prod.fst :=
  (safe_of_reachable h).drains hnum hanswer

theorem finishes_lost : ∃ s : State Nat, s.client.wire = [] ∧ s.enqueued.length = 1 ∧
    ∃ w s', ((session infiniband 4).restrict (Answers fun _ _ => ⟨default, 4, 4, fun _ => 9⟩)).Steps
      s w s' ∧ s'.enqueued = s.enqueued ∧
      ∀ a ∈ s'.enqueued, a.tag ∈ s'.client.finished.map Prod.fst := by
  have h₀ : (session infiniband 4).Reachable (State.initial : State Nat) := ⟨[], .nil rfl⟩
  have h₁ := reachable_next (x := .enqueue_request
    ⟨10, ⟨default, 4, 4, fun _ => 7⟩, ⟨default, 4, 4, fun _ => 0⟩, 0⟩ true) h₀
    ⟨List.not_mem_nil, by decide, by decide, by decide⟩ rfl
  have h₂ := reachable_next (x := .lose [] []) h₁ ⟨List.nil_subset _, List.nil_subset _⟩ rfl
  exact ⟨_, rfl, rfl, finishes h₂ (by unfold Numbered; decide) fun _ _ => ⟨by decide, by decide⟩⟩

end Erpc

end Galois
