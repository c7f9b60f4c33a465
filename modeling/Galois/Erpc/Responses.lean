import Galois.Erpc.Receiving
import Mathlib.Data.Fintype.Card

namespace Galois
set_option autoImplicit true
set_option relaxedAutoImplicit false

namespace Erpc

variable {τ : Type} {t : Transport} {K : Known} {c c' : Client τ} {v : Server} {i j : SlotIdx}
  {b m q mc mv : MsgBuffer} {p : Packet} {n k : Nat}

theorem acknowledge_eq (h : c.credits < kSessionCredits) :
    c.acknowledge i = some (acked i (c.sslot_arr i).resp_msgbuf c) := by
  simp only [Client.acknowledge, Client.bump_credits, guard, h, if_true, Option.pure_def,
    Option.bind_eq_bind, Option.bind_some]
  rfl

/-- The slot `i` has got an answer, and waits for more of them. -/
structure Advances (i : SlotIdx) (c c' : Client τ) : Prop where
  same : SameRequests c c'
  free : c'.sslot_free_vec = c.sslot_free_vec
  active : c'.active_rpcs = c.active_rpcs
  num_rx : (c'.sslot_arr i).num_rx = (c.sslot_arr i).num_rx + 1
  others : ∀ j, j ≠ i → c'.sslot_arr j = c.sslot_arr j
  ready : Ready c → Ready c'

theorem Sends.advances (h : Sends i n (acked i b c) c')
    (hbusy : (c.sslot_arr i).num_rx + 1 < (c.sslot_arr i).num_tx + n) : Advances i c c' := by
  have hself : (acked i b c).sslot_arr i = { c.sslot_arr i with
      num_rx := (c.sslot_arr i).num_rx + 1, resp_msgbuf := b } := modify_self _
  have hother : ∀ j, j ≠ i → (acked i b c).sslot_arr j = c.sslot_arr j :=
    fun j hj => Function.update_of_ne hj ..
  have hfield : ∀ {β : Type} (f : ClientSlot τ → β), (∀ s n k g w b, f { s with
      num_tx := n, num_rx := k, in_wheel := g, wheel_count := w, resp_msgbuf := b } = f s) →
      ∀ j, f (c'.sslot_arr j) = f (c.sslot_arr j) := by
    intro β f hf j
    by_cases hj : j = i
    · rw [hj, h.slot, hself]
      exact hf (c.sslot_arr i) _ _ _ _ _
    · rw [h.others j hj, hother j hj]
  have hnumtx := h.num_tx
  have hnumrx := h.num_rx
  have htx := hfield (fun s => s.tx_msgbuf) fun _ _ _ _ _ _ => rfl
  rw [hself] at hnumtx hnumrx
  dsimp only at hnumtx hnumrx
  refine ⟨⟨htx, hfield (fun s => s.cur_req_num) fun _ _ _ _ _ _ => rfl,
    hfield (fun s => s.tag) fun _ _ _ _ _ _ => rfl, ?_, ?_, ?_⟩, ?_, ?_, hnumrx,
    fun j hj => (h.others j hj).trans (hother j hj), fun hready => ⟨fun hne => ?_,
      fun j hj hnum => ?_⟩⟩
  all_goals try rw [h.rest]; rfl
  · rw [h.rest] at hne ⊢
    exact hready.backlog hne
  · rw [h.stallq]
    by_cases hji : j = i
    · subst hji
      omega
    · rw [h.others j hji, hother j hji] at hj hnum
      exact hready.stalled j hj hnum

theorem Inv.bumpable (h : Inv t K c v) (hlt : (c.sslot_arr i).num_rx < (c.sslot_arr i).num_tx) :
    c.credits < kSessionCredits := by
  have hout := h.outstanding_le i
  omega

theorem Inv.process_expl_cr_st (h : Inv t K c v) (hp : p ∈ v.wire)
    (hi : p.req_num % kSessionReqWindow = i) (hcr : p.pkt_type = .explCR) (uncongested : Bool) :
    Yields (c.process_expl_cr_st t i p uncongested) fun c' => Inv t K c' v ∧
      if (c.sslot_arr i).in_order_client p then Advances i c c' else c' = c := by
  obtain ⟨mc, mv, hs⟩ := h.slot i
  rw [Client.process_expl_cr_st]
  refine Yields.check (hs.req_num_le hp hi) ?_
  split
  · next hord => exact Yields.ret ⟨h, by rw [hord]; rfl⟩
  · next hord =>
    rw [Bool.not_eq_false] at hord
    obtain ⟨hans, hwheel⟩ := hs.answer hp hi hord
    have hlt := hans.sent
    have hrx := hans.rx
    have hmore : (c.sslot_arr i).num_rx + 1 < mv.num_pkts t := by
      obtain hmore | ⟨q, k, hq, hk, rfl, -⟩ := hans.answer
      · exact hmore.2
      · obtain ⟨-, -, hresp, -⟩ := hs.server.response hq
        rw [hresp.packet_pkt_type] at hcr
        cases hcr
    have hphase : ClientPhase t K mc mv { c.sslot_arr i with
        num_rx := (c.sslot_arr i).num_rx + 1, resp_msgbuf := (c.sslot_arr i).resp_msgbuf }
        (v.sslot_arr i) := by
      refine .requesting hans.tx hans.request hans.same hmore ?_ hrx
      cases hs.client with
      | idle tx same settled sent => omega
      | unseen tx request behind settled rx le =>
        have hsame := hans.same
        simp only [kSessionReqWindow] at behind
        omega
      | requesting tx request same lt le rx => exact le
      | reading q tx request same resp large ge => omega
    have hroom := hs.room (by rw [hans.tx]; rfl)
    have hinv := h.acked hs hlt hwheel hroom hphase
    have hself : (Erpc.acked i (c.sslot_arr i).resp_msgbuf c).sslot_arr i = { c.sslot_arr i with
        num_rx := (c.sslot_arr i).num_rx + 1 } := modify_self _
    rw [acknowledge_eq (h.bumpable hlt), Option.bind_eq_bind, Option.bind_some,
      ClientSlot.req_pkts_pending, hself]
    dsimp only
    simp only [hans.tx, hord, if_true]
    split
    · next hpending =>
      have hpending := of_decide_eq_true hpending
      refine (hinv.kick_req_st (Nat.succ_pos _) (by rw [hself]; exact hans.tx) ?_
        uncongested).mono fun c' hP => ?_
      · intro hmem
        have hzero := (h.lists.stalled i hmem).2
        omega
      · obtain ⟨hinv', n, hn, hsends, -⟩ := hP
        rw [hself] at hn
        dsimp only at hn
        have hcredit : 0 < (Erpc.acked i (c.sslot_arr i).resp_msgbuf c).credits := Nat.succ_pos _
        exact ⟨hinv', hsends.advances (by omega)⟩
    · next hpending =>
      rw [decide_eq_true_eq] at hpending
      exact Yields.ret ⟨hinv, Sends.refl.advances (by omega)⟩

def completed (i : SlotIdx) (b : MsgBuffer) (tag : τ) (c : Client τ) : Client τ :=
  { released i b c with finished := c.finished ++ [(tag, b)] }

/-- The slot `i`, which is free, is given to the first of the requests that wait for one. -/
inductive Refilled (i : SlotIdx) (c : Client τ) (K : Known) : Known → Client τ → Prop
  | nothing (backlog : c.enq_req_backlog = []) : Refilled i c K K c
  | next {a : EnqReqArgs τ} {backlog : List (EnqReqArgs τ)} {c' : Client τ}
      (waiting : c.enq_req_backlog = a :: backlog)
      (same : SameRequests ({ c with enq_req_backlog := backlog }.fillSlot i a) c') :
      Refilled i c K (K.name ((c.sslot_arr i).cur_req_num + kSessionReqWindow) a) c'

/-- The request of the slot `i` is finished with the response to it. -/
structure Finishes (K : Known) (i : SlotIdx) (c : Client τ) (K' : Known) (c' : Client τ) :
    Prop where
  finished : ∃ b tag q, (c.sslot_arr i).tx_msgbuf ≠ none ∧ (c.sslot_arr i).tag = some tag ∧
    K.response (c.sslot_arr i).cur_req_num q ∧ b.bytes = q.bytes ∧
    K.respSize ≤ b.max_data_size ∧ Refilled i (completed i b tag c) K K' c'

theorem Inv.wheel_count (h : Inv t K c v)
    (hlast : (c.sslot_arr i).num_tx = (c.sslot_arr i).num_rx + 1)
    (hwheel : (i, (c.sslot_arr i).num_rx) ∉ c.wheel) : (c.sslot_arr i).wheel_count = 0 := by
  obtain ⟨mc, mv, hs⟩ := h.slot i
  rw [hs.inWheel.count, List.countP_eq_zero]
  rintro ⟨j, k⟩ hk hj
  obtain rfl : j = i := of_decide_eq_true hj
  have hrange := hs.inWheel.range k hk
  obtain rfl : k = (c.sslot_arr j).num_rx := by omega
  exact hwheel hk

theorem Inv.relog (h : Inv t K c v) (backlog : List (EnqReqArgs τ))
    (hback : ∀ a ∈ backlog, a ∈ c.enq_req_backlog) (finished : List (τ × MsgBuffer)) :
    Inv t K { c with enq_req_backlog := backlog, finished := finished } v :=
  ⟨h.slot, { h.lists with waiting := fun a ha => h.lists.waiting a (hback a ha) }⟩

theorem Inv.finish (h : Inv t K c v) (hready : Ready c)
    (hs : Slot t K i (c.sslot_arr i) (v.sslot_arr i) c.wire v.wire c.wheel mc mv)
    (hactive : (c.sslot_arr i).tx_msgbuf ≠ none)
    (hlast : (c.sslot_arr i).num_tx = (c.sslot_arr i).num_rx + 1)
    (hwheel : (i, (c.sslot_arr i).num_rx) ∉ c.wheel)
    (hsame : (v.sslot_arr i).cur_req_num = (c.sslot_arr i).cur_req_num)
    (hq : (v.sslot_arr i).tx_msgbuf = some q) (hb : b.bytes = q.bytes)
    (hroom : K.respSize ≤ b.max_data_size) (uncongested : Bool) :
    Yields ((Erpc.acked i b c).finish t i uncongested) fun c' =>
      ∃ K', Inv t K' c' v ∧ Ready c' ∧ Finishes K i c K' c' := by
  obtain ⟨-, hsettled, hresp, -⟩ := hs.server.response hq
  have hinv := h.released hs hactive hlast hwheel hsame hsettled b
  have hself : (Erpc.acked i b c).sslot_arr i = { c.sslot_arr i with
      num_rx := (c.sslot_arr i).num_rx + 1, resp_msgbuf := b } := modify_self _
  have hnum : ((Erpc.released i b c).sslot_arr i).cur_req_num = (c.sslot_arr i).cur_req_num := by
    rw [Erpc.released, modify_self]
  have hother : ∀ j, j ≠ i → (Erpc.released i b c).sslot_arr j = c.sslot_arr j :=
    fun j hj => Function.update_of_ne hj ..
  have hknown := hresp.known
  rw [hsame] at hknown
  obtain ⟨tag, htag⟩ := Option.isSome_iff_exists.1 (hs.tag (Option.isSome_iff_ne_none.2 hactive))
  have hlength : (i :: c.sslot_free_vec).length ≤ kSessionReqWindow := by
    have hle := hinv.lists.free_nodup.length_le_card
    rw [Fintype.card_fin] at hle
    exact hle
  have hsending : ∀ j, ((Erpc.released i b c).sslot_arr j).tx_msgbuf ≠ none →
      ((Erpc.released i b c).sslot_arr j).num_tx = ((Erpc.released i b c).sslot_arr j).num_rx →
      j ∈ c.stallq := by
    intro j hj hjnum
    by_cases hji : j = i
    · rw [hji, Erpc.released, modify_self] at hj
      exact absurd rfl hj
    · rw [hother j hji] at hj hjnum
      exact hready.stalled j hj hjnum
  have hstep : { Erpc.acked i b c with
      active_rpcs := (Erpc.acked i b c).active_rpcs.erase i
      sslot_free_vec := i :: (Erpc.acked i b c).sslot_free_vec }.modify i
        (fun s => { s with tx_msgbuf := none }) = Erpc.released i b c := by
    simp only [Erpc.acked, Erpc.released, Client.modify, Function.update_self,
      Function.update_idem]
  rw [Client.finish, hself]
  dsimp only
  refine Yields.check (h.wheel_count hlast hwheel) ?_
  rw [htag, Option.bind_eq_bind, Option.bind_some]
  refine Yields.check (Nat.lt_of_succ_le hlength) ?_
  rw [hstep]
  have hback : (Erpc.released i b c).enq_req_backlog = c.enq_req_backlog := rfl
  cases hbacklog : c.enq_req_backlog with
  | nil =>
    rw [hback, hbacklog]
    refine Yields.ret ⟨K, ?_, ⟨fun hne => ?_, hsending⟩, b, tag, q, hactive, htag, hknown, hb,
      hroom, .nothing hbacklog⟩
    · exact hinv.relog _ (fun _ ha => ha) _
    · exact absurd hbacklog hne
  | cons a backlog =>
    rw [hback, hbacklog]
    have hempty : c.sslot_free_vec = [] := hready.backlog (by
      rw [hbacklog]
      exact List.cons_ne_nil _ _)
    have hfree : (Erpc.released i b c).sslot_free_vec = [i] := by
      change i :: c.sslot_free_vec = [i]
      rw [hempty]
    have ha : Acceptable t K a := by
      obtain ⟨htype, hsize, hroom⟩ := h.lists.waiting a (by rw [hbacklog]; exact List.mem_cons_self)
      exact ⟨htype, hsize, hroom⟩
    obtain ⟨c₁, hc₁, hinv₁, hen⟩ := hinv.enqueue_request ha hfree uncongested
    simp only [guard, hfree, List.length_singleton, if_true, hc₁, Option.pure_def,
      Option.bind_eq_bind, Option.bind_some]
    have hback₁ : c₁.enq_req_backlog = a :: backlog := hen.same.enq_req_backlog.trans hbacklog
    rw [hnum] at hinv₁
    refine Yields.ret ⟨_, hinv₁.relog backlog (fun x hx => ?_) _, ⟨fun _ => hen.free,
      hen.stalled_of hsending⟩, b, tag, q, hactive, htag, hknown, hb, hroom,
      ?_⟩
    · rw [hback₁]
      exact List.mem_cons_of_mem a hx
    · have hdone : ((completed i b tag c).sslot_arr i).cur_req_num =
          (c.sslot_arr i).cur_req_num := hnum
      rw [← hdone]
      refine .next (c := completed i b tag c) hbacklog ⟨hen.same.tx_msgbuf, hen.same.cur_req_num,
        hen.same.tag, rfl, hen.same.started, ?_⟩
      change c₁.finished ++ _ = _
      rw [hen.same.finished]
      rfl

theorem Slot.num_tx_le {s : ClientSlot τ} {u : ServerSlot} {toServer toClient : List Packet}
    {wheel : List (SlotIdx × Nat)} (hs : Slot t K i s u toServer toClient wheel mc mv)
    (hans : Answer t K s u mv p) (hq : u.tx_msgbuf = some q) : s.num_tx ≤ wire_pkts t mv q := by
  have hpos : 0 < q.num_pkts t := Transport.num_pkts_pos
  cases hs.client with
  | idle tx same settled sent =>
    have hsent := hans.sent
    omega
  | unseen tx request behind =>
    have hsame := hans.same
    simp only [kSessionReqWindow] at behind
    omega
  | requesting tx request same lt le rx =>
    rw [wire_pkts]
    omega
  | reading q' tx request same resp large ge lt le =>
    rw [resp] at hq
    cases hq
    exact le

theorem acked_modify (b b' : MsgBuffer) (c : Client τ) :
    (acked i b c).modify i (fun s => { s with resp_msgbuf := b' }) = acked i b' c := by
  simp only [acked, Client.modify, Function.update_self, Function.update_idem]

/-- The requests-for-response do not read the buffer behind the header. -/
theorem rfrs_acked_modify {b b' : MsgBuffer} (h : b'.pkthdr_0 = b.pkthdr_0) (c : Client τ) :
    (rfrs i n (acked i b c)).modify i (fun s => { s with resp_msgbuf := b' }) =
      rfrs i n (acked i b' c) := by
  simp only [rfrs, acked, Client.modify, Function.update_self, Function.update_idem, h]

def Progresses (K : Known) (i : SlotIdx) (p : Packet) (c : Client τ) (K' : Known)
    (c' : Client τ) : Prop :=
  if (c.sslot_arr i).in_order_client p then K' = K ∧ Advances i c c' ∨ Finishes K i c K' c'
  else K' = K ∧ c' = c

theorem Inv.read (h : Inv t K c v) (hready : Ready c)
    (hs : Slot t K i (c.sslot_arr i) (v.sslot_arr i) c.wire v.wire c.wheel mc mv)
    (hans : Answer t K (c.sslot_arr i) (v.sslot_arr i) mv (q.packet t k))
    (hwheel : (i, (c.sslot_arr i).num_rx) ∉ c.wheel)
    (hq : (v.sslot_arr i).tx_msgbuf = some q) (hlarge : t.kMaxDataPerPkt < q.data_size)
    (hk : k < q.num_pkts t) (hnum : (c.sslot_arr i).num_rx + 1 = mv.num_pkts t + k)
    (hroom : K.respSize ≤ b.max_data_size)
    (hhdr : b.pkthdr_0.req_num = (c.sslot_arr i).cur_req_num % 2 ^ kReqNumBits)
    (hrec : q.Received t b k) (uncongested : Bool) :
    Yields (do
      let c ← if (c.sslot_arr i).num_tx ≠ wire_pkts t mv b then (Erpc.acked i b c).kick_rfr_st t i
        else some (Erpc.acked i b c)
      let resp_msgbuf := b.copy_data_to_msgbuf t k (q.packet t k)
      let c := c.modify i fun s => { s with resp_msgbuf := resp_msgbuf }
      if (c.sslot_arr i).num_rx ≠ wire_pkts t mv resp_msgbuf then some c
      else c.finish t i uncongested) fun c' =>
        ∃ K', Inv t K' c' v ∧ Ready c' ∧ (K' = K ∧ Advances i c c' ∨ Finishes K i c K' c') := by
  obtain ⟨-, -, hresp, -⟩ := hs.server.response hq
  have hsent := hans.sent
  have hle := hs.num_tx_le hans hq
  have hpos : 0 < mv.num_pkts t := Transport.num_pkts_pos
  have hrec' := hrec.copy hresp.msg_size
  set b' := b.copy_data_to_msgbuf t k (q.packet t k) with hb'
  have hwire : wire_pkts t mv b = wire_pkts t mv q := by
    simp only [wire_pkts, MsgBuffer.num_pkts, hrec.size]
  have hwire' : wire_pkts t mv b' = wire_pkts t mv q := by
    simp only [wire_pkts, MsgBuffer.num_pkts, hrec'.size]
  have hself : (Erpc.acked i b c).sslot_arr i = { c.sslot_arr i with
      num_rx := (c.sslot_arr i).num_rx + 1, resp_msgbuf := b } := modify_self _
  have hself' : (Erpc.acked i b' c).sslot_arr i = { c.sslot_arr i with
      num_rx := (c.sslot_arr i).num_rx + 1, resp_msgbuf := b' } := modify_self _
  have hstalled : i ∉ c.stallq := by
    intro hmem
    have hzero := (h.lists.stalled i hmem).2
    omega
  by_cases hlast : k + 1 = q.num_pkts t
  · -- all packets have been asked for, so nothing more is sent
    have hall : (c.sslot_arr i).num_rx + 1 = wire_pkts t mv q := by
      rw [wire_pkts]
      omega
    rw [if_neg (by rw [hwire]; omega), Option.bind_eq_bind, Option.bind_some]
    dsimp only
    rw [acked_modify, if_neg (by rw [hself', hwire', not_not]; exact hall)]
    refine (h.finish hready hs (by rw [hans.tx]; exact Option.some_ne_none _) (by omega)
      hwheel hans.same hq ?_ (by exact hroom) uncongested).mono fun c' hP => ?_
    · rw [hlast] at hrec'
      exact hrec'.bytes_eq
    · obtain ⟨K', hinv, hready', hfin⟩ := hP
      exact ⟨K', hinv, hready', .inr hfin⟩
  · have hlt : (c.sslot_arr i).num_rx + 1 < wire_pkts t mv q := by
      rw [wire_pkts]
      omega
    have hphase : ClientPhase t K mc mv { c.sslot_arr i with
        num_rx := (c.sslot_arr i).num_rx + 1, resp_msgbuf := b' } (v.sslot_arr i) := by
      refine .reading q hans.tx hans.request hans.same hq hlarge ?_ hlt hle hans.rx hhdr ?_
      · dsimp only
        omega
      · have hntoi : resp_ntoi ((c.sslot_arr i).num_rx + 1) (mv.num_pkts t) = k + 1 := by
          rw [resp_ntoi]
          omega
        rw [hntoi]
        exact hrec'
    have hinv := h.acked (b := b') hs hsent hwheel hroom hphase
    by_cases hmore : (c.sslot_arr i).num_tx = wire_pkts t mv q
    · rw [if_neg (by rw [hwire, not_not]; exact hmore), Option.bind_eq_bind, Option.bind_some]
      dsimp only
      rw [acked_modify, if_pos (by rw [hself', hwire']; exact Nat.ne_of_lt hlt)]
      have hadv : Advances i c (Erpc.acked i b' c) := Sends.refl.advances (by omega)
      exact Yields.ret ⟨K, hinv, hadv.ready hready, .inl ⟨rfl, hadv⟩⟩
    · have hcredit : 0 < (Erpc.acked i b c).credits := Nat.succ_pos _
      rw [if_pos (by rwa [hwire]), kick_rfr_st_eq (m := mv) hcredit (by rw [hself]; exact hans.tx)
        (by rw [hself]; dsimp only; omega) (by rw [hself]; dsimp only; rwa [hwire]),
        Option.bind_eq_bind, Option.bind_some, hself]
      dsimp only
      rw [hwire, rfrs_acked_modify (by rfl)]
      set n := min (Erpc.acked i b c).credits (wire_pkts t mv q - (c.sslot_arr i).num_tx) with hn
      have hsends : Sends i n (Erpc.acked i b' c) (Erpc.rfrs i n (Erpc.acked i b' c)) :=
        sends_rfrs (Nat.min_le_left _ _)
      have hrx := hsends.num_rx
      rw [hself'] at hrx
      dsimp only at hrx
      rw [if_pos (by rw [hrx, hwire']; exact Nat.ne_of_lt hlt)]
      have hadv : Advances i c (Erpc.rfrs i n (Erpc.acked i b' c)) := hsends.advances (by omega)
      refine Yields.ret ⟨K, hinv.rfrs (m := mv) ?_ ?_ (Nat.min_le_left _ _) ?_ hstalled,
        hadv.ready hready, .inl ⟨rfl, hadv⟩⟩
      · rw [hself']
        exact hans.tx
      · rw [hself']
        dsimp only
        omega
      · rw [hself']
        dsimp only
        rw [hwire']
        omega

theorem Inv.process_resp_one_st (h : Inv t K c v) (hready : Ready c) (hp : p ∈ v.wire)
    (hi : p.req_num % kSessionReqWindow = i) (htype : p.pkt_type = .resp) (uncongested : Bool) :
    Yields (c.process_resp_one_st t i p uncongested) fun c' =>
      ∃ K', Inv t K' c' v ∧ Ready c' ∧ Progresses K i p c K' c' := by
  obtain ⟨mc, mv, hs⟩ := h.slot i
  rw [Client.process_resp_one_st]
  refine Yields.check (hs.req_num_le hp hi) ?_
  split
  · next hord =>
    refine Yields.ret ⟨K, h, hready, ?_⟩
    rw [Progresses, if_neg (by rw [hord]; exact Bool.false_ne_true)]
    exact ⟨rfl, rfl⟩
  · next hord =>
    rw [Bool.not_eq_false] at hord
    obtain ⟨hans, hwheel⟩ := hs.answer hp hi hord
    have hsent := hans.sent
    simp only [Progresses, if_pos hord]
    obtain ⟨hcr, -⟩ | ⟨q, k, hq, hk, rfl, hnum⟩ := hans.answer
    · rw [htype] at hcr
      cases hcr
    · obtain ⟨-, -, hresp, -⟩ := hs.server.response hq
      have hpos : 0 < mv.num_pkts t := Transport.num_pkts_pos
      have hle := hs.num_tx_le hans hq
      have hroom := hs.room (by rw [hans.tx]; rfl)
      have hfits : q.data_size ≤ (c.sslot_arr i).resp_msgbuf.max_data_size :=
        hresp.fits.trans hroom
      have hpkt := hresp.packet_pkt_num hans.request.pkts_le hk
      have hself : ∀ b, (Erpc.acked i b c).sslot_arr i = { c.sslot_arr i with
          num_rx := (c.sslot_arr i).num_rx + 1, resp_msgbuf := b } := fun _ => modify_self _
      rw [acknowledge_eq (h.bumpable hsent), Option.bind_eq_bind, Option.bind_some, hself]
      dsimp only
      rw [hresp.packet_msg_size]
      split
      · next hsmall =>
        have hone : q.num_pkts t = 1 := Transport.num_pkts_eq_one.2 hsmall
        obtain rfl : k = 0 := by omega
        rw [MsgBuffer.resize_yields hfits, Option.bind_eq_bind, Option.bind_some, acked_modify]
        have hwire : (c.sslot_arr i).num_rx + 1 = wire_pkts t mv q := by
          rw [wire_pkts, hone]
          omega
        refine (h.finish hready hs (by rw [hans.tx]; exact Option.some_ne_none _) (by omega)
          hwheel hans.same hq ?_ (by exact hroom) uncongested).mono fun c' hP => ?_
        · refine MsgBuffer.Received.bytes_eq (t := t) ?_
          rw [hone]
          exact MsgBuffer.Received.copy (.nothing rfl) hresp.msg_size
        · obtain ⟨K', hinv, hready', hfin⟩ := hP
          exact ⟨K', hinv, hready', .inr hfin⟩
      · next hlarge =>
        rw [Nat.not_le] at hlarge
        have hindex : resp_ntoi (q.packet t k).pkt_num (mv.num_pkts t) = k := by
          rw [hpkt, resp_ntoi]
          omega
        rw [hans.tx, Option.bind_eq_bind, Option.bind_some, hindex]
        simp only [acked_modify, hself]
        by_cases hfirst : k = 0
        · subst hfirst
          rw [if_pos (by rw [hpkt, Nat.add_zero]), MsgBuffer.resize_yields hfits]
          exact h.read (b := { (c.sslot_arr i).resp_msgbuf with
              data_size := q.data_size, pkthdr_0 := (q.packet t 0).toPktHdr })
            hready hs hans hwheel hq hlarge hk hnum hroom
            (by rw [← hans.same]; exact hresp.packet_req_num) (.nothing rfl) uncongested
        · rw [if_neg (by rw [hpkt]; omega)]
          obtain ⟨hhdr, hrec⟩ : (c.sslot_arr i).resp_msgbuf.pkthdr_0.req_num =
              (c.sslot_arr i).cur_req_num % 2 ^ kReqNumBits ∧
                q.Received t (c.sslot_arr i).resp_msgbuf k := by
            cases hs.client with
            | idle tx same settled sent => omega
            | unseen tx request behind =>
              have hsame := hans.same
              simp only [kSessionReqWindow] at behind
              omega
            | requesting tx request same lt => omega
            | reading q' tx request same resp large ge lt le rx hdr received =>
              rw [resp] at hq
              cases hq
              have hntoi : resp_ntoi (c.sslot_arr i).num_rx (mv.num_pkts t) = k := by
                rw [resp_ntoi]
                omega
              rw [hntoi] at received
              exact ⟨hdr, received⟩
          exact h.read hready hs hans hwheel hq hlarge hk hnum hroom hhdr hrec uncongested

/-- The client takes every packet that the server has sent, in any order and any number of times. -/
theorem Inv.clientRx (h : Inv t K c v) (hready : Ready c) (hp : p ∈ v.wire)
    (uncongested : Bool) : Yields (c.process_comp t p uncongested) fun c' =>
      ∃ K' i, p.req_num % kSessionReqWindow = i.val ∧ Inv t K' c' v ∧ Ready c' ∧
        Progresses K i p c K' c' := by
  set i : SlotIdx := ⟨p.req_num % kSessionReqWindow, p.slot_lt⟩ with hi
  have hslot : p.req_num % kSessionReqWindow = i := rfl
  obtain ⟨mc, mv, hs⟩ := h.slot i
  obtain ⟨n, hn⟩ := hs.toClient p hp hslot
  rw [Client.process_comp]
  obtain htype | htype := hn.pkt_type
  · rw [htype]
    refine (h.process_expl_cr_st hp hslot htype uncongested).mono fun c' hP => ?_
    obtain ⟨hinv, hout⟩ := hP
    split at hout
    · next hord => exact ⟨K, i, hslot, hinv, hout.ready hready, by
        rw [Progresses, if_pos hord]; exact .inl ⟨rfl, hout⟩⟩
    · next hord => exact ⟨K, i, hslot, hinv, hout ▸ hready, by
        rw [Progresses, if_neg hord]; exact ⟨rfl, hout⟩⟩
  · rw [htype]
    refine (h.process_resp_one_st hready hp hslot htype uncongested).mono fun c' hP => ?_
    obtain ⟨K', hinv, hready', hout⟩ := hP
    exact ⟨K', i, hslot, hinv, hready', hout⟩

end Erpc

end Galois
