import Galois.Erpc.Enqueue

namespace Galois
set_option autoImplicit true
set_option relaxedAutoImplicit false

namespace Erpc

variable {τ : Type} {t : Transport} {K : Known} {c c' : Client τ} {v : Server} {i j : SlotIdx}
  {m mc mv : MsgBuffer} {n k : Nat}

/-- The client has acknowledged and started nothing, and what was sent still counts as sent. -/
structure Keeps (c c' : Client τ) : Prop where
  same : SameRequests c c'
  free : c'.sslot_free_vec = c.sslot_free_vec
  active : c'.active_rpcs = c.active_rpcs
  num_rx : ∀ i, (c'.sslot_arr i).num_rx = (c.sslot_arr i).num_rx
  resp_msgbuf : ∀ i, (c'.sslot_arr i).resp_msgbuf = (c.sslot_arr i).resp_msgbuf
  ready : Ready c → Ready c'

theorem Keeps.refl (c : Client τ) : Keeps c c :=
  ⟨.refl c, rfl, rfl, fun _ => rfl, fun _ => rfl, id⟩

theorem Keeps.trans {c'' : Client τ} (h : Keeps c c') (h' : Keeps c' c'') : Keeps c c'' :=
  ⟨h.same.trans h'.same, h'.free.trans h.free, h'.active.trans h.active,
    fun i => (h'.num_rx i).trans (h.num_rx i),
    fun i => (h'.resp_msgbuf i).trans (h.resp_msgbuf i), h'.ready ∘ h.ready⟩

theorem Sends.keeps (h : Sends i n c c') (hc : (c.sslot_arr i).num_rx ≤ (c.sslot_arr i).num_tx) :
    Keeps c c' := by
  have htx := h.num_tx
  have hrx := h.num_rx
  refine ⟨h.sameRequests, by rw [h.rest], by rw [h.rest], fun j => ?_, fun j => ?_,
    fun hready => ?_⟩
  · by_cases hj : j = i
    · rw [hj, hrx]
    · rw [h.others j hj]
  · by_cases hj : j = i
    · rw [hj, h.slot]
    · rw [h.others j hj]
  · refine ⟨fun hne => ?_, fun j hj hnum => ?_⟩
    · rw [h.rest] at hne ⊢
      exact hready.backlog hne
    · rw [h.tx_msgbuf] at hj
      rw [h.stallq]
      by_cases hji : j = i
      · subst hji
        exact hready.stalled j hj (by omega)
      · rw [h.others j hji] at hnum
        exact hready.stalled j hj hnum

/-- The packet that a slot needs an answer to, when nothing of it is under way. -/
def due (t : Transport) (m : MsgBuffer) (s : ClientSlot τ) : Packet :=
  if s.num_rx < m.num_pkts t then m.packet t s.num_rx
  else Client.rfr s.resp_msgbuf.pkthdr_0 s.num_rx

theorem Inv.kick (h : Inv t K c v) (hcredit : 0 < c.credits)
    (hm : (c.sslot_arr i).tx_msgbuf = some m)
    (hnum : (c.sslot_arr i).num_tx = (c.sslot_arr i).num_rx) (hi : i ∉ c.stallq)
    (uncongested : Bool) :
    Yields (c.kick t i uncongested) fun c' => Inv t K c' v ∧ ∃ n, 0 < n ∧ Sends i n c c' ∧
      (c.can_bypass_wheel i uncongested = true →
        c'.wheel = c.wheel ∧ due t m (c.sslot_arr i) ∈ c'.wire) := by
  have hpending : (c.sslot_arr i).req_pkts_pending t =
      decide ((c.sslot_arr i).num_tx < m.num_pkts t) := by
    rw [ClientSlot.req_pkts_pending, hm]
  rw [Client.kick, hpending]
  by_cases hlt : (c.sslot_arr i).num_tx < m.num_pkts t
  · rw [if_pos (decide_eq_true hlt)]
    refine (h.kick_req_st hcredit hm hi uncongested).mono fun c' hP => ?_
    obtain ⟨hinv, n, hn, hsends, hbypass⟩ := hP
    refine ⟨hinv, n, by omega, hsends, fun hby => ?_⟩
    obtain ⟨hwheel, hwire⟩ := hbypass hby
    refine ⟨hwheel, ?_⟩
    rw [hwire, due, if_pos (hnum ▸ hlt), List.mem_append, List.mem_map]
    exact .inr ⟨0, List.mem_range.2 (by omega), by rw [hnum, Nat.add_zero]⟩
  · rw [if_neg (by rwa [decide_eq_true_eq])]
    obtain ⟨mc, mv, hs⟩ := h.slot i
    have hge : m.num_pkts t ≤ (c.sslot_arr i).num_rx := by omega
    have hwant : (c.sslot_arr i).num_rx < wire_pkts t m (c.sslot_arr i).resp_msgbuf := by
      cases hs.client with
      | idle tx =>
        rw [tx] at hm
        cases hm
      | unseen tx request behind settled rx le =>
        have hpos := Transport.num_pkts_pos (t := t) (n := m.data_size)
        simp only [MsgBuffer.num_pkts] at hge
        omega
      | requesting tx request same lt =>
        rw [tx] at hm
        cases hm
        omega
      | reading q tx request same resp large ge lt le rx hdr received =>
        rw [tx] at hm
        cases hm
        simpa only [wire_pkts, MsgBuffer.num_pkts, received.size] using lt
    rw [kick_rfr_st_eq hcredit hm hge hwant]
    have hle := Nat.min_le_left c.credits
      (wire_pkts t m (c.sslot_arr i).resp_msgbuf - (c.sslot_arr i).num_tx)
    refine Yields.ret ⟨h.rfrs hm hge hle (by omega) hi, _, by omega, sends_rfrs hle, fun _ =>
      ⟨rfl, ?_⟩⟩
    rw [due, if_neg (by omega), Erpc.rfrs, Client.modify, List.mem_append, List.mem_map]
    exact .inr ⟨0, List.mem_range.2 (by omega), by rw [hnum, Nat.add_zero]⟩

/-- The stalled slots that `process_credit_stall_queue_st` has not come to yet are as they were. -/
structure Unstalling (c : Client τ) (passed : List SlotIdx) (c' : Client τ) : Prop where
  same : SameRequests c c'
  free : c'.sslot_free_vec = c.sslot_free_vec
  active : c'.active_rpcs = c.active_rpcs
  num_rx : ∀ i, (c'.sslot_arr i).num_rx = (c.sslot_arr i).num_rx
  resp_msgbuf : ∀ i, (c'.sslot_arr i).resp_msgbuf = (c.sslot_arr i).resp_msgbuf
  stalled : ∀ i ∈ c'.stallq, i ∈ passed
  others : ∀ i, i ∉ passed → c'.sslot_arr i = c.sslot_arr i
  busy : ∀ i ∈ passed, (c'.sslot_arr i).num_tx = (c'.sslot_arr i).num_rx → i ∈ c'.stallq
  credits : c'.credits ≤ c.credits
  used : passed ≠ [] → 0 < c.credits → c'.credits < c.credits

theorem Unstalling.kick {c'' : Client τ} {passed : List SlotIdx} (h : Unstalling c passed c')
    (hi : i ∉ passed) (hsends : Sends i n c' c'') (hn : 0 < n)
    (hc : (c'.sslot_arr i).num_rx ≤ (c'.sslot_arr i).num_tx) :
    Unstalling c (passed ++ [i]) c'' := by
  have hkeeps := hsends.keeps hc
  have hused := hsends.credits
  have htx := hsends.num_tx
  have hrx := hsends.num_rx
  have hcredits := h.credits
  refine ⟨h.same.trans hkeeps.same, hkeeps.free.trans h.free, hkeeps.active.trans h.active,
    fun j => (hkeeps.num_rx j).trans (h.num_rx j),
    fun j => (hkeeps.resp_msgbuf j).trans (h.resp_msgbuf j), fun j hj => ?_, fun j hj => ?_,
    fun j hj hnum => ?_, by omega, fun _ _ => by omega⟩
  · rw [hsends.stallq] at hj
    exact List.mem_append_left _ (h.stalled j hj)
  · rw [List.mem_append, List.mem_singleton, not_or] at hj
    exact (hsends.others j hj.2).trans (h.others j hj.1)
  · rw [List.mem_append, List.mem_singleton] at hj
    by_cases hji : j = i
    · subst hji
      omega
    · rw [hsends.others j hji] at hnum
      rw [hsends.stallq]
      exact h.busy j (hj.resolve_right hji) hnum

theorem Unstalling.stall {passed : List SlotIdx} (h : Unstalling c passed c')
    (hcredit : c'.credits = 0) :
    Unstalling c (passed ++ [i]) { c' with stallq := c'.stallq ++ [i] } := by
  refine ⟨⟨h.same.tx_msgbuf, h.same.cur_req_num, h.same.tag, h.same.enq_req_backlog,
    h.same.started, h.same.finished⟩, h.free, h.active, h.num_rx, h.resp_msgbuf, fun j hj => ?_,
    fun j hj => h.others j fun hj' => hj (List.mem_append_left _ hj'), fun j hj hnum => ?_,
    h.credits, fun _ hpos => ?_⟩
  · rw [List.mem_append] at hj ⊢
    exact hj.imp_left (h.stalled j)
  · rw [List.mem_append] at hj ⊢
    exact hj.imp_left fun hj' => h.busy j hj' hnum
  · change c'.credits < c.credits
    omega

theorem Inv.process_credit_stall_queue_st (h : Inv t K c v) (uncongested : Bool) :
    Yields (c.process_credit_stall_queue_st t uncongested) fun c' => Inv t K c' v ∧
      Keeps c c' ∧ (c.stallq ≠ [] → 0 < c.credits → c'.credits < c.credits) := by
  have hstart : Inv t K { c with stallq := [] } v :=
    ⟨h.slot, { h.lists with stalled_nodup := List.nodup_nil, stalled := nofun }⟩
  have hnothing : Unstalling c [] { c with stallq := [] } :=
    ⟨⟨fun _ => rfl, fun _ => rfl, fun _ => rfl, rfl, rfl, rfl⟩, rfl, rfl, fun _ => rfl,
      fun _ => rfl, nofun, fun _ _ => rfl, nofun, Nat.le_refl _, fun hne => absurd rfl hne⟩
  rw [Client.process_credit_stall_queue_st]
  refine (Yields.foldlM (P := fun passed c' => Inv t K c' v ∧ Unstalling c passed c')
    (fun passed i rest c' hl hP => ?_) ⟨hstart, hnothing⟩).mono fun c' hP => ?_
  · obtain ⟨hinv, hun⟩ := hP
    have hmem : i ∈ c.stallq := by
      rw [hl, List.mem_append]
      exact .inr List.mem_cons_self
    have hpassed : i ∉ passed := by
      have hnodup := h.lists.stalled_nodup
      rw [hl, List.nodup_append] at hnodup
      exact fun hi => hnodup.2.2 i hi i List.mem_cons_self rfl
    have hi : i ∉ c'.stallq := fun hi => hpassed (hun.stalled i hi)
    obtain ⟨htx, hzero⟩ := h.lists.stalled i hmem
    obtain ⟨mc, mv, hs⟩ := h.slot i
    have hcounts := hs.counts
    have hslot := hun.others i hpassed
    split
    · next hcredit =>
      obtain ⟨m, hm⟩ := Option.ne_none_iff_exists'.1 htx
      refine (hinv.kick hcredit (hslot ▸ hm) (by rw [hslot]; omega) hi uncongested).mono
        fun c'' hQ => ?_
      obtain ⟨hinv', n, hn, hsends, -⟩ := hQ
      exact ⟨hinv', hun.kick hpassed hsends hn (hslot ▸ hcounts)⟩
    · next hcredit =>
      refine Yields.ret ⟨hinv.stall hi ?_ ?_, hun.stall (by omega)⟩
      · rwa [hslot]
      · rw [hslot, hzero]
  · obtain ⟨hinv, hun⟩ := hP
    refine ⟨hinv, ⟨hun.same, hun.free, hun.active, hun.num_rx, hun.resp_msgbuf, fun hready => ?_⟩,
      hun.used⟩
    refine ⟨fun hne => ?_, fun j hj hnum => ?_⟩
    · rw [hun.same.enq_req_backlog] at hne
      rw [hun.free]
      exact hready.backlog hne
    · by_cases hj' : j ∈ c.stallq
      · exact hun.busy j hj' hnum
      · rw [hun.others j hj'] at hj hnum
        exact absurd (hready.stalled j hj hnum) hj'

theorem ClientPhase.reaped {s : ClientSlot τ} {u : ServerSlot} (h : ClientPhase t K mc mv s u)
    (f : Nat → Bool) (w : Nat) :
    ClientPhase t K mc mv { s with wheel_count := w, in_wheel := f } u := by
  cases h with
  | idle tx same settled sent => exact .idle tx same settled sent
  | unseen tx request behind settled rx le => exact .unseen tx request behind settled rx le
  | requesting tx request same lt le rx => exact .requesting tx request same lt le rx
  | reading q tx request same resp large ge lt le rx hdr received =>
    exact .reading q tx request same resp large ge lt le rx hdr received

/-- No two packets in the wheel share a flag, since there are no more of them than credits. -/
theorem Inv.outstanding_le (h : Inv t K c v) (i : SlotIdx) :
    c.credits + ((c.sslot_arr i).num_tx - (c.sslot_arr i).num_rx) ≤ kSessionCredits := by
  have hone := Finset.single_le_sum
    (f := fun j => (c.sslot_arr j).num_tx - (c.sslot_arr j).num_rx) (fun j _ => Nat.zero_le _)
    (Finset.mem_univ i)
  have hall := h.lists.credits
  omega

theorem InWheel.reap {s : ClientSlot τ} {wheel : List (SlotIdx × Nat)} (h : InWheel t i s wheel)
    (hnodup : wheel.Nodup) (hle : s.num_tx - s.num_rx ≤ kSessionCredits) (hk : (i, k) ∈ wheel) :
    InWheel t i { s with
      wheel_count := s.wheel_count - 1
      in_wheel := Function.update s.in_wheel (k % kSessionCredits) false }
      (wheel.erase (i, k)) := by
  have hmem : ∀ k', (i, k') ∈ wheel.erase (i, k) ↔ k' ≠ k ∧ (i, k') ∈ wheel := by
    intro k'
    rw [hnodup.mem_erase_iff]
    simp only [ne_eq, Prod.mk.injEq, true_and]
  constructor
  case range => exact fun k' hk' => h.range k' ((hmem k').1 hk').2
  case request => exact fun k' hk' => h.request k' ((hmem k').1 hk').2
  case flag =>
    intro x
    simp only [hmem, Function.update_apply]
    split
    · next hx =>
      refine iff_of_false Bool.false_ne_true ?_
      rintro ⟨k', ⟨hne, hk'⟩, hx'⟩
      have hr := h.range k hk
      have hr' := h.range k' hk'
      simp only [kSessionCredits] at hx hx' hle
      omega
    · next hx =>
      rw [h.flag x]
      constructor
      · rintro ⟨k', hk', hkx⟩
        refine ⟨k', ⟨?_, hk'⟩, hkx⟩
        rintro rfl
        exact hx hkx.symm
      · rintro ⟨k', ⟨-, hk'⟩, hkx⟩
        exact ⟨k', hk', hkx⟩
  case count =>
    change s.wheel_count - 1 = _
    rw [h.count, List.countP_erase, if_pos]
    exact ⟨hk, decide_eq_true rfl⟩

theorem Inv.process_wheel_st (h : Inv t K c v) (hk : (i, k) ∈ c.wheel) :
    Yields (c.process_wheel_st t i k) fun c' => Inv t K c' v ∧ Keeps c c' ∧
      (∀ j, (c'.sslot_arr j).num_tx = (c.sslot_arr j).num_tx) ∧
      c'.wheel = c.wheel.erase (i, k) := by
  obtain ⟨mc, mv, hs⟩ := h.slot i
  have hrange := hs.inWheel.range k hk
  have hactive : (c.sslot_arr i).tx_msgbuf ≠ none := by
    intro hnone
    cases hs.client with
    | idle tx same settled sent => omega
    | unseen tx =>
      rw [tx] at hnone
      cases hnone
    | requesting tx =>
      rw [tx] at hnone
      cases hnone
    | reading q tx =>
      rw [tx] at hnone
      cases hnone
  obtain ⟨m, hm⟩ := Option.ne_none_iff_exists'.1 hactive
  have hlt := hs.inWheel.request k hk m hm
  have hpacket := hs.sendable hm hlt
  rw [Client.process_wheel_st]
  refine Yields.check hk ?_
  simp only [hm, hlt, if_true, Client.enqueue_pkt_tx_burst_st, Option.bind_eq_bind,
    Option.bind_some]
  refine Yields.ret ?_
  set c' : Client τ := { c with
      wire := c.wire ++ [m.packet t k]
      wheel := c.wheel.erase (i, k) }.modify i fun s =>
    { s with
      wheel_count := s.wheel_count - 1
      in_wheel := Function.update s.in_wheel (k % kSessionCredits) false } with hc'
  have hself : c'.sslot_arr i = { c.sslot_arr i with
      wheel_count := (c.sslot_arr i).wheel_count - 1
      in_wheel := Function.update (c.sslot_arr i).in_wheel (k % kSessionCredits) false } :=
    modify_self _
  have hother : ∀ j, j ≠ i → c'.sslot_arr j = c.sslot_arr j :=
    fun j hj => Function.update_of_ne hj ..
  have hsame : ∀ j, ∃ f w, c'.sslot_arr j = { c.sslot_arr j with
      in_wheel := f, wheel_count := w } := by
    intro j
    by_cases hj : j = i
    · subst hj
      exact ⟨_, _, hself⟩
    · exact ⟨_, _, hother j hj⟩
  have hfield : ∀ {β : Type} (f : ClientSlot τ → β),
      (∀ s g w, f { s with in_wheel := g, wheel_count := w } = f s) →
      ∀ j, f (c'.sslot_arr j) = f (c.sslot_arr j) := by
    intro β f hf j
    obtain ⟨g, w, hj⟩ := hsame j
    rw [hj, hf]
  have htx := hfield (fun s => s.tx_msgbuf) fun _ _ _ => rfl
  have hnumtx := hfield (fun s => s.num_tx) fun _ _ _ => rfl
  have hnumrx := hfield (fun s => s.num_rx) fun _ _ _ => rfl
  refine ⟨?_, ?_, hnumtx, rfl⟩
  · refine h.client i hother (fun p hp => ?_) (fun j hj k' => ?_) (fun j hj => ?_) ⟨mc, mv, ?_⟩ ?_
    · rw [hc', Client.modify, List.mem_append, List.mem_singleton] at hp
      refine hp.imp_right ?_
      rintro rfl
      rw [hpacket.req_num, req_num_slot, hpacket.slot]
    · change (j, k') ∈ c.wheel.erase (i, k) ↔ _
      rw [h.lists.wheel.mem_erase_iff]
      refine and_iff_right fun he => hj ?_
      exact congrArg Prod.fst he
    · change ((c.wheel.erase (i, k)).countP fun e => e.1 = j) = _
      rw [List.countP_erase, if_neg, Nat.sub_zero]
      rintro ⟨-, he⟩
      exact hj (of_decide_eq_true he).symm
    · rw [hself]
      have hout := h.outstanding_le i
      refine ⟨hs.number, hs.counts, hs.room, hs.tag, ?_, hs.server, fun p hp hpi => ?_,
        hs.toClient, hs.inWheel.reap h.lists.wheel (by omega) hk⟩
      · exact hs.client.reaped _ _
      · rw [hc', Client.modify, List.mem_append, List.mem_singleton] at hp
        obtain hp | rfl := hp
        · exact hs.toServer p hp hpi
        · exact ⟨_, hpacket⟩
    · have hlists := h.lists
      refine ⟨?_, hlists.wheel.erase _, hlists.free_nodup, fun j => ?_, hlists.active_nodup,
        fun j => ?_, hlists.stalled_nodup, fun j hj => ?_, hlists.waiting⟩
      · simp only [hnumtx, hnumrx]
        exact hlists.credits
      · rw [htx]
        exact hlists.free j
      · rw [htx]
        exact hlists.active j
      · rw [htx, hnumtx]
        exact hlists.stalled j hj
  · refine ⟨⟨htx, hfield (fun s => s.cur_req_num) fun _ _ _ => rfl,
      hfield (fun s => s.tag) fun _ _ _ => rfl, rfl, rfl, rfl⟩, rfl, rfl, hnumrx,
      hfield (fun s => s.resp_msgbuf) fun _ _ _ => rfl, fun hready => ⟨hready.backlog,
        fun j hj hnum => ?_⟩⟩
    rw [htx] at hj
    rw [hnumtx, hnumrx] at hnum
    exact hready.stalled j hj hnum

end Erpc

end Galois
