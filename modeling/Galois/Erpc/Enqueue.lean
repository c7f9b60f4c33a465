import Galois.Erpc.Sending

namespace Galois
set_option autoImplicit true
set_option relaxedAutoImplicit false

namespace Erpc

variable {τ : Type} {t : Transport} {K : Known} {c c' : Client τ} {v : Server} {i j : SlotIdx}
  {m mc mv : MsgBuffer} {a : EnqReqArgs τ} {free : List SlotIdx} {n : Nat}

/-- What `enqueue_request` may be given. -/
structure Acceptable (t : Transport) (K : Known) (a : EnqReqArgs τ) : Prop where
  req_type : a.req_type ≠ kInvalidReqType
  size : a.req_msgbuf.data_size ≤ t.kMaxMsgSize
  room : K.respSize ≤ a.resp_msgbuf.max_data_size

/-- The request with number `r` is now known to be `a`. -/
def Known.name (K : Known) (r : Nat) (a : EnqReqArgs τ) : Known :=
  { K with request := fun n m => K.request n m ∨
      n = r ∧ m.pkthdr_0.req_type = a.req_type ∧ m.bytes = a.req_msgbuf.bytes }

theorem Known.le_name (K : Known) (r : Nat) (a : EnqReqArgs τ) : K.Le (K.name r a) :=
  ⟨rfl, fun _ _ hr => .inl hr, fun _ _ hq => hq⟩

theorem isRequest_fillSlot (ha : Acceptable t K a) (i : SlotIdx) : ∃ m,
    ((c.fillSlot i a).sslot_arr i).tx_msgbuf = some m ∧
      IsRequest t (K.name ((c.sslot_arr i).cur_req_num + kSessionReqWindow) a)
        ((c.sslot_arr i).cur_req_num + kSessionReqWindow) m := by
  have hlt : a.req_msgbuf.data_size % 2 ^ kMsgSizeBits = a.req_msgbuf.data_size :=
    Nat.mod_eq_of_lt (Nat.lt_of_le_of_lt ha.size Transport.kMaxMsgSize_lt)
  rw [Client.fillSlot, modify_self]
  exact ⟨_, rfl, .inr ⟨rfl, rfl, rfl⟩, Nat.le_add_left _ _, ha.size, ha.req_type, hlt, rfl, rfl,
    rfl⟩

theorem Inv.fillSlot (h : Inv t K c v) (ha : Acceptable t K a)
    (hfree : c.sslot_free_vec = i :: free) :
    Inv t (K.name ((c.sslot_arr i).cur_req_num + kSessionReqWindow) a)
      ({ c with sslot_free_vec := free }.fillSlot i a) v := by
  replace h := h.mono (K.le_name ((c.sslot_arr i).cur_req_num + kSessionReqWindow) a)
  obtain ⟨mc, mv, hs⟩ := h.slot i
  obtain ⟨m, hm, hreq⟩ := isRequest_fillSlot (c := { c with sslot_free_vec := free }) ha i
  have hnone : (c.sslot_arr i).tx_msgbuf = none :=
    (h.lists.free i).1 (hfree ▸ List.mem_cons_self)
  have hself : ({ c with sslot_free_vec := free }.fillSlot i a).sslot_arr i =
      { c.sslot_arr i with
        tx_msgbuf := some m
        cur_req_num := (c.sslot_arr i).cur_req_num + kSessionReqWindow
        resp_msgbuf := a.resp_msgbuf
        tag := some a.tag
        num_rx := 0
        num_tx := 0 } := by
    rw [← hm, Client.fillSlot, modify_self]
  have hother : ∀ j, j ≠ i → ({ c with sslot_free_vec := free }.fillSlot i a).sslot_arr j =
      c.sslot_arr j := fun j hj => Function.update_of_ne hj ..
  cases hs.client with
  | unseen tx =>
    rw [tx] at hnone
    cases hnone
  | requesting tx =>
    rw [tx] at hnone
    cases hnone
  | reading q tx =>
    rw [tx] at hnone
    cases hnone
  | idle tx same settled sent =>
    have hempty : ∀ k, (i, k) ∉ c.wheel := fun k hk => by
      have := hs.inWheel.range k hk
      omega
    refine h.client i hother (fun p hp => .inl hp) (fun _ _ _ => Iff.rfl) (fun _ _ => rfl)
      ⟨m, mv, ?_⟩ ?_
    · rw [hself]
      constructor
      case number => exact (Nat.add_mod_right _ _).trans hs.number
      case counts => exact Nat.le_refl 0
      case room => exact fun _ => ha.room
      case tag => exact fun _ => rfl
      case client =>
        exact .unseen rfl hreq (congrArg (· + kSessionReqWindow) same) settled rfl (Nat.zero_le _)
      case server => exact hs.server
      case toServer =>
        intro p hp hpi
        obtain ⟨n, hn⟩ := hs.toServer p hp hpi
        have hle := hn.le
        refine ⟨n, hn.started, hn.slot, Nat.le_add_right_of_le hle, hn.req_num, hn.pkt_type,
          hn.current, fun hahead => ?_⟩
        simp only [kSessionReqWindow] at hahead
        omega
      case toClient => exact hs.toClient
      case inWheel =>
        exact ⟨fun k hk => absurd hk (hempty k), fun k hk => absurd hk (hempty k),
          hs.inWheel.flag, hs.inWheel.count⟩
    · have hnodup := h.lists.free_nodup
      rw [hfree, List.nodup_cons] at hnodup
      have hactive : i ∉ c.active_rpcs := fun hi => (h.lists.active i).1 hi hnone
      have hstalled : i ∉ c.stallq := fun hi => (h.lists.stalled i hi).1 hnone
      constructor
      case credits =>
        have hcredits := h.lists.credits
        have hsum := sum_outstanding
          (fun j => (c.sslot_arr j).num_tx - (c.sslot_arr j).num_rx)
          (fun j => (({ c with sslot_free_vec := free }.fillSlot i a).sslot_arr j).num_tx -
            (({ c with sslot_free_vec := free }.fillSlot i a).sslot_arr j).num_rx) i
          fun j hj => by rw [hother j hj]
        rw [hself] at hsum
        dsimp only at hsum
        rw [sent] at hsum
        change c.credits + _ = _
        omega
      case wheel => exact h.lists.wheel
      case free_nodup => exact hnodup.2
      case free =>
        intro j
        change j ∈ free ↔ _
        by_cases hj : j = i
        · rw [hj, hself]
          exact iff_of_false hnodup.1 nofun
        · rw [hother j hj, ← h.lists.free j, hfree, List.mem_cons, or_iff_right hj]
      case active_nodup =>
        change (c.active_rpcs ++ [i]).Nodup
        rw [List.nodup_append]
        refine ⟨h.lists.active_nodup, List.nodup_singleton _, fun j hj k hk => ?_⟩
        rw [List.mem_singleton] at hk
        exact fun he => hactive (hk ▸ he ▸ hj)
      case active =>
        intro j
        change j ∈ c.active_rpcs ++ [i] ↔ _
        rw [List.mem_append, List.mem_singleton]
        by_cases hj : j = i
        · rw [hj, hself]
          exact iff_of_true (.inr rfl) nofun
        · rw [hother j hj, ← h.lists.active j, or_iff_left hj]
      case stalled_nodup => exact h.lists.stalled_nodup
      case stalled =>
        intro j hj
        rw [hother j fun he => hstalled (he ▸ hj)]
        exact h.lists.stalled j hj
      case waiting => exact h.lists.waiting

theorem Inv.stall (h : Inv t K c v) (hi : i ∉ c.stallq)
    (htx : (c.sslot_arr i).tx_msgbuf ≠ none) (hnum : (c.sslot_arr i).num_tx = 0) :
    Inv t K { c with stallq := c.stallq ++ [i] } v := by
  refine ⟨h.slot, { h.lists with stalled_nodup := ?_, stalled := ?_ }⟩
  · rw [List.nodup_append]
    refine ⟨h.lists.stalled_nodup, List.nodup_singleton _, fun j hj k hk => ?_⟩
    rw [List.mem_singleton] at hk
    exact fun he => hi (hk ▸ he ▸ hj)
  · intro j hj
    rw [List.mem_append, List.mem_singleton] at hj
    obtain hj | rfl := hj
    · exact h.lists.stalled j hj
    · exact ⟨htx, hnum⟩

structure Enqueued (i : SlotIdx) (a : EnqReqArgs τ) (c c' : Client τ) : Prop where
  same : SameRequests (c.fillSlot i a) c'
  others : ∀ j, j ≠ i → c'.sslot_arr j = c.sslot_arr j
  stalled : ∀ j ∈ c.stallq, j ∈ c'.stallq
  free : c'.sslot_free_vec = c.sslot_free_vec
  busy : (c'.sslot_arr i).num_tx = (c'.sslot_arr i).num_rx → i ∈ c'.stallq

theorem Inv.enqueue_request (h : Inv t K c v) (ha : Acceptable t K a)
    (hfree : c.sslot_free_vec = i :: free) (uncongested : Bool) :
    Yields (c.enqueue_request t uncongested a) fun c' =>
      Inv t (K.name ((c.sslot_arr i).cur_req_num + kSessionReqWindow) a) c' v ∧
      Enqueued i a { c with sslot_free_vec := free } c' := by
  have hinv := h.fillSlot ha hfree
  obtain ⟨m, hm, hreq⟩ := isRequest_fillSlot (c := { c with sslot_free_vec := free }) ha i
  have hnone : (c.sslot_arr i).tx_msgbuf = none :=
    (h.lists.free i).1 (hfree ▸ List.mem_cons_self)
  have hstalled : i ∉ c.stallq := fun hi => (h.lists.stalled i hi).1 hnone
  have hnum : (({ c with sslot_free_vec := free }.fillSlot i a).sslot_arr i).num_tx = 0 ∧
      (({ c with sslot_free_vec := free }.fillSlot i a).sslot_arr i).num_rx = 0 := by
    rw [Client.fillSlot, modify_self]
    exact ⟨rfl, rfl⟩
  have hother : ∀ j, j ≠ i → ({ c with sslot_free_vec := free }.fillSlot i a).sslot_arr j =
      c.sslot_arr j := fun j hj => Function.update_of_ne hj ..
  rw [Client.enqueue_request, hfree]
  refine Yields.check (by rw [hnone]; rfl) ?_
  dsimp only
  split
  · next hcredit =>
    refine (hinv.kick_req_st hcredit hm hstalled uncongested).mono fun c' hP => ?_
    obtain ⟨hinv', n, hn, hsends, -⟩ := hP
    have hpos := Transport.num_pkts_pos (t := t) (n := m.data_size)
    have htx := hsends.num_tx
    have hrx := hsends.num_rx
    refine ⟨hinv', hsends.sameRequests, fun j hj => (hsends.others j hj).trans (hother j hj),
      fun j hj => ?_, ?_, fun hbusy => ?_⟩
    · rw [hsends.stallq]
      exact hj
    · rw [hsends.rest]
      rfl
    · rw [htx, hrx, hnum.1, hnum.2, hn, hnum.1] at hbusy
      simp only [MsgBuffer.num_pkts] at hbusy
      omega
  · refine Yields.ret ⟨hinv.stall hstalled ?_ hnum.1, ⟨fun _ => rfl, fun _ => rfl, fun _ => rfl,
      rfl, rfl, rfl⟩, hother, fun j hj => List.mem_append_left _ hj, rfl,
      fun _ => List.mem_append_right _ (List.mem_singleton_self i)⟩
    rw [hm]
    exact Option.some_ne_none _

theorem Enqueued.stalled_of (he : Enqueued i a { c with sslot_free_vec := free } c')
    (h : ∀ j, (c.sslot_arr j).tx_msgbuf ≠ none →
      (c.sslot_arr j).num_tx = (c.sslot_arr j).num_rx → j ∈ c.stallq) :
    ∀ j, (c'.sslot_arr j).tx_msgbuf ≠ none →
      (c'.sslot_arr j).num_tx = (c'.sslot_arr j).num_rx → j ∈ c'.stallq := by
  intro j hj hnum
  by_cases hji : j = i
  · subst hji
    exact he.busy hnum
  · rw [he.others j hji] at hj hnum
    exact he.stalled j (h j hj hnum)

theorem Ready.enqueued (h : Ready c)
    (he : Enqueued i a { c with sslot_free_vec := free } c')
    (hfree : c.sslot_free_vec = i :: free) : Ready c' := by
  refine ⟨fun hne => ?_, he.stalled_of h.stalled⟩
  rw [he.same.enq_req_backlog] at hne
  have hbacklog := h.backlog hne
  rw [hfree] at hbacklog
  cases hbacklog

end Erpc

end Galois
