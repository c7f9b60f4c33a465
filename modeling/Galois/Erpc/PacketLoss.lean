import Galois.Erpc.Resending

namespace Galois
set_option autoImplicit true
set_option relaxedAutoImplicit false

namespace Erpc

variable {τ : Type} {t : Transport} {K : Known} {c c' : Client τ} {v : Server} {i j : SlotIdx}
  {m mc mv : MsgBuffer} {n k : Nat}

/-- A slot forgets what it has sent and got no answer to. -/
def rollback (i : SlotIdx) (c : Client τ) : Client τ :=
  { c with credits := c.credits + ((c.sslot_arr i).num_tx - (c.sslot_arr i).num_rx) }.modify i
    fun s => { s with num_tx := s.num_rx }

theorem ClientPhase.rollback {s : ClientSlot τ} {u : ServerSlot} (h : ClientPhase t K mc mv s u)
    (hc : s.num_rx ≤ s.num_tx) : ClientPhase t K mc mv { s with num_tx := s.num_rx } u := by
  cases h with
  | idle tx same settled sent => exact .idle tx same settled rfl
  | unseen tx request behind settled rx le =>
    exact .unseen tx request behind settled rx (hc.trans le)
  | requesting tx request same lt le rx =>
    exact .requesting tx request same lt (Nat.le_of_lt lt) rx
  | reading q tx request same resp large ge lt le rx hdr received =>
    exact .reading q tx request same resp large ge lt (Nat.le_of_lt lt) rx hdr received

theorem Inv.rollback (h : Inv t K c v) (hi : i ∉ c.stallq)
    (hwheel : (c.sslot_arr i).wheel_count = 0) : Inv t K (rollback i c) v := by
  obtain ⟨mc, mv, hs⟩ := h.slot i
  have hself : (Erpc.rollback i c).sslot_arr i =
      { c.sslot_arr i with num_tx := (c.sslot_arr i).num_rx } := modify_self _
  have hother : ∀ j, j ≠ i → (Erpc.rollback i c).sslot_arr j = c.sslot_arr j :=
    fun j hj => Function.update_of_ne hj ..
  have htx : ∀ j, ((Erpc.rollback i c).sslot_arr j).tx_msgbuf = (c.sslot_arr j).tx_msgbuf := by
    intro j
    by_cases hj : j = i
    · rw [hj, hself]
    · rw [hother j hj]
  have hempty : ∀ k, (i, k) ∉ c.wheel := by
    intro k hk
    have hcount := hs.inWheel.count
    rw [hwheel, eq_comm, List.countP_eq_zero] at hcount
    exact hcount (i, k) hk (decide_eq_true rfl)
  refine h.client i hother (fun p hp => .inl hp) (fun _ _ _ => Iff.rfl) (fun _ _ => rfl)
    ⟨mc, mv, ?_⟩ ?_
  · rw [hself]
    exact ⟨hs.number, Nat.le_refl _, hs.room, hs.tag, hs.client.rollback hs.counts, hs.server,
      hs.toServer, hs.toClient, fun k hk => absurd hk (hempty k), hs.inWheel.request,
      hs.inWheel.flag, hs.inWheel.count⟩
  · have hlists := h.lists
    refine ⟨?_, hlists.wheel, hlists.free_nodup, fun j => ?_, hlists.active_nodup, fun j => ?_,
      hlists.stalled_nodup, fun j hj => ?_, hlists.waiting⟩
    · have hcredits := hlists.credits
      have hsum := sum_outstanding
        (fun j => (c.sslot_arr j).num_tx - (c.sslot_arr j).num_rx)
        (fun j => ((Erpc.rollback i c).sslot_arr j).num_tx -
          ((Erpc.rollback i c).sslot_arr j).num_rx) i fun j hj => by rw [hother j hj]
      rw [hself] at hsum
      dsimp only at hsum
      change c.credits + ((c.sslot_arr i).num_tx - (c.sslot_arr i).num_rx) + _ = _
      omega
    · rw [htx]
      exact hlists.free j
    · rw [htx]
      exact hlists.active j
    · rw [hother j fun he => hi (he ▸ hj)]
      exact hlists.stalled j hj

structure Resent (t : Transport) (i : SlotIdx) (uncongested : Bool) (c c' : Client τ) : Prop where
  num_tx : (c'.sslot_arr i).num_rx < (c'.sslot_arr i).num_tx
  others : ∀ j, j ≠ i → c'.sslot_arr j = c.sslot_arr j
  sent : ∀ m, (c.sslot_arr i).tx_msgbuf = some m → (c.sslot_arr i).wheel_count = 0 →
    uncongested = true → c'.wheel = c.wheel ∧ due t m (c.sslot_arr i) ∈ c'.wire

theorem Inv.pkt_loss_retransmit_st (h : Inv t K c v)
    (hi : (c.sslot_arr i).tx_msgbuf ≠ none)
    (hnum : (c.sslot_arr i).num_tx ≠ (c.sslot_arr i).num_rx) (uncongested : Bool) :
    Yields (c.pkt_loss_retransmit_st t i uncongested) fun c' => Inv t K c' v ∧ Keeps c c' ∧
      Resent t i uncongested c c' := by
  obtain ⟨m, hm⟩ := Option.ne_none_iff_exists'.1 hi
  obtain ⟨mc, mv, hs⟩ := h.slot i
  have hcounts := hs.counts
  have hout := h.outstanding_le i
  have hstalled : i ∉ c.stallq := by
    intro hmem
    have hzero := (h.lists.stalled i hmem).2
    omega
  rw [Client.pkt_loss_retransmit_st]
  refine Yields.check (by rw [hm]; rfl) (Yields.check hout ?_)
  rw [if_neg (by omega)]
  refine Yields.check hstalled ?_
  split
  · next hwheel =>
    refine Yields.ret ⟨h, .refl c, by omega, fun _ _ => rfl, fun _ _ hzero => by omega⟩
  · next hwheel =>
    have hself : (Erpc.rollback i c).sslot_arr i =
      { c.sslot_arr i with num_tx := (c.sslot_arr i).num_rx } := modify_self _
    have hother : ∀ j, j ≠ i → (Erpc.rollback i c).sslot_arr j = c.sslot_arr j :=
      fun j hj => Function.update_of_ne hj ..
    have hinv := h.rollback hstalled (by omega)
    have hcredit : 0 < (Erpc.rollback i c).credits := by
      change 0 < c.credits + _
      omega
    refine (hinv.kick hcredit (by rw [hself]; exact hm) (by rw [hself]) hstalled uncongested).mono
      fun c' hP => ?_
    obtain ⟨hinv', n, hn, hsends, hbypass⟩ := hP
    have hnumtx := hsends.num_tx
    have hnumrx := hsends.num_rx
    have htx := hsends.tx_msgbuf
    rw [hself] at hnumtx hnumrx hbypass
    dsimp only at hnumtx hnumrx hbypass
    have hfield : ∀ {β : Type} (f : ClientSlot τ → β), (∀ s n g w, f { s with
        num_tx := n, in_wheel := g, wheel_count := w } = f s) →
        ∀ j, f (c'.sslot_arr j) = f (c.sslot_arr j) := by
      intro β f hf j
      by_cases hj : j = i
      · rw [hj, hsends.slot, hself]
        exact hf (c.sslot_arr i) _ _ _
      · rw [hsends.others j hj, hother j hj]
    refine ⟨hinv', ⟨⟨hfield (fun s => s.tx_msgbuf) fun _ _ _ _ => rfl,
      hfield (fun s => s.cur_req_num) fun _ _ _ _ => rfl,
      hfield (fun s => s.tag) fun _ _ _ _ => rfl, ?_, ?_, ?_⟩, ?_, ?_,
      hfield (fun s => s.num_rx) fun _ _ _ _ => rfl,
      hfield (fun s => s.resp_msgbuf) fun _ _ _ _ => rfl, fun hready => ⟨fun hne => ?_,
        fun j hj hjnum => ?_⟩⟩, by omega, fun j hj => (hsends.others j hj).trans (hother j hj),
      fun m' hm' hzero hu => ?_⟩
    · rw [hsends.rest]
      rfl
    · rw [hsends.rest]
      rfl
    · rw [hsends.rest]
      rfl
    · rw [hsends.rest]
      rfl
    · rw [hsends.rest]
      rfl
    · rw [hsends.rest] at hne ⊢
      exact hready.backlog hne
    · rw [hsends.stallq]
      by_cases hji : j = i
      · subst hji
        omega
      · rw [hsends.others j hji, hother j hji] at hj hjnum
        exact hready.stalled j hj hjnum
    · rw [hm] at hm'
      cases hm'
      refine hbypass ?_
      rw [Client.can_bypass_wheel, hself, decide_eq_true_eq]
      exact ⟨hzero, hu⟩

theorem Inv.pkt_loss_scan_st (h : Inv t K c v) (expired : SlotIdx → Bool)
    (uncongested : Bool) :
    Yields (c.pkt_loss_scan_st t expired uncongested) fun c' => Inv t K c' v ∧
      Keeps c c' ∧ ∀ i ∈ c.active_rpcs, (∀ j, expired j = true ↔ j = i) →
        (c.sslot_arr i).num_tx ≠ (c.sslot_arr i).num_rx → Resent t i uncongested c c' := by
  rw [Client.pkt_loss_scan_st]
  refine (Yields.foldlM (P := fun passed c' => Inv t K c' v ∧ Keeps c c' ∧
    ∀ i, (∀ j, expired j = true ↔ j = i) →
      (i ∉ passed → c' = c) ∧ (i ∈ passed →
        (c.sslot_arr i).num_tx ≠ (c.sslot_arr i).num_rx → Resent t i uncongested c c'))
    (fun passed i rest c' hl hP => ?_) ⟨h, .refl c, fun i _ => ⟨fun _ => rfl, nofun⟩⟩).mono
    fun c' hP => ⟨hP.1, hP.2.1, fun i hi he => (hP.2.2 i he).2 hi⟩
  obtain ⟨hinv, hkeeps, hone⟩ := hP
  have hmem : i ∈ c.active_rpcs := by
    rw [hl, List.mem_append]
    exact .inr List.mem_cons_self
  have hpassed : i ∉ passed := by
    have hnodup := h.lists.active_nodup
    rw [hl, List.nodup_append] at hnodup
    exact fun hi => hnodup.2.2 i hi i List.mem_cons_self rfl
  have hactive : (c'.sslot_arr i).tx_msgbuf ≠ none := by
    rw [hkeeps.same.tx_msgbuf]
    exact (h.lists.active i).1 hmem
  split
  · next hsame =>
    refine Yields.ret ⟨hinv, hkeeps, fun k hk => ⟨fun hk' => ?_, fun hk' hne => ?_⟩⟩
    · exact (hone k hk).1 fun hp => hk' (List.mem_append_left _ hp)
    · rw [List.mem_append, List.mem_singleton] at hk'
      obtain hk' | rfl := hk'
      · exact (hone k hk).2 hk' hne
      · rw [(hone k hk).1 hpassed] at hsame
        exact absurd hsame hne
  · next hdiff =>
    split
    · next hexp =>
      refine (hinv.pkt_loss_retransmit_st hactive hdiff uncongested).mono fun c'' hQ => ?_
      obtain ⟨hinv', hkeeps', hresent⟩ := hQ
      refine ⟨hinv', hkeeps.trans hkeeps', fun k hk => ?_⟩
      obtain rfl := (hk i).1 hexp
      rw [(hone i hk).1 hpassed] at hresent
      refine ⟨fun hk' => absurd (List.mem_append_right _ (List.mem_singleton_self i)) hk',
        fun _ _ => hresent⟩
    · next hexp =>
      refine Yields.ret ⟨hinv, hkeeps, fun k hk => ⟨fun hk' => ?_, fun hk' hne => ?_⟩⟩
      · exact (hone k hk).1 fun hp => hk' (List.mem_append_left _ hp)
      · rw [List.mem_append, List.mem_singleton] at hk'
        obtain hk' | rfl := hk'
        · exact (hone k hk).2 hk' hne
        · exact absurd ((hk k).2 rfl) hexp

end Erpc

end Galois
