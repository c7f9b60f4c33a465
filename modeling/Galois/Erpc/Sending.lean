import Galois.Erpc.Invariant

namespace Galois
set_option autoImplicit true
set_option relaxedAutoImplicit false

namespace Erpc

variable {τ : Type} {t : Transport} {K : Known} {c c' : Client τ} {v : Server} {i j : SlotIdx}
  {m mc mv : MsgBuffer} {n k : Nat}

theorem InWheel.frame {s : ClientSlot τ} {wheel wheel' : List (SlotIdx × Nat)}
    (h : InWheel t i s wheel) (hmem : ∀ k, (i, k) ∈ wheel' ↔ (i, k) ∈ wheel)
    (hcount : (wheel'.countP fun e => e.1 = i) = wheel.countP fun e => e.1 = i) :
    InWheel t i s wheel' := by
  refine ⟨fun k hk => h.range k ((hmem k).1 hk), fun k hk => h.request k ((hmem k).1 hk),
    fun x => ?_, h.count.trans hcount.symm⟩
  simp only [hmem]
  exact h.flag x

theorem Slot.frame {s : ClientSlot τ} {u : ServerSlot} {toServer toServer' toClient toClient' :
    List Packet} {wheel wheel' : List (SlotIdx × Nat)}
    (h : Slot t K i s u toServer toClient wheel mc mv)
    (hserver : ∀ p ∈ toServer', p ∈ toServer ∨ p.req_num % kSessionReqWindow ≠ i)
    (hclient : ∀ p ∈ toClient', p ∈ toClient ∨ p.req_num % kSessionReqWindow ≠ i)
    (hwheel : InWheel t i s wheel') : Slot t K i s u toServer' toClient' wheel' mc mv := by
  refine ⟨h.number, h.counts, h.room, h.tag, h.client, h.server, fun p hp hi => ?_,
    fun p hp hi => ?_, hwheel⟩
  · exact h.toServer p ((hserver p hp).resolve_right (not_not_intro hi)) hi
  · exact h.toClient p ((hclient p hp).resolve_right (not_not_intro hi)) hi

theorem Inv.client (h : Inv t K c v) (i : SlotIdx)
    (others : ∀ j, j ≠ i → c'.sslot_arr j = c.sslot_arr j)
    (wire : ∀ p ∈ c'.wire, p ∈ c.wire ∨ p.req_num % kSessionReqWindow = i)
    (wheel : ∀ j, j ≠ i → ∀ k, (j, k) ∈ c'.wheel ↔ (j, k) ∈ c.wheel)
    (count : ∀ j, j ≠ i →
      (c'.wheel.countP fun e => e.1 = j) = c.wheel.countP fun e => e.1 = j)
    (slot : ∃ mc mv, Slot t K i (c'.sslot_arr i) (v.sslot_arr i) c'.wire v.wire c'.wheel
      mc mv)
    (lists : Lists t K c') : Inv t K c' v := by
  refine ⟨fun j => ?_, lists⟩
  by_cases hj : j = i
  · subst hj
    exact slot
  · obtain ⟨mc, mv, hs⟩ := h.slot j
    rw [others j hj]
    refine ⟨mc, mv, hs.frame (fun p hp => ?_) (fun p hp => .inl hp)
      (hs.inWheel.frame (wheel j hj) (count j hj))⟩
    cases wire p hp with
    | inl hold => exact .inl hold
    | inr hi =>
      refine .inr fun hj' => hj (Fin.ext ?_)
      rw [← hj', hi]

theorem ClientPhase.request {s : ClientSlot τ} {u : ServerSlot} (h : ClientPhase t K mc mv s u)
    (hm : s.tx_msgbuf = some m) : IsRequest t K s.cur_req_num m ∧
      (m = mc ∧ u.cur_req_num + kSessionReqWindow = s.cur_req_num ∨
        m = mv ∧ u.cur_req_num = s.cur_req_num) := by
  cases h with
  | idle tx =>
    rw [tx] at hm
    cases hm
  | unseen tx request behind =>
    rw [tx] at hm
    cases hm
    exact ⟨request, .inl ⟨rfl, behind⟩⟩
  | requesting tx request same =>
    rw [tx] at hm
    cases hm
    exact ⟨request, .inr ⟨rfl, same⟩⟩
  | reading q tx request same =>
    rw [tx] at hm
    cases hm
    exact ⟨request, .inr ⟨rfl, same⟩⟩

theorem Slot.sendable {s : ClientSlot τ} {u : ServerSlot} {toServer toClient : List Packet}
    {wheel : List (SlotIdx × Nat)} (h : Slot t K i s u toServer toClient wheel mc mv)
    (hm : s.tx_msgbuf = some m) (hk : k < m.num_pkts t) :
    ToServer t i mc mv s.cur_req_num u (m.packet t k) s.cur_req_num := by
  obtain ⟨hreq, hside⟩ := h.client.request hm
  refine ⟨hreq.number, h.number, Nat.le_refl _, hreq.packet_req_num, .inl hreq.packet_pkt_type,
    fun hcur => ?_, fun hahead => ?_⟩
  · obtain ⟨-, hbehind⟩ | ⟨rfl, -⟩ := hside
    · simp only [kSessionReqWindow] at hbehind
      omega
    · exact .inl ⟨k, hk, rfl⟩
  · obtain ⟨rfl, -⟩ | ⟨-, hsame⟩ := hside
    · exact ⟨k, hk, rfl⟩
    · simp only [kSessionReqWindow] at hahead
      omega

theorem ClientPhase.send {s : ClientSlot τ} {u : ServerSlot} (h : ClientPhase t K mc mv s u)
    (hm : s.tx_msgbuf = some m) (hc : s.num_rx ≤ s.num_tx) (hk : s.num_tx < m.num_pkts t)
    (f : Nat → Bool) (w : Nat) :
    ClientPhase t K mc mv { s with num_tx := s.num_tx + 1, in_wheel := f, wheel_count := w } u := by
  cases h with
  | idle tx =>
    rw [tx] at hm
    cases hm
  | unseen tx request behind settled rx le =>
    rw [tx] at hm
    cases hm
    exact .unseen tx request behind settled rx hk
  | requesting tx request same lt le rx =>
    rw [tx] at hm
    cases hm
    exact .requesting tx request same lt hk rx
  | reading q tx request same resp large ge =>
    rw [tx] at hm
    cases hm
    omega

/-- `c'` is `c` after `n` packets of the slot `i` were sent, or put into the wheel. -/
structure Sends (i : SlotIdx) (n : Nat) (c c' : Client τ) : Prop where
  credits : c'.credits + n = c.credits
  slot : c'.sslot_arr i = { c.sslot_arr i with
    num_tx := (c.sslot_arr i).num_tx + n
    in_wheel := (c'.sslot_arr i).in_wheel
    wheel_count := (c'.sslot_arr i).wheel_count }
  others : ∀ j, j ≠ i → c'.sslot_arr j = c.sslot_arr j
  rest : c' = { c with
    credits := c'.credits, sslot_arr := c'.sslot_arr, wheel := c'.wheel, wire := c'.wire }

theorem Sends.refl : Sends i 0 c c := ⟨rfl, rfl, fun _ _ => rfl, rfl⟩

theorem Sends.trans {c'' : Client τ} (h : Sends i n c c') (h' : Sends i k c' c'') :
    Sends i (n + k) c c'' := by
  refine ⟨?_, ?_, fun j hj => (h'.others j hj).trans (h.others j hj), ?_⟩
  · have := h.credits
    have := h'.credits
    omega
  · rw [h'.slot, h.slot, Nat.add_assoc]
  · rw [h'.rest, h.rest]

theorem Sends.num_tx (h : Sends i n c c') :
    (c'.sslot_arr i).num_tx = (c.sslot_arr i).num_tx + n := by rw [h.slot]

theorem Sends.num_rx (h : Sends i n c c') :
    (c'.sslot_arr i).num_rx = (c.sslot_arr i).num_rx := by rw [h.slot]

theorem Sends.sameRequests (h : Sends i n c c') : SameRequests c c' := by
  refine ⟨fun j => ?_, fun j => ?_, fun j => ?_, ?_, ?_, ?_⟩
  · by_cases hj : j = i
    · rw [hj, h.slot]
    · rw [h.others j hj]
  · by_cases hj : j = i
    · rw [hj, h.slot]
    · rw [h.others j hj]
  · by_cases hj : j = i
    · rw [hj, h.slot]
    · rw [h.others j hj]
  all_goals rw [h.rest]

theorem Sends.tx_msgbuf (h : Sends i n c c') (j : SlotIdx) :
    (c'.sslot_arr j).tx_msgbuf = (c.sslot_arr j).tx_msgbuf := h.sameRequests.tx_msgbuf j

theorem sum_outstanding (f g : SlotIdx → Nat) (i : SlotIdx) (h : ∀ j, j ≠ i → g j = f j) :
    ∑ j, g j + f i = ∑ j, f j + g i := by
  have hrest : ∑ j ∈ Finset.univ.erase i, g j = ∑ j ∈ Finset.univ.erase i, f j :=
    Finset.sum_congr rfl fun j hj => h j (Finset.ne_of_mem_erase hj)
  have hf := Finset.add_sum_erase _ f (Finset.mem_univ i)
  have hg := Finset.add_sum_erase _ g (Finset.mem_univ i)
  omega

theorem Lists.sends (h : Lists t K c) (hs : Sends i n c c')
    (hi : i ∉ c.stallq) (hrx : (c.sslot_arr i).num_rx ≤ (c.sslot_arr i).num_tx)
    (hwheel : c'.wheel.Nodup) : Lists t K c' := by
  have hcredits := h.credits
  have hsum := sum_outstanding
    (fun j => (c.sslot_arr j).num_tx - (c.sslot_arr j).num_rx)
    (fun j => (c'.sslot_arr j).num_tx - (c'.sslot_arr j).num_rx) i
    fun j hj => by rw [hs.others j hj]
  have htx := hs.tx_msgbuf
  have hused := hs.credits
  refine ⟨?_, hwheel, ?_, ?_, ?_, ?_, ?_, ?_, ?_⟩
  · rw [hs.num_tx, hs.num_rx] at hsum
    omega
  · rw [hs.rest]
    exact h.free_nodup
  · intro j
    rw [htx, hs.rest]
    exact h.free j
  · rw [hs.rest]
    exact h.active_nodup
  · intro j
    rw [htx, hs.rest]
    exact h.active j
  · rw [hs.rest]
    exact h.stalled_nodup
  · intro j hj
    have hj' : j ∈ c.stallq := by
      rw [hs.rest] at hj
      exact hj
    rw [hs.others j fun he => hi (he ▸ hj')]
    exact h.stalled j hj'
  · rw [hs.rest]
    exact h.waiting

theorem InWheel.push {s : ClientSlot τ} {wheel : List (SlotIdx × Nat)} (h : InWheel t i s wheel)
    (hm : s.tx_msgbuf = some m) (hc : s.num_rx ≤ s.num_tx) (hk : s.num_tx < m.num_pkts t) :
    InWheel t i { s with
      num_tx := s.num_tx + 1
      in_wheel := Function.update s.in_wheel (s.num_tx % kSessionCredits) true
      wheel_count := s.wheel_count + 1 } (wheel ++ [(i, s.num_tx)]) := by
  have hmem : ∀ k, (i, k) ∈ wheel ++ [(i, s.num_tx)] ↔ (i, k) ∈ wheel ∨ k = s.num_tx := by
    intro k
    rw [List.mem_append, List.mem_singleton, Prod.mk.injEq]
    exact or_congr_right (and_iff_right rfl)
  constructor
  case range =>
    intro k hk'
    obtain hold | rfl := (hmem k).1 hk'
    · exact ⟨(h.range k hold).1, Nat.lt_succ_of_lt (h.range k hold).2⟩
    · exact ⟨hc, Nat.lt_succ_self _⟩
  case request =>
    intro k hk' m' hm'
    obtain hold | rfl := (hmem k).1 hk'
    · exact h.request k hold m' hm'
    · change s.tx_msgbuf = some m' at hm'
      rw [hm] at hm'
      cases hm'
      exact hk
  case flag =>
    intro x
    simp only [hmem, Function.update_apply]
    split
    · next hx => exact iff_of_true rfl ⟨s.num_tx, .inr rfl, hx.symm⟩
    · next hx =>
      rw [h.flag x]
      constructor
      · rintro ⟨k, hold, hkx⟩
        exact ⟨k, .inl hold, hkx⟩
      · rintro ⟨k, hold | rfl, hkx⟩
        · exact ⟨k, hold, hkx⟩
        · exact absurd hkx.symm hx
  case count =>
    rw [List.countP_append, ← h.count, List.countP_singleton, if_pos (by simp only [decide_true])]

theorem InWheel.send {s : ClientSlot τ} {wheel : List (SlotIdx × Nat)} (h : InWheel t i s wheel) :
    InWheel t i { s with num_tx := s.num_tx + 1 } wheel := by
  refine ⟨fun k hk => ⟨(h.range k hk).1, Nat.lt_succ_of_lt (h.range k hk).2⟩, h.request, h.flag,
    h.count⟩

@[simp] theorem modify_self (f : ClientSlot τ → ClientSlot τ) :
    (c.modify i f).sslot_arr i = f (c.sslot_arr i) := Function.update_self ..

theorem modify_other (f : ClientSlot τ → ClientSlot τ) (hj : j ≠ i) :
    (c.modify i f).sslot_arr j = c.sslot_arr j := Function.update_of_ne hj ..

theorem Inv.sendReq (h : Inv t K c v) (hcredit : 0 < c.credits)
    (hm : (c.sslot_arr i).tx_msgbuf = some m) (hk : (c.sslot_arr i).num_tx < m.num_pkts t)
    (hi : i ∉ c.stallq) (bypass : Bool) :
    Yields (c.sendReq t i bypass) fun c' => Inv t K c' v ∧ Sends i 1 c c' ∧
      (bypass = true → c'.wheel = c.wheel ∧
        c'.wire = c.wire ++ [m.packet t (c.sslot_arr i).num_tx]) := by
  obtain ⟨mc, mv, hs⟩ := h.slot i
  have hphase := hs.client.send hm hs.counts hk
  have hcounts : (c.sslot_arr i).num_rx ≤ (c.sslot_arr i).num_tx + 1 :=
    Nat.le_succ_of_le hs.counts
  cases bypass with
  | true =>
    rw [Client.sendReq, if_pos rfl, Client.enqueue_pkt_tx_burst_st, hm]
    have hsends : Sends i 1 c (({ c with
        wire := c.wire ++ [m.packet t (c.sslot_arr i).num_tx] } : Client τ).useCredit i) := by
      refine ⟨Nat.sub_add_cancel hcredit, ?_, fun j hj => modify_other _ hj, rfl⟩
      simp only [Client.useCredit, modify_self]
    refine Yields.ret ⟨?_, hsends, fun _ => ⟨rfl, rfl⟩⟩
    have hpacket := hs.sendable hm hk
    refine h.client i hsends.others (fun p hp => ?_) (fun _ _ _ => Iff.rfl) (fun _ _ => rfl)
      ⟨mc, mv, ?_⟩ (h.lists.sends hsends hi hs.counts h.lists.wheel)
    · rw [Client.useCredit, Client.modify, List.mem_append, List.mem_singleton] at hp
      refine hp.imp_right ?_
      rintro rfl
      rw [hpacket.req_num, req_num_slot, hpacket.slot]
    · simp only [Client.useCredit, modify_self]
      refine ⟨hs.number, hcounts, hs.room, hs.tag, hphase _ _, hs.server, fun p hp hpi => ?_,
        hs.toClient, hs.inWheel.send⟩
      rw [Client.modify, List.mem_append, List.mem_singleton] at hp
      obtain hp | rfl := hp
      · exact hs.toServer p hp hpi
      · exact ⟨_, hpacket⟩
  | false =>
    have hfresh : (i, (c.sslot_arr i).num_tx) ∉ c.wheel := fun hmem =>
      absurd (hs.inWheel.range _ hmem).2 (Nat.lt_irrefl _)
    rw [Client.sendReq, if_neg Bool.false_ne_true]
    have hsends : Sends i 1 c
        ((c.enqueue_wheel_req_st i (c.sslot_arr i).num_tx).useCredit i) := by
      refine ⟨Nat.sub_add_cancel hcredit, ?_, fun j hj => ?_, rfl⟩
      · simp only [Client.useCredit, Client.enqueue_wheel_req_st, modify_self]
      · rw [Client.useCredit, modify_other _ hj]
        exact Function.update_of_ne hj ..
    refine Yields.ret ⟨?_, hsends, nofun⟩
    have hwheel : ((c.enqueue_wheel_req_st i (c.sslot_arr i).num_tx).useCredit i).wheel =
        c.wheel ++ [(i, (c.sslot_arr i).num_tx)] := rfl
    refine h.client i hsends.others (fun p hp => .inl hp) (fun j hj k => ?_) (fun j hj => ?_)
      ⟨mc, mv, ?_⟩ (h.lists.sends hsends hi hs.counts ?_)
    · rw [hwheel, List.mem_append, List.mem_singleton, Prod.mk.injEq]
      exact or_iff_left fun he => hj he.1
    · rw [hwheel, List.countP_append, List.countP_singleton, if_neg, Nat.add_zero]
      simp only [decide_eq_true_eq]
      exact fun he => hj he.symm
    · rw [hwheel]
      simp only [Client.useCredit, Client.enqueue_wheel_req_st, modify_self]
      exact ⟨hs.number, hcounts, hs.room, hs.tag, hphase _ _, hs.server, hs.toServer,
        hs.toClient, hs.inWheel.push hm hs.counts hk⟩
    · rw [hwheel, List.nodup_append]
      refine ⟨h.lists.wheel, List.nodup_singleton _, fun e he e' he' => ?_⟩
      rw [List.mem_singleton] at he'
      subst he'
      exact fun heq => hfresh (heq ▸ he)

theorem Sends.stallq (h : Sends i n c c') : c'.stallq = c.stallq := by rw [h.rest]

theorem Inv.kick_req_st (h : Inv t K c v) (hcredit : 0 < c.credits)
    (hm : (c.sslot_arr i).tx_msgbuf = some m) (hi : i ∉ c.stallq) (uncongested : Bool) :
    Yields (c.kick_req_st t i uncongested) fun c' => Inv t K c' v ∧
      ∃ n, n = min c.credits (m.num_pkts t - (c.sslot_arr i).num_tx) ∧ Sends i n c c' ∧
        (c.can_bypass_wheel i uncongested = true → c'.wheel = c.wheel ∧
          c'.wire = c.wire ++
            (List.range n).map fun k => m.packet t ((c.sslot_arr i).num_tx + k)) := by
  rw [Client.kick_req_st]
  refine Yields.check hcredit ?_
  rw [hm]
  change Yields ((List.range _).foldlM _ _) _
  refine (Yields.foldlM_range (P := fun k c' => Inv t K c' v ∧ Sends i k c c' ∧
    (c.can_bypass_wheel i uncongested = true → c'.wheel = c.wheel ∧ c'.wire = c.wire ++
      (List.range k).map fun k => m.packet t ((c.sslot_arr i).num_tx + k)))
    (fun k hk c' hP => ?_) ⟨h, Sends.refl, fun _ => ⟨rfl, ?_⟩⟩).mono
    fun c' hP => ⟨hP.1, _, rfl, hP.2⟩
  · obtain ⟨hinv, hsends, hbypass⟩ := hP
    have hused := hsends.credits
    have htx := hsends.num_tx
    have hm' := (hsends.tx_msgbuf i).trans hm
    have hi' : i ∉ c'.stallq := hsends.stallq ▸ hi
    refine (hinv.sendReq (by omega) hm' (by omega) hi' _).mono fun c'' hP => ?_
    obtain ⟨hinv', hsend, hpacket⟩ := hP
    refine ⟨hinv', hsends.trans hsend, fun hby => ?_⟩
    obtain ⟨hwheel, hwire⟩ := hbypass hby
    obtain ⟨hwheel', hwire'⟩ := hpacket hby
    refine ⟨hwheel'.trans hwheel, ?_⟩
    rw [hwire', hwire, htx, List.range_succ, List.map_append, List.append_assoc]
    rfl
  · rw [List.range_zero, List.map_nil, List.append_nil]

/-- What `kick_rfr_st` leaves after `n` requests-for-response. -/
def rfrs (i : SlotIdx) (n : Nat) (c : Client τ) : Client τ :=
  { c with
    credits := c.credits - n
    wire := c.wire ++ (List.range n).map fun k =>
      Client.rfr (c.sslot_arr i).resp_msgbuf.pkthdr_0 ((c.sslot_arr i).num_tx + k) }.modify i
    fun s => { s with num_tx := s.num_tx + n }

theorem rfrs_zero : rfrs i 0 c = c := by
  simp only [rfrs, Client.modify, List.range_zero, List.map_nil, List.append_nil, Nat.sub_zero,
    Nat.add_zero, Function.update_eq_self]

theorem rfrs_succ : rfrs i (n + 1) c = ((rfrs i n c).enqueue_rfr_st i).useCredit i := by
  simp only [rfrs, Client.useCredit, Client.enqueue_rfr_st, Client.modify, Function.update_self,
    Function.update_idem, List.range_succ, List.map_append, List.map_cons, List.map_nil,
    List.append_assoc, Nat.sub_sub, Nat.add_assoc]

theorem kick_rfr_st_eq (hcredit : 0 < c.credits) (hm : (c.sslot_arr i).tx_msgbuf = some m)
    (hge : m.num_pkts t ≤ (c.sslot_arr i).num_rx)
    (hlt : (c.sslot_arr i).num_rx < wire_pkts t m (c.sslot_arr i).resp_msgbuf) :
    c.kick_rfr_st t i = some (rfrs i (min c.credits
      (wire_pkts t m (c.sslot_arr i).resp_msgbuf - (c.sslot_arr i).num_tx)) c) := by
  have hloop : ∀ n, (List.range n).foldlM (fun (c : Client τ) _ =>
      some ((c.enqueue_rfr_st i).useCredit i)) c = some (rfrs i n c) := by
    intro n
    induction n with
    | zero => rw [rfrs_zero]; rfl
    | succ n ih =>
      rw [List.range_succ, List.foldlM_append, ih, rfrs_succ]
      rfl
  simp only [Client.kick_rfr_st, guard, hm, hcredit, hge, hlt, if_true, Option.pure_def,
    Option.bind_eq_bind, Option.bind_some]
  exact hloop _

theorem sends_rfrs (hn : n ≤ c.credits) : Sends i n c (rfrs i n c) := by
  refine ⟨Nat.sub_add_cancel hn, ?_, fun j hj => Function.update_of_ne hj .., rfl⟩
  simp only [rfrs, modify_self]

theorem wire_pkts_lt {r r' n : Nat} {q : MsgBuffer} (hm : IsRequest t K r m)
    (hq : IsResponse t K r' n q) : wire_pkts t m q < 2 ^ kPktNumBits := by
  have h₁ := hm.pkts_le
  have h₂ := hq.pkts_le
  simp only [wire_pkts, kPktNumBits] at h₁ h₂ ⊢
  omega

theorem ServerPhase.response {u : ServerSlot} {q : MsgBuffer} (h : ServerPhase t K m u)
    (hq : u.tx_msgbuf = some q) : IsRequest t K u.cur_req_num m ∧ Settled u ∧
      IsResponse t K u.cur_req_num (m.num_pkts t) q ∧
      u.sav_num_req_pkts = m.num_pkts t ∧ m.num_pkts t ≤ u.num_rx ∧
      u.num_rx ≤ wire_pkts t m q := by
  cases h with
  | fresh number req type resp =>
    rw [resp] at hq
    cases hq
  | receiving b request req type resp =>
    rw [resp] at hq
    cases hq
  | called b request req type resp =>
    rw [resp] at hq
    cases hq
  | answered q' request req type resp response sav ge le =>
    rw [resp] at hq
    cases hq
    exact ⟨request, ⟨req, type⟩, response, sav, ge, le⟩

theorem Inv.rfrs (h : Inv t K c v) (hm : (c.sslot_arr i).tx_msgbuf = some m)
    (hge : m.num_pkts t ≤ (c.sslot_arr i).num_rx) (hcredit : n ≤ c.credits)
    (hn : (c.sslot_arr i).num_tx + n ≤ wire_pkts t m (c.sslot_arr i).resp_msgbuf)
    (hi : i ∉ c.stallq) : Inv t K (rfrs i n c) v := by
  obtain ⟨mc, mv, hs⟩ := h.slot i
  have hsends := sends_rfrs (i := i) hcredit
  have hcounts := hs.counts
  cases hs.client with
  | idle tx =>
    rw [tx] at hm
    cases hm
  | unseen tx request behind settled rx le =>
    have hpos := Transport.num_pkts_pos (t := t) (n := m.data_size)
    simp only [MsgBuffer.num_pkts] at hge
    omega
  | requesting tx request same lt =>
    rw [tx] at hm
    cases hm
    omega
  | reading q tx request same resp large ge lt le rx hdr received =>
    rw [tx] at hm
    cases hm
    have hwire : wire_pkts t m (c.sslot_arr i).resp_msgbuf = wire_pkts t m q := by
      simp only [wire_pkts, MsgBuffer.num_pkts, received.size]
    rw [hwire] at hn
    obtain ⟨-, -, hresp, -⟩ := hs.server.response resp
    have hlt := wire_pkts_lt request hresp
    have hpacket : ∀ k < n, ∃ n, ToServer t i mc m (c.sslot_arr i).cur_req_num (v.sslot_arr i)
        (Client.rfr (c.sslot_arr i).resp_msgbuf.pkthdr_0 ((c.sslot_arr i).num_tx + k)) n := by
      intro k hk
      have hnum : ((c.sslot_arr i).num_tx + k) % 2 ^ kPktNumBits =
          (c.sslot_arr i).num_tx + k := Nat.mod_eq_of_lt (by omega)
      refine ⟨(c.sslot_arr i).cur_req_num, request.number, hs.number, Nat.le_refl _, hdr, .inr rfl,
        fun _ => .inr ⟨rfl, q, resp, ?_, ?_⟩, fun hahead => ?_⟩
      · simp only [Client.rfr, hnum]
        omega
      · simp only [Client.rfr, hnum]
        omega
      · simp only [kSessionReqWindow] at hahead
        omega
    have hmem : ∀ p ∈ (Erpc.rfrs i n c).wire, p ∈ c.wire ∨ ∃ k < n, p =
        Client.rfr (c.sslot_arr i).resp_msgbuf.pkthdr_0 ((c.sslot_arr i).num_tx + k) := by
      intro p hp
      rw [Erpc.rfrs, Client.modify, List.mem_append, List.mem_map] at hp
      refine hp.imp_right ?_
      rintro ⟨k, hk, rfl⟩
      exact ⟨k, List.mem_range.1 hk, rfl⟩
    refine h.client i hsends.others (fun p hp => ?_) (fun _ _ _ => Iff.rfl) (fun _ _ => rfl)
      ⟨mc, m, ?_⟩ (h.lists.sends hsends hi hcounts h.lists.wheel)
    · refine (hmem p hp).imp_right ?_
      rintro ⟨k, hk, rfl⟩
      change (c.sslot_arr i).resp_msgbuf.pkthdr_0.req_num % kSessionReqWindow = i
      rw [hdr, req_num_slot, hs.number]
    · have hslot : (Erpc.rfrs i n c).sslot_arr i =
          { c.sslot_arr i with num_tx := (c.sslot_arr i).num_tx + n } := modify_self _
      rw [hslot]
      refine ⟨hs.number, Nat.le_add_right_of_le hcounts, hs.room, hs.tag,
        .reading q tx request same resp large ge lt hn rx hdr received, hs.server,
        fun p hp hpi => ?_, hs.toClient, fun k hk => ?_, hs.inWheel.request, hs.inWheel.flag,
        hs.inWheel.count⟩
      · obtain hp | ⟨k, hk, rfl⟩ := hmem p hp
        · exact hs.toServer p hp hpi
        · exact hpacket k hk
      · exact ⟨(hs.inWheel.range k hk).1, Nat.lt_add_right n (hs.inWheel.range k hk).2⟩

end Erpc

end Galois
