import Galois.Erpc.Log

namespace Galois
set_option autoImplicit true
set_option relaxedAutoImplicit false

namespace Erpc

variable {τ : Type} {t : Transport} {respSize : Nat} {s s' : State τ} {c' : Client τ} {v' : Server}
  {i : SlotIdx} {a : EnqReqArgs τ} {K' : Known} {r : Nat} {b q : MsgBuffer} {x : Action τ}

/-- What the history of a session says about its requests and responses. -/
def State.known (respSize : Nat) (s : State τ) : Known where
  respSize := respSize
  request r m := ∃ a ∈ s.enqueued, (a.tag, r) ∈ s.client.started ∧
    m.pkthdr_0.req_type = a.req_type ∧ m.bytes = a.req_msgbuf.bytes
  response r q := (r, q) ∈ s.server.responses

structure Safe (t : Transport) (respSize : Nat) (s : State τ) : Prop where
  inv : Inv t (s.known respSize) s.client s.server
  ready : Ready s.client
  clientLog : ClientLog s.enqueued s.client
  serverLog : ServerLog s.server
  calls : ∀ call ∈ s.server.calls, ∃ a ∈ s.enqueued, (a.tag, call.req_num) ∈ s.client.started ∧
    call.req_type = a.req_type ∧ call.req_msgbuf.bytes = a.req_msgbuf.bytes
  answers : ∀ e ∈ s.client.finished, ∃ r q, (e.1, r) ∈ s.client.started ∧
    (r, q) ∈ s.server.responses ∧ e.2.bytes = q.bytes
  room : ∀ e ∈ s.client.finished, respSize ≤ e.2.max_data_size

structure Extends (s s' : State τ) : Prop where
  enqueued : ∀ a ∈ s.enqueued, a ∈ s'.enqueued
  started : ∀ e ∈ s.client.started, e ∈ s'.client.started
  responses : ∀ e ∈ s.server.responses, e ∈ s'.server.responses

theorem Extends.le (h : Extends s s') : (s.known respSize).Le (s'.known respSize) := by
  refine ⟨rfl, fun r m hr => ?_, fun r q hr => h.responses _ hr⟩
  obtain ⟨a, ha, hstarted, hm⟩ := hr
  exact ⟨a, h.enqueued a ha, h.started _ hstarted, hm⟩

theorem Extends.name (h : Extends s s') (ha : a ∈ s'.enqueued)
    (hr : (a.tag, r) ∈ s'.client.started) :
    ((s.known respSize).name r a).Le (s'.known respSize) := by
  refine ⟨rfl, fun n m hn => ?_, h.le.response⟩
  obtain hn | ⟨rfl, hm⟩ := hn
  · exact h.le.request n m hn
  · exact ⟨a, ha, hr, hm⟩

theorem Extends.answer (h : Extends s s') (hr : (r, q) ∈ s'.server.responses) :
    ((s.known respSize).answer r q).Le (s'.known respSize) := by
  refine ⟨rfl, h.le.request, fun n q' hn => ?_⟩
  obtain hn | ⟨rfl, rfl⟩ := hn
  · exact h.le.response n q' hn
  · exact hr

theorem Safe.calls_extend (h : Safe t respSize s) (he : Extends s s') : ∀ call ∈ s.server.calls,
    ∃ a ∈ s'.enqueued, (a.tag, call.req_num) ∈ s'.client.started ∧
      call.req_type = a.req_type ∧ call.req_msgbuf.bytes = a.req_msgbuf.bytes := by
  intro call hcall
  obtain ⟨a, ha, hstarted, hcall⟩ := h.calls call hcall
  exact ⟨a, he.enqueued a ha, he.started _ hstarted, hcall⟩

theorem Safe.answers_extend (h : Safe t respSize s) (he : Extends s s') :
    ∀ e ∈ s.client.finished, ∃ r q, (e.1, r) ∈ s'.client.started ∧
      (r, q) ∈ s'.server.responses ∧ e.2.bytes = q.bytes := by
  intro e hmem
  obtain ⟨r, q, hstarted, hq, hbytes⟩ := h.answers e hmem
  exact ⟨r, q, he.started _ hstarted, he.responses _ hq, hbytes⟩

theorem Safe.number (h : Safe t respSize s) (i : SlotIdx) :
    (s.client.sslot_arr i).cur_req_num % kSessionReqWindow = i := by
  obtain ⟨mc, mv, hs⟩ := h.inv.slot i
  exact hs.number

theorem Safe.keep (h : Safe t respSize s) (hinv : Inv t (s.known respSize) c' s.server)
    (hready : Ready c') (hsame : SameRequests s.client c') :
    Safe t respSize { s with client := c' } := by
  have he : Extends s { s with client := c' } :=
    ⟨fun _ ha => ha, fun e he => by rw [hsame.started]; exact he, fun _ he => he⟩
  refine ⟨hinv.mono he.le, hready, h.clientLog.keep hsame, h.serverLog, h.calls_extend he, ?_, ?_⟩
  · rw [hsame.finished]
    exact h.answers_extend he
  · rw [hsame.finished]
    exact h.room

theorem Safe.enqueue_request (h : Safe t respSize s) (uncongested : Bool)
    (ha : s.Allowed t respSize (.enqueue_request a uncongested)) :
    Yields (s.next t (.enqueue_request a uncongested)) fun s' => Safe t respSize s' ∧
      s'.client.finished = s.client.finished ∧ s'.enqueued = s.enqueued ++ [a] := by
  obtain ⟨htag, htype, hsize, hroom⟩ := ha
  have hlog := h.clientLog.enqueue htag
  have hmem : a ∈ s.enqueued ++ [a] := List.mem_append_right _ (List.mem_singleton_self a)
  cases hfree : s.client.sslot_free_vec with
  | nil =>
    have he : Extends s { s with
        client := { s.client with enq_req_backlog := s.client.enq_req_backlog ++ [a] }
        enqueued := s.enqueued ++ [a] } :=
      ⟨fun _ ha => List.mem_append_left _ ha, fun _ he => he, fun _ he => he⟩
    have hwait : s.client.enqueue_request t uncongested a =
        some { s.client with enq_req_backlog := s.client.enq_req_backlog ++ [a] } := by
      rw [Client.enqueue_request]
      split
      · rfl
      · next hcons =>
        rw [hfree] at hcons
        cases hcons
    rw [State.next, hwait, Option.bind_eq_bind, Option.bind_some]
    refine Yields.ret ⟨⟨?_, ⟨fun _ => hfree, h.ready.stalled⟩, hlog, h.serverLog,
      h.calls_extend he, h.answers_extend he, h.room⟩, rfl, rfl⟩
    have hinv := h.inv.mono he.le
    refine ⟨hinv.slot, { hinv.lists with waiting := fun b hb => ?_ }⟩
    obtain hb | hb := List.mem_append.1 hb
    · exact hinv.lists.waiting b hb
    · rw [List.mem_singleton] at hb
      subst hb
      exact ⟨htype, hsize, hroom⟩
  | cons i free =>
    have hbacklog : s.client.enq_req_backlog = [] := by
      by_contra hne
      rw [h.ready.backlog hne] at hfree
      cases hfree
    have hnone : (s.client.sslot_arr i).tx_msgbuf = none :=
      (h.inv.lists.free i).1 (hfree ▸ List.mem_cons_self)
    have hstart := hlog.start (i := i) (a := a) (l := []) (by rw [hbacklog]; rfl) hnone
      (h.number i)
    refine (h.inv.enqueue_request ⟨htype, hsize, hroom⟩ hfree uncongested).bind fun c' hP => ?_
    obtain ⟨hinv, hen⟩ := hP
    have hstarted : c'.started = s.client.started ++
        [(a.tag, (s.client.sslot_arr i).cur_req_num + kSessionReqWindow)] := hen.same.started
    have he : Extends s { s with client := c', enqueued := s.enqueued ++ [a] } := by
      refine ⟨fun _ ha => List.mem_append_left _ ha, fun e he => ?_, fun _ he => he⟩
      rw [hstarted]
      exact List.mem_append_left _ he
    have hfinished : c'.finished = s.client.finished := hen.same.finished
    refine Yields.ret ⟨⟨hinv.mono (he.name hmem ?_), h.ready.enqueued hen hfree, hstart.keep ?_,
      h.serverLog, h.calls_extend he, ?_, ?_⟩, hfinished, rfl⟩
    · rw [hstarted]
      exact List.mem_append_right _ (List.mem_singleton_self _)
    · refine ⟨hen.same.tx_msgbuf, hen.same.cur_req_num, hen.same.tag, ?_, hen.same.started,
        hen.same.finished⟩
      exact hen.same.enq_req_backlog.trans hbacklog
    · rw [hfinished]
      exact h.answers_extend he
    · rw [hfinished]
      exact h.room

theorem Safe.finish (h : Safe t respSize s) (hinv : Inv t K' c' s.server) (hready : Ready c')
    (hf : Finishes (s.known respSize) i s.client K' c') :
    Safe t respSize { s with client := c' } := by
  obtain ⟨b, tag, q, hactive, htag, hq, hbytes, hroom, hrefilled⟩ := hf.finished
  obtain ⟨hstarted, -⟩ := h.clientLog.active i tag hactive htag
  have hlog := h.clientLog.complete (b := b) h.number hactive htag
  cases hrefilled with
  | nothing hbacklog =>
    have he : Extends s { s with client := completed i b tag s.client } :=
      ⟨fun _ ha => ha, fun _ he => he, fun _ he => he⟩
    refine ⟨hinv, hready, hlog, h.serverLog, h.calls_extend he, fun e hmem => ?_, fun e hmem => ?_⟩
    all_goals obtain hmem | hmem := List.mem_append.1 hmem
    · exact h.answers_extend he e hmem
    · rw [List.mem_singleton] at hmem
      subst hmem
      exact ⟨_, q, hstarted, hq, hbytes⟩
    · exact h.room e hmem
    · rw [List.mem_singleton] at hmem
      subst hmem
      exact hroom
  | @next a backlog c' hwaiting hsame =>
    have hnumber : ((completed i b tag s.client).sslot_arr i).cur_req_num =
        (s.client.sslot_arr i).cur_req_num := by
      rw [completed, released, modify_self]
    have hstart := hlog.start (i := i) hwaiting (by rw [completed, released, modify_self])
      (hnumber ▸ h.number i)
    have hstarted' : c'.started = s.client.started ++
        [(a.tag, ((completed i b tag s.client).sslot_arr i).cur_req_num + kSessionReqWindow)] :=
      hsame.started
    have hfinished : c'.finished = s.client.finished ++ [(tag, b)] := hsame.finished
    have he : Extends s { s with client := c' } := by
      refine ⟨fun _ ha => ha, fun e he => ?_, fun _ he => he⟩
      rw [hstarted']
      exact List.mem_append_left _ he
    have ha : a ∈ s.enqueued := by
      refine h.clientLog.backlog a ?_
      have hwaiting' : s.client.enq_req_backlog = a :: backlog := hwaiting
      rw [hwaiting']
      exact List.mem_cons_self
    refine ⟨hinv.mono (he.name ha ?_), hready, hstart.keep hsame, h.serverLog,
      h.calls_extend he, fun e hmem => ?_, fun e hmem => ?_⟩
    · rw [hstarted']
      exact List.mem_append_right _ (List.mem_singleton_self _)
    · rw [hfinished, List.mem_append, List.mem_singleton] at hmem
      obtain hmem | rfl := hmem
      · exact h.answers_extend he e hmem
      · exact ⟨_, q, he.started _ hstarted, hq, hbytes⟩
    · rw [hfinished, List.mem_append, List.mem_singleton] at hmem
      obtain hmem | rfl := hmem
      · exact h.room e hmem
      · exact hroom

theorem Safe.serve (h : Safe t respSize s) (hinv : Inv t (s.known respSize) s.client v')
    (hs : Serves (s.known respSize) i s.server v') :
    Safe t respSize { s with server := v' } := by
  have he : Extends s { s with server := v' } :=
    ⟨fun _ ha => ha, fun _ he => he, fun e he => by rw [hs.responses]; exact he⟩
  obtain ⟨mc, mv, hslot⟩ := hinv.slot i
  refine ⟨hinv.mono he.le, h.ready, h.clientLog, h.serverLog.serve hs hslot.ahead.1,
    fun call hcall => ?_, h.answers_extend he, h.room⟩
  obtain ⟨hcalls, -⟩ | ⟨m, b, ⟨a, ha, hstarted, htype, hbytes⟩, hcalls, hreq, hb, -, -⟩ := hs.calls
  · rw [hcalls] at hcall
    exact h.calls call hcall
  · rw [hcalls, List.mem_append, List.mem_singleton] at hcall
    obtain hcall | rfl := hcall
    · exact h.calls call hcall
    · exact ⟨a, ha, hstarted, hreq.trans htype, hb.trans hbytes⟩

theorem Safe.respond (h : Safe t respSize s)
    (hinv : Inv t ((s.known respSize).answer (s.server.sslot_arr i).cur_req_num q) s.client v')
    (hs : Responds i q s.server v') (htype : (s.server.sslot_arr i).req_type ≠ kInvalidReqType)
    (htype' : (v'.sslot_arr i).req_type = kInvalidReqType) :
    Safe t respSize { s with server := v' } := by
  have he : Extends s { s with server := v' } := by
    refine ⟨fun _ ha => ha, fun _ he => he, fun e he => ?_⟩
    rw [hs.responses]
    exact List.mem_append_left _ he
  obtain ⟨mc, mv, hslot⟩ := h.inv.slot i
  refine ⟨hinv.mono (he.answer ?_), h.ready, h.clientLog,
    h.serverLog.respond hs hslot.ahead.1 htype htype', ?_, h.answers_extend he, h.room⟩
  · rw [hs.responses]
    exact List.mem_append_right _ (List.mem_singleton_self _)
  · rw [hs.calls]
    exact h.calls_extend he

theorem Finishes.finished_eq {K : Known} {c : Client τ} (h : Finishes K i c K' c') :
    ∃ e, c'.finished = c.finished ++ [e] := by
  obtain ⟨b, tag, q, -, -, -, -, -, hrefilled⟩ := h.finished
  cases hrefilled with
  | nothing => exact ⟨_, rfl⟩
  | next hwaiting hsame => exact ⟨_, hsame.finished⟩

/-- A step runs continuations, and enqueues no request of its own. -/
structure Continues (s s' : State τ) (x : Action τ) : Prop where
  finished : s.client.finished <+: s'.client.finished
  enqueued : (∀ a uncongested, x ≠ .enqueue_request a uncongested) → s'.enqueued = s.enqueued

/-- No assertion of the two ends fails in a state that is safe, and what they do leaves it so. -/
theorem Safe.next (h : Safe t respSize s) (ha : s.Allowed t respSize x) :
    Yields (s.next t x) fun s' => Safe t respSize s' ∧ Continues s s' x := by
  have hkeep : ∀ {c'}, Inv t (s.known respSize) c' s.server → Ready c' →
      SameRequests s.client c' → Safe t respSize { s with client := c' } ∧
        Continues s { s with client := c' } x := fun hinv hready hsame =>
    ⟨h.keep hinv hready hsame, by rw [hsame.finished], fun _ => rfl⟩
  cases x with
  | enqueue_request a uncongested =>
    refine (h.enqueue_request uncongested ha).mono fun s' hP =>
      ⟨hP.1, by rw [hP.2.1], fun hne => absurd rfl (hne a uncongested)⟩
  | enqueue_response i resp_msgbuf =>
    obtain ⟨htype, hsize, hfits⟩ := ha
    refine (h.inv.enqueue_response htype hsize hfits).bind fun v' hP => ?_
    obtain ⟨q, -, hinv, hs, htype', -⟩ := hP
    exact Yields.ret ⟨h.respond hinv hs htype htype', List.prefix_rfl, fun _ => rfl⟩
  | clientRx p uncongested =>
    refine (h.inv.clientRx h.ready ha uncongested).bind fun c' hP => Yields.ret ?_
    obtain ⟨K', i, -, hinv, hready, hout⟩ := hP
    rw [Progresses] at hout
    split at hout
    · obtain ⟨rfl, hadv⟩ | hfin := hout
      · exact hkeep hinv hready hadv.same
      · obtain ⟨e, he⟩ := hfin.finished_eq
        exact ⟨h.finish hinv hready hfin, he ▸ List.prefix_append _ _, fun _ => rfl⟩
    · obtain ⟨rfl, rfl⟩ := hout
      exact ⟨h, List.prefix_rfl, fun _ => rfl⟩
  | serverRx p garbage =>
    refine (h.inv.serverRx ha garbage).bind fun v' hP => Yields.ret ?_
    obtain ⟨i, -, hinv, hs, -⟩ := hP
    exact ⟨h.serve hinv hs, List.prefix_rfl, fun _ => rfl⟩
  | process_credit_stall_queue_st uncongested =>
    refine (h.inv.process_credit_stall_queue_st uncongested).bind fun c' hP => Yields.ret ?_
    obtain ⟨hinv, hkeeps, -⟩ := hP
    exact hkeep hinv (hkeeps.ready h.ready) hkeeps.same
  | process_wheel_st i pkt_num =>
    refine (h.inv.process_wheel_st ha).bind fun c' hP => Yields.ret ?_
    obtain ⟨hinv, hkeeps, -⟩ := hP
    exact hkeep hinv (hkeeps.ready h.ready) hkeeps.same
  | pkt_loss_scan_st expired uncongested =>
    refine (h.inv.pkt_loss_scan_st expired uncongested).bind fun c' hP => Yields.ret ?_
    obtain ⟨hinv, hkeeps, -⟩ := hP
    exact hkeep hinv (hkeeps.ready h.ready) hkeeps.same
  | lose toServer toClient =>
    obtain ⟨hserver, hclient⟩ := ha
    have hl := h.inv.lists
    have hv := h.serverLog
    refine Yields.ret ⟨⟨⟨fun i => ?_, ⟨hl.credits, hl.wheel, hl.free_nodup, hl.free,
      hl.active_nodup, hl.active, hl.stalled_nodup, hl.stalled, hl.waiting⟩⟩,
      ⟨h.ready.backlog, h.ready.stalled⟩,
      h.clientLog.keep ⟨fun _ => rfl, fun _ => rfl, fun _ => rfl, rfl, rfl, rfl⟩,
      ⟨hv.calls, hv.number, hv.responses, hv.called, hv.answered, hv.awaited⟩, h.calls, h.answers,
      h.room⟩, List.prefix_rfl, fun _ => rfl⟩
    obtain ⟨mc, mv, hs⟩ := h.inv.slot i
    exact ⟨mc, mv, hs.frame (fun p hp => .inl (hserver hp)) (fun p hp => .inl (hclient hp))
      hs.inWheel⟩

theorem Safe.initial : Safe t respSize (State.initial : State τ) := by
  refine ⟨⟨fun i => ?_, ?_⟩, ⟨fun hne => absurd rfl hne, fun i hi => absurd rfl hi⟩, ?_, ?_, nofun,
    nofun, nofun⟩
  · refine ⟨⟨default, 0, 0, fun _ => 0⟩, ⟨default, 0, 0, fun _ => 0⟩, Nat.mod_eq_of_lt i.isLt,
      Nat.le_refl _, nofun, nofun, .idle rfl rfl ⟨rfl, rfl⟩ rfl, .fresh i.isLt rfl rfl rfl, nofun,
      nofun, nofun, nofun, fun x => iff_of_false Bool.false_ne_true ?_, rfl⟩
    rintro ⟨k, hk, -⟩
    cases hk
  · exact ⟨rfl, List.nodup_nil, List.nodup_finRange _,
      fun i => iff_of_true (List.mem_finRange i) rfl, List.nodup_nil,
      fun i => iff_of_false List.not_mem_nil fun hne => hne rfl, List.nodup_nil, nofun, nofun⟩
  · exact ⟨List.nodup_nil, rfl, nofun, List.nodup_nil, nofun, fun i _ hi => absurd rfl hi,
      List.nodup_nil, nofun, nofun⟩
  · exact ⟨List.nodup_nil, nofun, List.nodup_nil, nofun, nofun, fun i hi => absurd rfl hi⟩

theorem safe_of_reachable (h : (session t respSize).Reachable s) : Safe t respSize s := by
  obtain ⟨w, hr⟩ := h
  refine hr.invariant (fun s hs => ?_) fun s a s' hsafe hstep => ?_
  · rw [hs]
    exact .initial
  · exact ((hsafe.next hstep.1).of_eq hstep.2).1

theorem reachable_next (h : (session t respSize).Reachable s) (ha : s.Allowed t respSize x)
    (hs : s.next t x = some s') : (session t respSize).Reachable s' := h.step ⟨ha, hs⟩

/-- Whatever the network does, no assertion of the datapath fails in any run. -/
theorem never_asserts (h : (session t respSize).Reachable s) (ha : s.Allowed t respSize x) :
    ∃ s', (session t respSize).step s x s' := by
  obtain ⟨s', hs', -⟩ := (safe_of_reachable h).next ha
  exact ⟨s', ha, hs'⟩

/-- A request is enqueued, and lost. -/
theorem never_asserts_lost : ∃ s s' : State Nat, s.client.wire = [] ∧
    (session infiniband 4).step s (.pkt_loss_scan_st (fun _ => true) false) s' := by
  have h₀ : (session infiniband 4).Reachable (State.initial : State Nat) := ⟨[], .nil rfl⟩
  have h₁ := reachable_next (x := .enqueue_request
    ⟨10, ⟨default, 4, 4, fun _ => 7⟩, ⟨default, 4, 4, fun _ => 0⟩, 0⟩ true) h₀
    ⟨List.not_mem_nil, by decide, by decide, by decide⟩ rfl
  have h₂ := reachable_next (x := .lose [] []) h₁ ⟨List.nil_subset _, List.nil_subset _⟩ rfl
  obtain ⟨s', hs'⟩ := never_asserts (x := .pkt_loss_scan_st (fun _ => true) false) h₂ trivial
  exact ⟨_, s', rfl, hs'⟩

/-- What the two users of a session see of it. -/
structure ExactlyOnce (s : State τ) : Prop where
  tags : (s.enqueued.map (·.tag)).Nodup
  fifo : s.enqueued.map (·.tag) =
    s.client.started.map Prod.fst ++ s.client.enq_req_backlog.map (·.tag)
  numbers : (s.client.started.map Prod.snd).Nodup
  /-- The handler is called at most once for a request, with the request's type and data. -/
  calls : (s.server.calls.map (·.req_num)).Nodup
  called : ∀ call ∈ s.server.calls, ∃ a ∈ s.enqueued, (a.tag, call.req_num) ∈ s.client.started ∧
    call.req_type = a.req_type ∧ call.req_msgbuf.bytes = a.req_msgbuf.bytes
  responses : (s.server.responses.map Prod.fst).Nodup
  /-- The continuation runs at most once for a request, with the handler's response to it. -/
  finished : (s.client.finished.map Prod.fst).Nodup
  answered : ∀ e ∈ s.client.finished, ∃ call ∈ s.server.calls, ∃ q,
    (e.1, call.req_num) ∈ s.client.started ∧ (call.req_num, q) ∈ s.server.responses ∧
      e.2.bytes = q.bytes

theorem Safe.exactlyOnce (h : Safe t respSize s) : ExactlyOnce s := by
  refine ⟨h.clientLog.tags, h.clientLog.fifo, h.clientLog.numbers, h.serverLog.calls, h.calls,
    h.serverLog.responses, h.clientLog.finished, fun e he => ?_⟩
  obtain ⟨r, q, hstarted, hq, hbytes⟩ := h.answers e he
  obtain ⟨call, hcall, hnum⟩ := List.mem_map.1 (h.serverLog.called _ hq)
  dsimp only at hnum
  subst hnum
  exact ⟨call, hcall, q, hstarted, hq, hbytes⟩

/-- Whatever packets are lost, duplicated, reordered or sent again: requests start in the order in
which they were enqueued, and each is handled and answered at most once, and with its own data. -/
theorem exactly_once (h : (session t respSize).Reachable s) : ExactlyOnce s :=
  (safe_of_reachable h).exactlyOnce

/-- The first packet of a request is lost, and the one that is sent again arrives twice. -/
theorem exactly_once_lost : ∃ s : State Nat, s.server.calls.length = 1 ∧
    s.client.finished.map Prod.fst = [0] ∧ ExactlyOnce s := by
  have h₀ : (session infiniband 4).Reachable (State.initial : State Nat) := ⟨[], .nil rfl⟩
  have h₁ := reachable_next (x := .enqueue_request
    ⟨10, ⟨default, 4, 4, fun _ => 7⟩, ⟨default, 4, 4, fun _ => 0⟩, 0⟩ true) h₀
    ⟨List.not_mem_nil, by decide, by decide, by decide⟩ rfl
  have h₂ := reachable_next (x := .lose [] []) h₁ ⟨List.nil_subset _, List.nil_subset _⟩ rfl
  have h₃ := reachable_next (x := .pkt_loss_scan_st (fun _ => true) true) h₂ trivial rfl
  have h₄ := reachable_next (x := .serverRx (MsgBuffer.packet infiniband
    ⟨⟨10, 4, .req, 0, 8⟩, 4, 4, fun _ => 7⟩ 0) fun _ => 0) h₃ (List.mem_singleton.2 rfl) rfl
  have h₅ := reachable_next (x := .serverRx (MsgBuffer.packet infiniband
    ⟨⟨10, 4, .req, 0, 8⟩, 4, 4, fun _ => 7⟩ 0) fun _ => 0) h₄ (List.mem_singleton.2 rfl) rfl
  have h₆ := reachable_next (x := .enqueue_response 0 ⟨default, 4, 4, fun _ => 9⟩) h₅
    ⟨by decide, by decide, by decide⟩ rfl
  have h₇ := reachable_next (x := .clientRx (MsgBuffer.packet infiniband
    ⟨⟨10, 4, .resp, 0, 8⟩, 4, 4, fun _ => 9⟩ 0) true) h₆ (List.mem_singleton.2 rfl) rfl
  exact ⟨_, rfl, rfl, exactly_once h₇⟩

/-- Every credit and every slot of a session is accounted for. -/
structure Accounted (c : Client τ) : Prop where
  credits : c.credits + ∑ i, ((c.sslot_arr i).num_tx - (c.sslot_arr i).num_rx) = kSessionCredits
  counts : ∀ i, (c.sslot_arr i).num_rx ≤ (c.sslot_arr i).num_tx
  free : ∀ i, i ∈ c.sslot_free_vec ↔ i ∉ c.active_rpcs
  nodup : (c.sslot_free_vec ++ c.active_rpcs).Nodup
  /-- A request waits for a slot only if there is none, and a slot only for credits. -/
  backlog : c.enq_req_backlog ≠ [] → c.sslot_free_vec = []
  stalled : ∀ i ∈ c.active_rpcs, (c.sslot_arr i).num_tx = (c.sslot_arr i).num_rx → i ∈ c.stallq
  wheel : ∀ e ∈ c.wheel, (c.sslot_arr e.1).num_rx ≤ e.2 ∧ e.2 < (c.sslot_arr e.1).num_tx

theorem accounted (h : (session t respSize).Reachable s) : Accounted s.client := by
  have hsafe := safe_of_reachable h
  have hlists := hsafe.inv.lists
  have hfree : ∀ i, i ∈ s.client.sslot_free_vec ↔ i ∉ s.client.active_rpcs := fun i => by
    rw [hlists.free, hlists.active, not_not]
  refine ⟨hlists.credits, fun i => ?_, hfree, ?_, hsafe.ready.backlog, fun i hi => ?_,
    fun e he => ?_⟩
  · obtain ⟨mc, mv, hs⟩ := hsafe.inv.slot i
    exact hs.counts
  · rw [List.nodup_append]
    refine ⟨hlists.free_nodup, hlists.active_nodup, fun i hi j hj => ?_⟩
    rintro rfl
    exact (hfree i).1 hi hj
  · exact hsafe.ready.stalled i ((hlists.active i).1 hi)
  · obtain ⟨mc, mv, hs⟩ := hsafe.inv.slot e.1
    exact hs.inWheel.range e.2 he

theorem accounted_lost : ∃ s : State Nat, s.client.credits = 31 ∧ Accounted s.client := by
  have h₀ : (session infiniband 4).Reachable (State.initial : State Nat) := ⟨[], .nil rfl⟩
  have h₁ := reachable_next (x := .enqueue_request
    ⟨10, ⟨default, 4, 4, fun _ => 7⟩, ⟨default, 4, 4, fun _ => 0⟩, 0⟩ false) h₀
    ⟨List.not_mem_nil, by decide, by decide, by decide⟩ rfl
  have h₂ := reachable_next (x := .lose [] []) h₁ ⟨List.nil_subset _, List.nil_subset _⟩ rfl
  exact ⟨_, rfl, accounted h₂⟩

end Erpc

end Galois
