import Galois.Erpc.Serving

namespace Galois
set_option autoImplicit true
set_option relaxedAutoImplicit false

namespace Erpc

variable {τ : Type} {t : Transport} {K : Known} {c c' : Client τ} {v v' : Server} {i j : SlotIdx}
  {enqueued : List (EnqReqArgs τ)} {a : EnqReqArgs τ} {l : List (EnqReqArgs τ)}
  {b q : MsgBuffer} {tag : τ}

/-- The client's account of the requests enqueued with it: which of them wait, which have started
and with which number, and which are finished. -/
structure ClientLog (enqueued : List (EnqReqArgs τ)) (c : Client τ) : Prop where
  tags : (enqueued.map (·.tag)).Nodup
  fifo : enqueued.map (·.tag) = c.started.map Prod.fst ++ c.enq_req_backlog.map (·.tag)
  backlog : ∀ a ∈ c.enq_req_backlog, a ∈ enqueued
  numbers : (c.started.map Prod.snd).Nodup
  started : ∀ e ∈ c.started, ∀ i : SlotIdx, e.2 % kSessionReqWindow = i →
    e.2 ≤ (c.sslot_arr i).cur_req_num
  active : ∀ i tag, (c.sslot_arr i).tx_msgbuf ≠ none → (c.sslot_arr i).tag = some tag →
    (tag, (c.sslot_arr i).cur_req_num) ∈ c.started ∧ tag ∉ c.finished.map Prod.fst
  finished : (c.finished.map Prod.fst).Nodup
  done : ∀ e ∈ c.finished, e.1 ∈ c.started.map Prod.fst
  pending : ∀ e ∈ c.started, e.1 ∈ c.finished.map Prod.fst ∨
    ∃ i, (c.sslot_arr i).tx_msgbuf ≠ none ∧ (c.sslot_arr i).tag = some e.1

theorem ClientLog.keep (h : ClientLog enqueued c) (hs : SameRequests c c') :
    ClientLog enqueued c' := by
  constructor
  case tags => exact h.tags
  case fifo =>
    rw [hs.started, hs.enq_req_backlog]
    exact h.fifo
  case backlog =>
    rw [hs.enq_req_backlog]
    exact h.backlog
  case numbers =>
    rw [hs.started]
    exact h.numbers
  case started =>
    intro e he i hi
    rw [hs.started] at he
    rw [hs.cur_req_num]
    exact h.started e he i hi
  case active =>
    intro i tag htx htag
    rw [hs.tx_msgbuf] at htx
    rw [hs.tag] at htag
    rw [hs.cur_req_num, hs.started, hs.finished]
    exact h.active i tag htx htag
  case finished =>
    rw [hs.finished]
    exact h.finished
  case done =>
    rw [hs.finished, hs.started]
    exact h.done
  case pending =>
    intro e he
    rw [hs.started] at he
    rw [hs.finished]
    refine (h.pending e he).imp_right ?_
    rintro ⟨i, htx, htag⟩
    exact ⟨i, by rwa [hs.tx_msgbuf], by rwa [hs.tag]⟩

theorem ClientLog.enqueue (h : ClientLog enqueued c) (htag : a.tag ∉ enqueued.map (·.tag)) :
    ClientLog (enqueued ++ [a]) { c with enq_req_backlog := c.enq_req_backlog ++ [a] } := by
  refine { h with tags := ?_, fifo := ?_, backlog := fun b hb => ?_ }
  · rw [List.map_append, List.nodup_append]
    refine ⟨h.tags, List.nodup_singleton _, fun x hx y hy => ?_⟩
    rw [List.map_singleton, List.mem_singleton] at hy
    rintro rfl
    exact htag (hy ▸ hx)
  · rw [List.map_append, h.fifo, List.append_assoc]
    exact congrArg _ (List.map_append ..).symm
  · rw [List.mem_append] at hb ⊢
    exact hb.imp_left (h.backlog b)

theorem ClientLog.start (h : ClientLog enqueued c) (hwaiting : c.enq_req_backlog = a :: l)
    (hfree : (c.sslot_arr i).tx_msgbuf = none)
    (hnumber : (c.sslot_arr i).cur_req_num % kSessionReqWindow = i) :
    ClientLog enqueued ({ c with enq_req_backlog := l }.fillSlot i a) := by
  set c' := { c with enq_req_backlog := l }.fillSlot i a with hc'
  have hother : ∀ j, j ≠ i → c'.sslot_arr j = c.sslot_arr j :=
    fun j hj => Function.update_of_ne hj ..
  have hnum : (c'.sslot_arr i).cur_req_num = (c.sslot_arr i).cur_req_num + kSessionReqWindow := by
    rw [hc', Client.fillSlot, modify_self]
  have htag : (c'.sslot_arr i).tag = some a.tag := by
    rw [hc', Client.fillSlot, modify_self]
  have htx : (c'.sslot_arr i).tx_msgbuf ≠ none := by
    rw [hc', Client.fillSlot, modify_self]
    exact Option.some_ne_none _
  have hstarted : c'.started =
      c.started ++ [(a.tag, (c.sslot_arr i).cur_req_num + kSessionReqWindow)] := rfl
  have hfifo := h.fifo
  rw [hwaiting, List.map_cons] at hfifo
  have hnew : a.tag ∉ c.started.map Prod.fst := by
    have htags := h.tags
    rw [hfifo, List.nodup_append] at htags
    exact fun ha => htags.2.2 _ ha _ List.mem_cons_self rfl
  constructor
  case tags => exact h.tags
  case fifo =>
    rw [hfifo, hstarted, List.map_append, List.append_assoc]
    rfl
  case backlog =>
    intro b hb
    refine h.backlog b ?_
    rw [hwaiting]
    exact List.mem_cons_of_mem a hb
  case numbers =>
    rw [hstarted, List.map_append, List.nodup_append]
    refine ⟨h.numbers, List.nodup_singleton _, fun x hx y hy => ?_⟩
    rw [List.map_singleton, List.mem_singleton] at hy
    rintro rfl
    obtain ⟨e, he, rfl⟩ := List.mem_map.1 hx
    have hle := h.started e he i (by rw [hy, Nat.add_mod_right]; exact hnumber)
    simp only [kSessionReqWindow] at hy
    omega
  case started =>
    intro e he j hj
    rw [hstarted, List.mem_append, List.mem_singleton] at he
    by_cases hji : j = i
    · subst hji
      rw [hnum]
      obtain he | rfl := he
      · exact Nat.le_add_right_of_le (h.started e he j hj)
      · exact Nat.le_refl _
    · rw [hother j hji]
      obtain he | rfl := he
      · exact h.started e he j hj
      · rw [Nat.add_mod_right, hnumber] at hj
        exact absurd (Fin.ext hj.symm) hji
  case active =>
    intro j tag' hjtx hjtag
    rw [hstarted, List.mem_append, List.mem_singleton]
    by_cases hji : j = i
    · subst hji
      rw [htag, Option.some_inj] at hjtag
      subst hjtag
      refine ⟨.inr (by rw [hnum]), fun hfin => ?_⟩
      obtain ⟨e, he, hetag⟩ := List.mem_map.1 hfin
      exact hnew (hetag ▸ h.done e he)
    · rw [hother j hji] at hjtx hjtag ⊢
      exact (h.active j tag' hjtx hjtag).imp_left .inl
  case finished => exact h.finished
  case done =>
    intro e he
    rw [hstarted, List.map_append]
    exact List.mem_append_left _ (h.done e he)
  case pending =>
    intro e he
    rw [hstarted, List.mem_append, List.mem_singleton] at he
    obtain he | rfl := he
    · refine (h.pending e he).imp_right ?_
      rintro ⟨j, hjtx, hjtag⟩
      have hji : j ≠ i := by
        rintro rfl
        exact hjtx hfree
      exact ⟨j, by rwa [hother j hji], by rwa [hother j hji]⟩
    · exact .inr ⟨i, htx, htag⟩

theorem ClientLog.tag_inj (h : ClientLog enqueued c)
    (hnumber : ∀ i, (c.sslot_arr i).cur_req_num % kSessionReqWindow = i)
    (hi : (c.sslot_arr i).tx_msgbuf ≠ none) (hitag : (c.sslot_arr i).tag = some tag)
    (hj : (c.sslot_arr j).tx_msgbuf ≠ none) (hjtag : (c.sslot_arr j).tag = some tag) : i = j := by
  have htags := h.tags
  rw [h.fifo, List.nodup_append] at htags
  have heq := List.inj_on_of_nodup_map htags.1 (h.active i tag hi hitag).1
    (h.active j tag hj hjtag).1 rfl
  have hnum : (c.sslot_arr i).cur_req_num = (c.sslot_arr j).cur_req_num := congrArg Prod.snd heq
  refine Fin.ext ?_
  rw [← hnumber i, hnum, hnumber j]

theorem ClientLog.complete (h : ClientLog enqueued c)
    (hnumber : ∀ i, (c.sslot_arr i).cur_req_num % kSessionReqWindow = i)
    (hi : (c.sslot_arr i).tx_msgbuf ≠ none) (htag : (c.sslot_arr i).tag = some tag) :
    ClientLog enqueued (completed i b tag c) := by
  set c' := completed i b tag c with hc'
  have hother : ∀ j, j ≠ i → c'.sslot_arr j = c.sslot_arr j :=
    fun j hj => Function.update_of_ne hj ..
  have hself : c'.sslot_arr i = { c.sslot_arr i with
      num_rx := (c.sslot_arr i).num_rx + 1, resp_msgbuf := b, tx_msgbuf := none } :=
    Function.update_self ..
  have hfinished : c'.finished.map Prod.fst = c.finished.map Prod.fst ++ [tag] :=
    List.map_append ..
  obtain ⟨hstarted, hopen⟩ := h.active i tag hi htag
  have hnum : ∀ j, (c'.sslot_arr j).cur_req_num = (c.sslot_arr j).cur_req_num := by
    intro j
    by_cases hji : j = i
    · rw [hji, hself]
    · rw [hother j hji]
  have hactive : ∀ j, (c'.sslot_arr j).tx_msgbuf ≠ none → j ≠ i := by
    rintro j hj rfl
    rw [hself] at hj
    exact hj rfl
  constructor
  case tags => exact h.tags
  case fifo => exact h.fifo
  case backlog => exact h.backlog
  case numbers => exact h.numbers
  case started =>
    intro e he j hj
    rw [hnum]
    exact h.started e he j hj
  case active =>
    intro j tag' hjtx hjtag
    have hji := hactive j hjtx
    rw [hother j hji] at hjtx hjtag ⊢
    obtain ⟨hjstarted, hjopen⟩ := h.active j tag' hjtx hjtag
    refine ⟨hjstarted, ?_⟩
    rw [hfinished, List.mem_append, List.mem_singleton, not_or]
    refine ⟨hjopen, ?_⟩
    rintro rfl
    exact hji (h.tag_inj hnumber hjtx hjtag hi htag)
  case finished =>
    rw [hfinished, List.nodup_append]
    refine ⟨h.finished, List.nodup_singleton _, fun x hx y hy => ?_⟩
    rw [List.mem_singleton] at hy
    rintro rfl
    exact hopen (hy ▸ hx)
  case done =>
    intro e he
    obtain he | he := List.mem_append.1 he
    · exact h.done e he
    · rw [List.mem_singleton] at he
      subst he
      exact List.mem_map.2 ⟨_, hstarted, rfl⟩
  case pending =>
    intro e he
    rw [hfinished, List.mem_append, List.mem_singleton, or_assoc]
    refine (h.pending e he).imp_right ?_
    rintro ⟨j, hjtx, hjtag⟩
    by_cases hji : j = i
    · subst hji
      rw [htag, Option.some_inj] at hjtag
      exact .inl hjtag.symm
    · exact .inr ⟨j, by rwa [hother j hji], by rwa [hother j hji]⟩

/-- The server's account of the handler's calls and of the responses. -/
structure ServerLog (v : Server) : Prop where
  calls : (v.calls.map (·.req_num)).Nodup
  number : ∀ call ∈ v.calls, ∀ i : SlotIdx, call.req_num % kSessionReqWindow = i →
    call.req_num < (v.sslot_arr i).cur_req_num ∨ call.req_num = (v.sslot_arr i).cur_req_num ∧
      ((v.sslot_arr i).req_type ≠ kInvalidReqType ∨ (v.sslot_arr i).tx_msgbuf ≠ none)
  responses : (v.responses.map Prod.fst).Nodup
  called : ∀ e ∈ v.responses, e.1 ∈ v.calls.map (·.req_num)
  answered : ∀ e ∈ v.responses, ∀ i : SlotIdx, e.1 % kSessionReqWindow = i →
    e.1 < (v.sslot_arr i).cur_req_num ∨
      e.1 = (v.sslot_arr i).cur_req_num ∧ (v.sslot_arr i).tx_msgbuf ≠ none
  awaited : ∀ i, (v.sslot_arr i).req_type ≠ kInvalidReqType →
    (v.sslot_arr i).cur_req_num ∈ v.calls.map (·.req_num)

/-- What is past for a slot stays past. -/
def Passed (P : ServerSlot → Prop) (n : Nat) (u : ServerSlot) : Prop :=
  n < u.cur_req_num ∨ n = u.cur_req_num ∧ P u

theorem ServerLog.serve (h : ServerLog v) (hs : Serves K i v v')
    (hnumber : (v'.sslot_arr i).cur_req_num % kSessionReqWindow = i) : ServerLog v' := by
  have hcur : (v.sslot_arr i).cur_req_num ≤ (v'.sslot_arr i).cur_req_num := by
    obtain ⟨-, ⟨hlt, -⟩ | ⟨heq, -⟩⟩ | ⟨m, b, -, -, -, -, -, hlt | ⟨heq, -⟩⟩ := hs.calls <;> omega
  obtain ⟨hcalls, hslot⟩ | ⟨m, b, -, hcalls, -, -, htype, hfresh⟩ := hs.calls
  · have hkept : ∀ (P : ServerSlot → Prop) (n : Nat) (j : SlotIdx), (∀ u u' : ServerSlot,
        u'.req_type = u.req_type → u'.tx_msgbuf = u.tx_msgbuf → P u → P u') →
        Passed P n (v.sslot_arr j) → Passed P n (v'.sslot_arr j) := by
      intro P n j hP hn
      by_cases hji : j = i
      · subst hji
        obtain ⟨hlt, -⟩ | ⟨hsame, hreq, htx⟩ := hslot
        · refine .inl ?_
          obtain hn | ⟨hn, -⟩ := hn <;> omega
        · rw [Passed, hsame]
          exact hn.imp_right fun hn => ⟨hn.1, hP _ _ hreq htx hn.2⟩
      · rw [hs.others j hji]
        exact hn
    constructor
    case calls =>
      rw [hcalls]
      exact h.calls
    case number =>
      intro call hcall j hj
      rw [hcalls] at hcall
      refine hkept (fun u => u.req_type ≠ kInvalidReqType ∨ u.tx_msgbuf ≠ none) _ j ?_
        (h.number call hcall j hj)
      intro u u' hreq htx hu
      rwa [hreq, htx]
    case responses =>
      rw [hs.responses]
      exact h.responses
    case called =>
      rw [hs.responses, hcalls]
      exact h.called
    case answered =>
      intro e he j hj
      rw [hs.responses] at he
      refine hkept (fun u => u.tx_msgbuf ≠ none) _ j ?_ (h.answered e he j hj)
      intro u u' hreq htx hu
      rwa [htx]
    case awaited =>
      intro j hj
      rw [hcalls]
      by_cases hji : j = i
      · subst hji
        obtain ⟨-, hinvalid⟩ | ⟨hsame, hreq, -⟩ := hslot
        · exact absurd hinvalid hj
        · rw [hsame]
          exact h.awaited j (hreq ▸ hj)
      · rw [hs.others j hji] at hj ⊢
        exact h.awaited j hj
  · -- the call is the first one with its number
    have hkept : ∀ (P : ServerSlot → Prop) (n : Nat) (j : SlotIdx),
        (P (v.sslot_arr i) → (v.sslot_arr i).req_type ≠ kInvalidReqType ∨
          (v.sslot_arr i).tx_msgbuf ≠ none) →
        Passed P n (v.sslot_arr j) → Passed P n (v'.sslot_arr j) := by
      intro P n j hP hn
      by_cases hji : j = i
      · subst hji
        obtain hlt | ⟨hsame, hinvalid, hnone⟩ := hfresh
        · refine .inl ?_
          obtain hn | ⟨hn, -⟩ := hn <;> omega
        · obtain hn | ⟨-, hn⟩ := hn
          · exact .inl (by omega)
          · exact ((hP hn).elim (fun hne => hne hinvalid) fun hne => hne hnone).elim
      · rw [hs.others j hji]
        exact hn
    have hnew : (v'.sslot_arr i).cur_req_num ∉ v.calls.map (·.req_num) := by
      intro hmem
      obtain ⟨call, hcall, hnum⟩ := List.mem_map.1 hmem
      have hold := h.number call hcall i (by rw [hnum]; exact hnumber)
      rw [hnum] at hold
      obtain hlt | ⟨hsame, hinvalid, hnone⟩ := hfresh
      · omega
      · obtain hold | ⟨-, hold⟩ := hold
        · omega
        · exact hold.elim (fun hne => hne hinvalid) fun hne => hne hnone
    constructor
    case calls =>
      rw [hcalls, List.map_append, List.nodup_append]
      refine ⟨h.calls, List.nodup_singleton _, fun x hx y hy => ?_⟩
      rw [List.map_singleton, List.mem_singleton] at hy
      rintro rfl
      rw [hy] at hx
      exact hnew hx
    case number =>
      intro call hcall j hj
      rw [hcalls, List.mem_append, List.mem_singleton] at hcall
      obtain hcall | rfl := hcall
      · exact hkept (fun u => u.req_type ≠ kInvalidReqType ∨ u.tx_msgbuf ≠ none) _ j id
          (h.number call hcall j hj)
      · have hji : i = j := Fin.ext (hnumber.symm.trans hj)
        rw [← hji]
        exact .inr ⟨rfl, .inl htype⟩
    case responses =>
      rw [hs.responses]
      exact h.responses
    case called =>
      intro e he
      rw [hs.responses] at he
      rw [hcalls, List.map_append]
      exact List.mem_append_left _ (h.called e he)
    case answered =>
      intro e he j hj
      rw [hs.responses] at he
      exact hkept (fun u => u.tx_msgbuf ≠ none) _ j .inr (h.answered e he j hj)
    case awaited =>
      intro j hj
      rw [hcalls, List.map_append, List.mem_append]
      by_cases hji : j = i
      · rw [hji]
        exact .inr List.mem_cons_self
      · rw [hs.others j hji] at hj ⊢
        exact .inl (h.awaited j hj)

theorem ServerLog.respond (h : ServerLog v) (hs : Responds i q v v')
    (hnumber : (v.sslot_arr i).cur_req_num % kSessionReqWindow = i)
    (htype : (v.sslot_arr i).req_type ≠ kInvalidReqType)
    (htype' : (v'.sslot_arr i).req_type = kInvalidReqType) : ServerLog v' := by
  have hcur : ∀ j, (v'.sslot_arr j).cur_req_num = (v.sslot_arr j).cur_req_num := by
    intro j
    by_cases hji : j = i
    · rw [hji, hs.cur_req_num]
    · rw [hs.others j hji]
  have hsome : (v'.sslot_arr i).tx_msgbuf ≠ none := by
    rw [hs.after]
    exact Option.some_ne_none _
  have hkept : ∀ (P Q : ServerSlot → Prop) (n : Nat) (j : SlotIdx),
      (j = i → Q (v'.sslot_arr i)) → (∀ u, P u → Q u) →
      Passed P n (v.sslot_arr j) → Passed Q n (v'.sslot_arr j) := by
    intro P Q n j hQ hPQ hn
    rw [Passed, hcur]
    refine hn.imp_right fun hn => ⟨hn.1, ?_⟩
    by_cases hji : j = i
    · rw [hji]
      exact hQ hji
    · rw [hs.others j hji]
      exact hPQ _ hn.2
  have hnew : (v.sslot_arr i).cur_req_num ∉ v.responses.map Prod.fst := by
    intro hmem
    obtain ⟨e, he, hnum⟩ := List.mem_map.1 hmem
    have hold := h.answered e he i (by rw [hnum]; exact hnumber)
    rw [hnum] at hold
    exact hold.elim (fun hlt => Nat.lt_irrefl _ hlt) fun hne => hne.2 hs.before
  constructor
  case calls =>
    rw [hs.calls]
    exact h.calls
  case number =>
    intro call hcall j hj
    rw [hs.calls] at hcall
    exact hkept (fun u => u.req_type ≠ kInvalidReqType ∨ u.tx_msgbuf ≠ none) _ _ j
      (fun _ => .inr hsome) (fun _ hu => hu) (h.number call hcall j hj)
  case responses =>
    rw [hs.responses, List.map_append, List.nodup_append]
    refine ⟨h.responses, List.nodup_singleton _, fun x hx y hy => ?_⟩
    rw [List.map_singleton, List.mem_singleton] at hy
    rintro rfl
    rw [hy] at hx
    exact hnew hx
  case called =>
    intro e he
    rw [hs.responses, List.mem_append, List.mem_singleton] at he
    rw [hs.calls]
    obtain he | rfl := he
    · exact h.called e he
    · exact h.awaited i htype
  case answered =>
    intro e he j hj
    rw [hs.responses, List.mem_append, List.mem_singleton] at he
    obtain he | rfl := he
    · exact hkept (fun u => u.tx_msgbuf ≠ none) _ _ j (fun _ => hsome) (fun _ hu => hu)
        (h.answered e he j hj)
    · have hji : i = j := Fin.ext (hnumber.symm.trans hj)
      rw [← hji]
      exact .inr ⟨hs.cur_req_num.symm, hsome⟩
  case awaited =>
    intro j hj
    rw [hs.calls]
    by_cases hji : j = i
    · rw [hji] at hj
      exact absurd htype' hj
    · rw [hs.others j hji] at hj ⊢
      exact h.awaited j hj

end Erpc

end Galois
