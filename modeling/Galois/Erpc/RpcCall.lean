import Galois.Erpc.ExactlyOnce
import Galois.Routing

namespace Galois
set_option autoImplicit true
set_option relaxedAutoImplicit false

namespace NetworkInterface

open Erpc (MsgBuffer Transport EnqReqArgs Safe kInvalidReqType)

/-- The calls of `rpcCall`: the thread, the server, the type and the request of each. The `Rpc`
belongs to the thread `creator_etid`. -/
structure Calls (ι π : Type) (t : Transport) where
  creator_etid : Nat
  etid : ι → Nat
  peerId : ι → π
  type : ι → BitVec 8
  reqBuf : ι → MsgBuffer
  valid : ∀ i, type i ≠ kInvalidReqType
  fits : ∀ i, (reqBuf i).data_size ≤ t.kMaxMsgSize

def Calls.in_dispatch {ι π : Type} {t : Transport} (calls : Calls ι π t) (i : ι) : Prop :=
  calls.etid i = calls.creator_etid

instance {ι π : Type} {t : Transport} (calls : Calls ι π t) : DecidablePred calls.in_dispatch :=
  fun _ => inferInstanceAs (Decidable (_ = _))

def Calls.Uses {ι π : Type} {t : Transport} (calls : Calls ι π t) (i : ι) (p : π) : Prop :=
  calls.in_dispatch i ∧ calls.peerId i = p

/-- The calls in progress, with the session to each server and the requests of other threads than
the creator. A request's tag is the index of its slot, here with the call that has it. -/
structure Network (ι π : Type) where
  routing : State ι MsgBuffer
  sessions : π → Erpc.State (ι × Nat)
  bg_enqueue_request : List (π × EnqReqArgs (ι × Nat))

inductive NetEvent (ι π : Type) where
  | turn (i : ι) (spurious uncongested : Bool)
  | datapath (peerId : π) (act : Erpc.Action (ι × Nat))

variable {ι π : Type} [DecidableEq ι] [DecidableEq π] {t : Transport} {respSize : Nat}
  {calls : Calls ι π t}

namespace Network

/-- eRPC has filled the response buffer, and runs `contFunc`. -/
def contFunc (s : Network ι π) (e : (ι × Nat) × MsgBuffer) : Network ι π :=
  { s with routing := { s.routing with
      respBuf := Function.update s.routing.respBuf e.1.2 e.2
      completed := Function.update s.routing.completed e.1.2 true
      request := Function.update s.routing.request e.1.1 (.answered e.2) } }

/-- `enqueue_request` of a call, with the branch of the threads that did not create the `Rpc`. -/
def enqueue_request (calls : Calls ι π t) (s : Network ι π) (i : ι)
    (a : EnqReqArgs (ι × Nat)) (uncongested : Bool) : Option (Network ι π) :=
  if ¬ calls.in_dispatch i then
    some { s with bg_enqueue_request := s.bg_enqueue_request ++ [(calls.peerId i, a)] }
  else do
    let session ← (s.sessions (calls.peerId i)).next t (.enqueue_request a uncongested)
    some { s with sessions := Function.update s.sessions (calls.peerId i) session }

/-- Without background threads in the `Nexus` nothing takes the requests of other threads out of
their queue. -/
def next (calls : Calls ι π t) (s : Network ι π) : NetEvent ι π → Option (Network ι π)
  | .turn i spurious uncongested => do
    let routing ← s.routing.turn i spurious
    match s.routing.phase i with
    | .cleared idx =>
      let a : EnqReqArgs (ι × Nat) :=
        { req_type := calls.type i
          req_msgbuf := calls.reqBuf i
          resp_msgbuf := s.routing.respBuf idx
          tag := (i, idx) }
      { s with routing }.enqueue_request calls i a uncongested
    | .waiting idx =>
      -- `run_event_loop_once` asserts that the thread is the creator
      if s.routing.completed idx = true ∨ calls.in_dispatch i then some { s with routing } else none
    | _ => some { s with routing }
  | .datapath peerId act => do
    let session ← (s.sessions peerId).next t act
    let continued :=
      session.client.finished.drop (s.sessions peerId).client.finished.length
    some (continued.foldl contFunc
      { s with sessions := Function.update s.sessions peerId session })

/-- Requests are enqueued by `rpcCall` only. -/
def Allowed (respSize : Nat) (t : Transport) (s : Network ι π) : NetEvent ι π → Prop
  | .turn i spurious _ => (s.routing.turn i spurious).isSome
  | .datapath peerId act =>
    (∀ a uncongested, act ≠ .enqueue_request a uncongested) ∧
      (s.sessions peerId).Allowed t respSize act

end Network

inductive Tracked (enqueued : List (EnqReqArgs (ι × Nat)))
    (finished : List ((ι × Nat) × MsgBuffer)) (i : ι) : Request MsgBuffer → Prop
  | unsent (new : i ∉ enqueued.map (·.tag.1)) : Tracked enqueued finished i .unsent
  | sent (idx : Nat) (mem : (i, idx) ∈ enqueued.map (·.tag))
      (waits : (i, idx) ∉ finished.map Prod.fst) : Tracked enqueued finished i (.sent idx)
  | answered (idx : Nat) (resp : MsgBuffer) (mem : (i, idx) ∈ enqueued.map (·.tag))
      (done : ((i, idx), resp) ∈ finished) : Tracked enqueued finished i (.answered resp)

structure Linked (calls : Calls ι π t) (respSize : Nat) (s : Network ι π) : Prop where
  routing : system.Reachable s.routing
  room : ∀ idx, respSize ≤ (s.routing.respBuf idx).max_data_size
  safe : ∀ p, Safe t respSize (s.sessions p)
  own : ∀ p, ∀ a ∈ (s.sessions p).enqueued, calls.Uses a.tag.1 p ∧
    a.req_type = calls.type a.tag.1 ∧ a.req_msgbuf = calls.reqBuf a.tag.1
  once : ∀ p, ((s.sessions p).enqueued.map (·.tag.1)).Nodup
  tracked : ∀ i p, calls.Uses i p →
    Tracked (s.sessions p).enqueued (s.sessions p).client.finished i (s.routing.request i)
  queued : ∀ i, ¬ calls.in_dispatch i → s.routing.request i = .unsent ∨
    ∃ idx, s.routing.request i = .sent idx ∧
      (i, idx) ∈ s.bg_enqueue_request.map fun x => x.2.tag

variable {s s' : Network ι π} {i j : ι} {p : π} {e : NetEvent ι π} {r r' : State ι MsgBuffer}
  {enqueued : List (EnqReqArgs (ι × Nat))} {finished : List ((ι × Nat) × MsgBuffer)}
  {spurious : Bool} {idx idx' : Nat} {b : MsgBuffer}

omit [DecidableEq ι] [DecidableEq π] in
theorem idx_eq (honce : (enqueued.map (·.tag.1)).Nodup) (h : (i, idx) ∈ enqueued.map (·.tag))
    (h' : (i, idx') ∈ enqueued.map (·.tag)) : idx = idx' := by
  obtain ⟨a, ha, hatag⟩ := List.mem_map.1 h
  obtain ⟨b, hb, hbtag⟩ := List.mem_map.1 h'
  have hab := List.inj_on_of_nodup_map honce ha hb (by rw [hatag, hbtag])
  rw [← hab, hatag] at hbtag
  exact congrArg Prod.snd hbtag

theorem turn_request (h : r.turn i spurious = some r') : r'.respBuf = r.respBuf ∧
    ((∃ idx, r.phase i = .cleared idx ∧ r'.request = Function.update r.request i (.sent idx)) ∨
      (∀ idx, r.phase i ≠ .cleared idx) ∧ r'.request = r.request) := by
  simp only [State.turn] at h
  cases hi : r.phase i with
  | cleared idx =>
    rw [hi] at h
    cases h
    exact ⟨rfl, .inl ⟨idx, rfl, rfl⟩⟩
  | _ =>
    rw [hi] at h
    dsimp only at h
    repeat' split at h
    all_goals cases h
    all_goals exact ⟨rfl, .inr ⟨fun _ he => (by cases he), rfl⟩⟩

theorem answer_request (h : r.request i = .sent idx) (hr : system.Reachable r) :
    system.Reachable { r with
      respBuf := Function.update r.respBuf idx b
      completed := Function.update r.completed idx true
      request := Function.update r.request i (.answered b) } := by
  have hfill : r.next (.fill i b) = some { r with
      respBuf := Function.update r.respBuf idx b
      request := Function.update r.request i (.filled idx b) } := by
    simp only [State.next, h]
  have hcont : State.next { r with
      respBuf := Function.update r.respBuf idx b
      request := Function.update r.request i (.filled idx b) } (.contFunc i) = some { r with
      respBuf := Function.update r.respBuf idx b
      completed := Function.update r.completed idx true
      request := Function.update r.request i (.answered b) } := by
    simp only [State.next, Function.update_self, Function.update_idem]
  exact (hr.step hfill).step hcont

omit [DecidableEq π] in
theorem continuations (honce : (enqueued.map (·.tag.1)).Nodup)
    (hown : ∀ a ∈ enqueued, calls.Uses a.tag.1 p) (l : List ((ι × Nat) × MsgBuffer))
    (hmem : ∀ x ∈ l, x.1 ∈ enqueued.map (·.tag)) (hroom : ∀ x ∈ l, respSize ≤ x.2.max_data_size)
    (hnodup : ((finished ++ l).map Prod.fst).Nodup) (hr : system.Reachable s.routing)
    (hs : ∀ idx, respSize ≤ (s.routing.respBuf idx).max_data_size)
    (ht : ∀ i, calls.Uses i p → Tracked enqueued finished i (s.routing.request i)) :
    system.Reachable (l.foldl Network.contFunc s).routing ∧
      (∀ idx, respSize ≤ ((l.foldl Network.contFunc s).routing.respBuf idx).max_data_size) ∧
      (∀ i, calls.Uses i p → Tracked enqueued (finished ++ l) i
        ((l.foldl Network.contFunc s).routing.request i)) ∧
      (∀ i, ¬ calls.Uses i p →
        (l.foldl Network.contFunc s).routing.request i = s.routing.request i) ∧
      (l.foldl Network.contFunc s).sessions = s.sessions ∧
      (l.foldl Network.contFunc s).bg_enqueue_request = s.bg_enqueue_request := by
  induction l generalizing s finished with
  | nil =>
    rw [List.append_nil]
    exact ⟨hr, hs, ht, fun _ _ => rfl, rfl, rfl⟩
  | cons x l ih =>
    obtain ⟨⟨i, idx⟩, b⟩ := x
    have hx := hmem _ List.mem_cons_self
    obtain ⟨a, ha, hatag⟩ := List.mem_map.1 hx
    have huses : calls.Uses i p := by
      have huses := hown a ha
      rwa [hatag] at huses
    have hnew : (i, idx) ∉ finished.map Prod.fst := by
      rw [List.map_append, List.nodup_append] at hnodup
      exact fun hin => hnodup.2.2 _ hin _ List.mem_cons_self rfl
    have hsent : s.routing.request i = .sent idx := by
      have htr := ht i huses
      generalize s.routing.request i = q at htr
      cases htr with
      | unsent new =>
        refine absurd (List.mem_map.2 ⟨a, ha, ?_⟩) new
        rw [hatag]
      | sent idx' mem waits => rw [idx_eq honce hx mem]
      | answered idx' resp mem done =>
        rw [← idx_eq honce hx mem] at done
        exact absurd (List.mem_map.2 ⟨_, done, rfl⟩) hnew
    have hself : (s.contFunc ((i, idx), b)).routing.request i = .answered b :=
      Function.update_self ..
    have hother : ∀ j, j ≠ i → (s.contFunc ((i, idx), b)).routing.request j = s.routing.request j :=
      fun j hj => Function.update_of_ne hj ..
    have happend : finished ++ ((i, idx), b) :: l = (finished ++ [((i, idx), b)]) ++ l := by
      rw [List.append_assoc]
      rfl
    rw [happend] at hnodup ⊢
    obtain ⟨hr', hs', ht', hforeign, hsessions, hqueue⟩ := ih (s := s.contFunc ((i, idx), b))
      (fun x hx => hmem x (List.mem_cons_of_mem _ hx))
      (fun x hx => hroom x (List.mem_cons_of_mem _ hx)) hnodup (answer_request hsent hr)
      (fun k => by
        change respSize ≤ (Function.update s.routing.respBuf idx b k).max_data_size
        rw [Function.update_apply]
        split
        · exact hroom _ List.mem_cons_self
        · exact hs k)
      (fun j hj => by
        by_cases hji : j = i
        · rw [hji, hself]
          exact .answered idx b hx (List.mem_append_right _ (List.mem_singleton_self _))
        · rw [hother j hji]
          have htr := ht j hj
          generalize s.routing.request j = q at htr
          cases htr with
          | unsent new => exact .unsent new
          | sent idx' mem waits =>
            refine .sent idx' mem fun hin => ?_
            rw [List.map_append, List.mem_append, List.map_singleton, List.mem_singleton] at hin
            exact hin.elim waits fun he => hji (congrArg Prod.fst he)
          | answered idx' resp mem done =>
            exact .answered idx' resp mem (List.mem_append_left _ done))
    refine ⟨hr', hs', ht', fun j hj => ?_, hsessions, hqueue⟩
    refine (hforeign j hj).trans (hother j ?_)
    rintro rfl
    exact hj huses

omit [DecidableEq ι] [DecidableEq π] in
theorem finished_enqueued {σ : Erpc.State (ι × Nat)} (h : Safe t respSize σ)
    {x : (ι × Nat) × MsgBuffer} (hx : x ∈ σ.client.finished) :
    x.1 ∈ σ.enqueued.map (·.tag) := by
  rw [h.clientLog.fifo]
  exact List.mem_append_left _ (h.clientLog.done x hx)

omit [DecidableEq ι] in
theorem Tracked.enqueue {q : Request MsgBuffer} (h : Tracked enqueued finished j q)
    {a : EnqReqArgs (ι × Nat)} (hj : j ≠ a.tag.1) : Tracked (enqueued ++ [a]) finished j q := by
  cases h with
  | unsent new =>
    refine .unsent fun hin => ?_
    rw [List.map_append, List.mem_append, List.map_singleton, List.mem_singleton] at hin
    exact hin.elim new hj
  | sent idx mem waits =>
    refine .sent idx ?_ waits
    rw [List.map_append]
    exact List.mem_append_left _ mem
  | answered idx resp mem done =>
    refine .answered idx resp ?_ done
    rw [List.map_append]
    exact List.mem_append_left _ mem

theorem Linked.session {σ : Erpc.State (ι × Nat)} (h : Linked calls respSize s)
    (hr : system.Reachable r) (hroom : ∀ idx, respSize ≤ (r.respBuf idx).max_data_size)
    (hsafe : Safe t respSize σ) (hown : ∀ a ∈ σ.enqueued, calls.Uses a.tag.1 p ∧
      a.req_type = calls.type a.tag.1 ∧ a.req_msgbuf = calls.reqBuf a.tag.1)
    (honce : (σ.enqueued.map (·.tag.1)).Nodup)
    (htracked : ∀ i, calls.Uses i p →
      Tracked σ.enqueued σ.client.finished i (r.request i))
    (hforeign : ∀ i, ¬ calls.Uses i p → r.request i = s.routing.request i) :
    Linked calls respSize ⟨r, Function.update s.sessions p σ, s.bg_enqueue_request⟩ := by
  have hcases : ∀ (P : π → Erpc.State (ι × Nat) → Prop), P p σ → (∀ k, k ≠ p → P k (s.sessions k)) →
      ∀ k, P k (Function.update s.sessions p σ k) := by
    intro P hself hother k
    by_cases hk : k = p
    · rw [hk, Function.update_self]
      exact hself
    · rw [Function.update_of_ne hk]
      exact hother k hk
  constructor
  case routing => exact hr
  case room => exact hroom
  case safe => exact hcases (fun _ σ => Safe t respSize σ) hsafe fun k _ => h.safe k
  case own =>
    exact hcases (fun k σ => ∀ a ∈ σ.enqueued, calls.Uses a.tag.1 k ∧
      a.req_type = calls.type a.tag.1 ∧ a.req_msgbuf = calls.reqBuf a.tag.1) hown fun k _ => h.own k
  case once =>
    exact hcases (fun _ σ => (σ.enqueued.map (·.tag.1)).Nodup) honce fun k _ => h.once k
  case tracked =>
    intro i
    refine hcases (fun k σ => calls.Uses i k →
      Tracked σ.enqueued σ.client.finished i (r.request i)) (htracked i) (fun k hk hi => ?_)
    rw [hforeign i fun he => hk (hi.2.symm.trans he.2)]
    exact h.tracked i k hi
  case queued =>
    intro i hi
    rw [hforeign i fun he => hi he.1]
    exact h.queued i hi

omit [DecidableEq π] in
theorem Linked.serving (h : Linked calls respSize s) (i : ι) : Serving s.routing.completed
    s.routing.respBuf (s.routing.phase i) (s.routing.request i) := by
  obtain ⟨w, hw⟩ := h.routing
  exact (run_inv hw).serving i

theorem Linked.enqueue (h : Linked calls respSize s) (hi : calls.in_dispatch i)
    (hr : system.Reachable r) (hphase : s.routing.phase i = .cleared idx)
    (hbuf : r.respBuf = s.routing.respBuf)
    (hrequest : r.request = Function.update s.routing.request i (.sent idx)) (uncongested : Bool) :
    Yields ((s.sessions (calls.peerId i)).next t (.enqueue_request
        { req_type := calls.type i
          req_msgbuf := calls.reqBuf i
          resp_msgbuf := s.routing.respBuf idx
          tag := (i, idx) } uncongested)) fun σ =>
      Linked calls respSize
        ⟨r, Function.update s.sessions (calls.peerId i) σ, s.bg_enqueue_request⟩ := by
  have hserving := h.serving i
  have htr := h.tracked i _ ⟨hi, rfl⟩
  have hnew : i ∉ (s.sessions (calls.peerId i)).enqueued.map (·.tag.1) := by
    rw [hphase] at hserving
    generalize s.routing.request i = q at hserving htr
    cases hserving with
    | cleared idx hc =>
      cases htr with
      | unsent new => exact new
  set a : EnqReqArgs (ι × Nat) :=
    { req_type := calls.type i
      req_msgbuf := calls.reqBuf i
      resp_msgbuf := s.routing.respBuf idx
      tag := (i, idx) } with ha
  have hallowed : (s.sessions (calls.peerId i)).Allowed t respSize
      (.enqueue_request a uncongested) := by
    refine ⟨fun hin => hnew ?_, calls.valid i, calls.fits i, h.room idx⟩
    obtain ⟨b, hb, hbtag⟩ := List.mem_map.1 hin
    exact List.mem_map.2 ⟨b, hb, congrArg Prod.fst hbtag⟩
  refine ((h.safe (calls.peerId i)).enqueue_request uncongested hallowed).mono fun σ hP => ?_
  obtain ⟨hsafe, hfinished, henqueued⟩ := hP
  refine h.session hr (by rw [hbuf]; exact h.room) hsafe (fun b hb => ?_) ?_ (fun j hj => ?_)
    fun j hj => ?_
  · rw [henqueued, List.mem_append, List.mem_singleton] at hb
    obtain hb | rfl := hb
    · exact h.own _ b hb
    · exact ⟨⟨hi, rfl⟩, rfl, rfl⟩
  · rw [henqueued, List.map_append, List.nodup_append]
    refine ⟨h.once _, List.nodup_singleton _, fun x hx y hy => ?_⟩
    rw [List.map_singleton, List.mem_singleton] at hy
    rintro rfl
    rw [hy] at hx
    exact hnew hx
  · rw [hrequest, henqueued, hfinished]
    by_cases hji : j = i
    · rw [hji, Function.update_self]
      refine .sent idx ?_ fun hin => hnew ?_
      · rw [List.map_append]
        exact List.mem_append_right _ (List.mem_singleton_self _)
      · obtain ⟨x, hx, hxtag⟩ := List.mem_map.1 hin
        obtain ⟨b, hb, hbtag⟩ := List.mem_map.1 (finished_enqueued (h.safe (calls.peerId i)) hx)
        exact List.mem_map.2 ⟨b, hb, by rw [hbtag, hxtag]⟩
    · rw [Function.update_of_ne hji]
      exact (h.tracked j _ hj).enqueue hji
  · rw [hrequest, Function.update_of_ne]
    rintro rfl
    exact hj ⟨hi, rfl⟩

omit [DecidableEq π] in
theorem Linked.queue (h : Linked calls respSize s) (hi : ¬ calls.in_dispatch i)
    (hr : system.Reachable r) (hbuf : r.respBuf = s.routing.respBuf)
    (hrequest : r.request = Function.update s.routing.request i (.sent idx))
    {a : EnqReqArgs (ι × Nat)} (ha : a.tag = (i, idx)) :
    Linked calls respSize
      ⟨r, s.sessions, s.bg_enqueue_request ++ [(calls.peerId i, a)]⟩ := by
  refine ⟨hr, by rw [hbuf]; exact h.room, h.safe, h.own, h.once, fun j p hj => ?_, fun j hj => ?_⟩
  · rw [hrequest, Function.update_of_ne]
    · exact h.tracked j p hj
    · rintro rfl
      exact hi hj.1
  · rw [hrequest, List.map_append]
    by_cases hji : j = i
    · rw [hji, Function.update_self]
      refine .inr ⟨idx, rfl, List.mem_append_right _ ?_⟩
      rw [← ha]
      exact List.mem_singleton_self _
    · rw [Function.update_of_ne hji]
      obtain hunsent | ⟨idx', hsent, hmem⟩ := h.queued j hj
      · exact .inl hunsent
      · exact .inr ⟨idx', hsent, List.mem_append_left _ hmem⟩

omit [DecidableEq π] in
theorem Linked.waits (h : Linked calls respSize s) (hphase : s.routing.phase i = .waiting idx)
    (hi : ¬ calls.in_dispatch i) :
    s.routing.completed idx = false ∧ (i, idx) ∈ s.bg_enqueue_request.map fun x => x.2.tag := by
  have hserving := h.serving i
  rw [hphase] at hserving
  obtain hq | ⟨idx', hq, hmem⟩ := h.queued i hi
  · rw [hq] at hserving
    cases hserving
  · rw [hq] at hserving
    cases hserving with
    | sent idx hfalse => exact ⟨hfalse, hmem⟩

theorem Linked.turn (h : Linked calls respSize s) {uncongested : Bool}
    (hs : s.next calls (.turn i spurious uncongested) = some s') : Linked calls respSize s' := by
  obtain ⟨r, hr, hs⟩ := Option.bind_eq_some_iff.1 hs
  obtain ⟨hbuf, hrequest⟩ := turn_request hr
  have hstep : system.step s.routing (.turn i spurious) r := hr
  have hreach := h.routing.step hstep
  obtain ⟨idx, hphase, hrequest⟩ | ⟨hphase, hrequest⟩ := hrequest
  · simp only [hphase, Network.enqueue_request] at hs
    split at hs
    · next hi =>
      cases hs
      exact h.queue hi hreach hbuf hrequest rfl
    · next hi =>
      obtain ⟨σ, hσ, hs⟩ := Option.bind_eq_some_iff.1 hs
      cases hs
      have hyields := h.enqueue (not_not.1 hi) hreach hphase hbuf hrequest uncongested
      exact hyields.of_eq hσ
  · have hlinked : Linked calls respSize { s with routing := r } := by
      refine ⟨hreach, by rw [hbuf]; exact h.room, h.safe, h.own, h.once, ?_, ?_⟩
      · rw [hrequest]
        exact h.tracked
      · rw [hrequest]
        exact h.queued
    split at hs
    · next idx hcleared => exact absurd hcleared (hphase idx)
    · obtain ⟨-, he⟩ := Option.ite_none_right_eq_some.1 hs
      cases he
      exact hlinked
    · cases hs
      exact hlinked

theorem Linked.datapath (h : Linked calls respSize s) {act : Erpc.Action (ι × Nat)}
    (ha : s.Allowed respSize t (.datapath p act)) :
    Yields (s.next calls (.datapath p act)) (Linked calls respSize) := by
  obtain ⟨hact, hallowed⟩ := ha
  refine ((h.safe p).next hallowed).bind fun σ hP => Yields.ret ?_
  obtain ⟨hsafe, hcontinues⟩ := hP
  obtain ⟨l, hl⟩ := hcontinues.finished
  have henqueued := hcontinues.enqueued hact
  rw [← hl, List.drop_left]
  have hmem : ∀ x ∈ l, x ∈ σ.client.finished := fun x hx => by
    rw [← hl]
    exact List.mem_append_right _ hx
  obtain ⟨hreach, hroom, htracked, hforeign, hsessions, hqueue⟩ := continuations
    (s := { s with sessions := Function.update s.sessions p σ }) (h.once p)
    (fun a ha => (h.own p a ha).1) l
    (fun x hx => henqueued ▸ finished_enqueued hsafe (hmem x hx))
    (fun x hx => hsafe.room x (hmem x hx)) (hl ▸ hsafe.clientLog.finished) h.routing h.room
    (fun i hi => h.tracked i p hi)
  have hlinked := h.session (p := p) hreach hroom hsafe (by rw [henqueued]; exact h.own p)
    (by rw [henqueued]; exact h.once p) (by rw [henqueued, ← hl]; exact htracked) hforeign
  have hsame : ∀ n : Network ι π, n.sessions = Function.update s.sessions p σ →
      n.bg_enqueue_request = s.bg_enqueue_request →
      Linked calls respSize ⟨n.routing, Function.update s.sessions p σ, s.bg_enqueue_request⟩ →
      Linked calls respSize n := by
    rintro ⟨r, _, _⟩ rfl rfl hn
    exact hn
  exact hsame _ hsessions hqueue hlinked

end NetworkInterface

end Galois
