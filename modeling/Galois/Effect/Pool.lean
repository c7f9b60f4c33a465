import Galois.Effect.Prog
import Galois.Effect.System
import Mathlib.Logic.Function.Basic

namespace Galois
set_option autoImplicit true
set_option relaxedAutoImplicit false

/-- Calls of clients that share a state: which operations need no request, what an operation does
for a client, where `γ` settles what is left open, and the program of a call. -/
structure Calls (S : Signature) (ι τ β σ γ : Type) where
  isLocal : S.Op → Bool
  handler : γ → ι → Handler S σ
  prog : ι → τ → Prog S β

structure Thread (S : Signature) (τ β σ : Type) where
  call : τ
  rest : Prog S β
  seen : List σ
  sent : List S.Op

structure Returned (S : Signature) (ι τ β σ : Type) where
  client : ι
  call : τ
  answer : β
  seen : List σ
  sent : List S.Op

structure Pool (S : Signature) (ι τ β σ : Type) where
  state : σ
  thread : ι → Option (Thread S τ β σ)
  returned : List (Returned S ι τ β σ)

inductive Pool.Event (ι τ γ : Type) where
  | start (i : ι) (t : τ) (g : γ)
  | turn (i : ι) (g : γ)

variable {S : Signature} {ι τ α β σ γ : Type}

namespace Prog

def settle (isLocal : S.Op → Bool) (h : Handler S σ) : Prog S α → σ → Option (Prog S α × σ)
  | .ret a, s => some (.ret a, s)
  | .call o k, s =>
    if isLocal o then (h o s).bind fun r => (k r.1).settle isLocal h r.2 else some (.call o k, s)

end Prog

namespace Pool

variable [DecidableEq ι]

def see (s : σ) (x : Thread S τ β σ) : Thread S τ β σ := { x with seen := s :: x.seen }

def place (q : Pool S ι τ β σ) (i : ι) (t : τ) (seen : List σ) (sent : List S.Op)
    (r : Prog S β × σ) : Pool S ι τ β σ :=
  let thread j := (q.thread j).map (see r.2)
  match r.1 with
  | .ret b => ⟨r.2, Function.update thread i none, ⟨i, t, b, r.2 :: seen, sent⟩ :: q.returned⟩
  | .call o k =>
    ⟨r.2, Function.update thread i (some ⟨t, .call o k, r.2 :: seen, sent⟩), q.returned⟩

end Pool

namespace Calls

open Pool

variable [DecidableEq ι] (M : Calls S ι τ β σ γ)

def next (q : Pool S ι τ β σ) : Event ι τ γ → Option (Pool S ι τ β σ)
  | .start i t g =>
    match q.thread i with
    | some _ => none
    | none => ((M.prog i t).settle M.isLocal (M.handler g i) q.state).map (q.place i t [q.state] [])
  | .turn i g =>
    match q.thread i with
    | some ⟨t, .call o k, seen, sent⟩ =>
      (M.handler g i o q.state).bind fun r =>
        ((k r.1).settle M.isLocal (M.handler g i) r.2).map (q.place i t seen (o :: sent))
    | _ => none

def system (init : σ → Prop) : System (Pool S ι τ β σ) (Event ι τ γ) where
  init q := init q.state ∧ (∀ i, q.thread i = none) ∧ q.returned = []
  step q e q' := M.next q e = some q'

def Meets (pre : ι → τ → Prop) (P : Pool S ι τ β σ → ι → τ → S.Op → Prop)
    (q : Pool S ι τ β σ) : Event ι τ γ → Prop
  | .start i t _ => pre i t
  | .turn i _ => ∀ x o k, q.thread i = some x → x.rest = .call o k → P q i x.call o

end Calls

/-- Where a program is: what the step under way performed, the state it began in and the one it
has reached, the states before and the requests sent. -/
structure Moment (S : Signature) (σ : Type) where
  act : Option S.Op
  before : σ
  now : σ
  seen : List σ
  sent : List S.Op

/-- What a call can rely on while it waits with a request, which of its requests it is promised to
meet, and what its steps guarantee to the others. -/
structure Contract (S : Signature) (σ : Type) where
  inv : σ → Prop
  rely : S.Op → σ → σ → Prop
  clear : S.Op → σ → Prop
  guar : Option S.Op → σ → σ → Prop

structure Moment.Ends (K : Contract S σ) (m : Moment S σ) : Prop where
  inv : K.inv m.now
  guar : K.guar m.act m.before m.now

namespace Prog

variable (isLocal : S.Op → Bool) (h : γ → Handler S σ) (K : Contract S σ)

/-- From here on every step keeps the contract, and `Q` holds on return. -/
def Safe (Q : α → Moment S σ → Prop) : Prog S α → Moment S σ → Prop
  | .ret a, m => Q a m
  | .call o k, m =>
    if isLocal o then ∀ g r s, h g o m.now = some (r, s) → (k r).Safe Q { m with now := s }
    else m.Ends K ∧ ∀ s seen, K.inv s → K.rely o m.now s → s ∈ seen → m.now :: m.seen ⊆ seen →
      K.clear o s → ∀ g r s', h g o s = some (r, s') →
        (k r).Safe Q ⟨some o, s, s', seen, o :: m.sent⟩

variable {isLocal h K} {Q Q' : α → Moment S σ → Prop} {m : Moment S σ}

theorem Safe.ret {a : α} (hQ : Q a m) : (Prog.ret a).Safe isLocal h K Q m := hQ

theorem Safe.local {o : S.Op} {k : S.Res o → Prog S α} (ho : isLocal o = true)
    (hk : ∀ g r s, h g o m.now = some (r, s) → (k r).Safe isLocal h K Q { m with now := s }) :
    (Prog.call o k).Safe isLocal h K Q m := by
  rw [Safe, if_pos ho]
  exact hk

theorem Safe.request {o : S.Op} {k : S.Res o → Prog S α} (ho : isLocal o = false) (hm : m.Ends K)
    (hk : ∀ s seen, K.inv s → K.rely o m.now s → s ∈ seen → m.now :: m.seen ⊆ seen → K.clear o s →
      ∀ g r s', h g o s = some (r, s') →
        (k r).Safe isLocal h K Q ⟨some o, s, s', seen, o :: m.sent⟩) :
    (Prog.call o k).Safe isLocal h K Q m := by
  rw [Safe, if_neg (Bool.not_eq_true _ ▸ ho)]
  exact ⟨hm, hk⟩

theorem Safe.bind {p : Prog S α} {f : α → Prog S β} {Q : β → Moment S σ → Prop}
    (hp : p.Safe isLocal h K (fun a m => (f a).Safe isLocal h K Q m) m) :
    (p >>= f).Safe isLocal h K Q m := by
  induction p generalizing m with
  | ret a => exact hp
  | call o k ih =>
    rw [call_bind]
    cases ho : isLocal o with
    | true =>
      rw [Safe, if_pos ho] at hp
      exact .local ho fun g r s hs => ih r (hp g r s hs)
    | false =>
      rw [Safe, if_neg (Bool.not_eq_true _ ▸ ho)] at hp
      exact .request ho hp.1 fun s seen hinv hrely hs hseen hclear g r s' hr =>
        ih r (hp.2 s seen hinv hrely hs hseen hclear g r s' hr)

/-- A program stays safe up to its next request. -/
theorem Safe.settle {p p' : Prog S α} {g : γ} {s : σ} (hp : p.Safe isLocal h K Q m)
    (hs : p.settle isLocal (h g) m.now = some (p', s)) :
    p'.Safe isLocal h K Q { m with now := s } ∧ ∀ o k, p' = .call o k → isLocal o = false := by
  induction p generalizing m with
  | ret a =>
    cases hs
    exact ⟨hp, nofun⟩
  | call o k ih =>
    cases ho : isLocal o with
    | true =>
      rw [Prog.settle, if_pos ho] at hs
      obtain ⟨⟨r, s₁⟩, hr, hk⟩ := Option.bind_eq_some_iff.1 hs
      rw [Safe, if_pos ho] at hp
      exact @ih r { m with now := s₁ } (hp g r s₁ hr) hk
    | false =>
      rw [Prog.settle, if_neg (Bool.not_eq_true _ ▸ ho)] at hs
      cases hs
      refine ⟨hp, ?_⟩
      rintro o' k' he
      cases he
      exact ho

end Prog

/-- What all calls agree on: the invariant of the state, the contract of each call, and what holds
once it has returned. -/
structure Outline (S : Signature) (ι τ β σ : Type) where
  inv : σ → Prop
  pre : ι → τ → Prop
  rely : ι → τ → S.Op → σ → σ → Prop
  clear : ι → τ → S.Op → σ → Prop
  guar : ι → τ → Option S.Op → σ → σ → Prop
  post : ι → τ → β → List σ → List S.Op → σ → Prop

namespace Outline

variable (C : Outline S ι τ β σ)

def contract (i : ι) (t : τ) : Contract S σ := ⟨C.inv, C.rely i t, C.clear i t, C.guar i t⟩

def Final (i : ι) (t : τ) (b : β) (m : Moment S σ) : Prop :=
  m.Ends (C.contract i t) ∧ C.post i t b (m.now :: m.seen) m.sent m.now

structure Compatible (P : Pool S ι τ β σ → ι → τ → S.Op → Prop) : Prop where
  refl : ∀ {i t o} s, C.rely i t o s s
  trans : ∀ {i t o s s' s''}, C.rely i t o s s' → C.rely i t o s' s'' → C.rely i t o s s''
  start : ∀ {i t j u o s s'}, j ≠ i → C.pre i t → C.guar i t none s s' → C.rely j u o s s'
  clear : ∀ {q : Pool S ι τ β σ} {i t o}, P q i t o → C.clear i t o q.state
  turn : ∀ {q : Pool S ι τ β σ} {i t o j x p k s'}, P q i t o → j ≠ i → q.thread j = some x →
    x.rest = .call p k → C.guar i t (some o) q.state s' → C.rely j x.call p q.state s'
  keep : ∀ {i t act s s' j u b seen sent}, C.guar i t act s s' → C.post j u b seen sent s →
    C.post j u b seen sent s'

structure Waits (M : Calls S ι τ β σ γ) (i : ι) (x : Thread S τ β σ) (s : σ) : Prop where
  mem : s ∈ x.seen
  safe : ∃ o k, x.rest = .call o k ∧ ∀ s' seen, C.inv s' → C.rely i x.call o s s' → s' ∈ seen →
    x.seen ⊆ seen → C.clear i x.call o s' → ∀ g r s'', M.handler g i o s' = some (r, s'') →
      (k r).Safe M.isLocal (fun g => M.handler g i) (C.contract i x.call) (C.Final i x.call)
        ⟨some o, s', s'', seen, o :: x.sent⟩

structure Safe (M : Calls S ι τ β σ γ) (q : Pool S ι τ β σ) : Prop where
  inv : C.inv q.state
  waits : ∀ {i x}, q.thread i = some x → C.Waits M i x q.state
  post : ∀ r ∈ q.returned, C.post r.client r.call r.answer r.seen r.sent q.state

variable {C} {M : Calls S ι τ β σ γ} {P : Pool S ι τ β σ → ι → τ → S.Op → Prop}
  {q q' : Pool S ι τ β σ} {i j : ι} {t : τ} {x : Thread S τ β σ} {m : Moment S σ}
  {p p' : Prog S β} {g : γ} {s s' : σ}

theorem Waits.see (hx : C.Waits M j x s) (hP : C.Compatible P)
    (hrely : ∀ o k, x.rest = .call o k → C.rely j x.call o s s') :
    C.Waits M j (Pool.see s' x) s' := by
  obtain ⟨o, k, hrest, hsafe⟩ := hx.safe
  refine ⟨List.mem_cons_self, o, k, hrest, ?_⟩
  intro s₁ seen hinv hr hs hseen hclear
  exact hsafe s₁ seen hinv (hP.trans (hrely o k hrest) hr) hs
    (fun y hy => hseen (List.mem_cons_of_mem _ hy)) hclear

theorem ends_of_settle
    (hp : p.Safe M.isLocal (fun g => M.handler g i) (C.contract i t) (C.Final i t) m)
    (hs : p.settle M.isLocal (M.handler g i) m.now = some (p', s)) :
    C.inv s ∧ C.guar i t m.act m.before s := by
  obtain ⟨hsafe, hwait⟩ := hp.settle hs
  cases p' with
  | ret b => exact ⟨hsafe.1.inv, hsafe.1.guar⟩
  | call o k =>
    rw [Prog.Safe, if_neg (by rw [hwait o k rfl]; decide)] at hsafe
    exact ⟨hsafe.1.inv, hsafe.1.guar⟩

variable [DecidableEq ι]

theorem Safe.place (hq : C.Safe M q) (hP : C.Compatible P)
    (hp : p.Safe M.isLocal (fun g => M.handler g i) (C.contract i t) (C.Final i t) m)
    (hm : m.before = q.state) (hs : p.settle M.isLocal (M.handler g i) m.now = some (p', s'))
    (hothers : ∀ j x o k, j ≠ i → q.thread j = some x → x.rest = .call o k →
      C.guar i t m.act q.state s' → C.rely j x.call o q.state s') :
    C.Safe M (q.place i t m.seen m.sent (p', s')) := by
  obtain ⟨hinv, hguar⟩ := ends_of_settle hp hs
  rw [hm] at hguar
  obtain ⟨hsafe, hwait⟩ := hp.settle hs
  have hsee {j : ι} {x : Thread S τ β σ} (hj : j ≠ i)
      (hx : (q.thread j).map (Pool.see s') = some x) : C.Waits M j x s' := by
    obtain ⟨y, hy, rfl⟩ := Option.map_eq_some_iff.1 hx
    exact (hq.waits hy).see hP fun o k hrest => hothers j y o k hj hy hrest hguar
  have hpost (r : Returned S ι τ β σ) (hr : r ∈ q.returned) :
      C.post r.client r.call r.answer r.seen r.sent s' := hP.keep hguar (hq.post r hr)
  cases p' with
  | ret b =>
    refine ⟨hinv, ?_, ?_⟩
    · intro j x hx
      simp only [Pool.place, Function.update_apply] at hx
      split at hx
      · cases hx
      · rename_i hj
        exact hsee hj hx
    · intro r hr
      cases List.mem_cons.1 hr with
      | inl he =>
        subst he
        exact hsafe.2
      | inr hr => exact hpost r hr
  | call o k =>
    refine ⟨hinv, ?_, hpost⟩
    intro j x hx
    simp only [Pool.place, Function.update_apply] at hx
    split at hx
    · rename_i hj
      subst hj
      cases hx
      rw [Prog.Safe, if_neg (by rw [hwait o k rfl]; decide)] at hsafe
      exact ⟨List.mem_cons_self, o, k, rfl, hsafe.2⟩
    · rename_i hj
      exact hsee hj hx

theorem Safe.moment (hq : C.Safe M q) (hP : C.Compatible P)
    (hprog : ∀ i t s, C.pre i t → C.inv s → (M.prog i t).Safe M.isLocal (fun g => M.handler g i)
      (C.contract i t) (C.Final i t) ⟨none, s, s, [s], []⟩)
    {e : Pool.Event ι τ γ} (hs : M.next q e = some q') (he : Calls.Meets C.pre P q e) :
    ∃ (i : ι) (t : τ) (p : Prog S β) (m : Moment S σ) (g : γ) (p' : Prog S β) (s' : σ),
      q' = q.place i t m.seen m.sent (p', s') ∧ m.before = q.state ∧
      p.Safe M.isLocal (fun g => M.handler g i) (C.contract i t) (C.Final i t) m ∧
      p.settle M.isLocal (M.handler g i) m.now = some (p', s') ∧
      (∀ o, m.act = some o → ∃ x k, q.thread i = some x ∧ x.rest = .call o k) ∧
      ∀ j x o k s, j ≠ i → q.thread j = some x → x.rest = .call o k →
        C.guar i t m.act q.state s → C.rely j x.call o q.state s := by
  cases e with
  | start i t g =>
    rw [Calls.next] at hs
    split at hs
    · cases hs
    · obtain ⟨⟨p', s'⟩, hr, rfl⟩ := Option.map_eq_some_iff.1 hs
      exact ⟨i, t, _, _, g, p', s', rfl, rfl, hprog i t q.state he hq.inv, hr, nofun,
        fun j x o k s hj _ _ hguar => hP.start hj he hguar⟩
  | turn i g =>
    rw [Calls.next] at hs
    split at hs
    · rename_i t o k seen sent hx
      obtain ⟨⟨a, s₁⟩, ha, hs⟩ := Option.bind_eq_some_iff.1 hs
      obtain ⟨⟨p', s'⟩, hr, rfl⟩ := Option.map_eq_some_iff.1 hs
      have hturn : P q i t o := he _ _ _ hx rfl
      obtain ⟨hmem, o', k', hrest, hsafe⟩ := hq.waits hx
      cases hrest
      have hk := hsafe q.state seen hq.inv (hP.refl _) hmem (List.Subset.refl _) (hP.clear hturn)
        g a s₁ ha
      refine ⟨i, t, _, _, g, p', s', rfl, rfl, hk, hr, ?_, fun j x o' k' s hj hx hrest hguar =>
        hP.turn hturn hj hx hrest hguar⟩
      intro o' ho
      cases ho
      exact ⟨_, k, hx, rfl⟩
    · cases hs

/-- One step of an interleaving. -/
theorem Safe.next (hq : C.Safe M q) (hP : C.Compatible P)
    (hprog : ∀ i t s, C.pre i t → C.inv s → (M.prog i t).Safe M.isLocal (fun g => M.handler g i)
      (C.contract i t) (C.Final i t) ⟨none, s, s, [s], []⟩)
    {e : Pool.Event ι τ γ} (hs : M.next q e = some q') (he : Calls.Meets C.pre P q e) :
    C.Safe M q' := by
  obtain ⟨i, t, p, m, g, p', s', rfl, hm, hp, hr, -, hothers⟩ := hq.moment hP hprog hs he
  exact hq.place hP hp hm hr fun j x o k hj hx hrest hguar => hothers j x o k s' hj hx hrest hguar

theorem Safe.guar (hq : C.Safe M q) (hP : C.Compatible P)
    (hprog : ∀ i t s, C.pre i t → C.inv s → (M.prog i t).Safe M.isLocal (fun g => M.handler g i)
      (C.contract i t) (C.Final i t) ⟨none, s, s, [s], []⟩)
    {e : Pool.Event ι τ γ} (hs : M.next q e = some q') (he : Calls.Meets C.pre P q e) :
    ∃ i t act, C.guar i t act q.state q'.state ∧
      ∀ o, act = some o → ∃ x k, q.thread i = some x ∧ x.rest = .call o k := by
  obtain ⟨i, t, p, m, g, p', s', rfl, hm, hp, hr, hact, -⟩ := hq.moment hP hprog hs he
  have hguar := (ends_of_settle hp hr).2
  rw [hm] at hguar
  refine ⟨i, t, m.act, ?_, hact⟩
  cases p' <;> exact hguar

theorem safe_run (hP : C.Compatible P)
    (hprog : ∀ i t s, C.pre i t → C.inv s → (M.prog i t).Safe M.isLocal (fun g => M.handler g i)
      (C.contract i t) (C.Final i t) ⟨none, s, s, [s], []⟩)
    {init : σ → Prop} (hinit : ∀ s, init s → C.inv s) {w : List (Pool.Event ι τ γ)}
    (hr : ((M.system init).restrict fun q e _ => Calls.Meets C.pre P q e).Run w q) :
    C.Safe M q := by
  apply hr.invariant
  · intro q hq
    obtain ⟨hq, hthread, hreturned⟩ := hq
    refine ⟨hinit _ hq, ?_, ?_⟩
    · intro i x hx
      rw [hthread i] at hx
      cases hx
    · intro r hr
      rw [hreturned] at hr
      cases hr
  · intro q e q' hq hs
    exact hq.next hP hprog hs.1 hs.2

end Outline

namespace Calls

variable [DecidableEq ι] {M : Calls S ι τ β σ γ} {q q' : Pool S ι τ β σ} {init : σ → Prop}
  {w : List (Pool.Event ι τ γ)} {e : Pool.Event ι τ γ} {i : ι} {t : τ}

def Begun (q : Pool S ι τ β σ) (i : ι) (t : τ) : Prop :=
  (∃ x, q.thread i = some x ∧ x.call = t) ∨ ∃ r ∈ q.returned, r.client = i ∧ r.call = t

theorem begun_place {j : ι} {u : τ} {seen : List σ} {sent : List S.Op} {r : Prog S β × σ}
    (h : j = i ∧ u = t ∨ j ≠ i ∧ Begun q j u ∨ ∃ r ∈ q.returned, r.client = j ∧ r.call = u) :
    Begun (q.place i t seen sent r) j u := by
  obtain ⟨p, s⟩ := r
  obtain ⟨rfl, rfl⟩ | ⟨hj, hb⟩ | ⟨r, hr, he⟩ := h
  · cases p with
    | ret b => exact .inr ⟨_, List.mem_cons_self, rfl, rfl⟩
    | call o k =>
      refine .inl ⟨⟨u, .call o k, s :: seen, sent⟩, ?_, rfl⟩
      simp only [Pool.place, Function.update_self]
  · cases hb with
    | inl hx =>
      obtain ⟨x, hx, rfl⟩ := hx
      refine .inl ⟨Pool.see s x, ?_, rfl⟩
      cases p <;> simp only [Pool.place, Function.update_of_ne hj, hx, Option.map_some]
    | inr hr =>
      obtain ⟨r, hr, he⟩ := hr
      refine .inr ⟨r, ?_, he⟩
      cases p with
      | ret b => exact List.mem_cons_of_mem _ hr
      | call o k => exact hr
  · refine .inr ⟨r, ?_, he⟩
    cases p with
    | ret b => exact List.mem_cons_of_mem _ hr
    | call o k => exact hr

theorem begun_next (hs : M.next q e = some q') {j : ι} {u : τ}
    (h : Begun q j u ∨ ∃ g, e = .start j u g) : Begun q' j u := by
  cases e with
  | start i t g =>
    rw [next] at hs
    split at hs
    · cases hs
    · rename_i hfree
      obtain ⟨r, -, rfl⟩ := Option.map_eq_some_iff.1 hs
      apply begun_place
      obtain (⟨x, hx, rfl⟩ | hr) | ⟨g', he⟩ := h
      · refine .inr (.inl ⟨?_, .inl ⟨x, hx, rfl⟩⟩)
        rintro rfl
        rw [hfree] at hx
        cases hx
      · exact .inr (.inr hr)
      · cases he
        exact .inl ⟨rfl, rfl⟩
  | turn i g =>
    rw [next] at hs
    split at hs
    · rename_i t o k seen sent hi
      obtain ⟨⟨a, s₁⟩, -, hs⟩ := Option.bind_eq_some_iff.1 hs
      obtain ⟨r, -, rfl⟩ := Option.map_eq_some_iff.1 hs
      apply begun_place
      obtain (⟨x, hx, rfl⟩ | hr) | ⟨g', he⟩ := h
      · by_cases hj : j = i
        · subst hj
          cases hi.symm.trans hx
          exact .inl ⟨rfl, rfl⟩
        · exact .inr (.inl ⟨hj, .inl ⟨x, hx, rfl⟩⟩)
      · exact .inr (.inr hr)
      · cases he
    · cases hs

theorem begun_run (hr : (M.system init).Run w q) {g : γ} (he : .start i t g ∈ w) :
    Begun q i t := by
  induction hr with
  | nil h => cases he
  | snoc hr hs ih =>
    apply begun_next hs
    cases List.mem_append.1 he with
    | inl he => exact .inl (ih he)
    | inr he => exact .inr ⟨g, (List.mem_singleton.1 he).symm⟩

theorem all_returned (hr : (M.system init).Run w q) (hidle : ∀ i, q.thread i = none) {g : γ}
    (he : .start i t g ∈ w) : ∃ r ∈ q.returned, r.client = i ∧ r.call = t := by
  obtain ⟨x, hx, -⟩ | hr := begun_run hr he
  · rw [hidle i] at hx
    cases hx
  · exact hr

/-- Carries out some events, as long as each of them is allowed. -/
def follow (M : Calls S ι τ β σ γ) (ok : Pool S ι τ β σ → Pool.Event ι τ γ → Bool)
    (q : Pool S ι τ β σ) : List (Pool.Event ι τ γ) → Option (Pool S ι τ β σ)
  | [] => some q
  | e :: w => if ok q e then (M.next q e).bind fun q => M.follow ok q w else none

theorem run_of_follow {P : Pool S ι τ β σ → Pool.Event ι τ γ → Pool S ι τ β σ → Prop}
    {ok : Pool S ι τ β σ → Pool.Event ι τ γ → Bool}
    (hok : ∀ e ∈ w, ∀ q q', ok q e = true → P q e q')
    {v : List (Pool.Event ι τ γ)} (hr : ((M.system init).restrict P).Run v q)
    (hs : M.follow ok q w = some q') : ((M.system init).restrict P).Run (v ++ w) q' := by
  induction w generalizing v q with
  | nil =>
    cases hs
    rw [List.append_nil]
    exact hr
  | cons e w ih =>
    rw [follow] at hs
    obtain ⟨he, hs⟩ := Option.ite_none_right_eq_some.1 hs
    obtain ⟨q₁, hq₁, hs⟩ := Option.bind_eq_some_iff.1 hs
    rw [List.append_cons]
    exact ih (fun e he => hok e (List.mem_cons_of_mem _ he))
      (hr.snoc ⟨hq₁, hok e List.mem_cons_self q q₁ he⟩) hs

end Calls

end Galois
