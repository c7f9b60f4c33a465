import Galois.Bitmap
import Galois.Effect.System

namespace Galois
set_option autoImplicit true
set_option relaxedAutoImplicit false

namespace NetworkInterface

abbrev NLockers : Nat := 32

/-- Where a call of `rpcCall` is, before its next atomic step; `ρ` is what a response buffer
holds. -/
inductive Phase (ρ : Type) where
  | idle
  /-- `allocBit` loads the bitmap, and goes around its loop with the value `origin`. -/
  | load
  | loop (origin : Bitmap NLockers)
  | allocated (idx : Int)
  | cleared (idx : Nat)
  | waiting (idx : Nat)
  | copying (idx : Nat)
  /-- `freeBit` loads the bitmap, and exchanges the value `origin`. -/
  | freeing (idx : Nat) (resp : ρ)
  | exchange (idx : Nat) (resp : ρ) (origin : Bitmap NLockers)
  /-- `none` is the answer `false`. -/
  | returned (resp : Option ρ)

/-- The request of a call in eRPC, with the tag and the response buffer given with it: the buffer
is filled, then `contFunc` is run. -/
inductive Request (ρ : Type) where
  | unsent
  | sent (idx : Nat)
  | filled (idx : Nat) (resp : ρ)
  | answered (resp : ρ)

structure State (ι ρ : Type) where
  bitmap : Bitmap NLockers
  completed : Nat → Bool
  respBuf : Nat → ρ
  phase : ι → Phase ρ
  request : ι → Request ρ

inductive Event (ι ρ : Type) where
  /-- A weak compare-exchange may fail without need. -/
  | turn (i : ι) (spurious : Bool)
  | fill (i : ι) (resp : ρ)
  | contFunc (i : ι)

variable {ι ρ : Type} [DecidableEq ι]

namespace State

def goto (s : State ι ρ) (i : ι) (p : Phase ρ) : State ι ρ :=
  { s with phase := Function.update s.phase i p }

def turn (s : State ι ρ) (i : ι) (spurious : Bool) : Option (State ι ρ) :=
  match s.phase i with
  | .idle => some (s.goto i .load)
  | .load => some (s.goto i (.loop s.bitmap))
  | .loop origin =>
    if origin = 0 then some (s.goto i (.allocated (-1)))
    else
      let lowbit := origin &&& -origin
      if s.bitmap = origin ∧ spurious = false then
        some ({ s with bitmap := origin &&& ~~~lowbit }.goto i (.allocated (ffs lowbit)))
      else some (s.goto i (.loop s.bitmap))
  | .allocated idx =>
    if idx = -1 then some (s.goto i (.returned none))
    else
      let idx := idx.toNat
      some ({ s with completed := Function.update s.completed idx false }.goto i (.cleared idx))
  | .cleared idx =>
    some ({ s with request := Function.update s.request i (.sent idx) }.goto i (.waiting idx))
  | .waiting idx => if s.completed idx then some (s.goto i (.copying idx)) else some s
  | .copying idx => some (s.goto i (.freeing idx (s.respBuf idx)))
  | .freeing idx resp => some (s.goto i (.exchange idx resp s.bitmap))
  | .exchange idx resp origin =>
    if s.bitmap = origin ∧ spurious = false then
      some ({ s with bitmap := origin ||| (BitVec.ofNat NLockers 1 <<< idx) }.goto i
        (.returned (some resp)))
    else some (s.goto i (.freeing idx resp))
  | .returned _ => none

/-- What an event does; what eRPC does belongs to no call's own steps. -/
def next (s : State ι ρ) : Event ι ρ → Option (State ι ρ)
  | .turn i spurious => s.turn i spurious
  | .fill i resp =>
    match s.request i with
    | .sent idx => some { s with
        respBuf := Function.update s.respBuf idx resp
        request := Function.update s.request i (.filled idx resp) }
    | _ => none
  | .contFunc i =>
    match s.request i with
    | .filled idx resp => some { s with
        completed := Function.update s.completed idx true
        request := Function.update s.request i (.answered resp) }
    | _ => none

end State

def system : System (State ι ρ) (Event ι ρ) where
  init s := s.bitmap = Bitmap.full NLockers ∧ (∀ i, s.phase i = .idle) ∧ ∀ i, s.request i = .unsent
  step s e s' := s.next e = some s'

/-- The slot that a call has, from the exchange of `allocBit` to that of `freeBit`. -/
def Phase.slot : Phase ρ → Option Nat
  | .allocated idx => if idx = -1 then none else some idx.toNat
  | .cleared idx => some idx
  | .waiting idx => some idx
  | .copying idx => some idx
  | .freeing idx _ => some idx
  | .exchange idx _ _ => some idx
  | _ => none

/-- The slot of a request to which `contFunc` has not been run. -/
def Request.slot : Request ρ → Option Nat
  | .sent idx => some idx
  | .filled idx _ => some idx
  | _ => none

/-- A call and its request, with the flag and the buffer of their slot. -/
inductive Serving (completed : Nat → Bool) (respBuf : Nat → ρ) : Phase ρ → Request ρ → Prop
  | idle : Serving completed respBuf .idle .unsent
  | load : Serving completed respBuf .load .unsent
  | loop (origin : Bitmap NLockers) : Serving completed respBuf (.loop origin) .unsent
  | allocated (idx : Int) : Serving completed respBuf (.allocated idx) .unsent
  | cleared (idx : Nat) (hc : completed idx = false) :
    Serving completed respBuf (.cleared idx) .unsent
  | sent (idx : Nat) (hc : completed idx = false) :
    Serving completed respBuf (.waiting idx) (.sent idx)
  | filled (idx : Nat) (hc : completed idx = false) :
    Serving completed respBuf (.waiting idx) (.filled idx (respBuf idx))
  | answered (idx : Nat) : Serving completed respBuf (.waiting idx) (.answered (respBuf idx))
  | copying (idx : Nat) : Serving completed respBuf (.copying idx) (.answered (respBuf idx))
  | freeing (idx : Nat) (resp : ρ) : Serving completed respBuf (.freeing idx resp) (.answered resp)
  | exchange (idx : Nat) (resp : ρ) (origin : Bitmap NLockers) :
    Serving completed respBuf (.exchange idx resp origin) (.answered resp)
  | returned (resp : ρ) : Serving completed respBuf (.returned (some resp)) (.answered resp)
  | refused : Serving completed respBuf (.returned none) .unsent

/-- Slots are held by at most one call, a slot is free exactly when its bit is set, and what is in
a slot belongs to the call that holds it. -/
structure Inv (s : State ι ρ) : Prop where
  range : ∀ i idx, (s.phase i).slot = some idx → idx < NLockers
  once : ∀ i j idx, (s.phase i).slot = some idx → (s.phase j).slot = some idx → i = j
  free : ∀ idx < NLockers, s.bitmap.getLsbD idx = true ↔ ∀ i, (s.phase i).slot ≠ some idx
  serving : ∀ i, Serving s.completed s.respBuf (s.phase i) (s.request i)

theorem Serving.congr {completed completed' : Nat → Bool} {respBuf respBuf' : Nat → ρ}
    {p : Phase ρ} {q : Request ρ} (h : Serving completed respBuf p q)
    (hs : ∀ idx, p.slot = some idx →
      completed' idx = completed idx ∧ respBuf' idx = respBuf idx) :
    Serving completed' respBuf' p q := by
  cases h with
  | cleared idx hc => exact .cleared idx ((hs idx rfl).1.trans hc)
  | sent idx hc => exact .sent idx ((hs idx rfl).1.trans hc)
  | filled idx hc =>
    rw [← (hs idx rfl).2]
    exact .filled idx ((hs idx rfl).1.trans hc)
  | answered idx =>
    rw [← (hs idx rfl).2]
    exact .answered idx
  | copying idx =>
    rw [← (hs idx rfl).2]
    exact .copying idx
  | _ => constructor

variable {s s' : State ι ρ} {i j : ι} {e : Event ι ρ} {w : List (Event ι ρ)}

/-- What any step is for the other calls: it takes or gives back a slot of its own call only, and
touches no flag or buffer of another one. -/
structure Local (s s' : State ι ρ) (i : ι) : Prop where
  others : ∀ j, j ≠ i → s'.phase j = s.phase j ∧ s'.request j = s.request j
  took : ∀ idx, (s'.phase i).slot = some idx →
    (s.phase i).slot = some idx ∨ idx < NLockers ∧ s.bitmap.getLsbD idx = true
  bits : ∀ idx < NLockers, s'.bitmap.getLsbD idx = true ↔
    (s'.phase i).slot ≠ some idx ∧ (s.bitmap.getLsbD idx = true ∨ (s.phase i).slot = some idx)
  slots : ∀ idx, (s.phase i).slot ≠ some idx →
    s'.completed idx = s.completed idx ∧ s'.respBuf idx = s.respBuf idx
  serving : Serving s'.completed s'.respBuf (s'.phase i) (s'.request i)

theorem Inv.local (h : Inv s) (hl : Local s s' i) : Inv s' := by
  have hfresh : ∀ idx j, (s'.phase i).slot = some idx → j ≠ i → (s'.phase j).slot ≠ some idx := by
    intro idx j hi hji hj
    rw [(hl.others j hji).1] at hj
    cases hl.took idx hi with
    | inl hold => exact hji (h.once j i idx hj hold)
    | inr hbit => exact (h.free idx hbit.1).1 hbit.2 j hj
  constructor
  case range =>
    intro j idx hj
    by_cases hji : j = i
    · subst hji
      cases hl.took idx hj with
      | inl hold => exact h.range j idx hold
      | inr hbit => exact hbit.1
    · rw [(hl.others j hji).1] at hj
      exact h.range j idx hj
  case once =>
    intro j k idx hj hk
    by_cases hji : j = i
    · subst hji
      by_contra hkj
      exact hfresh idx k hj (Ne.symm hkj) hk
    · by_cases hki : k = i
      · subst hki
        exact absurd hj (hfresh idx j hk hji)
      · rw [(hl.others j hji).1] at hj
        rw [(hl.others k hki).1] at hk
        exact h.once j k idx hj hk
  case free =>
    intro idx hidx
    rw [hl.bits idx hidx, h.free idx hidx]
    constructor
    · rintro ⟨hi, hold⟩ j
      by_cases hji : j = i
      · rw [hji]
        exact hi
      · rw [(hl.others j hji).1]
        cases hold with
        | inl hnone => exact hnone j
        | inr hold => exact fun hj => hji (h.once j i idx hj hold)
    · intro hnone
      refine ⟨hnone i, ?_⟩
      by_cases hi : (s.phase i).slot = some idx
      · exact .inr hi
      · refine .inl fun j => ?_
        by_cases hji : j = i
        · rw [hji]
          exact hi
        · rw [← (hl.others j hji).1]
          exact hnone j
  case serving =>
    intro j
    by_cases hji : j = i
    · rw [hji]
      exact hl.serving
    · rw [(hl.others j hji).1, (hl.others j hji).2]
      refine (h.serving j).congr fun idx hj => hl.slots idx fun hi => hji (h.once j i idx hj hi)

theorem Inv.stay (h : Inv s) (hb : s'.bitmap = s.bitmap)
    (ho : ∀ j, j ≠ i → s'.phase j = s.phase j ∧ s'.request j = s.request j)
    (hp : (s'.phase i).slot = (s.phase i).slot)
    (hslots : ∀ idx, (s.phase i).slot ≠ some idx →
      s'.completed idx = s.completed idx ∧ s'.respBuf idx = s.respBuf idx)
    (hs : Serving s'.completed s'.respBuf (s'.phase i) (s'.request i)) : Inv s' := by
  apply h.local (i := i)
  refine ⟨ho, fun idx hi => .inl (hp ▸ hi), ?_, hslots, hs⟩
  intro idx hidx
  rw [hb, hp]
  constructor
  · intro hbit
    exact ⟨(h.free idx hidx).1 hbit i, .inl hbit⟩
  · rintro ⟨hi, hbit | hi'⟩
    · exact hbit
    · exact absurd hi' hi

@[simp] theorem goto_phase_self (p : Phase ρ) : (s.goto i p).phase i = p :=
  Function.update_self ..

theorem goto_others (p : Phase ρ) (j : ι) (hj : j ≠ i) :
    (s.goto i p).phase j = s.phase j ∧ (s.goto i p).request j = s.request j :=
  ⟨Function.update_of_ne hj .., rfl⟩

theorem Inv.goto (h : Inv s) {p : Phase ρ} (hp : p.slot = (s.phase i).slot)
    (hs : Serving s.completed s.respBuf p (s.request i)) : Inv (s.goto i p) :=
  h.stay rfl (goto_others p) (by rw [goto_phase_self, hp]) (fun _ _ => ⟨rfl, rfl⟩)
    (by rw [goto_phase_self]; exact hs)

theorem Inv.alloc (h : Inv s) (hi : s.phase i = .loop s.bitmap) (hq : s.request i = .unsent)
    (hb : s.bitmap ≠ 0) :
    Inv ({ s with bitmap := s.bitmap &&& ~~~(s.bitmap &&& -s.bitmap) }.goto i
      (.allocated (ffs (s.bitmap &&& -s.bitmap)))) := by
  obtain ⟨n, hn, hbit, hffs, hrest⟩ := Bitmap.lowbit_spec hb
  have hslot : (Phase.allocated (ffs (s.bitmap &&& -s.bitmap)) : Phase ρ).slot = some n := by
    rw [Phase.slot, hffs, if_neg (by omega), Int.toNat_natCast]
  apply h.local (i := i)
  refine ⟨goto_others _, ?_, ?_, fun _ _ => ⟨rfl, rfl⟩, ?_⟩
  · intro idx hidx
    rw [goto_phase_self, hslot] at hidx
    cases hidx
    exact .inr ⟨hn, hbit⟩
  · intro idx hidx
    rw [goto_phase_self, hslot, hi]
    refine (hrest idx hidx).trans ⟨?_, ?_⟩
    · rintro ⟨hset, hne⟩
      exact ⟨fun he => hne (Option.some.inj he).symm, .inl hset⟩
    · rintro ⟨hne, hset | hset⟩
      · exact ⟨hset, fun he => hne (congrArg some he.symm)⟩
      · cases hset
  · rw [goto_phase_self]
    change Serving _ _ _ (s.request i)
    rw [hq]
    exact .allocated _

theorem Inv.release (h : Inv s) {idx : Nat} {resp : ρ}
    (hi : s.phase i = .exchange idx resp s.bitmap)
    (hq : s.request i = .answered resp) :
    Inv ({ s with bitmap := s.bitmap ||| (BitVec.ofNat NLockers 1 <<< idx) }.goto i
      (.returned (some resp))) := by
  apply h.local (i := i)
  refine ⟨goto_others _, ?_, ?_, fun _ _ => ⟨rfl, rfl⟩, ?_⟩
  · intro idx' hidx
    rw [goto_phase_self] at hidx
    cases hidx
  · intro idx' hidx
    rw [goto_phase_self, hi]
    refine (Bitmap.getLsbD_freeBit (b := s.bitmap) (i := idx) hidx).trans ⟨?_, ?_⟩
    · rintro (hset | rfl)
      · exact ⟨nofun, .inl hset⟩
      · exact ⟨nofun, .inr rfl⟩
    · rintro ⟨-, hset | hset⟩
      · exact .inl hset
      · exact .inr (Option.some.inj hset).symm
  · rw [goto_phase_self]
    change Serving _ _ _ (s.request i)
    rw [hq]
    exact .returned resp

theorem Inv.clear (h : Inv s) {idx : Int} (hi : s.phase i = .allocated idx) (h1 : ¬ idx = -1)
    (hq : s.request i = .unsent) :
    Inv ({ s with completed := Function.update s.completed idx.toNat false }.goto i
      (.cleared idx.toNat)) := by
  refine h.stay rfl (goto_others _) ?_ ?_ ?_
  · rw [goto_phase_self, hi, Phase.slot, Phase.slot, if_neg h1]
  · intro idx' hidx
    rw [hi, Phase.slot, if_neg h1] at hidx
    exact ⟨Function.update_of_ne (fun he => hidx (by rw [he])) .., rfl⟩
  · rw [goto_phase_self]
    change Serving _ _ _ (s.request i)
    rw [hq]
    exact .cleared _ (Function.update_self ..)

theorem Inv.enqueue (h : Inv s) {idx : Nat} (hi : s.phase i = .cleared idx)
    (hc : s.completed idx = false) :
    Inv ({ s with request := Function.update s.request i (.sent idx) }.goto i (.waiting idx)) := by
  refine h.stay (i := i) rfl ?_ ?_ (fun _ _ => ⟨rfl, rfl⟩) ?_
  · intro j hj
    exact ⟨Function.update_of_ne hj .., Function.update_of_ne hj ..⟩
  · rw [goto_phase_self, hi]
    rfl
  · rw [goto_phase_self]
    change Serving s.completed s.respBuf _ (Function.update s.request i (.sent idx) i)
    rw [Function.update_self]
    exact .sent idx hc

omit [DecidableEq ι] in
/-- The flag was cleared when the slot was taken, and only `contFunc` sets it. -/
theorem Inv.answered (h : Inv s) {idx : Nat} (hi : s.phase i = .waiting idx)
    (hc : s.completed idx = true) : s.request i = .answered (s.respBuf idx) := by
  have hserving := h.serving i
  rw [hi] at hserving
  generalize s.request i = q at hserving
  cases hserving with
  | answered => rfl
  | sent _ hfalse => exact absurd hc (by rw [hfalse]; decide)
  | filled _ hfalse => exact absurd hc (by rw [hfalse]; decide)

theorem turn_inv (h : Inv s) {spurious : Bool} (hs : s.turn i spurious = some s') : Inv s' := by
  have hserving := h.serving i
  simp only [State.turn] at hs
  generalize hq : s.request i = q at hserving
  cases hi : s.phase i with
  | idle =>
    rw [hi] at hs hserving
    cases hs
    cases hserving
    exact h.goto (by rw [hi]; rfl) (by rw [hq]; exact .load)
  | load =>
    rw [hi] at hs hserving
    cases hs
    cases hserving
    exact h.goto (by rw [hi]; rfl) (by rw [hq]; exact .loop _)
  | loop origin =>
    rw [hi] at hs hserving
    cases hserving
    dsimp only at hs
    split at hs
    · cases hs
      exact h.goto (by rw [hi]; rfl) (by rw [hq]; exact .allocated _)
    · split at hs
      case isTrue h0 hb =>
        obtain ⟨rfl, -⟩ := hb
        cases hs
        exact h.alloc hi hq h0
      case isFalse =>
        cases hs
        exact h.goto (by rw [hi]; rfl) (by rw [hq]; exact .loop _)
  | allocated idx =>
    rw [hi] at hs hserving
    cases hserving
    dsimp only at hs
    split at hs
    case isTrue h1 =>
      cases hs
      refine h.goto ?_ (by rw [hq]; exact .refused)
      rw [hi]
      exact (if_pos h1).symm
    case isFalse h1 =>
      cases hs
      exact h.clear hi h1 hq
  | cleared idx =>
    rw [hi] at hs hserving
    cases hserving with
    | cleared _ hc =>
      cases hs
      exact h.enqueue hi hc
  | waiting idx =>
    rw [hi] at hs
    dsimp only at hs
    split at hs
    case isFalse =>
      cases hs
      exact h
    case isTrue hcompleted =>
      cases hs
      exact h.goto (by rw [hi]; rfl) (by rw [h.answered hi hcompleted]; exact .copying idx)
  | copying idx =>
    rw [hi] at hs hserving
    cases hs
    cases hserving
    exact h.goto (by rw [hi]; rfl) (by rw [hq]; exact .freeing ..)
  | freeing idx resp =>
    rw [hi] at hs hserving
    cases hs
    cases hserving
    exact h.goto (by rw [hi]; rfl) (by rw [hq]; exact .exchange ..)
  | exchange idx resp origin =>
    rw [hi] at hs hserving
    cases hserving
    dsimp only at hs
    split at hs
    case isTrue hb =>
      obtain ⟨rfl, -⟩ := hb
      cases hs
      exact h.release hi hq
    case isFalse =>
      cases hs
      exact h.goto (by rw [hi]; rfl) (by rw [hq]; exact .freeing ..)
  | returned resp =>
    rw [hi] at hs
    cases hs

omit [DecidableEq ι] in
theorem Inv.waiting_of_slot (h : Inv s) {idx : Nat} (hq : (s.request i).slot = some idx) :
    s.phase i = .waiting idx := by
  have hserving := h.serving i
  generalize s.request i = q at hq hserving
  generalize s.phase i = p at hserving
  cases hserving with
  | sent => exact congrArg _ (Option.some.inj hq)
  | filled => exact congrArg _ (Option.some.inj hq)
  | _ => cases hq

theorem fill_inv (h : Inv s) {resp : ρ} (hs : s.next (.fill i resp) = some s') : Inv s' := by
  cases hq : s.request i with
  | sent idx =>
    simp only [State.next, hq] at hs
    cases hs
    have hi : s.phase i = .waiting idx := h.waiting_of_slot (by rw [hq]; rfl)
    have hserving := h.serving i
    rw [hi, hq] at hserving
    cases hserving with
    | sent _ hc =>
      refine h.stay (i := i) rfl (fun j hj => ⟨rfl, Function.update_of_ne hj ..⟩) rfl ?_ ?_
      · intro idx' hidx
        rw [hi] at hidx
        exact ⟨rfl, Function.update_of_ne (fun he => hidx (by rw [he]; rfl)) ..⟩
      · have hf : Serving s.completed (Function.update s.respBuf idx resp) _ _ := .filled idx hc
        dsimp only
        rw [Function.update_self] at hf ⊢
        rw [hi]
        exact hf
  | _ =>
    simp only [State.next, hq] at hs
    cases hs

theorem contFunc_inv (h : Inv s) (hs : s.next (.contFunc i) = some s') : Inv s' := by
  cases hq : s.request i with
  | filled idx resp =>
    simp only [State.next, hq] at hs
    cases hs
    have hi : s.phase i = .waiting idx := h.waiting_of_slot (by rw [hq]; rfl)
    have hserving := h.serving i
    rw [hi, hq] at hserving
    cases hserving with
    | filled _ hc =>
      refine h.stay (i := i) rfl (fun j hj => ⟨rfl, Function.update_of_ne hj ..⟩) rfl ?_ ?_
      · intro idx' hidx
        rw [hi] at hidx
        exact ⟨Function.update_of_ne (fun he => hidx (by rw [he]; rfl)) .., rfl⟩
      · dsimp only
        rw [Function.update_self, hi]
        exact .answered idx
  | _ =>
    simp only [State.next, hq] at hs
    cases hs

theorem step_inv (h : Inv s) (hs : s.next e = some s') : Inv s' := by
  cases e with
  | turn i spurious => exact turn_inv h hs
  | fill i resp => exact fill_inv h hs
  | contFunc i => exact contFunc_inv h hs

theorem run_inv (h : (system (ι := ι) (ρ := ρ)).Run w s) : Inv s := by
  apply h.invariant (I := Inv)
  · rintro s ⟨hb, hp, hq⟩
    have hslot : ∀ i, (s.phase i).slot = none := fun i => by rw [hp]; rfl
    refine ⟨?_, ?_, ?_, ?_⟩
    · intro i idx hi
      rw [hslot] at hi
      cases hi
    · intro i j idx hi
      rw [hslot] at hi
      cases hi
    · intro idx hidx
      rw [hb, Bitmap.full, BitVec.getLsbD_allOnes]
      exact iff_of_true (decide_eq_true hidx) fun i hi => by rw [hslot] at hi; cases hi
    · intro i
      rw [hp, hq]
      exact .idle
  · intro s e s' hs hstep
    exact step_inv hs hstep

theorem turn_others {spurious : Bool} (hs : s.turn j spurious = some s') (hij : i ≠ j) :
    s'.phase i = s.phase i := by
  have hgoto : ∀ (t : State ι ρ) (p : Phase ρ), (t.goto j p).phase i = t.phase i :=
    fun t p => Function.update_of_ne hij ..
  simp only [State.turn] at hs
  repeat' split at hs
  all_goals cases hs
  all_goals first | rfl | exact hgoto ..

theorem eRPC_phase (hs : s.next e = some s') (he : ∀ i spurious, e ≠ .turn i spurious) :
    s'.phase = s.phase := by
  cases e with
  | turn i spurious => exact absurd rfl (he i spurious)
  | fill i resp =>
    simp only [State.next] at hs
    split at hs <;> cases hs
    rfl
  | contFunc i =>
    simp only [State.next] at hs
    split at hs <;> cases hs
    rfl

def Phase.Refused : Phase ρ → Prop
  | .loop origin => origin = 0
  | .allocated idx => idx = -1
  | .returned none => True
  | _ => False

theorem turn_refused {spurious : Bool} (hs : s.turn i spurious = some s')
    (hr : (s'.phase i).Refused) (hn : ¬ (s.phase i).Refused) :
    s'.phase i = .loop 0 ∧ s'.bitmap = 0 := by
  simp only [State.turn] at hs
  cases hi : s.phase i with
  | load =>
    rw [hi] at hs
    cases hs
    rw [goto_phase_self] at hr ⊢
    exact ⟨congrArg _ hr, hr⟩
  | loop origin =>
    rw [hi] at hs hn
    change ¬ origin = 0 at hn
    dsimp only at hs
    rw [if_neg hn] at hs
    split at hs
    · cases hs
      rw [goto_phase_self] at hr
      obtain ⟨n, -, -, hffs, -⟩ := Bitmap.lowbit_spec hn
      rw [hffs] at hr
      cases hr
    · cases hs
      rw [goto_phase_self] at hr ⊢
      exact ⟨congrArg _ hr, hr⟩
  | allocated idx =>
    rw [hi] at hs hn
    change ¬ idx = -1 at hn
    dsimp only at hs
    rw [if_neg hn] at hs
    cases hs
    rw [goto_phase_self] at hr
    cases hr
  | _ =>
    rw [hi] at hs hn
    dsimp only at hs
    repeat' split at hs
    all_goals cases hs
    all_goals simp [Phase.Refused, hi] at hr

/-- Between the call and its refusal no slot was free. -/
theorem run_refused (h : (system (ι := ι) (ρ := ρ)).Run w s) : (s.phase i).Refused →
    ∃ v u s₁, w = v ++ u ∧ system.Run v s₁ ∧ system.Steps s₁ u s ∧ s₁.phase i = .loop 0 ∧
      s₁.bitmap = 0 := by
  apply h.history (I := fun w s => (s.phase i).Refused → ∃ v u s₁, w = v ++ u ∧
    system.Run v s₁ ∧ system.Steps s₁ u s ∧ s₁.phase i = .loop 0 ∧ s₁.bitmap = 0)
  · rintro s ⟨-, hp, -⟩ hr
    rw [hp] at hr
    cases hr
  · intro w s e s' hrun ih hs hr
    have hold : (s.phase i).Refused → ∃ v u s₁, w ++ [e] = v ++ u ∧ system.Run v s₁ ∧
        system.Steps s₁ u s' ∧ s₁.phase i = .loop 0 ∧ s₁.bitmap = 0 := by
      intro hr'
      obtain ⟨v, u, s₁, rfl, hv, hu, hmoment⟩ := ih hr'
      exact ⟨v, u ++ [e], s₁, List.append_assoc .., hv, hu.snoc hs, hmoment⟩
    by_cases hn : (s.phase i).Refused
    · exact hold hn
    · have hnew : s'.phase i = .loop 0 ∧ s'.bitmap = 0 := by
        cases e with
        | turn j spurious =>
          by_cases hij : i = j
          · subst hij
            exact turn_refused hs hr hn
          · rw [turn_others hs hij] at hr
            exact absurd hr hn
        | fill j resp =>
          rw [eRPC_phase hs nofun] at hr
          exact absurd hr hn
        | contFunc j =>
          rw [eRPC_phase hs nofun] at hr
          exact absurd hr hn
      exact ⟨w ++ [e], [], s', (List.append_nil _).symm, hrun.snoc hs, .nil, hnew⟩

def Phase.InCall (p : Phase ρ) : Prop := p ≠ .idle ∧ ∀ resp, p ≠ .returned resp

/-- Every call gets the response to its own request, outstanding requests have different slots, a
call is refused only when all slots are held, and in the end all slots are free. -/
theorem response_routed (h : (system (ι := ι) (ρ := ρ)).Run w s) :
    (∀ i resp, s.phase i = .returned (some resp) → s.request i = .answered resp) ∧
    (∀ i j idx, (s.request i).slot = some idx → (s.request j).slot = some idx → i = j) ∧
    (∀ i, s.phase i = .returned none → ∃ v u s₁, w = v ++ u ∧ system.Run v s₁ ∧
      system.Steps s₁ u s ∧ (s₁.phase i).InCall ∧
      ∀ idx < NLockers, ∃ j, (s₁.phase j).slot = some idx) ∧
    ((∀ i, ¬ (s.phase i).InCall) → s.bitmap = Bitmap.full NLockers) := by
  have hs := run_inv h
  refine ⟨?_, ?_, ?_, ?_⟩
  · intro i resp hi
    have hserving := hs.serving i
    rw [hi] at hserving
    generalize s.request i = q at hserving
    cases hserving
    rfl
  · intro i j idx hi hj
    refine hs.once i j idx ?_ ?_
    · rw [hs.waiting_of_slot hi]
      rfl
    · rw [hs.waiting_of_slot hj]
      rfl
  · intro i hi
    obtain ⟨v, u, s₁, hw, hv, hu, hloop, hb⟩ := run_refused h (i := i) (by rw [hi]; trivial)
    refine ⟨v, u, s₁, hw, hv, hu, ?_, ?_⟩
    · rw [hloop]
      exact ⟨nofun, nofun⟩
    · intro idx hidx
      have hfree := (run_inv hv).free idx hidx
      have hzero : BitVec.getLsbD (0 : Bitmap NLockers) idx = false := BitVec.getLsbD_zero
      rw [hb, hzero] at hfree
      by_contra hnone
      exact Bool.false_ne_true (hfree.2 fun j hj => hnone ⟨j, hj⟩)
  · intro hdone
    apply BitVec.eq_of_getLsbD_eq
    intro idx hidx
    rw [Bitmap.full, BitVec.getLsbD_allOnes, decide_eq_true hidx, hs.free idx hidx]
    intro i hi
    refine hdone i ⟨?_, ?_⟩
    · rintro hp
      rw [hp] at hi
      cases hi
    · rintro resp hp
      rw [hp] at hi
      cases hi

section Examples

def initial : State Bool Nat where
  bitmap := Bitmap.full NLockers
  completed := fun _ => false
  respBuf := fun _ => 0
  phase := fun _ => .idle
  request := fun _ => .unsent

theorem run_of_foldlM {w : List (Event Bool Nat)} {s s' : State Bool Nat} (h : system.Run v s)
    (hw : w.foldlM State.next s = some s') : system.Run (v ++ w) s' := by
  induction w generalizing v s with
  | nil =>
    cases hw
    rwa [List.append_nil]
  | cons e w ih =>
    rw [List.foldlM_cons] at hw
    obtain ⟨s₁, hs, hw⟩ := Option.bind_eq_some_iff.1 hw
    rw [List.append_cons]
    exact ih (h.snoc hs) hw

/-- Two calls load the same bitmap, and send their requests. -/
def bothSent : List (Event Bool Nat) :=
  [.turn false false, .turn false false, .turn true false, .turn true false, .turn false false,
    .turn true false, .turn true false, .turn true false, .turn false false, .turn true false,
    .turn false false]

/-- The request sent first is answered first, and both calls return. -/
def bothAnswered : List (Event Bool Nat) :=
  [.fill true 8, .contFunc true, .fill false 7, .contFunc false] ++
    List.replicate 4 (.turn false false) ++ List.replicate 4 (.turn true false)

theorem response_routed_two : ∃ s₁ s, system.Run bothSent s₁ ∧
    (s₁.request false).slot = some 0 ∧ (s₁.request true).slot = some 1 ∧
    system.Run (bothSent ++ bothAnswered) s ∧
    s.request false = .answered 7 ∧ s.request true = .answered 8 ∧
    s.bitmap = Bitmap.full NLockers := by
  have hsent : (bothSent.foldlM State.next initial).map
      (fun s => ((s.request false).slot, (s.request true).slot)) = some (some 0, some 1) := rfl
  obtain ⟨s₁, hs₁, hslots⟩ := Option.map_eq_some_iff.1 hsent
  have hanswered : ((bothSent ++ bothAnswered).foldlM State.next initial).map
      (fun s => (s.phase false, s.phase true)) =
        some (.returned (some 7), .returned (some 8)) := rfl
  obtain ⟨s, hs, hphases⟩ := Option.map_eq_some_iff.1 hanswered
  have hnil : system.Run [] initial := .nil ⟨rfl, fun _ => rfl, fun _ => rfl⟩
  have hrun := run_of_foldlM hnil hs
  obtain ⟨hfalse, htrue⟩ := Prod.mk.inj hphases
  obtain ⟨hresponse, -, -, hfree⟩ := response_routed hrun
  refine ⟨s₁, s, run_of_foldlM hnil hs₁, congrArg Prod.fst hslots, congrArg Prod.snd hslots, hrun,
    hresponse false 7 hfalse, hresponse true 8 htrue, hfree fun i => ?_⟩
  cases i with
  | false => exact fun hin => hin.2 _ hfalse
  | true => exact fun hin => hin.2 _ htrue

end Examples

end NetworkInterface

end Galois
