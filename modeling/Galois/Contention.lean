import Galois.Bitmap
import Galois.Effect.System

namespace Galois
set_option autoImplicit true
set_option relaxedAutoImplicit false

namespace Bitmap

/-- The types that are shorter than `int` are promoted to it. -/
def promoted (w : Nat) : Nat := max w 32

/-- `origin & -origin`, as a `BitmapTy`. -/
def lowbit (origin : Bitmap w) : Bitmap w :=
  let origin := origin.setWidth (promoted w)
  (origin &&& -origin).setWidth w

/-- `origin & ~lowbit` -/
def without (origin lowbit : Bitmap w) : Bitmap w :=
  (origin.setWidth (promoted w) &&& ~~~lowbit.setWidth (promoted w)).setWidth w

/-- `static_cast<BitmapTy>(1) << idx` -/
def bit (w idx : Nat) : Bitmap w := (1#(promoted w) <<< idx).setWidth w

/-- `origin | bit` -/
def withBit (origin bit : Bitmap w) : Bitmap w :=
  (origin.setWidth (promoted w) ||| bit.setWidth (promoted w)).setWidth w

/-- `ffs(lowbit)`, which takes an `int` or a `long`. -/
def ffsPromoted (lowbit : Bitmap w) : Int := ffs (lowbit.setWidth (promoted w))

theorem le_promoted (w : Nat) : w ≤ promoted w := Nat.le_max_left w 32

theorem setWidth_promoted (b : Bitmap w) : (b.setWidth (promoted w)).setWidth w = b := by
  rw [BitVec.setWidth_setWidth_of_le b (le_promoted w), BitVec.setWidth_eq]

theorem lowbit_promoted (b : Bitmap w) : lowbit b = b &&& -b := by
  rw [lowbit, BitVec.setWidth_and, BitVec.setWidth_neg_of_le (le_promoted w), setWidth_promoted]

theorem without_promoted (b b' : Bitmap w) : without b b' = b &&& ~~~b' := by
  rw [without, BitVec.setWidth_and, BitVec.setWidth_not (le_promoted w), setWidth_promoted,
    setWidth_promoted]

theorem withBit_promoted (b b' : Bitmap w) : withBit b b' = b ||| b' := by
  rw [withBit, BitVec.setWidth_or, setWidth_promoted, setWidth_promoted]

theorem bit_promoted (w idx : Nat) : bit w idx = 1#w <<< idx := by
  rw [bit, BitVec.setWidth_shiftLeft_of_le (le_promoted w),
    BitVec.setWidth_ofNat_of_le (le_promoted w)]

theorem setWidth_twoPow {i n : Nat} (hi : i < w) (hn : w ≤ n) :
    (BitVec.twoPow w i).setWidth n = BitVec.twoPow n i := by
  apply BitVec.eq_of_getLsbD_eq
  intro j hj
  simp only [BitVec.getLsbD_setWidth, BitVec.getLsbD_twoPow, hj, hi, hi.trans_le hn, decide_true,
    Bool.true_and]

/-- What a successful exchange of `allocBit` does is what the whole call does alone. -/
theorem exchange_allocBit {b : Bitmap w} (hb : b ≠ 0) :
    b.allocBit = (ffsPromoted (lowbit b), without b (lowbit b)) := by
  obtain ⟨i, hi, hset, hmin⟩ := exists_least_bit hb
  have hlow : lowbit b = BitVec.twoPow w i := (lowbit_promoted b).trans (lowbit_eq hset hmin)
  have hffs : ffsPromoted (lowbit b) = i := by
    rw [ffsPromoted, hlow, setWidth_twoPow hi (le_promoted w)]
    exact ffs_twoPow (hi.trans_le (le_promoted w))
  have hseq : ffs (b &&& -b) = i := by rw [lowbit_eq hset hmin, ffs_twoPow hi]
  rw [hffs, without_promoted, lowbit_promoted]
  simp only [allocBit, hb, ↓reduceIte, hseq]

/-- Where a thread is, before its next atomic step. -/
inductive Phase (w : Nat) where
  | idle
  | load
  /-- `allocBit` is at the head of its loop. -/
  | loop (origin : Bitmap w)
  | returned (idx : Int)
  /-- `freeBit` loads the bitmap, and exchanges the value `origin`. -/
  | freeing (idx : Nat)
  | exchange (idx : Nat) (origin : Bitmap w)

structure State (ι : Type) (w : Nat) where
  bitmap : Bitmap w
  phase : ι → Phase w
  held : ι → Finset Nat

inductive Event (ι : Type) where
  | allocBit (i : ι)
  | freeBit (i : ι) (idx : Nat)
  /-- A weak compare-exchange may fail without need. -/
  | turn (i : ι) (spurious : Bool)

variable {ι : Type} [DecidableEq ι] {w : Nat}

namespace State

def goto (s : State ι w) (i : ι) (p : Phase w) : State ι w :=
  { s with phase := Function.update s.phase i p }

/-- The index is held from the exchange that takes it to the one that gives it back. -/
def take (s : State ι w) (i : ι) (idx : Nat) : State ι w :=
  { s with held := Function.update s.held i (insert idx (s.held i)) }

def drop (s : State ι w) (i : ι) (idx : Nat) : State ι w :=
  { s with held := Function.update s.held i ((s.held i).erase idx) }

def turn (s : State ι w) (i : ι) (spurious : Bool) : Option (State ι w) :=
  match s.phase i with
  | .idle => none
  | .load => some (s.goto i (.loop s.bitmap))
  | .loop origin =>
    if origin = 0 then some (s.goto i (.returned (-1)))
    else
      let lowbit := lowbit origin
      if s.bitmap = origin ∧ spurious = false then
        let idx := ffsPromoted lowbit
        some (({ s with bitmap := without origin lowbit }.take i idx.toNat).goto i (.returned idx))
      else some (s.goto i (.loop s.bitmap))
  | .returned _ => some (s.goto i .idle)
  | .freeing idx => some (s.goto i (.exchange idx s.bitmap))
  | .exchange idx origin =>
    if s.bitmap = origin ∧ spurious = false then
      some (({ s with bitmap := withBit origin (bit w idx) }.drop i idx).goto i .idle)
    else some (s.goto i (.freeing idx))

def next (s : State ι w) : Event ι → Option (State ι w)
  | .allocBit i =>
    match s.phase i with
    | .idle => some (s.goto i .load)
    | _ => none
  | .freeBit i idx =>
    match s.phase i with
    | .idle => if idx ∈ s.held i then some (s.goto i (.freeing idx)) else none
    | _ => none
  | .turn i spurious => s.turn i spurious

end State

/-- All interleavings of any number of threads. -/
def system (ι : Type) [DecidableEq ι] (w : Nat) : System (State ι w) (Event ι) where
  init s := s.bitmap = full w ∧ (∀ i, s.phase i = .idle) ∧ ∀ i, s.held i = ∅
  step s e s' := s.next e = some s'

/-- What a thread is about to return or to free is held by it. -/
def Phase.Owns (held : Finset Nat) : Phase w → Prop
  | .returned idx => idx = -1 ∨ ∃ n ∈ held, idx = n
  | .freeing idx | .exchange idx _ => idx ∈ held
  | _ => True

/-- No index is held twice, and the set bits are those that nobody holds. -/
structure Inv (s : State ι w) : Prop where
  range : ∀ i, ∀ idx ∈ s.held i, idx < w
  once : ∀ i j idx, idx ∈ s.held i → idx ∈ s.held j → i = j
  free : ∀ idx < w, s.bitmap.getLsbD idx = true ↔ ∀ i, idx ∉ s.held i
  owns : ∀ i, (s.phase i).Owns (s.held i)

variable {s s' : State ι w} {i : ι} {p : Phase w} {idx : Nat}

@[simp] theorem State.goto_self (s : State ι w) (i : ι) (p : Phase w) :
    (s.goto i p).phase i = p := Function.update_self ..

theorem State.goto_ne (s : State ι w) {i j : ι} (p : Phase w) (h : j ≠ i) :
    (s.goto i p).phase j = s.phase j := Function.update_of_ne h ..

theorem Inv.goto (h : Inv s) (hp : p.Owns (s.held i)) : Inv (s.goto i p) := by
  refine ⟨h.range, h.once, h.free, fun j => ?_⟩
  by_cases hj : j = i
  · rw [hj, State.goto_self]
    exact hp
  · rw [State.goto_ne _ _ hj]
    exact h.owns j

theorem mem_take {j : ι} {n : Nat} :
    n ∈ (s.take i idx).held j ↔ n ∈ s.held j ∨ j = i ∧ n = idx := by
  by_cases hj : j = i
  · simp only [State.take, hj, Function.update_self, Finset.mem_insert, true_and]
    exact or_comm
  · simp only [State.take, Function.update_of_ne hj, hj, false_and, or_false]

theorem mem_drop {j : ι} {n : Nat} :
    n ∈ (s.drop i idx).held j ↔ n ∈ s.held j ∧ ¬(j = i ∧ n = idx) := by
  by_cases hj : j = i
  · simp only [State.drop, hj, Function.update_self, Finset.mem_erase, true_and]
    exact and_comm
  · simp only [State.drop, Function.update_of_ne hj, hj, false_and, not_false_eq_true, and_true]

theorem Inv.take (h : Inv s) (hw : idx < w) (hbit : s.bitmap.getLsbD idx = true)
    {bitmap : Bitmap w}
    (hb : ∀ n < w, bitmap.getLsbD n = true ↔ s.bitmap.getLsbD n = true ∧ n ≠ idx) :
    Inv (({ s with bitmap }.take i idx).goto i (.returned idx)) := by
  have hnone := (h.free idx hw).1 hbit
  have htake : Inv ({ s with bitmap }.take i idx) := by
    constructor
    case range =>
      intro j n hn
      rcases mem_take.1 hn with hn | ⟨-, rfl⟩
      · exact h.range j n hn
      · exact hw
    case once =>
      intro j k n hj hk
      rcases mem_take.1 hj with hold | ⟨rfl, rfl⟩
      · rcases mem_take.1 hk with hold' | ⟨rfl, rfl⟩
        · exact h.once j k n hold hold'
        · exact absurd hold (hnone j)
      · rcases mem_take.1 hk with hold' | ⟨rfl, -⟩
        · exact absurd hold' (hnone k)
        · rfl
    case free =>
      intro n hn
      rw [State.take, hb n hn, h.free n hn]
      constructor
      · rintro ⟨hfree, hne⟩ j hj
        rcases mem_take.1 hj with hj | ⟨-, rfl⟩
        · exact hfree j hj
        · exact hne rfl
      · intro hfree
        refine ⟨fun j hj => hfree j (mem_take.2 (.inl hj)), ?_⟩
        rintro rfl
        exact hfree i (mem_take.2 (.inr ⟨rfl, rfl⟩))
    case owns =>
      intro j
      have hsub : ∀ n, n ∈ s.held j → n ∈ ({ s with bitmap }.take i idx).held j :=
        fun n hn => mem_take.2 (.inl hn)
      have hold := h.owns j
      change (s.phase j).Owns _
      cases hp : s.phase j with
      | returned n =>
        rw [hp] at hold
        rcases hold with hfull | ⟨m, hm, rfl⟩
        · exact .inl hfull
        · exact .inr ⟨m, hsub m hm, rfl⟩
      | freeing n =>
        rw [hp] at hold
        exact hsub n hold
      | exchange n origin =>
        rw [hp] at hold
        exact hsub n hold
      | _ => trivial
  exact htake.goto (.inr ⟨idx, mem_take.2 (.inr ⟨rfl, rfl⟩), rfl⟩)

theorem Inv.drop (h : Inv s) (hi : s.phase i = .exchange idx s.bitmap) {bitmap : Bitmap w}
    (hb : ∀ n < w, bitmap.getLsbD n = true ↔ s.bitmap.getLsbD n = true ∨ n = idx) :
    Inv (({ s with bitmap }.drop i idx).goto i .idle) := by
  have hheld : idx ∈ s.held i := by
    have hown := h.owns i
    rw [hi] at hown
    exact hown
  constructor
  case range =>
    intro j n hn
    exact h.range j n (mem_drop.1 hn).1
  case once =>
    intro j k n hj hk
    exact h.once j k n (mem_drop.1 hj).1 (mem_drop.1 hk).1
  case free =>
    intro n hn
    change bitmap.getLsbD n = true ↔ ∀ j, n ∉ ({ s with bitmap }.drop i idx).held j
    rw [hb n hn, h.free n hn]
    constructor
    · rintro (hfree | rfl) j hj
      · exact hfree j (mem_drop.1 hj).1
      · obtain ⟨hj, hne⟩ := mem_drop.1 hj
        exact hne ⟨h.once j i n hj hheld, rfl⟩
    · intro hfree
      by_cases hne : n = idx
      · exact .inr hne
      · exact .inl fun j hj => hfree j (mem_drop.2 ⟨hj, fun hc => hne hc.2⟩)
  case owns =>
    intro j
    by_cases hj : j = i
    · rw [hj, State.goto_self]
      trivial
    · have hphase : (({ s with bitmap }.drop i idx).goto i .idle).phase j = s.phase j :=
        Function.update_of_ne hj ..
      have hsame : (({ s with bitmap }.drop i idx).goto i .idle).held j = s.held j :=
        Function.update_of_ne hj ..
      rw [hphase, hsame]
      exact h.owns j

/-- What an atomic step does. -/
inductive Moves (s : State ι w) : Event ι → State ι w → Prop
  | call {i : ι} (hi : s.phase i = .idle) : Moves s (.allocBit i) (s.goto i .load)
  | free {i : ι} {idx : Nat} (hi : s.phase i = .idle) (hheld : idx ∈ s.held i) :
      Moves s (.freeBit i idx) (s.goto i (.freeing idx))
  /-- A load, or an exchange that fails. -/
  | look {i : ι} {spurious : Bool} : Moves s (.turn i spurious) (s.goto i (.loop s.bitmap))
  | full {i : ι} {spurious : Bool} (hi : s.phase i = .loop 0) :
      Moves s (.turn i spurious) (s.goto i (.returned (-1)))
  | take {i : ι} {spurious : Bool} {idx : Nat} {bitmap : Bitmap w} (hidx : idx < w)
      (hbit : s.bitmap.getLsbD idx = true)
      (hb : ∀ n < w, bitmap.getLsbD n = true ↔ s.bitmap.getLsbD n = true ∧ n ≠ idx) :
      Moves s (.turn i spurious) (({ s with bitmap }.take i idx).goto i (.returned idx))
  | leave {i : ι} {spurious : Bool} : Moves s (.turn i spurious) (s.goto i .idle)
  | load {i : ι} {spurious : Bool} {idx : Nat} (hi : s.phase i = .freeing idx) :
      Moves s (.turn i spurious) (s.goto i (.exchange idx s.bitmap))
  | retry {i : ι} {spurious : Bool} {idx : Nat} {origin : Bitmap w}
      (hi : s.phase i = .exchange idx origin) :
      Moves s (.turn i spurious) (s.goto i (.freeing idx))
  | drop {i : ι} {spurious : Bool} {idx : Nat} {bitmap : Bitmap w}
      (hi : s.phase i = .exchange idx s.bitmap)
      (hb : ∀ n < w, bitmap.getLsbD n = true ↔ s.bitmap.getLsbD n = true ∨ n = idx) :
      Moves s (.turn i spurious) (({ s with bitmap }.drop i idx).goto i .idle)

theorem exchange_takes (s : State ι w) (i : ι) (spurious : Bool) (h0 : s.bitmap ≠ 0) :
    let lowbit := lowbit s.bitmap
    let idx := ffsPromoted lowbit
    Moves s (.turn i spurious)
      (({ s with bitmap := without s.bitmap lowbit }.take i idx.toNat).goto i (.returned idx)) := by
  intro lowbit idx
  obtain ⟨n, hn, hbit, hffs, hrest⟩ := lowbit_spec h0
  have hcall := exchange_allocBit h0
  simp only [allocBit, h0, ↓reduceIte, hffs, Prod.mk.injEq] at hcall
  rw [show idx = n from hcall.1.symm, ← hcall.2, Int.toNat_natCast]
  exact .take hn hbit hrest

theorem turn_moves {spurious : Bool} (hs : s.turn i spurious = some s') :
    Moves s (.turn i spurious) s' := by
  simp only [State.turn] at hs
  cases hi : s.phase i with
  | idle =>
    rw [hi] at hs
    cases hs
  | load =>
    rw [hi] at hs
    cases hs
    exact .look
  | loop origin =>
    rw [hi] at hs
    dsimp only at hs
    split at hs
    · next h0 =>
      cases hs
      exact .full (h0 ▸ hi)
    · next h0 =>
      split at hs
      · next hb =>
        obtain ⟨rfl, -⟩ := hb
        cases hs
        exact exchange_takes s i spurious h0
      · cases hs
        exact .look
  | returned idx =>
    rw [hi] at hs
    cases hs
    exact .leave
  | freeing idx =>
    rw [hi] at hs
    cases hs
    exact .load hi
  | exchange idx origin =>
    rw [hi] at hs
    dsimp only at hs
    split at hs
    · next hb =>
      obtain ⟨rfl, -⟩ := hb
      cases hs
      apply Moves.drop hi
      intro n hn
      rw [withBit_promoted, bit_promoted]
      exact getLsbD_freeBit hn
    · cases hs
      exact .retry hi

theorem next_moves {e : Event ι} (hs : s.next e = some s') : Moves s e s' := by
  cases e with
  | allocBit i =>
    simp only [State.next] at hs
    split at hs
    · next hi =>
      cases hs
      exact .call hi
    · cases hs
  | freeBit i idx =>
    simp only [State.next] at hs
    split at hs
    · next hi =>
      split at hs
      · next hheld =>
        cases hs
        exact .free hi hheld
      · cases hs
    · cases hs
  | turn i spurious => exact turn_moves hs

omit [DecidableEq ι] in
theorem Inv.owned (h : Inv s) (hi : s.phase i = p) : p.Owns (s.held i) := hi ▸ h.owns i

theorem Moves.inv {e : Event ι} (hs : Moves s e s') (h : Inv s) : Inv s' := by
  cases hs with
  | call hi => exact h.goto trivial
  | free hi hheld => exact h.goto hheld
  | look => exact h.goto trivial
  | full hi => exact h.goto (.inl rfl)
  | take hidx hbit hb => exact h.take hidx hbit hb
  | leave => exact h.goto trivial
  | load hi =>
    have hheld := h.owned hi
    exact h.goto hheld
  | retry hi =>
    have hheld := h.owned hi
    exact h.goto hheld
  | drop hi hb => exact h.drop hi hb

theorem init_inv (h : (system ι w).init s) : Inv s := by
  obtain ⟨hb, hphase, hheld⟩ := h
  constructor
  case range =>
    intro i idx hidx
    rw [hheld] at hidx
    exact absurd hidx (Finset.notMem_empty _)
  case once =>
    intro i j idx hidx
    rw [hheld] at hidx
    exact absurd hidx (Finset.notMem_empty _)
  case free =>
    intro idx hidx
    simp [hb, full, hheld, hidx]
  case owns =>
    intro i
    rw [hphase]
    trivial

theorem run_inv {w' : List (Event ι)} (h : (system ι w).Run w' s) : Inv s :=
  h.invariant (fun _ => init_inv) fun _ _ _ hI hs => (next_moves hs).inv hI

/-- `allocBit` has been called and is not left yet. -/
def Phase.InAlloc : Phase w → Prop
  | .load | .loop _ | .returned _ => True
  | _ => False

/-- The thread has seen a bitmap without a free index. -/
def Phase.SawFull : Phase w → Prop
  | .loop origin => origin = 0
  | .returned idx => idx = -1
  | _ => False

/-- At some moment of the call that thread `i` is in, every index was held. -/
def WasFull (events : List (Event ι)) (s : State ι w) (i : ι) : Prop :=
  ∃ v u s', events = v ++ u ∧ (system ι w).Run v s' ∧ (system ι w).Steps s' u s ∧
    (∀ e ∈ u, e ≠ .allocBit i) ∧ (s'.phase i).InAlloc ∧ ∀ idx < w, ∃ j, idx ∈ s'.held j

variable {events : List (Event ι)} {e : Event ι}

omit [DecidableEq ι] in
theorem Inv.held_of_clear (h : Inv s) (hidx : idx < w) (hbit : s.bitmap.getLsbD idx = false) :
    ∃ i, idx ∈ s.held i := by
  by_contra hnone
  push Not at hnone
  rw [(h.free idx hidx).2 hnone] at hbit
  cases hbit

theorem WasFull.now (h : (system ι w).Run events s) (hi : (s.phase i).InAlloc)
    (hb : s.bitmap = 0) : WasFull events s i := by
  refine ⟨events, [], s, (List.append_nil _).symm, h, .nil, fun e he => ?_, hi, ?_⟩
  · exact absurd he List.not_mem_nil
  · intro idx hidx
    apply (run_inv h).held_of_clear hidx
    rw [hb]
    exact BitVec.getLsbD_zero

theorem WasFull.step (h : WasFull events s i) (hs : (system ι w).step s e s')
    (he : e ≠ .allocBit i) : WasFull (events ++ [e]) s' i := by
  obtain ⟨v, u, s₁, rfl, hv, hu, hcall, hi, hfull⟩ := h
  refine ⟨v, u ++ [e], s₁, List.append_assoc .., hv, hu.snoc hs, fun e' he' => ?_, hi, hfull⟩
  rcases List.mem_append.1 he' with h | h
  · exact hcall e' h
  · rw [List.mem_singleton.1 h]
    exact he

def Event.thread : Event ι → ι
  | .allocBit i | .freeBit i _ | .turn i _ => i

theorem Moves.others (hs : Moves s e s') (hi : i ≠ e.thread) : s'.phase i = s.phase i := by
  cases hs
  all_goals exact State.goto_ne _ _ hi

theorem Moves.sawFull (hs : Moves s e s') (hfull : (s'.phase e.thread).SawFull) :
    e ≠ .allocBit e.thread ∧
      ((s.phase e.thread).SawFull ∨ (s'.phase e.thread).InAlloc ∧ s'.bitmap = 0) := by
  have hself : ∀ (s : State ι w) (i : ι) (p : Phase w),
      ((s.goto i p).phase i).SawFull → p.SawFull := by
    intro s i p h
    rwa [State.goto_self] at h
  cases hs with
  | look =>
    refine ⟨by simp, .inr ⟨?_, hself s _ _ hfull⟩⟩
    rw [Event.thread, State.goto_self]
    trivial
  | full hi =>
    refine ⟨by simp, .inl ?_⟩
    rw [Event.thread, hi]
    exact rfl
  | take hidx hbit hb =>
    have hret : (_ : Int) = -1 := hself _ _ _ hfull
    omega
  | _ => exact (hself _ _ _ hfull).elim

theorem run_wasFull (h : (system ι w).Run events s) :
    ∀ i, (s.phase i).SawFull → WasFull events s i := by
  apply h.history (I := fun events s => ∀ i, (s.phase i).SawFull → WasFull events s i)
  · intro s hs i hfull
    rw [hs.2.1 i] at hfull
    exact hfull.elim
  · intro events s e s' hrun ih hs i hfull
    by_cases hi : i = e.thread
    · subst hi
      obtain ⟨hcall, hbefore | ⟨halloc, hb⟩⟩ := (next_moves hs).sawFull hfull
      · exact (ih _ hbefore).step hs hcall
      · exact .now (hrun.snoc hs) halloc hb
    · rw [(next_moves hs).others hi] at hfull
      refine (ih i hfull).step hs ?_
      rintro rfl
      exact hi rfl

/-- What `allocBit` returns under contention. -/
theorem allocBit_contended (h : (system ι w).Run events s) :
    (∀ i idx, s.phase i = .returned idx → idx ≠ -1 →
      0 ≤ idx ∧ idx < w ∧ idx.toNat ∈ s.held i ∧ ∀ j, j ≠ i → idx.toNat ∉ s.held j) ∧
    (∀ i j idx, idx ∈ s.held i → idx ∈ s.held j → i = j) ∧
    (∀ idx < w, s.bitmap.getLsbD idx = false ↔ ∃ i, idx ∈ s.held i) ∧
    ∀ i, s.phase i = .returned (-1) → WasFull events s i := by
  have hinv := run_inv h
  refine ⟨?_, hinv.once, ?_, fun i hi => ?_⟩
  · intro i idx hi hne
    have hown := hinv.owns i
    rw [hi] at hown
    obtain ⟨n, hn, rfl⟩ := hown.resolve_left hne
    have hlt := hinv.range i n hn
    rw [Int.toNat_natCast]
    exact ⟨by omega, by omega, hn, fun j hj hj' => hj (hinv.once j i n hj' hn)⟩
  · intro idx hidx
    refine ⟨hinv.held_of_clear hidx, ?_⟩
    rintro ⟨i, hi⟩
    rw [Bool.eq_false_iff]
    intro hbit
    exact (hinv.free idx hidx).1 hbit i hi
  · apply run_wasFull h i
    rw [hi]
    exact rfl

section Examples

def started : State Bool 8 := ⟨full 8, fun _ => .idle, fun _ => ∅⟩

theorem started_run : ∃ events s, (system Bool 8).Run events s ∧ s.phase false = .returned 1 := by
  have h₀ : (system Bool 8).Run [] started := .nil ⟨rfl, fun _ => rfl, fun _ => rfl⟩
  have event : ∀ {events : List (Event Bool)} {s s' : State Bool 8} (e : Event Bool),
      (system Bool 8).Run events s → s.next e = some s' → (system Bool 8).Run (events ++ [e]) s' :=
    fun _ h hs => h.snoc hs
  have h₁ := event (.allocBit false) (event (.allocBit true) h₀ rfl) rfl
  have h₂ := event (.turn false false) (event (.turn true false) h₁ rfl) rfl
  have h₃ := event (.turn false false) (event (.turn true false) h₂ rfl) rfl
  exact ⟨_, _, event (.turn false false) h₃ rfl, rfl⟩

theorem allocBit_contended_two : ∃ events s, (system Bool 8).Run events s ∧
    1 ∈ s.held false ∧ 1 ∉ s.held true := by
  obtain ⟨events, s, h, hs⟩ := started_run
  obtain ⟨-, -, hmem, hothers⟩ := (allocBit_contended h).1 false 1 hs (by decide)
  exact ⟨events, s, h, hmem, hothers true (by decide)⟩

end Examples

end Bitmap

end Galois
