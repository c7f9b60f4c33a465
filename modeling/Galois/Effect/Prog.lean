import Mathlib.Algebra.Ring.Nat
import Mathlib.Logic.Relation
import Mathlib.Tactic.Basic

namespace Galois
set_option autoImplicit true
set_option relaxedAutoImplicit false

/-- The operations a program may call, each with the type of its answer. -/
structure Signature where
  Op : Type
  Res : Op → Type

/-- A program either returns, or calls an operation and goes on with the answer. -/
inductive Prog (S : Signature) (α : Type) where
  | ret (a : α)
  | call (o : S.Op) (k : S.Res o → Prog S α)

namespace Prog

def bind : Prog S α → (α → Prog S β) → Prog S β
  | .ret a, f => f a
  | .call o k, f => .call o fun r => (k r).bind f

instance : Monad (Prog S) where
  pure := .ret
  bind := bind

def perform (o : S.Op) : Prog S (S.Res o) := .call o .ret

@[simp] theorem pure_eq (a : α) : (pure a : Prog S α) = .ret a := rfl

@[simp] theorem ret_bind (a : α) (f : α → Prog S β) : (Prog.ret a >>= f) = f a := rfl

@[simp] theorem call_bind (o : S.Op) (k : S.Res o → Prog S α) (f : α → Prog S β) :
    (Prog.call o k >>= f) = .call o fun r => k r >>= f := rfl

@[simp] theorem perform_bind (o : S.Op) (f : S.Res o → Prog S β) :
    (perform o >>= f) = .call o f := rfl

theorem bind_ret (p : Prog S α) : (p >>= Prog.ret) = p := by
  induction p with
  | ret a => rfl
  | call o k ih => rw [call_bind]; exact congrArg _ (funext ih)

theorem bind_assoc (p : Prog S α) (f : α → Prog S β) (g : β → Prog S γ) :
    (p >>= f >>= g) = (p >>= fun a => f a >>= g) := by
  induction p with
  | ret a => rfl
  | call o k ih => simp only [call_bind]; exact congrArg _ (funext ih)

instance : LawfulMonad (Prog S) :=
  LawfulMonad.mk' (Prog S) bind_ret (fun _ _ => rfl) bind_assoc

/-- Every operation that a program may call has a property. -/
def Uses (P : S.Op → Prop) : Prog S α → Prop
  | .ret _ => True
  | .call o k => P o ∧ ∀ r, (k r).Uses P

theorem Uses.bind {P : S.Op → Prop} {p : Prog S α} {f : α → Prog S β} (hp : p.Uses P)
    (hf : ∀ a, (f a).Uses P) : (p >>= f).Uses P := by
  induction p with
  | ret a => exact hf a
  | call o k ih => exact ⟨hp.1, fun r => ih r (hp.2 r)⟩

theorem Uses.mono {P P' : S.Op → Prop} {p : Prog S α} (hp : p.Uses P) (h : ∀ o, P o → P' o) :
    p.Uses P' := by
  induction p with
  | ret a => trivial
  | call o k ih => exact ⟨h o hp.1, fun r => ih r (hp.2 r)⟩

theorem uses_of_forall {P : S.Op → Prop} (h : ∀ o, P o) (p : Prog S α) : p.Uses P := by
  induction p with
  | ret a => trivial
  | call o k ih => exact ⟨h o, ih⟩

theorem Uses.foldlM {P : S.Op → Prop} {f : β → γ → Prog S β} (l : List γ) (b : β)
    (hf : ∀ b, ∀ x ∈ l, (f b x).Uses P) : (l.foldlM f b).Uses P := by
  induction l generalizing b with
  | nil => trivial
  | cons x l ih =>
    rw [List.foldlM_cons]
    exact (hf b x List.mem_cons_self).bind
      fun b => ih b fun b y hy => hf b y (List.mem_cons_of_mem _ hy)

theorem Uses.mapM {P : S.Op → Prop} {f : β → Prog S γ} (l : List β) (hf : ∀ x, (f x).Uses P) :
    (l.mapM f).Uses P := by
  induction l with
  | nil => trivial
  | cons x l ih =>
    rw [List.mapM_cons]
    exact (hf x).bind fun _ => ih.bind fun _ => trivial

/-- Along every path the program makes exactly so many calls with a property. -/
def Makes (P : S.Op → Bool) : Prog S α → Nat → Prop
  | .ret _, n => n = 0
  | .call o k, n => ∃ m, n = (P o).toNat + m ∧ ∀ r, (k r).Makes P m

theorem Makes.bind {P : S.Op → Bool} {p : Prog S α} {f : α → Prog S β} (hp : p.Makes P n)
    (hf : ∀ a, (f a).Makes P m) : (p >>= f).Makes P (n + m) := by
  induction p generalizing n with
  | ret a =>
    cases hp
    rw [Nat.zero_add]
    exact hf a
  | call o k ih =>
    obtain ⟨i, rfl, hk⟩ := hp
    exact ⟨i + m, Nat.add_assoc .., fun r => ih r (hk r)⟩

theorem Makes.perform {S : Signature} {P : S.Op → Bool} (o : S.Op) :
    (Prog.perform o).Makes P (P o).toNat :=
  ⟨0, rfl, fun _ => rfl⟩

theorem Makes.foldlM {P : S.Op → Bool} {f : β → γ → Prog S β} {l : List γ} {c : γ → Nat}
    (hf : ∀ x ∈ l, ∀ b, (f b x).Makes P (c x)) (b : β) :
    (l.foldlM f b).Makes P (l.map c).sum := by
  induction l generalizing b with
  | nil => exact rfl
  | cons x l ih =>
    rw [List.foldlM_cons, List.map_cons, List.sum_cons]
    exact (hf x List.mem_cons_self b).bind
      fun b => ih (fun y hy => hf y (List.mem_cons_of_mem _ hy)) b

theorem foldlM_ret {f : β → γ → Prog S β} {g : β → γ → β} (l : List γ) (b : β)
    (h : ∀ b, ∀ c ∈ l, f b c = .ret (g b c)) : l.foldlM f b = .ret (l.foldl g b) := by
  induction l generalizing b with
  | nil => rfl
  | cons c l ih =>
    rw [List.foldlM_cons, h b c List.mem_cons_self, ret_bind, List.foldl_cons]
    exact ih _ fun b c hc => h b c (List.mem_cons_of_mem _ hc)

end Prog

/-- The meaning of the operations over a state; `none` is a call that never returns. -/
abbrev Handler (S : Signature) (σ : Type) := (o : S.Op) → σ → Option (S.Res o × σ)

namespace Prog

def run (h : Handler S σ) : Prog S α → σ → Option (α × σ)
  | .ret a, s => some (a, s)
  | .call o k, s => (h o s).bind fun r => (k r.1).run h r.2

@[simp] theorem run_ret (h : Handler S σ) (a : α) (s : σ) : (ret a).run h s = some (a, s) := rfl

theorem run_call (h : Handler S σ) (o : S.Op) (k : S.Res o → Prog S α) (s : σ) :
    (call o k).run h s = (h o s).bind fun r => (k r.1).run h r.2 := rfl

theorem run_call_of {h : Handler S σ} {k : S.Res o → Prog S α} (hs : h o s = some (r, s')) :
    (call o k).run h s = (k r).run h s' := by
  rw [run_call, hs]
  rfl

theorem run_bind (h : Handler S σ) (p : Prog S α) (f : α → Prog S β) (s : σ) :
    (p >>= f).run h s = (p.run h s).bind fun r => (f r.1).run h r.2 := by
  induction p generalizing s with
  | ret a => rfl
  | call o k ih =>
    simp only [call_bind, run_call, ih]
    cases h o s <;> rfl

theorem Uses.run_preserves {I : σ → Prop} {P : S.Op → Prop} {h : Handler S σ} {p : Prog S α}
    (hp : p.Uses P) (hop : ∀ o s r s', P o → I s → h o s = some (r, s') → I s') (hI : I s)
    (hr : p.run h s = some (a, s')) : I s' := by
  induction p generalizing s with
  | ret b =>
    simp only [run_ret, Option.some.injEq, Prod.mk.injEq] at hr
    exact hr.2 ▸ hI
  | call o k ih =>
    rw [run_call] at hr
    obtain ⟨⟨r, s₁⟩, hs, hk⟩ := Option.bind_eq_some_iff.1 hr
    exact ih r (hp.2 r) (hop o s r s₁ hp.1 hI hs) hk

/-- Total correctness: from `s` the program returns, and `Q` holds of what it returns. -/
def Wp (h : Handler S σ) (p : Prog S α) (s : σ) (Q : α → σ → Prop) : Prop :=
  ∃ a s', p.run h s = some (a, s') ∧ Q a s'

theorem Wp.ret {h : Handler S σ} {Q : α → σ → Prop} (hQ : Q a s) : Wp h (ret a) s Q :=
  ⟨a, s, rfl, hQ⟩

theorem Wp.call {h : Handler S σ} {k : S.Res o → Prog S α} {Q : α → σ → Prop}
    (hs : h o s = some (r, s')) (hk : Wp h (k r) s' Q) : Wp h (call o k) s Q := by
  obtain ⟨a, s₁, hr, hQ⟩ := hk
  exact ⟨a, s₁, by rw [run_call, hs]; exact hr, hQ⟩

theorem Wp.bind {h : Handler S σ} {p : Prog S α} {f : α → Prog S β} {Q : β → σ → Prop}
    (hp : Wp h p s fun a s' => Wp h (f a) s' Q) : Wp h (p >>= f) s Q := by
  obtain ⟨a, s₁, hr, b, s₂, hf, hQ⟩ := hp
  exact ⟨b, s₂, by rw [run_bind, hr]; exact hf, hQ⟩

theorem Wp.bind_of_run {h : Handler S σ} {p : Prog S α} {f : α → Prog S β} {Q : β → σ → Prop}
    (hp : p.run h s = some (a, s')) (hf : Wp h (f a) s' Q) : Wp h (p >>= f) s Q :=
  .bind ⟨a, s', hp, hf⟩

theorem Wp.mono {h : Handler S σ} {p : Prog S α} {Q Q' : α → σ → Prop}
    (hp : Wp h p s Q) (hQ : ∀ a s', Q a s' → Q' a s') : Wp h p s Q' := by
  obtain ⟨a, s₁, hr, hq⟩ := hp
  exact ⟨a, s₁, hr, hQ _ _ hq⟩

theorem Wp.of_run {h : Handler S σ} {p : Prog S α} {Q : α → σ → Prop} (hp : Wp h p s Q)
    (hr : p.run h s = some (a, s')) : Q a s' := by
  obtain ⟨b, s₁, hr', hQ⟩ := hp
  rw [hr, Option.some.injEq, Prod.mk.injEq] at hr'
  obtain ⟨rfl, rfl⟩ := hr'
  exact hQ

/-- The rule for counting loops: an invariant indexed by the rounds already done. -/
theorem Wp.foldlM_range {h : Handler S σ} {f : β → Nat → Prog S β} {I : Nat → β → σ → Prop}
    (n : Nat) (hI : I 0 b s) (hf : ∀ i < n, ∀ b s, I i b s → Wp h (f b i) s (I (i + 1))) :
    Wp h ((List.range n).foldlM f b) s (I n) := by
  induction n with
  | zero => exact .ret hI
  | succ n ih =>
    rw [List.range_succ, List.foldlM_append]
    apply Wp.bind
    apply (ih fun i hi => hf i (Nat.lt_trans hi n.lt_succ_self)).mono
    intro b' s' hI'
    rw [List.foldlM_cons]
    apply Wp.bind
    exact (hf n n.lt_succ_self b' s' hI').mono fun _ _ => .ret

/-- Along the run from a state every operation that is called has a property. -/
def Asks (h : Handler S σ) (P : S.Op → Prop) : Prog S α → σ → Prop
  | .ret _, _ => True
  | .call o k, s => P o ∧ ∀ r s', h o s = some (r, s') → (k r).Asks h P s'

theorem asks_bind {h : Handler S σ} {P : S.Op → Prop} {p : Prog S α} {f : α → Prog S β} :
    (p >>= f).Asks h P s ↔
      p.Asks h P s ∧ ∀ a s', p.run h s = some (a, s') → (f a).Asks h P s' := by
  induction p generalizing s with
  | ret a => simp [Asks]
  | call o k ih =>
    simp only [call_bind, Asks, ih, run_call, Option.bind_eq_some_iff, Prod.exists]
    constructor
    · rintro ⟨ho, hk⟩
      exact ⟨⟨ho, fun r s' hs => (hk r s' hs).1⟩,
        fun a s'' ⟨r, s', hs, hr⟩ => (hk r s' hs).2 a s'' hr⟩
    · rintro ⟨⟨ho, hk⟩, hf⟩
      exact ⟨ho, fun r s' hs => ⟨hk r s' hs, fun a s'' hr => hf a s'' ⟨r, s', hs, hr⟩⟩⟩

theorem asks_of_run {h : Handler S σ} {P : S.Op → Prop} {p : Prog S α}
    (hP : ∀ o s, ¬ P o → h o s = none) (hr : p.run h s = some (a, s')) : p.Asks h P s := by
  induction p generalizing s with
  | ret b => trivial
  | call o k ih =>
    rw [run_call] at hr
    obtain ⟨⟨r, s₁⟩, hs, hk⟩ := Option.bind_eq_some_iff.1 hr
    refine ⟨by_contra fun ho => ?_, fun r' s₁' hs' => ?_⟩
    · rw [hP o s ho] at hs
      cases hs
    · cases hs.symm.trans hs'
      exact ih r hk

/-- A ghost state can be carried along every path: each call may move it on, and `Q` holds of
what is returned and of where it has come to. -/
def Follows (next : S.Op → γ → γ → Prop) (Q : α → γ → Prop) : Prog S α → γ → Prop
  | .ret a, g => Q a g
  | .call o k, g => ∃ g', next o g g' ∧ ∀ r, (k r).Follows next Q g'

theorem Follows.bind {next : S.Op → γ → γ → Prop} {Q : β → γ → Prop} {p : Prog S α}
    {f : α → Prog S β} (hp : p.Follows next (fun a g' => (f a).Follows next Q g') g) :
    (p >>= f).Follows next Q g := by
  induction p generalizing g with
  | ret a => exact hp
  | call o k ih =>
    obtain ⟨g', hg, hk⟩ := hp
    exact ⟨g', hg, fun r => ih r (hk r)⟩

theorem Follows.mono {next : S.Op → γ → γ → Prop} {Q Q' : α → γ → Prop} {p : Prog S α}
    (hp : p.Follows next Q g) (hQ : ∀ a g', Q a g' → Q' a g') : p.Follows next Q' g := by
  induction p generalizing g with
  | ret a => exact hQ a g hp
  | call o k ih =>
    obtain ⟨g', hg, hk⟩ := hp
    exact ⟨g', hg, fun r => ih r (hk r)⟩

theorem Follows.foldlM_range {next : S.Op → γ → γ → Prop} {f : β → Nat → Prog S β}
    {I : Nat → β → γ → Prop} (n : Nat) (hI : I 0 b g)
    (hf : ∀ i < n, ∀ b g, I i b g → (f b i).Follows next (I (i + 1)) g) :
    ((List.range n).foldlM f b).Follows next (I n) g := by
  induction n with
  | zero => exact hI
  | succ n ih =>
    rw [List.range_succ, List.foldlM_append]
    apply Follows.bind
    apply (ih fun i hi => hf i (Nat.lt_trans hi n.lt_succ_self)).mono
    intro b' g' hI'
    rw [List.foldlM_cons]
    apply Follows.bind
    exact (hf n n.lt_succ_self b' g' hI').mono fun _ _ h => h

/-- The runs with a handler are those with another one, seen through `f`. -/
def Sim (h₁ : Handler S σ) (h₂ : Handler S τ) (f : σ → τ) (p : Prog S α) (s : σ) : Prop :=
  p.run h₂ (f s) = (p.run h₁ s).map fun r => (r.1, f r.2)

section Sim

variable {h₁ : Handler S σ} {h₂ : Handler S τ} {f : σ → τ}

theorem Sim.ret (a : α) (s : σ) : Sim h₁ h₂ f (ret a) s := rfl

theorem Sim.call {k : S.Res o → Prog S α}
    (hs : h₂ o (f s) = (h₁ o s).map fun r => (r.1, f r.2))
    (hk : ∀ r s', h₁ o s = some (r, s') → Sim h₁ h₂ f (k r) s') : Sim h₁ h₂ f (.call o k) s := by
  rw [Sim, run_call, run_call, hs]
  cases hr : h₁ o s with
  | none => rfl
  | some r => exact hk r.1 r.2 hr

theorem Sim.bind {p : Prog S α} {g : α → Prog S β} (hp : Sim h₁ h₂ f p s)
    (hg : ∀ a s', p.run h₁ s = some (a, s') → Sim h₁ h₂ f (g a) s') :
    Sim h₁ h₂ f (p >>= g) s := by
  rw [Sim, run_bind, run_bind, hp]
  cases hr : p.run h₁ s with
  | none => rfl
  | some r => exact hg r.1 r.2 hr

theorem Sim.of_uses {P : S.Op → Prop} {I : σ → Prop}
    (hop : ∀ o s, P o → I s → h₂ o (f s) = (h₁ o s).map fun r => (r.1, f r.2))
    (hI : ∀ o s r s', P o → I s → h₁ o s = some (r, s') → I s') {p : Prog S α} (hp : p.Uses P)
    (hs : I s) : Sim h₁ h₂ f p s := by
  induction p generalizing s with
  | ret a => exact .ret a s
  | call o k ih =>
    exact .call (hop o s hp.1 hs) fun r s' hr => ih r (hp.2 r) (hI o s r s' hp.1 hs hr)

end Sim

end Prog

end Galois
