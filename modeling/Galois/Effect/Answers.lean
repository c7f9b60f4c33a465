import Galois.Effect.Prog

namespace Galois
set_option autoImplicit true
set_option relaxedAutoImplicit false

/-- Which answers an operation may give in a state, and where each of them leads. -/
abbrev Answers (S : Signature) (σ : Type) := (o : S.Op) → σ → S.Res o → σ → Prop

namespace Prog

variable {A : Answers S σ} {stuck : S.Op → Prop}

/-- Whatever the answers are, the program returns, and `Q` holds then. -/
def Always (A : Answers S σ) (stuck : S.Op → Prop) (Q : α → σ → Prop) : Prog S α → σ → Prop
  | .ret a, s => Q a s
  | .call o k, s => ¬ stuck o ∧ ∀ r s', A o s r s' → (k r).Always A stuck Q s'

/-- With some answers the program returns with `Q`, or gets stuck. -/
def Sometimes (A : Answers S σ) (stuck : S.Op → Prop) (Q : α → σ → Prop) : Prog S α → σ → Prop
  | .ret a, s => Q a s
  | .call o k, s => stuck o ∨ ∃ r s', A o s r s' ∧ (k r).Sometimes A stuck Q s'

theorem not_always_iff {Q : α → σ → Prop} {p : Prog S α} :
    ¬ p.Always A stuck Q s ↔ p.Sometimes A stuck (fun a s => ¬ Q a s) s := by
  induction p generalizing s with
  | ret a => exact Iff.rfl
  | call o k ih => simp only [Always, Sometimes, not_and_or, not_not, not_forall, ih, exists_prop]

theorem Sometimes.mono {Q Q' : α → σ → Prop} {p : Prog S α} (h : p.Sometimes A stuck Q s)
    (hQ : ∀ a s, Q a s → Q' a s) : p.Sometimes A stuck Q' s := by
  induction p generalizing s with
  | ret a => exact hQ a s h
  | call o k ih =>
    obtain hstuck | ⟨r, s', hr, hk⟩ := h
    · exact .inl hstuck
    · exact .inr ⟨r, s', hr, ih r hk⟩

theorem Sometimes.bind {Q : β → σ → Prop} {p : Prog S α} {f : α → Prog S β}
    (h : p.Sometimes A stuck (fun a s => (f a).Sometimes A stuck Q s) s) :
    (p >>= f).Sometimes A stuck Q s := by
  induction p generalizing s with
  | ret a => exact h
  | call o k ih =>
    obtain hstuck | ⟨r, s', hr, hk⟩ := h
    · exact .inl hstuck
    · exact .inr ⟨r, s', hr, ih r hk⟩

/-- Wherever the answers lead, `Φ` holds of every call that the program makes, with what it does
after it, and `Q` of what it returns. -/
def AtCalls (A : Answers S σ) (Φ : (o : S.Op) → (S.Res o → Prog S α) → σ → Prop)
    (Q : α → σ → Prop) : Prog S α → σ → Prop
  | .ret a, s => Q a s
  | .call o k, s => Φ o k s ∧ ∀ r s', A o s r s' → (k r).AtCalls A Φ Q s'

theorem AtCalls.bind_of_uses {Φ : (o : S.Op) → (S.Res o → Prog S β) → σ → Prop}
    {Q : β → σ → Prop} {P : S.Op → Prop} {I : σ → Prop} {p : Prog S α} {f : α → Prog S β}
    (hp : p.Uses P) (hΦ : ∀ o k s, P o → Φ o k s)
    (hI : ∀ o s r s', P o → I s → A o s r s' → I s') (hs : I s)
    (hf : ∀ a s', I s' → (f a).AtCalls A Φ Q s') : (p >>= f).AtCalls A Φ Q s := by
  induction p generalizing s with
  | ret a => exact hf a s hs
  | call o k ih =>
    obtain ⟨ho, hk⟩ := hp
    exact ⟨hΦ o _ s ho, fun r s' hr => ih r (hk r) (hI o s r s' ho hs hr)⟩

section Calls

variable {Ψ : S.Op → σ → Prop}

theorem AtCalls.bind {Q : β → σ → Prop} {p : Prog S α} {f : α → Prog S β}
    (h : p.AtCalls A (fun o _ => Ψ o) (fun a => (f a).AtCalls A (fun o _ => Ψ o) Q) s) :
    (p >>= f).AtCalls A (fun o _ => Ψ o) Q s := by
  induction p generalizing s with
  | ret a => exact h
  | call o k ih =>
    obtain ⟨ho, hk⟩ := h
    exact ⟨ho, fun r s' hr => ih r (hk r s' hr)⟩

theorem AtCalls.mono {Q Q' : α → σ → Prop} {p : Prog S α}
    (h : p.AtCalls A (fun o _ => Ψ o) Q s) (hQ : ∀ a s, Q a s → Q' a s) :
    p.AtCalls A (fun o _ => Ψ o) Q' s := by
  induction p generalizing s with
  | ret a => exact hQ a s h
  | call o k ih =>
    obtain ⟨ho, hk⟩ := h
    exact ⟨ho, fun r s' hr => ih r (hk r s' hr)⟩

theorem AtCalls.foldlM {f : β → γ → Prog S β} {I : β → σ → Prop} (l : List γ) (hI : I b s)
    (hf : ∀ x ∈ l, ∀ b s, I b s → (f b x).AtCalls A (fun o _ => Ψ o) I s) :
    (l.foldlM f b).AtCalls A (fun o _ => Ψ o) I s := by
  induction l generalizing b s with
  | nil => exact hI
  | cons x l ih =>
    rw [List.foldlM_cons]
    apply AtCalls.bind
    apply (hf x List.mem_cons_self b s hI).mono
    intro b' s' hI'
    exact ih hI' fun y hy => hf y (List.mem_cons_of_mem _ hy)

theorem AtCalls.asks {h : Handler S τ} {f : τ → σ} {Q : α → σ → Prop} {P : S.Op → Prop}
    {p : Prog S α} {c : τ} (hA : ∀ o c r c', h o c = some (r, c') → A o (f c) r (f c'))
    (hp : p.AtCalls A (fun o _ _ => P o) Q (f c)) : p.Asks h P c := by
  induction p generalizing c with
  | ret a => trivial
  | call o k ih =>
    obtain ⟨ho, hk⟩ := hp
    exact ⟨ho, fun r c' hs => ih r (hk r (f c') (hA o c r c' hs))⟩

end Calls

/-- Every call that the program comes to has an answer, and whatever the answers are, `Q` holds of
what it returns. -/
def Returns (A : Answers S σ) (Q : α → σ → Prop) : Prog S α → σ → Prop
  | .ret a, s => Q a s
  | .call o k, s => (∃ r s', A o s r s') ∧ ∀ r s', A o s r s' → (k r).Returns A Q s'

theorem Returns.call {Q : α → σ → Prop} {k : S.Res o → Prog S α} (hr : A o s r s')
    (hk : ∀ r s', A o s r s' → (k r).Returns A Q s') : (Prog.call o k).Returns A Q s :=
  ⟨⟨r, s', hr⟩, hk⟩

theorem Returns.call_to {Q : α → σ → Prop} {k : S.Res o → Prog S α} (hr : A o s r s')
    (hto : ∀ r s'', A o s r s'' → s'' = s') (hk : ∀ r, (k r).Returns A Q s') :
    (Prog.call o k).Returns A Q s := by
  apply Returns.call hr
  intro r s'' hr'
  rw [hto r s'' hr']
  exact hk r

theorem Returns.bind {Q : β → σ → Prop} {p : Prog S α} {f : α → Prog S β}
    (h : p.Returns A (fun a s => (f a).Returns A Q s) s) : (p >>= f).Returns A Q s := by
  induction p generalizing s with
  | ret a => exact h
  | call o k ih =>
    obtain ⟨hans, hk⟩ := h
    exact ⟨hans, fun r s' hr => ih r (hk r s' hr)⟩

theorem Returns.mono {Q Q' : α → σ → Prop} {p : Prog S α} (h : p.Returns A Q s)
    (hQ : ∀ a s, Q a s → Q' a s) : p.Returns A Q' s := by
  induction p generalizing s with
  | ret a => exact hQ a s h
  | call o k ih =>
    obtain ⟨hans, hk⟩ := h
    exact ⟨hans, fun r s' hr => ih r (hk r s' hr)⟩

theorem Returns.foldlM_range {f : β → Nat → Prog S β} {I : Nat → β → σ → Prop} (n : Nat)
    (hI : I 0 b s) (hf : ∀ i < n, ∀ b s, I i b s → (f b i).Returns A (I (i + 1)) s) :
    ((List.range n).foldlM f b).Returns A (I n) s := by
  induction n with
  | zero => exact hI
  | succ n ih =>
    rw [List.range_succ, List.foldlM_append]
    apply Returns.bind
    apply (ih fun i hi => hf i (Nat.lt_trans hi n.lt_succ_self)).mono
    intro b' s' hI'
    rw [List.foldlM_cons]
    apply Returns.bind
    exact (hf n n.lt_succ_self b' s' hI').mono fun _ _ h => h

theorem Returns.mapM {f : β → Prog S γ} {I : σ → Prop} (l : List β) (hI : I s)
    (hf : ∀ x s, I s → (f x).Returns A (fun _ => I) s) :
    (l.mapM f).Returns A (fun _ => I) s := by
  induction l generalizing s with
  | nil => exact hI
  | cons x l ih =>
    rw [List.mapM_cons]
    apply Returns.bind
    apply (hf x s hI).mono
    intro _ s' hs
    apply Returns.bind
    exact (ih hs).mono fun _ _ hs => hs

theorem Returns.of_run {h : Handler S τ} {f : τ → σ} {Q : α → σ → Prop} {p : Prog S α} {c c' : τ}
    (hA : ∀ o c r c', h o c = some (r, c') → A o (f c) r (f c')) (hp : p.Returns A Q (f c))
    (hr : p.run h c = some (a, c')) : Q a (f c') := by
  induction p generalizing c with
  | ret b =>
    cases hr
    exact hp
  | call o k ih =>
    rw [run_call] at hr
    obtain ⟨⟨r, c₁⟩, hs, hk⟩ := Option.bind_eq_some_iff.1 hr
    exact ih r (hp.2 r (f c₁) (hA o c r c₁ hs)) hk

/-- With some answers the program returns `a`, and has led to `s'`. -/
def Outcome (A : Answers S σ) (p : Prog S α) (s : σ) (a : α) (s' : σ) : Prop :=
  p.Sometimes A (fun _ => False) (fun b s'' => b = a ∧ s'' = s') s

/-- Whatever the answers are, `Q` holds of what the program returns; with `total`, every call that
it comes to has an answer. -/
def Ensures (total : Prop) (A : Answers S σ) (Q : α → σ → Prop) : Prog S α → σ → Prop
  | .ret a, s => Q a s
  | .call o k, s => (total → ∃ r s', A o s r s') ∧ ∀ r s', A o s r s' → (k r).Ensures total A Q s'

section Ensures

variable {total : Prop}

theorem Ensures.bind {Q : β → σ → Prop} {p : Prog S α} {f : α → Prog S β}
    (h : p.Ensures total A (fun a s => (f a).Ensures total A Q s) s) :
    (p >>= f).Ensures total A Q s := by
  induction p generalizing s with
  | ret a => exact h
  | call o k ih =>
    obtain ⟨hans, hk⟩ := h
    exact ⟨hans, fun r s' hr => ih r (hk r s' hr)⟩

theorem Ensures.outcome {Q : α → σ → Prop} {p : Prog S α} (hp : p.Ensures total A Q s)
    (h : p.Outcome A s a s') : Q a s' := by
  induction p generalizing s with
  | ret b =>
    obtain ⟨rfl, rfl⟩ := h
    exact hp
  | call o k ih =>
    obtain hstuck | ⟨r, s₁, hr, hk⟩ := h
    · exact hstuck.elim
    · exact ih r (hp.2 r s₁ hr) hk

theorem Ensures.returns {Q Q' : α → σ → Prop} {p : Prog S α} (hp : p.Ensures True A Q s)
    (hQ : ∀ a s, Q a s → Q' a s) : p.Returns A Q' s := by
  induction p generalizing s with
  | ret b => exact hQ b s hp
  | call o k ih =>
    obtain ⟨hans, hk⟩ := hp
    exact ⟨hans trivial, fun r s' hr => ih r (hk r s' hr)⟩

end Ensures

end Prog

end Galois
