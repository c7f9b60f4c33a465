import Galois.Writers

namespace Galois
set_option autoImplicit true
set_option relaxedAutoImplicit false

open Prog Client LocofsClient

namespace ClientCall

def Writes (path : Str) (call : ClientCall) : Prop :=
  ∃ buf len off, call = .write path buf len off ∧ 0 ≤ off ∧ 0 < len

def last : ClientCall → Int
  | .write _ _ len off => off + len
  | _ => 0

end ClientCall

namespace Deployment

variable {ι : Type} {lib : Library} {F : Target} {size bound : Int} {clock : Nat → Int} {i : ι}
  {s s' : Deployment ι} {call : ClientCall}

/-- A `csize` does not make its file smaller. -/
def Grows (s : Deployment ι) : Op → Prop
  | .csize value path => s.sizeAt path ≤ value
  | _ => True

/-- The file is there with a size between two bounds. -/
structure Sized (lib : Library) (F : Target) (size bound : Int) (s : Deployment ι) : Prop where
  file : s.HasFile lib F
  lower : size ≤ s.sizeAt (F.key lib)
  upper : s.sizeAt (F.key lib) ≤ bound

/-- The writes that end within the bound. -/
def sizes (ι : Type) (lib : Library) (F : Target) (size bound : Int) :
    Outline sig ι ClientCall Bool (Deployment ι) where
  inv := Sized lib F size bound
  pre _ call := call.Writes F.path ∧ call.last ≤ bound
  rely _ _ _ s s' := s.sizeAt (F.key lib) ≤ s'.sizeAt (F.key lib)
  clear _ _ o s := s.Grows o
  guar _ _ _ s s' := s.sizeAt (F.key lib) ≤ s'.sizeAt (F.key lib)
  post _ call b _ _ s := b = true → call.last ≤ s.sizeAt (F.key lib)

theorem sizes_compatible :
    (sizes ι lib F size bound).Compatible fun q _ _ o => q.state.Grows o where
  refl _ := Int.le_refl _
  trans := Int.le_trans
  start _ _ h := h
  clear h := h
  turn _ _ _ _ h := h
  keep h hpost hb := (hpost hb).trans h

theorem sizes_tolerant : Tolerant lib F ((sizes ι lib F size bound).contract i call) where
  file h := h.file
  inv h hs hu := ⟨hs, hu.size ▸ h.lower, hu.size ▸ h.upper⟩
  guar h hu := Int.le_trans h hu.size.ge
  refl _ _ := Int.le_refl _

theorem sizes_lasting (n : Int) : Lasting lib F ((sizes ι lib F size bound).contract i call)
    fun s => n ≤ s.sizeAt (F.key lib) where
  rely h hn := hn.trans h
  same hu hn := hu.size.symm ▸ hn

/-- The size that the writes should leave. -/
def sizeAfter (size : Int) (q : Pool sig ι ClientCall Bool (Deployment ι)) : Int :=
  (q.returned.map fun r => r.call.last).foldr max size

theorem foldr_max_le {l : List Int} {a b : Int} : l.foldr max a ≤ b ↔ a ≤ b ∧ ∀ x ∈ l, x ≤ b := by
  induction l with
  | nil => simp only [List.foldr_nil, List.not_mem_nil, false_imp_iff, implies_true, and_true]
  | cons x l ih => simp only [List.foldr_cons, max_le_iff, ih, List.forall_mem_cons, and_left_comm]

theorem le_sizeAfter {q : Pool sig ι ClientCall Bool (Deployment ι)}
    {r : Returned sig ι ClientCall Bool (Deployment ι)} (hr : r ∈ q.returned) :
    r.call.last ≤ sizeAfter size q :=
  (foldr_max_le.1 (Int.le_refl _)).2 _ (List.mem_map_of_mem hr)

variable [DecidableEq ι] {c : LocofsClient} {m : Moment sig (Deployment ι)}

variable (i call) in
/-- A program of a writer. -/
abbrev KeepsSize (c : LocofsClient) (clock : Nat → Int) (F : Target) (size bound : Int)
    (Q : α → Moment sig (Deployment ι) → Prop) (p : Prog sig α)
    (m : Moment sig (Deployment ι)) : Prop :=
  p.Safe Client.isLocal (fun g => handle c.lib clock g i)
    ((sizes ι c.lib F size bound).contract i call) Q m

/-- The writer may go on, and the file has at least `n` bytes. -/
structure AtLeast (c : LocofsClient) (F : Target) (size bound : Int) (i : ι) (call : ClientCall)
    (n : Int) (m : Moment sig (Deployment ι)) : Prop where
  ends : m.Ends ((sizes ι c.lib F size bound).contract i call)
  size : n ≤ m.now.sizeAt (F.key c.lib)

theorem block_keepsSize {Q : α → Moment sig (Deployment ι) → Prop} {o : Op} {k : o.Res → Prog sig α}
    (hm : AtLeast c F size bound i call n m) (hl : Client.isLocal o = false)
    (ho : ∀ s g r s', s.HasFile c.lib F → handle c.lib clock g i o s = some (r, s') →
      s'.HasFile c.lib F ∧ s'.sizeAt (F.key c.lib) = s.sizeAt (F.key c.lib))
    (hk : ∀ r m', AtLeast c F size bound i call n m' →
      KeepsSize i call c clock F size bound Q (k r) m') :
    KeepsSize i call c clock F size bound Q (.call o k) m := by
  apply Safe.request hl hm.ends
  intro s seen hs hrely _ _ _ g r s' hr
  obtain ⟨hs', hsize⟩ := ho s g r s' hs.file hr
  refine hk r _ ⟨⟨⟨hs', hsize ▸ hs.lower, hsize ▸ hs.upper⟩, hsize.ge⟩, ?_⟩
  exact (hm.size.trans hrely).trans hsize.ge

theorem pages_keepsSize {Q : α → Moment sig (Deployment ι) → Prop} {p : Prog sig α}
    (hp : p.Uses LocofsClient.OnPages) (hm : AtLeast c F size bound i call n m)
    (hQ : ∀ a m', AtLeast c F size bound i call n m' → Q a m') :
    KeepsSize i call c clock F size bound Q p m := by
  induction p generalizing m with
  | ret a => exact Safe.ret (hQ a m hm)
  | call o k ih =>
    obtain ⟨ho, hk⟩ := hp
    cases o with
    | readBlock index =>
      apply block_keepsSize hm rfl
      · intro s g r s' hs hr
        obtain ⟨hs', hu, -⟩ := hs.readBlock hr
        exact ⟨hs', hu.size⟩
      · exact fun r m' hm' => ih r (hk r) hm'
    | writeBlock page =>
      apply block_keepsSize hm rfl
      · intro s g r s' hs hr
        obtain ⟨hs', hsize, -⟩ := hs.writeBlock hr
        exact ⟨hs', hsize⟩
      · exact fun r m' hm' => ih r (hk r) hm'
    | undefined =>
      apply Safe.request rfl hm.ends
      intro s seen _ _ _ _ _ g r
      cases r
    | _ => cases ho

theorem write_keepsSize {buf : Buffer} {len off : Int}
    (hm : m.Ends ((sizes ι c.lib F size bound).contract i (.write F.path buf len off)))
    (hbound : off + len ≤ bound) :
    KeepsSize i (.write F.path buf len off) c clock F size bound
      ((sizes ι c.lib F size bound).Final i (.write F.path buf len off))
      (c.write F.path buf len off) m := by
  apply Safe.bind
  apply get_file_stat_safe sizes_tolerant (sizes_lasting size) hm hm.inv.lower
  intro m₁ st hm₁ _ _ _ _ hsize
  have hst : st.st.st_size ≤ bound := hsize.trans_le hm₁.inv.upper
  have hst63 : st.st.st_size < 2 ^ 63 := by
    obtain ⟨-, -, -, -, -, -, -, -, hlt⟩ := hm₁.inv.file.file
    exact hsize.trans_lt hlt
  apply Safe.bind
  apply pages_keepsSize (n := st.st.st_size) LocofsClient.paged_onPages.uses_writeLoop
    ⟨hm₁, hsize.le⟩
  intro _ m₂ hm₂
  apply Safe.bind
  apply get_file_key_safe sizes_tolerant (sizes_lasting st.st.st_size) hm₂.ends hm₂.size
  intro m₃ hm₃ hsize₃
  apply Safe.bind
  rw [add64]
  split
  · next hfit =>
    apply Safe.ret
    change KeepsSize _ _ _ _ _ _ _ _
      (.call (.csize (if st.st.st_size > off + len then st.st.st_size else off + len) (F.key c.lib))
        fun (value : Int) => .ret (decide (value = 0))) _
    generalize hv : (if st.st.st_size > off + len then st.st.st_size else off + len) = v
    have hvalue : st.st.st_size ≤ v ∧ off + len ≤ v ∧ v ≤ bound ∧ v < 2 ^ 63 := by
      rw [← hv]
      split <;> omega
    obtain ⟨hv₁, hv₂, hv₃, hv₄⟩ := hvalue
    apply Safe.request rfl hm₃
    intro s seen hs hrely _ _ hgrows g (r : Int) s' hr
    obtain ⟨hs', -, -, hsize'⟩ := hs.file.csize hv₄ hr
    have hlower : size ≤ v := hs.lower.trans hgrows
    refine Safe.ret ⟨⟨⟨hs', ?_, ?_⟩, ?_⟩, fun _ => ?_⟩
    · rw [hsize']
      exact hlower
    · rw [hsize']
      exact hv₃
    · change s.sizeAt (F.key c.lib) ≤ s'.sizeAt (F.key c.lib)
      rw [hsize']
      exact hgrows
    · rw [hsize']
      exact hv₂
  · apply Safe.request rfl hm₃
    intro s seen _ _ _ _ _ g r
    cases r

/-- Writes of a file that has some size at first. -/
def writeSystem (ι : Type) [DecidableEq ι] (c : LocofsClient) (clock : Nat → Int) (F : Target)
    (size : Int) :
    System (Pool sig ι ClientCall Bool (Deployment ι)) (Pool.Event ι ClientCall Garbage) :=
  ((calls ι c clock).system fun s => s.HasFile c.lib F ∧ s.sizeAt (F.key c.lib) = size).restrict
    fun q e _ => Calls.Meets (fun _ call => call.Writes F.path) (fun _ _ _ _ => True) q e

/-- The same, where no `csize` comes too late. -/
def growingSystem (ι : Type) [DecidableEq ι] (c : LocofsClient) (clock : Nat → Int) (F : Target)
    (size : Int) :
    System (Pool sig ι ClientCall Bool (Deployment ι)) (Pool.Event ι ClientCall Garbage) :=
  ((calls ι c clock).system fun s => s.HasFile c.lib F ∧ s.sizeAt (F.key c.lib) = size).restrict
    fun q e _ => Calls.Meets (fun _ call => call.Writes F.path) (fun q _ _ o => q.state.Grows o) q e

variable {w : List (Pool.Event ι ClientCall Garbage)}
  {q : Pool sig ι ClientCall Bool (Deployment ι)}

theorem size_after (h : (growingSystem ι c clock F size).Run w q) (hidle : ∀ i, q.thread i = none)
    (htrue : ∀ r ∈ q.returned, r.answer = true) :
    q.state.HasFile c.lib F ∧ q.state.sizeAt (F.key c.lib) = sizeAfter size q := by
  have hbegun : ∀ e ∈ w, ∀ q₁ q₂ : Pool sig ι ClientCall Bool (Deployment ι),
      Calls.Meets (fun _ call => call.Writes F.path) (fun q _ _ o => q.state.Grows o) q₁ e →
      Calls.Meets (sizes ι c.lib F size (sizeAfter size q)).pre
        (fun q _ _ o => q.state.Grows o) q₁ e := by
    intro e he q₁ q₂ hmeets
    cases e with
    | turn i g => exact hmeets
    | start i call g =>
      obtain ⟨r, hr, -, rfl⟩ := Calls.all_returned h.of_restrict hidle he
      exact ⟨hmeets, le_sizeAfter hr⟩
  have hprog : ∀ i call (s : Deployment ι), (sizes ι c.lib F size (sizeAfter size q)).pre i call →
      Sized c.lib F size (sizeAfter size q) s →
      KeepsSize i call c clock F size (sizeAfter size q)
        ((sizes ι c.lib F size (sizeAfter size q)).Final i call) (call.prog c)
        ⟨none, s, s, [s], []⟩ := by
    rintro i call s ⟨⟨buf, len, off, rfl, -, -⟩, hle⟩ hs
    exact write_keepsSize ⟨hs, Int.le_refl _⟩ hle
  have hinit : ∀ s : Deployment ι, s.HasFile c.lib F ∧ s.sizeAt (F.key c.lib) = size →
      Sized c.lib F size (sizeAfter size q) s := by
    rintro s ⟨hs, rfl⟩
    exact ⟨hs, Int.le_refl _, (foldr_max_le.1 (Int.le_refl _)).1⟩
  have hsafe := Outline.safe_run sizes_compatible hprog hinit (h.restrict_of_mem hbegun)
  refine ⟨hsafe.inv.file, Int.le_antisymm hsafe.inv.upper (foldr_max_le.2 ⟨hsafe.inv.lower, ?_⟩)⟩
  intro x hx
  obtain ⟨r, hr, rfl⟩ := List.mem_map.1 hx
  exact hsafe.post r hr (htrue r hr)

section Examples

/-- The file `/a/b`, still empty, for two clients with empty caches. -/
def exampleDeployment : Deployment Bool := ⟨exampleSystem, fun _ => ⟨5000, [], 0⟩⟩

def exampleTarget : Target := ⟨examplePath.str, 2, exampleFile⟩

theorem exampleDeployment_file : exampleDeployment.HasFile Library.posix exampleTarget where
  dir := by decide
  cached h := by
    obtain ⟨it, hit, -⟩ := h
    cases hit
  file := by
    obtain ⟨uuid, hu, hf⟩ := exampleSystem_file
    have huuid : exampleSystem.uuidOf Library.posix (Library.posix.parent_path examplePath.str) =
        some 2 := by decide
    cases hu.symm.trans huuid
    exact hf

abbrev examplePool : Pool sig Bool ClientCall Bool (Deployment Bool) :=
  ⟨exampleDeployment, fun _ => none, []⟩

theorem examplePool_init : ((calls Bool exampleClient fun _ => 0).system fun s =>
    s.HasFile Library.posix exampleTarget ∧ s.sizeAt (exampleTarget.key Library.posix) = 0).init
      examplePool :=
  ⟨⟨exampleDeployment_file, by decide⟩, fun _ => rfl, rfl⟩

def turns (i : Bool) (n : Nat) : List (Pool.Event Bool ClientCall Garbage) :=
  List.replicate n (.turn i exampleGarbage)

/-- Two writes of 10 and of 20 bytes, up to their `csize`. -/
def bothWritten : List (Pool.Event Bool ClientCall Garbage) :=
  [.start false (.write examplePath.str (fun _ => 7) 10 0) exampleGarbage,
    .start true (.write examplePath.str (fun _ => 8) 20 0) exampleGarbage] ++
    turns false 4 ++ turns true 4

def growing (q : Pool sig Bool ClientCall Bool (Deployment Bool)) :
    Pool.Event Bool ClientCall Garbage → Bool
  | .start _ (.write path _ len off) _ => path = examplePath.str ∧ 0 ≤ off ∧ 0 < len
  | .start _ _ _ => false
  | .turn i _ =>
    match q.thread i with
    | some ⟨_, .call (.csize value path) _, _, _⟩ => q.state.sizeAt path ≤ value
    | _ => true

theorem growing_meets {q : Pool sig Bool ClientCall Bool (Deployment Bool)}
    {e : Pool.Event Bool ClientCall Garbage} (h : growing q e = true) :
    Calls.Meets (fun _ call => call.Writes exampleTarget.path)
      (fun q _ _ o => q.state.Grows o) q e := by
  cases e with
  | start i call g =>
    cases call with
    | write path buf len off =>
      obtain ⟨rfl, hoff, hlen⟩ := of_decide_eq_true h
      exact ⟨buf, len, off, rfl, hoff, hlen⟩
    | _ => cases h
  | turn i g =>
    intro x o k hx hrest
    obtain ⟨call, rest, seen, sent⟩ := x
    cases hrest
    cases o with
    | csize value path =>
      simp only [growing, hx] at h
      exact of_decide_eq_true (p := q.state.sizeAt path ≤ value) h
    | _ => trivial

def outcome (q : Pool sig Bool ClientCall Bool (Deployment Bool)) :
    Bool × Bool × List (Bool × Int) :=
  ((q.thread false).isNone, (q.thread true).isNone, q.returned.map fun r => (r.answer, r.call.last))

theorem idle_of_outcome {q : Pool sig Bool ClientCall Bool (Deployment Bool)}
    {l : List (Bool × Int)}
    (h : outcome q = (true, true, l)) : ∀ i, q.thread i = none := by
  simp only [outcome, Prod.mk.injEq, Option.isNone_iff_eq_none] at h
  exact Bool.forall_bool.2 ⟨h.1, h.2.1⟩

theorem sizeAfter_of_outcome {q : Pool sig Bool ClientCall Bool (Deployment Bool)}
    {l : List (Bool × Int)} (h : outcome q = (true, true, l)) (hl : ∀ x ∈ l, x.1 = true) :
    (∀ r ∈ q.returned, r.answer = true) ∧ sizeAfter size q = (l.map Prod.snd).foldr max size := by
  simp only [outcome, Prod.mk.injEq] at h
  obtain ⟨-, -, rfl⟩ := h
  constructor
  · intro r hr
    exact hl _ (List.mem_map_of_mem hr)
  · simp only [sizeAfter, List.map_map]
    rfl

/-- The shorter write sends its size first. -/
theorem size_after_both : ∃ q, (growingSystem Bool exampleClient (fun _ => 0) exampleTarget 0).Run
      (bothWritten ++ [.turn false exampleGarbage, .turn true exampleGarbage]) q ∧
    q.state.sizeAt (exampleTarget.key Library.posix) = 20 := by
  have hanswer : (exampleCalls.follow growing examplePool
      (bothWritten ++ [.turn false exampleGarbage, .turn true exampleGarbage])).map outcome =
        some (true, true, [(true, 20), (true, 10)]) := by decide +kernel
  obtain ⟨q, hq, hout⟩ := Option.map_eq_some_iff.1 hanswer
  have hrun : (growingSystem Bool exampleClient (fun _ => 0) exampleTarget 0).Run
      (bothWritten ++ [.turn false exampleGarbage, .turn true exampleGarbage]) q :=
    Calls.run_of_follow (v := []) (fun _ _ _ _ => growing_meets) (.nil examplePool_init) hq
  obtain ⟨htrue, hsize⟩ := @sizeAfter_of_outcome 0 q _ hout (by decide)
  exact ⟨q, hrun, (size_after hrun (idle_of_outcome hout) htrue).2.trans hsize⟩

def writing : Pool.Event Bool ClientCall Garbage → Bool
  | .start _ (.write path _ len off) _ => path = examplePath.str ∧ 0 ≤ off ∧ 0 < len
  | .start _ _ _ => false
  | .turn _ _ => true

theorem writing_meets {q : Pool sig Bool ClientCall Bool (Deployment Bool)}
    {e : Pool.Event Bool ClientCall Garbage} (h : writing e = true) :
    Calls.Meets (fun _ call => call.Writes exampleTarget.path) (fun _ _ _ _ => True) q e := by
  cases e with
  | start i call g =>
    cases call with
    | write path buf len off =>
      obtain ⟨rfl, hoff, hlen⟩ := of_decide_eq_true h
      exact ⟨buf, len, off, rfl, hoff, hlen⟩
    | _ => cases h
  | turn i g => exact fun _ _ _ _ _ => trivial

/-- The longer write sends its size first. -/
theorem size_lost : ¬ ∀ (w : List (Pool.Event Bool ClientCall Garbage))
    (q : Pool sig Bool ClientCall Bool (Deployment Bool)),
    (writeSystem Bool exampleClient (fun _ => 0) exampleTarget 0).Run w q →
    (∀ i, q.thread i = none) → (∀ r ∈ q.returned, r.answer = true) →
    q.state.sizeAt (exampleTarget.key Library.posix) = sizeAfter 0 q := by
  intro h
  have hanswer : (exampleCalls.follow (fun _ => writing) examplePool
      (bothWritten ++ [.turn true exampleGarbage, .turn false exampleGarbage])).map
        (fun q => (outcome q, q.state.sizeAt (exampleTarget.key Library.posix))) =
          some ((true, true, [(true, 10), (true, 20)]), 10) := by decide +kernel
  obtain ⟨q, hq, he⟩ := Option.map_eq_some_iff.1 hanswer
  obtain ⟨hout, hten⟩ := Prod.mk.inj he
  have hrun : (writeSystem Bool exampleClient (fun _ => 0) exampleTarget 0).Run _ q :=
    Calls.run_of_follow (v := []) (fun _ _ _ _ => writing_meets) (.nil examplePool_init) hq
  obtain ⟨htrue, hsize⟩ := @sizeAfter_of_outcome 0 q _ hout (by decide)
  have hmax := h _ q hrun (idle_of_outcome hout) htrue
  rw [hten, hsize] at hmax
  exact absurd hmax (by decide)

end Examples

end Deployment

end Galois
