import Galois.Effect.Answers
import Galois.FileSystem

namespace Galois
set_option autoImplicit true
set_option relaxedAutoImplicit false

open Prog Client

namespace Client

def isRpc : Op → Bool
  | .dirStat _ | .fileStat _ | .csize _ _ | .mkdir _ | .rmdir _ | .access _ | .create _ _
  | .remove _ | .dirReaddir _ | .fileReaddir _ _ => true
  | .cacheGet _ | .cacheSet _ _ | .cacheRemove _ | .readBlock _ | .writeBlock _
  | .undefined => false

/-- Where an operation does not come back. -/
def Stuck (o : Op) : Prop := o = .undefined

/-- A client in the middle of an operation: its cache, and what its `PureValueResponse` and its
`RawResponse` hold once they hold something. -/
structure State where
  cache : LruCache Str (BitVec 64)
  value : Option Int
  raw : Option RawResponse

namespace State

/-- The response of a call stays where it was put; a `StatResponse` is new for each call. -/
def hold (s : State) : (o : Op) → o.Res → State
  | .csize _ _, r | .mkdir _, r | .rmdir _, r | .access _, r | .create _ _, r | .remove _, r =>
    { s with value := some r }
  | .dirReaddir _, r | .fileReaddir _ _, r => { s with raw := some r }
  | _, _ => s

/-- What a refused call may leave in its response: what is there, or any bytes. -/
def Leaves (s : State) : (o : Op) → o.Res → Prop
  | .csize _ _, r | .mkdir _, r | .rmdir _, r | .access _, r | .create _ _, r | .remove _, r =>
    ∀ value, s.value = some value → r = value
  | .dirReaddir _, r | .fileReaddir _ _, r => ∀ raw, s.raw = some raw → r = raw
  | .dirStat _, _ | .fileStat _, _ => True
  | _, _ => False

/-- A call is served with any response, or refused; a page may hold anything. -/
inductive Answer : Answers sig State
  | cacheGet (path : Str) (time : Int) (s : State) : Answer (.cacheGet path) s
    (s.cache.get path time).1 { s with cache := (s.cache.get path time).2 }
  | cacheSet (path : Str) (uuid : BitVec 64) (time : Int) (s : State) :
    Answer (.cacheSet path uuid) s () { s with cache := s.cache.set path uuid (-1) time }
  | cacheRemove (path : Str) (s : State) :
    Answer (.cacheRemove path) s () { s with cache := s.cache.remove path }
  | readBlock (index : Nat) (page : ECAL.Page) (s : State) : Answer (.readBlock index) s page s
  | writeBlock (page : ECAL.Page) (s : State) : Answer (.writeBlock page) s () s
  | served (o : Op) (ho : isRpc o) (r : o.Res) (s : State) : Answer o s r (s.hold o r)
  | refused (o : Op) (r : o.Res) (s : State) (hr : s.Leaves o r) : Answer o s r (s.hold o r)

end State

/-- Whatever the refused call leaves in its response, the operation returns `false`, and the cache
is then as it was at the call. -/
def Reported (o : Op) (k : o.Res → Prog sig Bool) (s : State) : Prop :=
  ∀ r, s.Leaves o r → (k r).Always State.Answer Stuck (fun b s' => b = false ∧ s'.cache = s.cache)
    (s.hold o r)

end Client

namespace LocofsClient

inductive Operation where
  | mkdir (path : Str)
  | rmdir (path : Str)
  | create (path : Str)
  | openFile (path : Str)
  | unlink (path : Str)
  | stat (path : Str)
  | statdir (path : Str)
  | readdir (file_trans : Nat) (path : Str)
  | write (path : Str) (buf : Buffer) (len off : Int)
  | read (path : Str) (buf : Buffer) (len off : Int)

/-- Whether the operation reports success; a `read` reports failure by a negative number. -/
def Operation.prog (c : LocofsClient) : Operation → Prog sig Bool
  | .mkdir path => LocofsClient.mkdir path
  | .rmdir path => LocofsClient.rmdir path
  | .create path => c.create path
  | .openFile path => c.openFile path
  | .unlink path => c.unlink path
  | .stat path => do return (← c.stat path).isSome
  | .statdir path => do return (← LocofsClient.statdir path).isSome
  | .readdir file_trans path => do return (← c.readdir file_trans path).1
  | .write path buf len off => c.write path buf len off
  | .read path buf len off => do return decide (0 ≤ (← c.read path buf len off).1)

/-- The call of `open` that creates the file, whose response still holds the answer to the first
call. -/
def Operation.Retries (operation : Operation) (o : Op) : Prop :=
  (∃ path, operation = .openFile path) ∧ ∃ mode path, o = .create mode path

/-- Refusing the call is reported just where it is one of `retry`. -/
def Verdict (retry : Op → Prop) (o : Op) (k : o.Res → Prog sig Bool) (s : State) : Prop :=
  isRpc o → (Reported o k s ↔ retry o)

variable {retry : Op → Prop} {o : Op} {s s' : State}

theorem answer_rpc {r : o.Res} (h : State.Answer o s r s') (ho : isRpc o) : s' = s.hold o r := by
  cases h with
  | served => rfl
  | refused => rfl
  | _ => cases ho

theorem answer_value {r : o.Res} (h : State.Answer o s r s') (ho : isRpc o = false) :
    s'.value = s.value := by
  cases h with
  | served _ hrpc => exact absurd hrpc (by rw [ho]; exact Bool.false_ne_true)
  | refused _ _ _ hr =>
    cases o with
    | cacheGet | cacheSet | cacheRemove | readBlock | writeBlock | undefined => cases hr
    | _ => cases ho
  | _ => rfl

/-- From every state the program may come to an end with `Q`, or get stuck. -/
def Possible (Q : α → Prop) (p : Prog sig α) : Prop :=
  ∀ s, p.Sometimes State.Answer Stuck (fun a _ => Q a) s

namespace Possible

variable {Q : α → Prop} {k : o.Res → Prog sig α} {path : Str} {uuid : BitVec 64} {index : Nat}
  {page : ECAL.Page}

theorem ret (h : Q a) : Possible Q (.ret a : Prog sig α) := fun _ => h

theorem served (ho : isRpc o) (r : o.Res) (h : Possible Q (k r)) :
    Possible Q (.call o k : Prog sig α) := fun s =>
  .inr ⟨r, _, .served o ho r s, h _⟩

theorem undefined : Possible Q (Client.undefined : Prog sig α) := fun _ => .inl rfl

theorem cacheGet {k : Option (BitVec 64) → Prog sig α} (h : ∀ r, Possible Q (k r)) :
    Possible Q (.call (.cacheGet path) k : Prog sig α) := fun s =>
  .inr ⟨_, _, .cacheGet path 0 s, h _ _⟩

theorem cacheSet {k : Unit → Prog sig α} (h : Possible Q (k ())) :
    Possible Q (.call (.cacheSet path uuid) k : Prog sig α) := fun s =>
  .inr ⟨_, _, .cacheSet path uuid 0 s, h _⟩

theorem cacheRemove {k : Unit → Prog sig α} (h : Possible Q (k ())) :
    Possible Q (.call (.cacheRemove path) k : Prog sig α) := fun s =>
  .inr ⟨_, _, .cacheRemove path s, h _⟩

theorem readBlock {k : ECAL.Page → Prog sig α} (page : ECAL.Page) (h : Possible Q (k page)) :
    Possible Q (.call (.readBlock index) k : Prog sig α) := fun s =>
  .inr ⟨page, s, .readBlock index page s, h s⟩

theorem writeBlock {k : Unit → Prog sig α} (h : Possible Q (k ())) :
    Possible Q (.call (.writeBlock page) k : Prog sig α) := fun s =>
  .inr ⟨(), s, .writeBlock page s, h s⟩

theorem bind {P : β → Prop} {p : Prog sig β} {f : β → Prog sig α} (hp : Possible P p)
    (hf : ∀ b, P b → Possible Q (f b)) : Possible Q (p >>= f) := fun s =>
  .bind ((hp s).mono fun b s' hb => hf b hb s')

end Possible

theorem Verdict.local {k : o.Res → Prog sig Bool} (ho : isRpc o = false) :
    Verdict retry o k s := by
  intro h
  rw [ho] at h
  cases h

theorem leaves_of_none {value : Int} (hs : s.value = none) :
    ∀ held, s.value = some held → value = held := by
  intro held hheld
  rw [hs] at hheld
  cases hheld

theorem Verdict.unreported {k : o.Res → Prog sig Bool} (hretry : ¬ retry o) (r : o.Res)
    (hr : s.Leaves o r) (hk : Possible (· = true) (k r)) : Verdict retry o k s := by
  intro _
  refine ⟨fun h => ?_, fun h => absurd h hretry⟩
  refine absurd (h r hr) (not_always_iff.2 ((hk _).mono ?_))
  rintro b s' rfl ⟨hb, -⟩
  cases hb

abbrev Judged (retry : Op → Prop) (p : Prog sig Bool) (s : State) : Prop :=
  p.AtCalls State.Answer (Verdict retry) (fun _ _ => True) s

theorem judged_last {answer : o.Res → Bool} (hretry : ¬ retry o) (r : o.Res) (hr : s.Leaves o r)
    (ha : answer r = true) : Judged retry (.call o fun r => .ret (answer r)) s :=
  ⟨.unreported hretry r hr (.ret ha), fun _ _ _ => trivial⟩

def noStat : Stat := ⟨0, 0, 0, 0, 0, 0, 0⟩

section Uuids

variable {c : LocofsClient} {path : Str}

theorem possible_get_uuid : Possible (fun a => a.isSome) (get_uuid path) := by
  refine .cacheGet fun r => ?_
  cases r with
  | some uuid => exact .ret rfl
  | none => exact .served rfl (⟨0, noStat, 0⟩ : StatResponse LocoDirStat) (.cacheSet (.ret rfl))

theorem judged_get_uuid {f : Option (BitVec 64) → Prog sig Bool}
    (hretry : ¬ retry (.dirStat (requestPath path)))
    (hf : ∀ uuid, Possible (· = true) (f (some uuid)))
    (hrest : ∀ a s', s'.value = s.value → Judged retry (f a) s') :
    Judged retry (get_uuid path >>= f) s := by
  refine ⟨.local rfl, ?_⟩
  intro r s₁ hr
  have hvalue₁ := answer_value hr rfl
  cases r with
  | some uuid => exact hrest _ _ hvalue₁
  | none =>
    refine ⟨.unreported hretry (⟨0, noStat, 0⟩ : StatResponse LocoDirStat) trivial
      (.cacheSet (hf _)), ?_⟩
    intro response s₂ hresponse
    cases answer_rpc hresponse rfl
    change Judged retry ((if StatResponse.result response < 0 then pure none else do
      Client.cacheSet path response.stat.uuid
      pure (some response.stat.uuid)) >>= f) s₁
    split
    · exact hrest _ _ hvalue₁
    · refine ⟨.local rfl, ?_⟩
      intro _ s₃ hset
      exact hrest _ _ ((answer_value hset rfl).trans hvalue₁)

theorem possible_get_file_key : Possible (fun a => a.isSome) (c.get_file_key path) := by
  refine possible_get_uuid.bind fun uuid huuid => ?_
  obtain ⟨u, rfl⟩ := Option.isSome_iff_exists.1 huuid
  exact .ret rfl

theorem judged_get_file_key {f : Option Str → Prog sig Bool}
    (hretry : ∀ path, ¬ retry (.dirStat path)) (hf : ∀ Key, Possible (· = true) (f (some Key)))
    (hrest : ∀ a s', s'.value = s.value → Judged retry (f a) s') :
    Judged retry (c.get_file_key path >>= f) s := by
  rw [get_file_key, bind_assoc]
  apply judged_get_uuid (hretry _)
  · exact fun uuid => hf _
  · intro a s' hs'
    cases a with
    | none => exact hrest none s' hs'
    | some uuid => exact hrest _ s' hs'

theorem judged_get_file_stat {f : Option LocoFileStat → Prog sig Bool}
    (hretry : ∀ path, ¬ retry (.dirStat path)) (hretry' : ∀ path, ¬ retry (.fileStat path))
    (hf : ∃ st, Possible (· = true) (f (some st)))
    (hrest : ∀ a s', s'.value = s.value → Judged retry (f a) s') :
    Judged retry (c.get_file_stat path >>= f) s := by
  obtain ⟨st, hst⟩ := hf
  rw [get_file_stat, bind_assoc]
  apply judged_get_file_key hretry
  · exact fun Key => .served rfl (⟨0, st⟩ : StatResponse LocoFileStat) hst
  · intro Key s₁ hs₁
    refine ⟨.unreported (hretry' _) (⟨0, st⟩ : StatResponse LocoFileStat) trivial hst, ?_⟩
    intro response s₂ hresponse
    cases answer_rpc hresponse rfl
    exact hrest _ _ hs₁

end Uuids

section Pages

abbrev NoRpc (o : Op) : Prop := isRpc o = false

theorem paged_noRpc : Paged NoRpc := ⟨rfl, fun _ => rfl, fun _ => rfl⟩

theorem judged_of_uses {p : Prog sig α} {f : α → Prog sig Bool} (hp : p.Uses NoRpc)
    (hrest : ∀ a s', s'.value = s.value → Judged retry (f a) s') :
    Judged retry (p >>= f) s := by
  apply AtCalls.bind_of_uses (I := fun s' => s'.value = s.value) hp
  · exact fun o k s ho => .local ho
  · exact fun o s₁ r s₂ ho hs₁ hr => (answer_value hr ho).trans hs₁
  · rfl
  · exact hrest

theorem possible (p : Prog sig α) : Possible (fun _ => True) p := by
  induction p with
  | ret a => exact .ret trivial
  | call o k ih =>
    cases o with
    | cacheGet path => exact .cacheGet ih
    | cacheSet path uuid => exact .cacheSet (ih ())
    | cacheRemove path => exact .cacheRemove (ih ())
    | readBlock index => exact .readBlock ⟨fun _ => 0, 0⟩ (ih _)
    | writeBlock page => exact .writeBlock (ih ())
    | undefined => exact fun _ => .inl rfl
    | dirStat path => exact .served rfl (⟨0, noStat, 0⟩ : StatResponse LocoDirStat) (ih _)
    | fileStat path => exact .served rfl (⟨0, noStat, 0, 0, 0⟩ : StatResponse LocoFileStat) (ih _)
    | dirReaddir path => exact .served rfl (⟨0, []⟩ : RawResponse) (ih _)
    | fileReaddir server value => exact .served rfl (⟨0, []⟩ : RawResponse) (ih _)
    | csize value path => exact .served rfl (0 : Int) (ih _)
    | mkdir path => exact .served rfl (0 : Int) (ih _)
    | rmdir path => exact .served rfl (0 : Int) (ih _)
    | access path => exact .served rfl (0 : Int) (ih _)
    | create mode path => exact .served rfl (0 : Int) (ih _)
    | remove path => exact .served rfl (0 : Int) (ih _)

variable {c : LocofsClient} {st : LocoFileStat}

theorem possible_readLoop (hst : st.block_size = 4096) {fuel : Nat} {buf : Buffer}
    {start len offset : Int} (hstart : 0 ≤ start) :
    Possible (fun r => 0 ≤ r.1) (c.readLoop st fuel buf start len offset) := by
  induction fuel generalizing buf start len offset with
  | zero =>
    rw [readLoop]
    split
    · exact .undefined
    · exact .ret hstart
  | succ fuel ih =>
    rw [readLoop]
    split
    case isTrue hlen =>
      refine (possible _).bind fun buf _ => (possible _).bind fun next _ => ih ?_
      have hblock : st.block_size.toInt = 4096 := by rw [hst]; rfl
      have hoff : offset.tmod 4096 < 4096 := Int.tmod_lt_of_pos offset (by decide)
      rw [hblock]
      omega
    case isFalse => exact .ret hstart

end Pages

section Operations

variable {c : LocofsClient} {path : Str}

theorem judged_mkdir (hretry : ∀ o, ¬ retry o) (hs : s.value = none) :
    Judged retry (LocofsClient.mkdir path) s := by
  apply judged_of_uses paged_noRpc.uses_check_path
  intro p s₁ hs₁
  exact judged_last (hretry _) (0 : Int) (leaves_of_none (hs₁.trans hs)) rfl

theorem judged_rmdir (hretry : ∀ o, ¬ retry o) (hs : s.value = none) :
    Judged retry (LocofsClient.rmdir path) s := by
  apply judged_of_uses paged_noRpc.uses_check_path
  intro p s₁ hs₁
  refine ⟨.unreported (hretry _) (0 : Int) (leaves_of_none (hs₁.trans hs)) ?_, ?_⟩
  · exact .cacheRemove (.ret rfl)
  · intro (value : Int) s₂ _
    change Judged retry (if value = (0 : Int) then .call (.cacheRemove p) fun _ => .ret true
      else .ret false) s₂
    split
    · exact ⟨.local rfl, fun _ _ _ => trivial⟩
    · trivial

theorem judged_create (hretry : ∀ o, ¬ retry o) (hs : s.value = none) :
    Judged retry (c.create path) s := by
  apply judged_of_uses paged_noRpc.uses_check_path
  intro p s₁ hs₁
  apply judged_get_file_key fun _ => hretry _
  · exact fun Key => .served rfl (0 : Int) (.ret rfl)
  · intro Key s₂ hs₂
    cases Key with
    | none => trivial
    | some Key =>
      exact judged_last (hretry _) (0 : Int) (leaves_of_none (hs₂.trans (hs₁.trans hs))) rfl

theorem judged_unlink (hretry : ∀ o, ¬ retry o) (hs : s.value = none) :
    Judged retry (c.unlink path) s := by
  apply judged_get_file_key fun _ => hretry _
  · exact fun Key => .served rfl (0 : Int) (.ret rfl)
  · intro Key s₁ hs₁
    cases Key with
    | none => trivial
    | some Key =>
      exact judged_last (hretry _) (0 : Int) (leaves_of_none (hs₁.trans hs)) rfl

/-- The call of `open` that creates the file is reported: its response holds the answer of the first
call, which was not 0. -/
theorem judged_open (hretry : ∀ o, retry o ↔ ∃ mode path, o = .create mode path)
    (hs : s.value = none) : Judged retry (c.openFile path) s := by
  have hno {o : Op} (ho : ∀ mode path, o ≠ .create mode path) : ¬ retry o := by
    rw [hretry]
    rintro ⟨mode, path, he⟩
    exact ho mode path he
  apply judged_get_file_key fun _ => hno (by simp)
  · exact fun Key => .served rfl (0 : Int) (.ret rfl)
  · intro Key s₁ hs₁
    cases Key with
    | none => trivial
    | some Key =>
      refine ⟨.unreported (hno (by simp)) (0 : Int) (leaves_of_none (hs₁.trans hs)) (.ret rfl), ?_⟩
      intro (value : Int) s₂ hvalue
      cases answer_rpc hvalue rfl
      change Judged retry (if value = (0 : Int) then .ret true else
        .call (.create (some 0o777) (requestPath Key)) fun (value : Int) =>
          .ret (decide (value = 0)))
        { s₁ with value := some value }
      split
      case isTrue => trivial
      case isFalse hne =>
        refine ⟨fun _ => ⟨fun _ => (hretry _).2 ⟨_, _, rfl⟩, fun _ (r : Int) hr => ?_⟩,
          fun _ _ _ => trivial⟩
        have he : r = value := hr value rfl
        exact ⟨decide_eq_false (he ▸ hne), rfl⟩

theorem judged_stat (hretry : ∀ o, ¬ retry o) :
    Judged retry (Operation.prog c (.stat path)) s := by
  rw [Operation.prog, stat, bind_assoc]
  apply judged_get_file_key fun _ => hretry _
  · exact fun Key => .served rfl (⟨0, noStat, 0, 0, 0⟩ : StatResponse LocoFileStat) (.ret rfl)
  · intro Key s₁ _
    cases Key with
    | none => trivial
    | some Key =>
      exact judged_last (hretry _) (⟨0, noStat, 0, 0, 0⟩ : StatResponse LocoFileStat) trivial rfl

theorem judged_statdir (hretry : ∀ o, ¬ retry o) :
    Judged retry (Operation.prog c (.statdir path)) s := by
  rw [Operation.prog, statdir, bind_assoc]
  apply judged_of_uses paged_noRpc.uses_check_path
  intro p s₁ _
  refine ⟨.unreported (hretry _) (⟨0, noStat, 0⟩ : StatResponse LocoDirStat) trivial
    (.ret rfl), ?_⟩
  intro response s₂ _
  change Judged retry ((if StatResponse.result response < 0 then pure none else _) >>= _) s₂
  split <;> trivial

theorem judged_readdirLoop (hretry : ∀ o, ¬ retry o) {uuid : BitVec 64} {buf : List Str}
    {servers : List Nat} :
    Judged retry (c.readdirLoop uuid buf servers >>= fun _ => .ret true) s := by
  induction servers generalizing buf s with
  | nil => trivial
  | cons i servers ih =>
    refine ⟨.unreported (hretry _) (s.raw.getD ⟨0, []⟩) ?_ ?_, ?_⟩
    · intro raw hraw
      rw [hraw]
      rfl
    · refine (possible _).bind fun buf _ => .ret rfl
    · intro response s₁ _
      change Judged retry ((rawString response >>= fun vbuf => _) >>= _) s₁
      rw [bind_assoc]
      exact judged_of_uses paged_noRpc.uses_rawString fun vbuf s₂ _ => ih

theorem judged_readdir_rest (hretry : ∀ o, ¬ retry o) {p : Str} {buf : List Str}
    {file_trans : Nat} : Judged retry ((get_uuid p >>= fun
      | none => pure (false, buf)
      | some uuid => do
        let buf ← c.readdirLoop uuid buf (List.range file_trans)
        pure (true, buf)) >>= fun r => .ret r.1) s := by
  rw [bind_assoc]
  apply judged_get_uuid (hretry _)
  · intro uuid
    exact .bind (P := fun r => r.1 = true) ((possible _).bind fun _ _ => .ret rfl) fun r => .ret
  · intro uuid s₁ _
    cases uuid with
    | none => trivial
    | some uuid =>
      change Judged retry ((_ >>= _) >>= _) s₁
      rw [bind_assoc]
      exact judged_readdirLoop hretry

theorem judged_readdir (hretry : ∀ o, ¬ retry o) {file_trans : Nat} :
    Judged retry (Operation.prog c (.readdir file_trans path)) s := by
  rw [Operation.prog, readdir, bind_assoc]
  apply judged_of_uses paged_noRpc.uses_check_path
  intro p s₁ _
  refine ⟨.unreported (hretry _) (s₁.raw.getD ⟨0, []⟩) ?_ ?_, ?_⟩
  · intro raw hraw
    rw [hraw]
    rfl
  · refine .bind (P := fun r => r.1 = true) ?_ fun r => .ret
    refine (possible (rawString _)).bind fun vbuf _ => possible_get_uuid.bind fun uuid huuid => ?_
    obtain ⟨u, rfl⟩ := Option.isSome_iff_exists.1 huuid
    exact (possible _).bind fun _ _ => .ret rfl
  · intro response s₂ _
    change Judged retry ((rawString response >>= fun vbuf => _) >>= _) s₂
    rw [Prog.bind_assoc]
    exact judged_of_uses paged_noRpc.uses_rawString fun vbuf s₃ _ => judged_readdir_rest hretry

section Data

variable {buf : Buffer} {len off : Int}

theorem possible_write_size {st : LocoFileStat} : Possible (· = true) (c.get_file_key path >>= fun
      | none => pure false
      | some Key_File => do
        let length ← add64 off len
        let size := if st.st.st_size > length then st.st.st_size else length
        let value ← csize size (requestPath Key_File)
        pure (decide (value = 0))) := by
  refine possible_get_file_key.bind fun Key hKey => ?_
  obtain ⟨key, rfl⟩ := Option.isSome_iff_exists.1 hKey
  exact (possible (add64 off len)).bind fun _ _ => .served rfl (0 : Int) (.ret rfl)

theorem judged_write (hretry : ∀ o, ¬ retry o) (hs : s.value = none) :
    Judged retry (c.write path buf len off) s := by
  apply judged_get_file_stat (fun _ => hretry _) fun _ => hretry _
  · refine ⟨⟨noStat, 0, 0, 4096⟩, ?_⟩
    exact (possible (c.writeLoop ..)).bind fun _ _ => possible_write_size
  · intro st s₁ hs₁
    cases st with
    | none => trivial
    | some st =>
      apply judged_of_uses paged_noRpc.uses_writeLoop
      intro _ s₂ hs₂
      apply judged_get_file_key fun _ => hretry _
      · intro Key
        exact (possible (add64 off len)).bind fun _ _ => .served rfl (0 : Int) (.ret rfl)
      · intro Key s₃ hs₃
        cases Key with
        | none => trivial
        | some Key =>
          apply judged_of_uses paged_noRpc.uses_add64
          intro length s₄ hs₄
          have hvalue := hs₄.trans (hs₃.trans (hs₂.trans (hs₁.trans hs)))
          exact judged_last (hretry _) (0 : Int) (leaves_of_none hvalue) rfl

def roomy (len off : Int) : LocoFileStat :=
  ⟨{ noStat with st_size := if off + len < 2 ^ 63 then max len (off + len) else len }, 0, 0, 4096⟩

def readFrom (c : LocofsClient) (st : LocoFileStat) (buf : Buffer) (len off : Int) :
    Prog sig (Int × Buffer) := do
  let size := st.st.st_size
  let len := if size < len then size else len
  let last ← add64 off len
  if last > size then pure (-1, buf)
  else c.readLoop st len.toNat buf 0 len off

theorem read_eq : c.read path buf len off = c.get_file_stat path >>= fun
    | none => pure (0, buf)
    | some st => c.readFrom st buf len off := rfl

theorem possible_readFrom :
    Possible (fun r => 0 ≤ r.1) (c.readFrom (roomy len off) buf len off) := by
  have hlen : ¬ (roomy len off).st.st_size < len := by
    simp only [roomy]
    split <;> omega
  rw [readFrom, if_neg hlen, add64]
  split
  case isTrue hin =>
    have hlast : ¬ off + len > (roomy len off).st.st_size := by
      simp only [roomy, if_pos hin.2]
      omega
    change Possible _ (if off + len > (roomy len off).st.st_size then _ else _)
    rw [if_neg hlast]
    exact possible_readLoop rfl le_rfl
  case isFalse => exact fun _ => .inl rfl

theorem uses_readFrom {st : LocoFileStat} : (c.readFrom st buf len off).Uses NoRpc := by
  refine paged_noRpc.uses_add64.bind fun last => ?_
  split
  · trivial
  · exact paged_noRpc.uses_readLoop

theorem judged_read (hretry : ∀ o, ¬ retry o) :
    Judged retry (Operation.prog c (.read path buf len off)) s := by
  rw [Operation.prog, read_eq, Prog.bind_assoc]
  apply judged_get_file_stat (fun _ => hretry _) fun _ => hretry _
  · refine ⟨roomy len off, ?_⟩
    exact possible_readFrom.bind fun r hr => .ret (decide_eq_true hr)
  · intro st s₁ _
    cases st with
    | none => trivial
    | some st => exact judged_of_uses uses_readFrom fun _ _ _ => trivial

end Data

end Operations

/-- At every call that an operation comes to: that it is refused is reported exactly if it is the
call of `open` that creates the file. -/
theorem refusal_reported_iff (c : LocofsClient) (operation : Operation)
    (cache : LruCache Str (BitVec 64)) :
    (operation.prog c).AtCalls State.Answer
      (fun o k s => isRpc o → (Reported o k s ↔ operation.Retries o)) (fun _ _ => True)
      ⟨cache, none, none⟩ := by
  have hretry (hne : ∀ path, operation ≠ .openFile path) (o : Op) : ¬ operation.Retries o := by
    rintro ⟨⟨path, he⟩, -⟩
    exact hne path he
  cases operation with
  | mkdir path => exact judged_mkdir (hretry (by simp)) rfl
  | rmdir path => exact judged_rmdir (hretry (by simp)) rfl
  | create path => exact judged_create (hretry (by simp)) rfl
  | unlink path => exact judged_unlink (hretry (by simp)) rfl
  | stat path => exact judged_stat (hretry (by simp))
  | statdir path => exact judged_statdir (hretry (by simp))
  | readdir file_trans path => exact judged_readdir (hretry (by simp))
  | write path buf len off => exact judged_write (hretry (by simp)) rfl
  | read path buf len off => exact judged_read (hretry (by simp))
  | openFile path =>
    refine judged_open (fun o => ?_) rfl
    simp only [Operation.Retries, Operation.openFile.injEq, exists_eq', true_and]

/-- A refused `MKDIR` whose response happens to hold 0 is taken for a directory. -/
theorem mkdir_refused : ¬ ∀ (c : LocofsClient) (operation : Operation)
    (cache : LruCache Str (BitVec 64)), (operation.prog c).AtCalls State.Answer
      (fun o k s => isRpc o → Reported o k s) (fun _ _ => True) ⟨cache, none, none⟩ := by
  intro h
  have hmkdir := (h ⟨.posix, 1, by decide⟩ (.mkdir ['/', 'a']) ⟨1, [], 0⟩).1 rfl (0 : Int)
    (leaves_of_none rfl)
  exact absurd hmkdir.1 (by decide)

end LocofsClient

end Galois
