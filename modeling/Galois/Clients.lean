import Galois.Effect.Pool
import Galois.FileKey

namespace Galois
set_option autoImplicit true
set_option relaxedAutoImplicit false

open Prog Client

/-- The servers and the pages, with a cache for each client; the one in `servers` is not used. -/
structure Deployment (ι : Type) where
  servers : FileSystem
  cache : ι → LruCache Str (BitVec 64)

def Client.isLocal : Op → Bool
  | .cacheGet _ | .cacheSet _ _ | .cacheRemove _ => true
  | _ => false

inductive ClientCall where
  | mkdir (path : Str)
  | rmdir (path : Str)
  | openFile (path : Str)
  | create (path : Str)
  | unlink (path : Str)
  | write (path : Str) (buf : Buffer) (len off : Int)

def ClientCall.prog (c : LocofsClient) : ClientCall → Prog sig Bool
  | .mkdir path => LocofsClient.mkdir path
  | .rmdir path => LocofsClient.rmdir path
  | .openFile path => c.openFile path
  | .create path => c.create path
  | .unlink path => c.unlink path
  | .write path buf len off => c.write path buf len off

/-- The keys that a call sent to the file server. -/
def sentKeys (sent : List Op) : List Str :=
  sent.filterMap fun
    | .access path | .create _ path | .remove path | .fileStat path | .csize _ path => some path
    | _ => none

theorem sentKeys_access (path : Str) (sent : List Op) :
    sentKeys (.access path :: sent) = path :: sentKeys sent := rfl

theorem sentKeys_create (mode : Option Int) (path : Str) (sent : List Op) :
    sentKeys (.create mode path :: sent) = path :: sentKeys sent := rfl

namespace Deployment

variable {ι : Type}

/-- What a client works with. -/
def view (s : Deployment ι) (i : ι) : FileSystem := { s.servers with cache := s.cache i }

variable [DecidableEq ι]

def handle (lib : Library) (clock : Nat → Int) (g : Garbage) (i : ι) :
    Handler sig (Deployment ι) := fun o s =>
  (FileSystem.handle g lib clock o (s.view i)).map fun (r, fs) =>
    (r, ⟨fs, Function.update s.cache i fs.cache⟩)

/-- The calls of clients that are all set up in the same way. -/
def calls (ι : Type) [DecidableEq ι] (c : LocofsClient) (clock : Nat → Int) :
    Calls sig ι ClientCall Bool (Deployment ι) Garbage where
  isLocal := Client.isLocal
  handler := handle c.lib clock
  prog _ call := call.prog c

variable {lib : Library} {clock : Nat → Int} {g : Garbage} {i j : ι} {s s' : Deployment ι}
  {o : Op} {r : o.Res}

theorem handle_eq_some (h : handle lib clock g i o s = some (r, s')) :
    ∃ fs, FileSystem.handle g lib clock o (s.view i) = some (r, fs) ∧
      s' = ⟨fs, Function.update s.cache i fs.cache⟩ := by
  obtain ⟨⟨r', fs⟩, hfs, he⟩ := Option.map_eq_some_iff.1 h
  cases he
  exact ⟨fs, hfs, rfl⟩

theorem handle_request (h : handle lib clock g i o s = some (r, s')) (ho : isLocal o = false) :
    s'.cache = s.cache := by
  obtain ⟨fs, hfs, rfl⟩ := handle_eq_some h
  have hcache : fs.cache = s.cache i := by
    cases o with
    | cacheGet | cacheSet | cacheRemove => cases ho
    | rmdir path =>
      obtain ⟨⟨r', dm⟩, -, he⟩ := Option.map_eq_some_iff.1 hfs
      cases he
      rfl
    | remove path =>
      obtain ⟨⟨r', fm⟩, -, he⟩ := Option.map_eq_some_iff.1 hfs
      cases he
      rfl
    | fileReaddir server value =>
      obtain ⟨fm, -, he⟩ := Option.map_eq_some_iff.1 hfs
      cases he
      rfl
    | undefined => cases hfs
    | _ =>
      cases hfs
      rfl
  rw [hcache]
  exact Function.update_eq_self i s.cache

abbrev exampleCalls : Calls sig Bool ClientCall Bool (Deployment Bool) Garbage :=
  calls Bool LocofsClient.exampleClient fun _ => 0

end Deployment

end Galois
