import ConfigCompiler.Interner.Store

/-!
# Sessions with an interner

A session gives names to the handles that it holds. A name that is bound again lets go of its earlier
handle.
-/

namespace ConfigCompiler

structure Session where
  store : Store
  handles : Entries Interned

namespace Session

def start (q : Quantization) : Session := ⟨Store.empty q, []⟩

def handle? (s : Session) (name : String) : Option Interned := s.handles.get? name

/-- Lets go of the handle of a name, if there is one. -/
def drop (s : Session) (name : String) : Session × Bool :=
  match s.handle? name with
  | some n => (⟨s.store.release n, s.handles.erase name⟩, true)
  | none => (s, false)

/-- Gives a handle that is held already to a name, or lets go of it where there is no name. -/
def keep (s : Session) (name? : Option String) (n : Interned) : Session :=
  match name? with
  | none => { s with store := s.store.release n }
  | some name =>
    let store := match s.handle? name with
      | some old => s.store.release old
      | none => s.store
    ⟨store, s.handles.insert name n⟩

def intern (s : Session) (name? : Option String) (v : Value) :
    Session × Except IntegrityError Interned :=
  match s.store.intern v with
  | (store, .ok n) => (({ s with store }).keep name? n, .ok n)
  | (store, .error e) => ({ s with store }, .error e)

/-- Keeps another handle to a node that is live. -/
def share (s : Session) (name? : Option String) (n : Interned) : Session :=
  ({ s with store := s.store.retain n }).keep name? n

/-- The live node of a digest, kept under a name. -/
def lookup (s : Session) (name? : Option String) (d : Digest) : Session × Option Interned :=
  match s.store.lookup d with
  | some n => (s.share name? n, some n)
  | none => (s, none)

/-- The entry of a map node under a key, kept under a name. -/
def get (s : Session) (name? : Option String) (n : Interned) (key : String) :
    Session × Option Interned :=
  match n.get? key with
  | some child => (s.share name? child, some child)
  | none => (s, none)

def reclaim (s : Session) : Session × Nat :=
  let (store, removed) := s.store.sweep
  ({ s with store }, removed)

/-- The name of the handle to an integer of a range. -/
def rangeName (stem : String) (i : Int) : String := stem ++ toString i

/-- Interns `count` integers from `first` on, each under its own name or under none. -/
def internRange (s : Session) (stem? : Option String) (first : Int) : (count : Nat) → Session
  | 0 => s
  | count + 1 =>
    let s := (s.intern (stem?.map (rangeName · first)) (.int (Int64.ofInt first))).1
    s.internRange stem? (first + 1) count

/-- Lets go of the handles to `count` integers from `first` on and says how many there were. -/
def dropRange (s : Session) (stem : String) (first : Int) : (count : Nat) → Session × Nat
  | 0 => (s, 0)
  | count + 1 =>
    let (s, there) := s.drop (rangeName stem first)
    let (s, n) := s.dropRange stem (first + 1) count
    (s, if there then n + 1 else n)

end Session

end ConfigCompiler
