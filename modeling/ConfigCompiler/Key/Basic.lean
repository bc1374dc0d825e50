/-!
# Dotted keys

A key is a text whose dots separate its segments. Segments may be empty, so the empty key has one
segment, and a key is the join of its segments (`Key.ofSegments`).
-/

namespace ConfigCompiler

structure Key where
  text : String
  deriving DecidableEq, Hashable, Repr

namespace Key

def separator : Char := '.'

instance : Ord Key where
  compare a b := compare a.text b.text

instance : LE Key where
  le a b := a.text ≤ b.text

instance (a b : Key) : Decidable (a ≤ b) := inferInstanceAs (Decidable (a.text ≤ b.text))

/-! ## On lists of characters -/

/-- The pieces between dots, one more than there are dots. -/
def splitDots : List Char → List (List Char)
  | [] => [[]]
  | c :: cs =>
    if c = separator then [] :: splitDots cs
    else match splitDots cs with
      | [] => [[c]]
      | piece :: pieces => (c :: piece) :: pieces

def joinDots (pieces : List (List Char)) : List Char := List.intercalate [separator] pieces

/-- What stands before each dot, shortest first. -/
def beforeDots : List Char → List (List Char)
  | [] => []
  | c :: cs =>
    let longer := (beforeDots cs).map (c :: ·)
    if c = separator then [] :: longer else longer

/-- Whether `cs` is `p` alone or `p` and a dot and anything. -/
def startsWithPath : (p cs : List Char) → Bool
  | [], [] => true
  | [], c :: _ => c == separator
  | _ :: _, [] => false
  | p :: ps, c :: cs => p == c && startsWithPath ps cs

/-! ## Keys -/

/-- The pieces of a text between its dots. -/
def pieces (s : String) : List String := (splitDots s.toList).map String.ofList

def segments (k : Key) : List String := pieces k.text

def ofSegments (segments : List String) : Key :=
  ⟨String.ofList (joinDots (segments.map String.toList))⟩

def depth (k : Key) : Nat := k.segments.length

/-- The keys above a key, shortest first: `a` and `a.b` for `a.b.c`. -/
def ancestors (k : Key) : List String := (beforeDots k.text.toList).map String.ofList

/-- Whether `path` names the key itself or a key above it. -/
def isAtOrBelow (k : Key) (path : String) : Bool := startsWithPath path.toList k.text.toList

end Key

end ConfigCompiler
