import ConfigCompiler.Key.Basic
import ConfigCompiler.Text.Quoted

/-!
# Patterns

A pattern is a dotted text in which a segment may be `*`, for any sibling, or `@node`, for every
descendant of a node of the hierarchy. Nothing is lost in parsing: the text of a pattern is the join
of the texts of its segments.
-/

namespace ConfigCompiler

inductive Segment where
  | literal (text : String)
  | wildcard
  | node (name : String)
  deriving DecidableEq, Repr

namespace Segment

def wildcardChar : Char := '*'

/-- What a segment that names a node starts with. -/
def sigil : Char := '@'

def text : Segment → String
  | literal s => s
  | wildcard => String.singleton wildcardChar
  | node name => String.ofList (sigil :: name.toList)

def isLiteral : Segment → Bool
  | literal _ => true
  | _ => false

end Segment

inductive PatternError where
  | emptySegment (pattern : String) (position : Nat)
  | partialWildcard (pattern segment : String)
  | emptyHierarchyToken (pattern : String) (position : Nat)
  deriving DecidableEq, Repr

namespace PatternError

def message : PatternError → String
  | emptySegment pattern position =>
    "pattern " ++ Text.quoted pattern ++ " has an empty segment at position " ++ toString position
  | partialWildcard pattern segment =>
    "pattern " ++ Text.quoted pattern ++ " has a partial wildcard in segment " ++ Text.quoted segment
  | emptyHierarchyToken pattern position =>
    "pattern " ++ Text.quoted pattern ++
      " has a hierarchy token without a node name at position " ++ toString position

end PatternError

structure Pattern where
  segments : List Segment
  deriving DecidableEq, Repr

namespace Pattern

/-- The segment that a piece of a pattern's text stands for. -/
def parseSegment (pattern : String) (position : Nat) (piece : String) :
    Except PatternError Segment :=
  match piece.toList with
  | [] => .error (.emptySegment pattern position)
  | c :: cs =>
    if c = Segment.wildcardChar ∧ cs = [] then .ok .wildcard
    else if Segment.wildcardChar ∈ c :: cs then .error (.partialWildcard pattern piece)
    else if c = Segment.sigil then
      if cs = [] then .error (.emptyHierarchyToken pattern position)
      else .ok (.node (String.ofList cs))
    else .ok (.literal piece)

/-- The segments of the pieces from `position` on; the leftmost bad piece decides the error. -/
def parsePieces (pattern : String) : (position : Nat) → List String → Except PatternError (List Segment)
  | _, [] => .ok []
  | position, piece :: pieces => do
    let segment ← parseSegment pattern position piece
    return segment :: (← parsePieces pattern (position + 1) pieces)

def parse (s : String) : Except PatternError Pattern := do
  return ⟨← parsePieces s 0 (Key.pieces s)⟩

def text (p : Pattern) : String := (Key.ofSegments (p.segments.map Segment.text)).text

/-- A pattern of literals only names one key. -/
def isConcrete (p : Pattern) : Bool := p.segments.all Segment.isLiteral

/-- The number of literal segments; where patterns overlap, the more specific one wins. -/
def specificity (p : Pattern) : Nat := p.segments.countP Segment.isLiteral

end Pattern

end ConfigCompiler
