import ConfigCompiler.Hierarchy.Build

/-!
# Expanding patterns

`Expander.expand` lists the keys that a pattern stands for: an `@node` segment is replaced by each
descendant of the node, a wildcard by the children of the segment before it, or else by what was
observed after the same segments in the concrete keys of the configuration. A segment that nothing
can replace makes the pattern ambiguous, so an expansion is never empty.
-/

namespace ConfigCompiler

/-- Why nothing can replace a segment. -/
inductive AmbiguityReason where
  | unknownNode
  | childlessNode
  | noCandidates
  deriving DecidableEq, Repr

inductive ExpandError where
  | ambiguousPattern (pattern segment : String) (reason : AmbiguityReason)
  | patternConflict (key first second : String)
  | malformed (error : PatternError)
  deriving DecidableEq, Repr

def AmbiguityReason.message : AmbiguityReason → String
  | unknownNode => "unknown hierarchy node"
  | childlessNode => "hierarchy node has no children"
  | noCandidates => "wildcard matches no hierarchy children or observed keys"

def ExpandError.message : ExpandError → String
  | ambiguousPattern pattern segment reason =>
    "ambiguous pattern " ++ Text.quoted pattern ++ " at segment " ++ Text.quoted segment ++ ": " ++
      reason.message
  | patternConflict key first second =>
    "patterns " ++ Text.quoted first ++ " and " ++ Text.quoted second ++ " both produce " ++
      Text.quoted key ++ " with different values"
  | malformed error => error.message

/-- What patterns are expanded against. -/
structure Expander where
  hierarchy : Hierarchy
  /-- The segments of the concrete keys of the configuration, in their order. -/
  observed : List (List String)

namespace Expander

/-- Whether a segment of a key is a plain literal. -/
def isPlainSegment (segment : String) : Bool :=
  match segment.toList with
  | [] => false
  | c :: cs => c != Segment.sigil && !(c :: cs).contains Segment.wildcardChar

/-- An expander over the root keys of a configuration; only the concrete ones are observed. -/
def ofKeys (hierarchy : Hierarchy) (keys : List String) : Expander where
  hierarchy := hierarchy
  observed := (keys.map Key.pieces).filter (·.all isPlainSegment)

/-- The segment that follows `path` in `segments`. -/
def next? : (path segments : List String) → Option String
  | [], s :: _ => some s
  | p :: path, s :: segments => if p = s then next? path segments else none
  | _, [] => none

/-- What was observed after the segments of `path`, each segment once. -/
def siblings (x : Expander) (path : List String) : List String :=
  (x.observed.filterMap (next? path)).eraseDups

/-- What a segment may be replaced by after the segments of `path`. -/
def substitutions (x : Expander) (path : List String) :
    Segment → Except AmbiguityReason (List String)
  | .literal s => .ok [s]
  | .node name => match x.hierarchy.descendants? name with
    | none => .error .unknownNode
    | some [] => .error .childlessNode
    | some ids => .ok ids
  | .wildcard =>
    match path.getLast?.bind x.hierarchy.children? with
    | some (kid :: kids) => .ok (kid :: kids)
    | children => match x.siblings path with
      | s :: others => .ok (s :: others)
      | [] => .error (if children.isSome then .childlessNode else .noCandidates)

/-- The paths that extend each of `paths` by a segment; the first one that cannot be extended fails. -/
def extend (x : Expander) (segment : Segment) : List (List String) →
    Except AmbiguityReason (List (List String))
  | [] => .ok []
  | path :: paths => do
    let here ← x.substitutions path segment
    return here.map (path ++ [·]) ++ (← x.extend segment paths)

/-- The paths that the segments stand for after each of `paths`. -/
def paths (x : Expander) (pattern : Pattern) : List (List String) → List Segment →
    Except ExpandError (List (List String))
  | paths, [] => .ok paths
  | paths, segment :: segments =>
    match x.extend segment paths with
    | .error reason => .error (.ambiguousPattern pattern.text segment.text reason)
    | .ok longer => x.paths pattern longer.eraseDups segments

/-- The keys that a pattern stands for, each once and in ascending order. -/
def expand (x : Expander) (pattern : Pattern) : Except ExpandError (List Key) := do
  let paths ← x.paths pattern [[]] pattern.segments
  return (paths.map Key.ofSegments).mergeSort fun a b => decide (a ≤ b)

/-- Expands the pattern that a text denotes. -/
def expandText (x : Expander) (text : String) : Except ExpandError (List Key) := do
  x.expand (← (Pattern.parse text).mapError .malformed)

end Expander

end ConfigCompiler
