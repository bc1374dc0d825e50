/-!
# Stages of a compilation
-/

namespace ConfigCompiler

/-- The phase that a pass belongs to. -/
inductive Stage where
  | validate
  | expand
  | intern
  | index
  deriving DecidableEq, Repr

/-- How far a compilation has come. -/
inductive Phase where
  | idle
  | validating
  | expanding
  | interning
  | indexing
  | compiled
  | failed
  deriving DecidableEq, Repr

namespace Phase

def initial : Phase := idle

def ofStage : Stage → Phase
  | .validate => validating
  | .expand => expanding
  | .intern => interning
  | .index => indexing

def isTerminal : Phase → Bool
  | compiled => true
  | failed => true
  | _ => false

def name : Phase → String
  | idle => "Idle"
  | validating => "Validating"
  | expanding => "Expanding"
  | interning => "Interning"
  | indexing => "Indexing"
  | compiled => "Compiled"
  | failed => "Failed"

end Phase

/-- A change of state, with the pass that caused it; the last one has none. -/
structure Transition where
  before : Phase
  after : Phase
  pass? : Option String
  deriving DecidableEq, Repr

end ConfigCompiler
