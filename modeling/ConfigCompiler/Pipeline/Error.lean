import ConfigCompiler.Expansion.Basic
import ConfigCompiler.Interner.Store

/-!
# Failures of passes
-/

namespace ConfigCompiler

/-- A raw configuration has the wrong shape at a path. -/
structure ValidationError where
  path : String
  reason : String
  deriving DecidableEq, Repr

def ValidationError.message (e : ValidationError) : String :=
  "invalid configuration at " ++ e.path ++ ": " ++ e.reason

inductive PassError where
  | validation (error : ValidationError)
  | expand (error : ExpandError)
  | integrity (error : IntegrityError)
  /-- The pass whose output is needed has not run. -/
  | missingInput (requires : String)
  /-- The pass without which nothing can be published has not run. -/
  | incomplete (missing : String)
  | custom (text : String)
  deriving DecidableEq

def PassError.message : PassError → String
  | validation error => error.message
  | expand error => error.message
  | integrity error => error.message
  | missingInput requires =>
    "requires the output of pass " ++ Text.quoted requires ++ ", which has not run"
  | incomplete missing => "pipeline finished without running " ++ Text.quoted missing
  | custom text => text

end ConfigCompiler
