import ConfigCompiler.Text.Quoted

/-!
# Failures of views
-/

namespace ConfigCompiler

inductive ViewError where
  | missingParam (name : String)
  | invalidParam (name expected got : String)
  | custom (text : String)
  deriving DecidableEq, Repr

def ViewError.message : ViewError → String
  | missingParam name => "missing parameter " ++ Text.quoted name
  | invalidParam name expected got =>
    "parameter " ++ Text.quoted name ++ " must be " ++ expected ++ ", got " ++ got
  | custom text => text

end ConfigCompiler
