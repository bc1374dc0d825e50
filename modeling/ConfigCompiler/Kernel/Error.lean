import ConfigCompiler.Pipeline.Run
import ConfigCompiler.Settings.Basic
import ConfigCompiler.View.Error

/-!
# Failures of a kernel
-/

namespace ConfigCompiler

inductive KernelError where
  | unknownPass (name : String)
  | duplicatePass (name : String)
  | unknownView (name : String)
  | duplicateView (name : String)
  | pipeline (failure : PassFailure)
  | view (name : String) (error : ViewError)
  | notCompiled (source : Digest)
  | waitTimedOut
  | integrity (error : IntegrityError)
  | settings (error : SettingsError)
  deriving DecidableEq

namespace KernelError

def message : KernelError → String
  | unknownPass name => "unknown pass " ++ Text.quoted name
  | duplicatePass name => "pass " ++ Text.quoted name ++ " registered or listed twice"
  | unknownView name => "unknown view " ++ Text.quoted name
  | duplicateView name => "view " ++ Text.quoted name ++ " registered twice"
  | pipeline failure =>
    "pass " ++ Text.quoted failure.pass ++ " at position " ++ toString failure.position ++
      " failed: " ++ failure.error.message
  | view name error => "view " ++ Text.quoted name ++ " failed: " ++ error.message
  | notCompiled source => "no compiled configuration cached for source " ++ source.toHex
  | waitTimedOut => "deadline passed while waiting for an in-flight compilation"
  | integrity error => error.message
  | settings error => error.message

/-- Whether trying again is pointless and the process needs attention. -/
def isFatal : KernelError → Bool
  | integrity _ => true
  | pipeline ⟨_, _, .integrity _⟩ => true
  | _ => false

end KernelError

end ConfigCompiler
