import ConfigCompiler.Binary64.Layout
import ConfigCompiler.Cache.Capacity
import ConfigCompiler.Digest.Quantization
import ConfigCompiler.Expansion.Overrides

/-!
# Settings of a kernel

Every setting has a default. `Settings.check` says which settings a kernel refuses to start with.
-/

namespace ConfigCompiler

structure Settings where
  capacity : Capacity
  /-- The width of the buckets that floats are told apart by, if they are bucketed. -/
  epsilon? : Option Binary64
  passes : List String
  /-- Whether runs of passes are counted and reported. -/
  collectsStats : Bool
  /-- Pairs of patterns that may bind one key to different values. -/
  overridePairs : List (String × String)
  deriving DecidableEq

inductive SettingsError where
  /-- The text is no document, or the document holds no settings. -/
  | unreadable
  | invalidEpsilon (epsilon : Binary64)
  | zeroCapacity
  | emptyPassList
  deriving DecidableEq

def SettingsError.message : SettingsError → String
  | unreadable => "failed to parse kernel configuration"
  | invalidEpsilon epsilon =>
    "quantization epsilon " ++ Layout.message.write epsilon ++ " must be finite and positive"
  | zeroCapacity => "cache capacity must be non-zero"
  | emptyPassList => "pass list is empty"

namespace Settings

/-- The names of the passes that a configuration is compiled by unless others are set. -/
def defaultPasses : List String := ["validate", "expand", "intern", "index"]

def default : Settings where
  capacity := Capacity.default
  epsilon? := none
  passes := defaultPasses
  collectsStats := true
  overridePairs := []

/-- Whether a number can be the width of buckets. -/
def isWidth (x : Binary64) : Bool := x.isFinite && !x.isNegative && !x.isZero

/-- The first fault of the settings: the epsilon's, the capacity's, or that of the passes. -/
def check (s : Settings) : Except SettingsError Unit :=
  match s.epsilon?.filter (!isWidth ·) with
  | some epsilon => .error (.invalidEpsilon epsilon)
  | none =>
    if s.capacity.isZero then .error .zeroCapacity
    else if s.passes.isEmpty then .error .emptyPassList
    else .ok ()

def quantization (s : Settings) : Quantization := Quantization.ofEpsilon s.epsilon?

def overrides (s : Settings) : Overrides := Overrides.ofPairs s.overridePairs

end Settings

end ConfigCompiler
