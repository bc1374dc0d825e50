import ConfigCompiler.Binary64.Basic

/-!
# Quantization of floats

A policy says how finely floats are told apart: by their bits, or by the bucket of width epsilon
that they round to. No epsilon is refused here; one that cannot bucket a number leaves it to its
bits.
-/

namespace ConfigCompiler

inductive Quantization where
  | disabled
  | epsilon (width : Binary64)
  deriving DecidableEq, Repr

namespace Quantization

def ofEpsilon : Option Binary64 → Quantization
  | none => disabled
  | some width => epsilon width

def epsilon? : Quantization → Option Binary64
  | disabled => none
  | epsilon width => some width

/-- Buckets are kept below this magnitude. -/
def bucketLimit : Nat := 1 <<< 62

/-- The bucket of `x` and the width that it is counted in; `none` where floats go by their bits. -/
def bucket? (q : Quantization) (x : Binary64) : Option (Binary64 × Int64) :=
  match q with
  | disabled => none
  | epsilon width =>
    let scaled := x.div width
    if x.isFinite && scaled.isFinite && scaled.round.natAbs < bucketLimit then
      some (width, Int64.ofInt scaled.round)
    else none

/-- The number that stands for all those of the bucket of `x`. -/
def apply (q : Quantization) (x : Binary64) : Binary64 :=
  match q.bucket? x with
  | some (width, bucket) => ((Binary64.ofInt bucket.toInt).mul width).normalize
  | none => x.normalize

end Quantization

end ConfigCompiler
