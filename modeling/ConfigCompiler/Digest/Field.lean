import ConfigCompiler.Digest.Basic
import ConfigCompiler.Digest.Quantization

/-!
# The encoding under every digest

What is hashed is a domain followed by fields. Each field starts with a tag, and those of varying
size carry their length, so that the bytes can be read back in one way only.
-/

namespace ConfigCompiler.Digest

/-! ## Bytes of the parts -/

/-- The eight bytes of a word, the low one first. -/
def wordBytes (w : UInt64) : List UInt8 :=
  (List.range 8).map fun i => (w >>> UInt64.ofNat (8 * i)).toUInt8

def lengthBytes (n : Nat) : List UInt8 := wordBytes (UInt64.ofNat n)

def textBytes (s : String) : List UInt8 :=
  lengthBytes s.utf8ByteSize ++ s.toUTF8.toList

/-! ## Fields -/

/-- One write into a digest. -/
inductive Field where
  | null
  | absent
  | bool (b : Bool)
  | int (i : Int64)
  | word (w : UInt64)
  | float (x : Binary64) (q : Quantization)
  | text (s : String)
  | digest (d : Digest)
  | digest? (d : Option Digest)
  | quantization (q : Quantization)
  | seqHeader (length : Nat)
  | mapHeader (length : Nat)
  deriving DecidableEq

namespace Field

/-- A float by its bits, one spelling for each number. -/
def floatBits (x : Binary64) : List UInt8 := 0x03 :: wordBytes x.normalize.bits

def absentBytes : List UInt8 := [0x0b]

def digestBytes (d : Digest) : List UInt8 := 0x08 :: d.toBytes

def bytes : Field → List UInt8
  | null => [0x00]
  | bool b => [0x01, if b then 1 else 0]
  | int i => 0x02 :: wordBytes i.toUInt64
  | float x q =>
    match q.bucket? x with
    | some (width, bucket) => 0x04 :: wordBytes width.bits ++ wordBytes bucket.toUInt64
    | none => floatBits x
  | text s => 0x05 :: textBytes s
  | seqHeader n => 0x06 :: lengthBytes n
  | mapHeader n => 0x07 :: lengthBytes n
  | digest d => digestBytes d
  | word w => 0x09 :: wordBytes w
  | absent => absentBytes
  | digest? (some d) => digestBytes d
  | digest? none => absentBytes
  | quantization .disabled => absentBytes
  | quantization (.epsilon width) => floatBits width

end Field

/-! ## Digests of fields -/

/-- The bytes that stand for the fields in a domain. -/
def encode (domain : String) (fields : List Field) : List UInt8 :=
  0x0a :: textBytes domain ++ fields.flatMap Field.bytes

def ofFields (domain : String) (fields : List Field) : Digest := ofBytes (encode domain fields)

end ConfigCompiler.Digest
