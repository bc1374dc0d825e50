import ConfigCompiler.Digest.Blake3

/-!
# Digests

A digest names a content: it is the hash of the bytes that the content is encoded as
(`ConfigCompiler.Digest.Field`).
-/

namespace ConfigCompiler

structure Digest where
  bytes : Vector UInt8 32
  deriving DecidableEq

namespace Digest

def ofBytes (bytes : List UInt8) : Digest := ⟨Blake3.hash bytes⟩

def toBytes (d : Digest) : List UInt8 := d.bytes.toList

instance : Hashable Digest where
  hash d := (d.toBytes.take 8).foldl (fun h b => h * 256 + b.toUInt64) 7

instance : Inhabited Digest := ⟨⟨Vector.replicate 32 0⟩⟩

/-! ## Hexadecimal text -/

def hexDigit (n : Nat) : Char := Nat.digitChar n

def hexOf (bytes : List UInt8) : String :=
  String.ofList (bytes.flatMap fun b => [hexDigit (b.toNat / 16), hexDigit (b.toNat % 16)])

def toHex (d : Digest) : String := hexOf d.toBytes

/-- The first twelve digits, enough to tell digests apart by eye. -/
def short (d : Digest) : String := hexOf (d.toBytes.take 6)

/-- How inspected values show a digest. -/
def inspect (d : Digest) : String := "Digest(" ++ d.short ++ ")"

def hexValue? (c : Char) : Option Nat :=
  if '0' ≤ c ∧ c ≤ '9' then some (c.toNat - '0'.toNat)
  else if 'a' ≤ c ∧ c ≤ 'f' then some (c.toNat - 'a'.toNat + 10)
  else none

def bytesOfHex? : List Char → Option (List UInt8)
  | [] => some []
  | [_] => none
  | high :: low :: rest => do
    let h ← hexValue? high
    let l ← hexValue? low
    return UInt8.ofNat (16 * h + l) :: (← bytesOfHex? rest)

/-- Reads 64 lower-case hexadecimal digits. -/
def ofHex? (s : String) : Option Digest := do
  let bytes ← bytesOfHex? s.toList
  if h : bytes.length = 32 then some ⟨⟨bytes.toArray, by simpa using h⟩⟩ else none

end Digest

end ConfigCompiler
