/-!
# The BLAKE3 hash

The unkeyed hash of a byte list with 32 bytes of output: chunks of 1024 bytes are compressed block
by block, and their nodes are joined in a binary tree whose left branch is always a full power of
two of chunks.
-/

namespace ConfigCompiler.Blake3

/-! ## Compression -/

abbrev ChainingValue := Vector UInt32 8

abbrev Block := Vector UInt32 16

def initialValue : ChainingValue :=
  #v[0x6a09e667, 0xbb67ae85, 0x3c6ef372, 0xa54ff53a, 0x510e527f, 0x9b05688c, 0x1f83d9ab, 0x5be0cd19]

/-- Where each word of a permuted block comes from. -/
def permutation : Vector (Fin 16) 16 := #v[2, 6, 3, 10, 7, 0, 4, 13, 1, 11, 12, 5, 9, 14, 15, 8]

def rotateRight (x : UInt32) (n : UInt32) : UInt32 := (x >>> n) ||| (x <<< (32 - n))

/-- The quarter round on the words `a`, `b`, `c`, `d` of the state. -/
def mix (s : Block) (a b c d : Fin 16) (x y : UInt32) : Block :=
  let s := s.set a (s[a] + s[b] + x)
  let s := s.set d (rotateRight (s[d] ^^^ s[a]) 16)
  let s := s.set c (s[c] + s[d])
  let s := s.set b (rotateRight (s[b] ^^^ s[c]) 12)
  let s := s.set a (s[a] + s[b] + y)
  let s := s.set d (rotateRight (s[d] ^^^ s[a]) 8)
  let s := s.set c (s[c] + s[d])
  s.set b (rotateRight (s[b] ^^^ s[c]) 7)

/-- One round: the columns of the state, then its diagonals. -/
def mixAll (s m : Block) : Block :=
  let s := mix s 0 4 8 12 m[0] m[1]
  let s := mix s 1 5 9 13 m[2] m[3]
  let s := mix s 2 6 10 14 m[4] m[5]
  let s := mix s 3 7 11 15 m[6] m[7]
  let s := mix s 0 5 10 15 m[8] m[9]
  let s := mix s 1 6 11 12 m[10] m[11]
  let s := mix s 2 7 8 13 m[12] m[13]
  mix s 3 4 9 14 m[14] m[15]

def rounds : Nat → Block → Block → Block
  | 0, s, _ => s
  | n + 1, s, m => rounds n (mixAll s m) (Vector.ofFn fun i => m[permutation[i]])

/-- What a node of the tree compresses. -/
structure Node where
  chaining : ChainingValue
  block : Block
  counter : UInt64
  length : UInt32
  flags : UInt32

def chunkStart : UInt32 := 1

def chunkEnd : UInt32 := 2

def parentFlag : UInt32 := 4

def rootFlag : UInt32 := 8

def Node.compress (n : Node) : ChainingValue :=
  let v := initialValue
  let s : Block := n.chaining ++
    #v[v[0], v[1], v[2], v[3], n.counter.toUInt32, (n.counter >>> 32).toUInt32, n.length, n.flags]
  let s := rounds 7 s n.block
  Vector.ofFn fun i : Fin 8 => s[i.val] ^^^ s[i.val + 8]

/-! ## Chunks -/

/-- The list in pieces of `size`, the last one possibly shorter; one empty piece for the empty list. -/
def pieces {α : Type} (size : Nat) : (fuel : Nat) → List α → List (List α)
  | 0, xs => [xs]
  | fuel + 1, xs =>
    match xs.drop size with
    | [] => [xs]
    | rest => xs.take size :: pieces size fuel rest

/-- Sixteen little-endian words, zeros after the bytes. -/
def wordsOf (bytes : List UInt8) : Block :=
  let a := bytes.toArray
  let byte (i : Nat) : UInt32 := (a.getD i 0).toUInt32
  Vector.ofFn fun i =>
    byte (4 * i) ||| (byte (4 * i + 1) <<< 8) ||| (byte (4 * i + 2) <<< 16) |||
      (byte (4 * i + 3) <<< 24)

def blockNode (chaining : ChainingValue) (counter : UInt64) (flags : UInt32) (bytes : List UInt8) :
    Node :=
  ⟨chaining, wordsOf bytes, counter, UInt32.ofNat bytes.length, flags⟩

/-- The node of a chunk's last block, after the blocks before it. -/
def lastBlock (counter : UInt64) : ChainingValue → (flags : UInt32) → List (List UInt8) → Node
  | cv, flags, [] => blockNode cv counter (flags ||| chunkEnd) []
  | cv, flags, [bytes] => blockNode cv counter (flags ||| chunkEnd) bytes
  | cv, flags, bytes :: rest => lastBlock counter (blockNode cv counter flags bytes).compress 0 rest

def chunkNode (index : Nat) (bytes : List UInt8) : Node :=
  lastBlock (UInt64.ofNat index) initialValue chunkStart (pieces 64 bytes.length bytes)

/-! ## Tree -/

def parent (left right : Node) : Node :=
  ⟨initialValue, left.compress ++ right.compress, 0, 64, parentFlag⟩

/-- The node over a list of nodes; the left branch takes the largest power of two below their number. -/
def tree : (fuel : Nat) → (first : Node) → List Node → Node
  | _, n, [] => n
  | 0, n, _ => n
  | fuel + 1, n, rest =>
    let k := 1 <<< rest.length.log2
    match rest.drop (k - 1) with
    | [] => n
    | m :: right => parent (tree fuel n (rest.take (k - 1))) (tree fuel m right)

/-- The bytes of a word, the low one first. -/
def bytesOfWord (w : UInt32) (i : Nat) : UInt8 := (w >>> UInt32.ofNat (8 * i)).toUInt8

def hash (input : List UInt8) : Vector UInt8 32 :=
  let root := match (pieces 1024 input.length input).mapIdx chunkNode with
    | [] => chunkNode 0 []
    | n :: rest => tree rest.length n rest
  let words := { root with flags := root.flags ||| rootFlag }.compress
  Vector.ofFn fun i : Fin 32 => bytesOfWord words[i.val / 4] (i.val % 4)

end ConfigCompiler.Blake3
