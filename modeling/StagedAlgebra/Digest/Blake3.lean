/-!
# The hash function

The 256-bit hash function BLAKE3 on lists of bytes. A text of bytes is cut into chunks of 1024
bytes and each chunk into blocks of 64; the chunks are the leaves of a binary tree whose left
subtrees are as large as complete trees can be. A block is compressed with a chaining value of
eight words, a counter and flags that say where in the tree the block stands.

## Implementation notes

The last compression of every subtree is left open, as a `Node`, because only the root of the
whole tree is compressed with the root flag.
-/

namespace StagedAlgebra.Blake3

/-- Sixteen words: a block, or the state of a compression. -/
abbrev Words := Vector UInt32 16

/-- The words that every chunk starts with. -/
def initial : List UInt32 :=
  [0x6A09E667, 0xBB67AE85, 0x3C6EF372, 0xA54FF53A, 0x510E527F, 0x9B05688C, 0x1F83D9AB, 0x5BE0CD19]

/-- The order in which the words of a block are taken in the next round. -/
def schedule : Vector (Fin 16) 16 :=
  #v[2, 6, 3, 10, 7, 0, 4, 13, 1, 11, 12, 5, 9, 14, 15, 8]

/-- The flag of the first block of a chunk. -/
def chunkStart : UInt32 := 1

/-- The flag of the last block of a chunk. -/
def chunkEnd : UInt32 := 2

/-- The flag of a block that joins two subtrees. -/
def parent : UInt32 := 4

/-- The flag of the last compression of all. -/
def root : UInt32 := 8

/-- A word rotated to the right. -/
def rotate (x : UInt32) (n : UInt32) : UInt32 :=
  (x >>> n) ||| (x <<< (32 - n))

/-- Mixes two words of a block into four words of the state. -/
def mix (v : Words) (a b c d : Fin 16) (x y : UInt32) : Words :=
  let v := v.set a (v[a] + v[b] + x)
  let v := v.set d (rotate (v[d] ^^^ v[a]) 16)
  let v := v.set c (v[c] + v[d])
  let v := v.set b (rotate (v[b] ^^^ v[c]) 12)
  let v := v.set a (v[a] + v[b] + y)
  let v := v.set d (rotate (v[d] ^^^ v[a]) 8)
  let v := v.set c (v[c] + v[d])
  v.set b (rotate (v[b] ^^^ v[c]) 7)

/-- Mixes a whole block into the state, first down the columns and then along the diagonals. -/
def round (m : Words) (v : Words) : Words :=
  let v := mix v 0 4 8 12 m[0] m[1]
  let v := mix v 1 5 9 13 m[2] m[3]
  let v := mix v 2 6 10 14 m[4] m[5]
  let v := mix v 3 7 11 15 m[6] m[7]
  let v := mix v 0 5 10 15 m[8] m[9]
  let v := mix v 1 6 11 12 m[10] m[11]
  let v := mix v 2 7 8 13 m[12] m[13]
  mix v 3 4 9 14 m[14] m[15]

/-- A number of rounds, with the words of the block reordered in between. -/
def rounds : Nat → Words → Words → Words
  | 0, _, v => v
  | n + 1, m, v => rounds n (schedule.map fun i => m[i]) (round m v)

/-- Sixteen words from a list, zero where it is too short. -/
def wordsOf (words : List UInt32) : Words :=
  Vector.ofFn fun i => words.getD i.val 0

/-- The last compression of a subtree, not yet done. -/
structure Node where
  /-- The chaining value. -/
  chaining : List UInt32
  /-- The block. -/
  block : Words
  /-- The number of the chunk, or zero where subtrees are joined. -/
  counter : Nat
  /-- The number of bytes of the block. -/
  length : Nat
  /-- Where the block stands. -/
  flags : UInt32

/-- Compresses a block to eight words. -/
def Node.compress (n : Node) (flag : UInt32) : List UInt32 :=
  let v := wordsOf (n.chaining ++ initial.take 4 ++
    [UInt32.ofNat n.counter, UInt32.ofNat (n.counter / 4294967296), UInt32.ofNat n.length,
      n.flags ||| flag])
  let w := (rounds 7 n.block v).toList
  List.zipWith (· ^^^ ·) (w.take 8) (w.drop 8)

theorem Node.length_compress (n : Node) (flag : UInt32) : (n.compress flag).length = 8 := by
  simp [compress]

/-- The number that four bytes write, the smallest first. -/
def littleEndian (bytes : List UInt8) : UInt32 :=
  bytes.foldr (fun b acc => (acc <<< 8) ||| b.toUInt32) 0

/-- The words of a block of bytes. -/
def blockWords (bytes : List UInt8) : Words :=
  Vector.ofFn fun i => littleEndian ((bytes.drop (4 * i.val)).take 4)

/-- The open compression of a chunk of at most `blocks` blocks, from the chaining value on. -/
def chunkFrom (counter : Nat) : (blocks : Nat) → List UInt32 → UInt32 → List UInt8 → Node
  | 0, chaining, flag, bytes =>
    ⟨chaining, blockWords bytes, counter, bytes.length, flag ||| chunkEnd⟩
  | blocks + 1, chaining, flag, bytes =>
    if bytes.length ≤ 64 then ⟨chaining, blockWords bytes, counter, bytes.length, flag ||| chunkEnd⟩
    else
      let node : Node := ⟨chaining, blockWords (bytes.take 64), counter, 64, flag⟩
      chunkFrom counter blocks (node.compress 0) 0 (bytes.drop 64)

/-- The open compression of a chunk. -/
def chunk (counter : Nat) (bytes : List UInt8) : Node :=
  chunkFrom counter 15 initial chunkStart bytes

/-- The size of the left subtree of `n` bytes, for more than one chunk. -/
def leftSize (n : Nat) : Nat :=
  Nat.pow 2 ((n - 1) / 1024).log2 * 1024

/-- The left subtree is a proper part, and so is the right one. -/
theorem leftSize_bounds {n : Nat} (h : 1024 < n) : 0 < leftSize n ∧ leftSize n < n := by
  have hq : (n - 1) / 1024 ≠ 0 := by omega
  have hle := Nat.log2_self_le hq
  have hpos : 0 < 2 ^ ((n - 1) / 1024).log2 := Nat.two_pow_pos _
  simp only [leftSize, Nat.pow_eq]
  constructor
  · omega
  · omega

/-- The open compression of a subtree whose first chunk has a given number. -/
def tree (counter : Nat) (bytes : List UInt8) : Node :=
  if _ : bytes.length ≤ 1024 then chunk counter bytes
  else
    let size := leftSize bytes.length
    let left := tree counter (bytes.take size)
    let right := tree (counter + size / 1024) (bytes.drop size)
    ⟨initial, wordsOf (left.compress 0 ++ right.compress 0), 0, 64, parent⟩
termination_by bytes.length
decreasing_by
  · have hb := @leftSize_bounds bytes.length (by omega)
    simp only [List.length_take]
    omega
  · have hb := @leftSize_bounds bytes.length (by omega)
    simp only [List.length_drop]
    omega

/-- The four bytes of a word, the smallest first. -/
def wordBytes (w : UInt32) : List UInt8 :=
  [w.toUInt8, (w >>> 8).toUInt8, (w >>> 16).toUInt8, (w >>> 24).toUInt8]

/-- The hash of a list of bytes, thirty-two bytes long. -/
def hash (bytes : List UInt8) : List UInt8 :=
  ((tree 0 bytes).compress root).flatMap wordBytes

theorem length_hash (bytes : List UInt8) : (hash bytes).length = 32 := by
  have word (w : UInt32) : (wordBytes w).length = 4 := rfl
  simp only [hash, List.length_flatMap, word, List.map_const', List.sum_replicate_nat,
    Node.length_compress]

end StagedAlgebra.Blake3
