import ByteTrie.Digest.Basic

/-!
# BLAKE3

The message is cut into chunks of 1024 bytes and each chunk into blocks of 64 bytes.  The blocks of
a chunk are compressed one after the other into a chaining value of eight words; the chaining
values are the leaves of a binary tree whose left subtrees are as large as a power of two allows.
The last compression of the whole message is marked and gives the digest.
-/

namespace ByteTrie

namespace Blake3

abbrev Words := Vector UInt32 16

abbrev ChainingValue := Vector UInt32 8

def iv : ChainingValue :=
  #v[0x6a09e667, 0xbb67ae85, 0x3c6ef372, 0xa54ff53a, 0x510e527f, 0x9b05688c, 0x1f83d9ab, 0x5be0cd19]

def chunkStart : UInt32 := 1

def chunkEnd : UInt32 := 2

def parent : UInt32 := 4

def root : UInt32 := 8

def blockSize : Nat := 64

def chunkSize : Nat := 1024

/-! ## Compression -/

def rotateRight (x : UInt32) (n : UInt32) : UInt32 := (x >>> n) ||| (x <<< (32 - n))

/-- Mixes two message words into a column or a diagonal of the state. -/
def mix (s : Words) (a b c d : Fin 16) (x y : UInt32) : Words :=
  let a1 := s[a] + s[b] + x
  let d1 := rotateRight (s[d] ^^^ a1) 16
  let c1 := s[c] + d1
  let b1 := rotateRight (s[b] ^^^ c1) 12
  let a2 := a1 + b1 + y
  let d2 := rotateRight (d1 ^^^ a2) 8
  let c2 := c1 + d2
  let b2 := rotateRight (b1 ^^^ c2) 7
  (((s.set a a2).set b b2).set c c2).set d d2

def round (s m : Words) : Words :=
  let s := mix s 0 4 8 12 m[0] m[1]
  let s := mix s 1 5 9 13 m[2] m[3]
  let s := mix s 2 6 10 14 m[4] m[5]
  let s := mix s 3 7 11 15 m[6] m[7]
  let s := mix s 0 5 10 15 m[8] m[9]
  let s := mix s 1 6 11 12 m[10] m[11]
  let s := mix s 2 7 8 13 m[12] m[13]
  mix s 3 4 9 14 m[14] m[15]

/-- The order of the message words in the next round. -/
def permute (m : Words) : Words :=
  #v[m[2], m[6], m[3], m[10], m[7], m[0], m[4], m[13],
    m[1], m[11], m[12], m[5], m[9], m[14], m[15], m[8]]

def rounds : Nat → Words → Words → Words
  | 0, s, _ => s
  | n + 1, s, m => rounds n (round s m) (permute m)

/-- What one compression takes besides the chaining value. -/
structure Block where
  words : Words
  counter : UInt64
  size : UInt32
  flags : UInt32

def compress (cv : ChainingValue) (b : Block) : ChainingValue :=
  let s := rounds 7
    #v[cv[0], cv[1], cv[2], cv[3], cv[4], cv[5], cv[6], cv[7], iv[0], iv[1], iv[2], iv[3],
      b.counter.toUInt32, (b.counter >>> 32).toUInt32, b.size, b.flags] b.words
  #v[s[0] ^^^ s[8], s[1] ^^^ s[9], s[2] ^^^ s[10], s[3] ^^^ s[11], s[4] ^^^ s[12], s[5] ^^^ s[13],
    s[6] ^^^ s[14], s[7] ^^^ s[15]]

/-! ## Blocks -/

/-- The words of at most 64 bytes, four bytes each with the least significant one first, and zeros
after them. -/
def wordsOf (bs : List UInt8) : Words :=
  let data := bs.toArray
  let byte (i : Nat) : UInt32 := (data.getD i 0).toUInt32
  Vector.ofFn fun (i : Fin 16) =>
    let j := 4 * i.val
    byte j ||| (byte (j + 1) <<< 8) ||| (byte (j + 2) <<< 16) ||| (byte (j + 3) <<< 24)

/-- Pieces of `n + 1` bytes, the last one shorter; one empty piece for no bytes. -/
def pieces (n : Nat) (bs : List UInt8) : List (List UInt8) :=
  if bs.length ≤ n + 1 then [bs] else bs.take (n + 1) :: pieces n (bs.drop (n + 1))
termination_by bs.length

/-- A chaining value and the block whose compression ends a subtree. -/
structure Pending where
  cv : ChainingValue
  block : Block

def Pending.value (p : Pending) : ChainingValue := compress p.cv p.block

/-! ## Chunks and tree -/

/-- Compresses all blocks of a chunk but the last. -/
def chunkFrom (counter : UInt64) (flags : UInt32) (cv : ChainingValue) :
    List (List UInt8) → Pending
  | [] => ⟨cv, ⟨wordsOf [], counter, 0, flags ||| chunkEnd⟩⟩
  | [bs] => ⟨cv, ⟨wordsOf bs, counter, bs.length.toUInt32, flags ||| chunkEnd⟩⟩
  | bs :: rest =>
    chunkFrom counter 0 (compress cv ⟨wordsOf bs, counter, bs.length.toUInt32, flags⟩) rest

def chunk (counter : UInt64) (bs : List UInt8) : Pending :=
  chunkFrom counter chunkStart iv (pieces (blockSize - 1) bs)

def parentOf (left right : ChainingValue) : Pending :=
  ⟨iv, ⟨left ++ right, 0, blockSize.toUInt32, parent⟩⟩

/-- The greatest power of two below `n`, for `n` at least 2. -/
def leftSize (n : Nat) : Nat := Nat.pow 2 (n - 1).log2

/-- The tree over chunks, the first of which has the given counter, in at most `depth` levels. -/
def tree : (depth : Nat) → Nat → List (List UInt8) → Pending
  | _, counter, [] => chunk counter.toUInt64 []
  | _, counter, [bs] => chunk counter.toUInt64 bs
  | 0, counter, bs :: _ => chunk counter.toUInt64 bs
  | depth + 1, counter, chunks =>
    let n := leftSize chunks.length
    let (left, right) := chunks.splitAt n
    parentOf (tree depth counter left).value (tree depth (counter + n) right).value

/-! ## Digest -/

def byteOf (ws : ChainingValue) (i : Fin 32) : UInt8 :=
  (ws[i.val / 4] >>> (8 * (i.val % 4)).toUInt32).toUInt8

def hash (message : List UInt8) : Digest :=
  let chunks := pieces (chunkSize - 1) message
  let last := tree chunks.length 0 chunks
  let ws := compress last.cv { last.block with flags := last.block.flags ||| root }
  ⟨Vector.ofFn (byteOf ws)⟩

end Blake3

end ByteTrie
