/-!
# BLAKE3 — a hash of 256 bits

The input is cut into chunks of 1024 bytes, each chunk into blocks of 64. A
block is mixed into the chaining value of its chunk, and the chaining values
of the chunks are joined in a binary tree. What is written out is the value
at the root.
-/

namespace ModuleAssets.Blake3

/-- Eight words: a chaining value. -/
abbrev Chain := Vector UInt32 8

/-- Sixteen words: a block, or the state of a compression. -/
abbrev Block := Vector UInt32 16

/-- The chaining value every chunk starts from. -/
def initial : Chain :=
  #v[0x6A09E667, 0xBB67AE85, 0x3C6EF372, 0xA54FF53A, 0x510E527F, 0x9B05688C, 0x1F83D9AB, 0x5BE0CD19]

/-- Marks the first block of a chunk. -/
def chunkStart : UInt32 := 1

/-- Marks the last block of a chunk. -/
def chunkEnd : UInt32 := 2

/-- Marks a block that joins two chaining values. -/
def parentMark : UInt32 := 4

/-- Marks the block at the root. -/
def rootMark : UInt32 := 8

/-- Rotates a word to the right. -/
def rotate (x n : UInt32) : UInt32 :=
  (x >>> n) ||| (x <<< (32 - n))

/-- Mixes two words of the block into four words of the state. -/
def mix (s : Block) (a b c d : Fin 16) (x y : UInt32) : Block :=
  let s := s.set a (s[a] + s[b] + x)
  let s := s.set d (rotate (s[d] ^^^ s[a]) 16)
  let s := s.set c (s[c] + s[d])
  let s := s.set b (rotate (s[b] ^^^ s[c]) 12)
  let s := s.set a (s[a] + s[b] + y)
  let s := s.set d (rotate (s[d] ^^^ s[a]) 8)
  let s := s.set c (s[c] + s[d])
  s.set b (rotate (s[b] ^^^ s[c]) 7)

/-- One round: the columns of the state, then its diagonals. -/
def round (s m : Block) : Block :=
  let s := mix s 0 4 8 12 m[0] m[1]
  let s := mix s 1 5 9 13 m[2] m[3]
  let s := mix s 2 6 10 14 m[4] m[5]
  let s := mix s 3 7 11 15 m[6] m[7]
  let s := mix s 0 5 10 15 m[8] m[9]
  let s := mix s 1 6 11 12 m[10] m[11]
  let s := mix s 2 7 8 13 m[12] m[13]
  mix s 3 4 9 14 m[14] m[15]

/-- The order of the block's words in the next round. -/
def permute (m : Block) : Block :=
  #v[m[2], m[6], m[3], m[10], m[7], m[0], m[4], m[13],
    m[1], m[11], m[12], m[5], m[9], m[14], m[15], m[8]]

/-- The given number of rounds. -/
def rounds : Nat → Block → Block → Block
  | 0, s, _ => s
  | n + 1, s, m => rounds n (round s m) (permute m)

/-- A compression that is still to be done, so that the root can be marked. -/
structure Pending where
  chain : Chain
  block : Block
  counter : UInt64
  length : UInt32
  marks : UInt32

/-- Carries a compression out. -/
def Pending.compress (p : Pending) (marks : UInt32) : Chain :=
  let s : Block :=
    #v[p.chain[0], p.chain[1], p.chain[2], p.chain[3], p.chain[4], p.chain[5], p.chain[6],
      p.chain[7], initial[0], initial[1], initial[2], initial[3], p.counter.toUInt32,
      (p.counter >>> 32).toUInt32, p.length, p.marks ||| marks]
  let s := rounds 7 s p.block
  #v[s[0] ^^^ s[8], s[1] ^^^ s[9], s[2] ^^^ s[10], s[3] ^^^ s[11],
    s[4] ^^^ s[12], s[5] ^^^ s[13], s[6] ^^^ s[14], s[7] ^^^ s[15]]

/-- Four bytes as a word, the least one first. Missing bytes are zero. -/
def word (bytes : List UInt8) : UInt32 :=
  (bytes.take 4).foldr (fun b w => (w <<< 8) ||| b.toUInt32) 0

/-- The words of at most 64 bytes. -/
def blockOf (bytes : List UInt8) : Block :=
  Vector.ofFn fun i => word (bytes.drop (4 * i.val))

/-- The last compression of a chunk, after those of its earlier blocks. -/
def chunk (counter : UInt64) : Nat → Chain → UInt32 → List UInt8 → Pending
  | 0, chain, marks, bytes =>
    ⟨chain, blockOf bytes, counter, UInt32.ofNat bytes.length, marks ||| chunkEnd⟩
  | more + 1, chain, marks, bytes =>
    if bytes.length ≤ 64 then
      ⟨chain, blockOf bytes, counter, UInt32.ofNat bytes.length, marks ||| chunkEnd⟩
    else
      let first : Pending := ⟨chain, blockOf (bytes.take 64), counter, 64, marks⟩
      chunk counter more (first.compress 0) 0 (bytes.drop 64)

/-- The last compression over a run of chunks, the first of which has the
number `counter`. The left part has the most chunks a power of two allows. -/
def tree : Nat → Nat → List UInt8 → Pending
  | 0, counter, bytes => chunk (UInt64.ofNat counter) 16 initial chunkStart bytes
  | depth + 1, counter, bytes =>
    if bytes.length ≤ 1024 then chunk (UInt64.ofNat counter) 16 initial chunkStart bytes
    else
      let chunks := Nat.pow 2 ((bytes.length - 1) / 1024).log2
      let left := (tree depth counter (bytes.take (1024 * chunks))).compress 0
      let right := (tree depth (counter + chunks) (bytes.drop (1024 * chunks))).compress 0
      ⟨initial, left ++ right, 0, 64, parentMark⟩

/-- The bytes of a word, the least one first. -/
def wordBytes (w : UInt32) : List UInt8 :=
  [w.toUInt8, (w >>> 8).toUInt8, (w >>> 16).toUInt8, (w >>> 24).toUInt8]

/-- The hash of some bytes. -/
def hash (bytes : List UInt8) : List UInt8 :=
  ((tree bytes.length 0 bytes).compress rootMark).toList.flatMap wordBytes

/-- A byte as two hexadecimal digits in lower case. -/
def byteHex (b : UInt8) : List Char :=
  let digits := Nat.toDigits 16 b.toNat
  if digits.length < 2 then '0' :: digits else digits

/-- The hash in hexadecimal digits. -/
def hexHash (bytes : List UInt8) : String :=
  String.ofList ((hash bytes).flatMap byteHex)

end ModuleAssets.Blake3
