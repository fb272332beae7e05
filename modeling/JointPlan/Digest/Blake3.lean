/-!
# BLAKE3 digests

The 256-bit BLAKE3 digest of a sequence of bytes. The bytes are cut into chunks
of 1024 and these into blocks of 64. The blocks of a chunk are chained; the
chunks are the leaves of a binary tree whose left subtrees are complete. The
last compression carries the root flag.
-/

namespace JointPlan.Blake3

abbrev Words (n : Nat) := Vector UInt32 n

-- ---------------------------------------------------------------------------
-- Compression
-- ---------------------------------------------------------------------------

def iv : Words 8 :=
  #v[0x6A09E667, 0xBB67AE85, 0x3C6EF372, 0xA54FF53A, 0x510E527F, 0x9B05688C, 0x1F83D9AB, 0x5BE0CD19]

/-- How the message words are reordered between two rounds. -/
def permutation : Vector (Fin 16) 16 := #v[2, 6, 3, 10, 7, 0, 4, 13, 1, 11, 12, 5, 9, 14, 15, 8]

def permute (m : Words 16) : Words 16 := permutation.map fun i => m[i]

def rotr (x : UInt32) (n : UInt32) : UInt32 := (x >>> n) ||| (x <<< (32 - n))

/-- Mix two message words into four words of the state. -/
def mix (s : Words 16) (a b c d : Fin 16) (x y : UInt32) : Words 16 :=
  let va := s[a] + s[b] + x
  let vd := rotr (s[d] ^^^ va) 16
  let vc := s[c] + vd
  let vb := rotr (s[b] ^^^ vc) 12
  let va := va + vb + y
  let vd := rotr (vd ^^^ va) 8
  let vc := vc + vd
  let vb := rotr (vb ^^^ vc) 7
  (((s.set a va).set b vb).set c vc).set d vd

/-- Mix the columns of the state, then its diagonals. -/
def round (s m : Words 16) : Words 16 :=
  let s := mix s 0 4 8 12 m[0] m[1]
  let s := mix s 1 5 9 13 m[2] m[3]
  let s := mix s 2 6 10 14 m[4] m[5]
  let s := mix s 3 7 11 15 m[6] m[7]
  let s := mix s 0 5 10 15 m[8] m[9]
  let s := mix s 1 6 11 12 m[10] m[11]
  let s := mix s 2 7 8 13 m[12] m[13]
  mix s 3 4 9 14 m[14] m[15]

def rounds (s m : Words 16) : Nat → Words 16
  | 0 => s
  | n + 1 => rounds (round s m) (permute m) n

/-- What a compression works on: the chaining value so far, a block, and what is
known about the block. -/
structure Input where
  chain : Words 8
  block : Words 16
  counter : Nat
  length : Nat
  flags : UInt32

/-- The next chaining value, or the digest when the root flag is set. -/
def compress (i : Input) : Words 8 :=
  let tail : Words 8 := #v[iv[0], iv[1], iv[2], iv[3], UInt32.ofNat i.counter,
    UInt32.ofNat (i.counter / 0x100000000), UInt32.ofNat i.length, i.flags]
  let s := rounds (i.chain ++ tail) i.block 7
  Vector.ofFn fun k : Fin 8 => s[k] ^^^ s[k.val + 8]

def chunkStart : UInt32 := 1

def chunkEnd : UInt32 := 2

def parent : UInt32 := 4

def root : UInt32 := 8

-- ---------------------------------------------------------------------------
-- Chunks
-- ---------------------------------------------------------------------------

/-- The word at position `k` of a block, its low byte first. -/
def word (bytes : Array UInt8) (k : Nat) : UInt32 :=
  let byte (j : Nat) : UInt32 := (bytes.getD (4 * k + j) 0).toUInt32
  byte 0 ||| (byte 1 <<< 8) ||| (byte 2 <<< 16) ||| (byte 3 <<< 24)

/-- A block, filled up with zero bytes. -/
def block (bytes : List UInt8) : Words 16 :=
  let bytes := bytes.toArray
  Vector.ofFn fun k : Fin 16 => word bytes k

/-- The blocks of a chunk, all but the last chained. -/
def chunkFrom (counter : Nat) (chain : Words 8) (flags : UInt32) (bytes : List UInt8) : Input :=
  if bytes.length ≤ 64 then
    { chain, block := block bytes, counter, length := bytes.length, flags := flags ||| chunkEnd }
  else
    let next := compress { chain, block := block (bytes.take 64), counter, length := 64, flags }
    chunkFrom counter next 0 (bytes.drop 64)
termination_by bytes.length
decreasing_by rw [List.length_drop]; omega

def chunk (counter : Nat) (bytes : List UInt8) : Input := chunkFrom counter iv chunkStart bytes

-- ---------------------------------------------------------------------------
-- Tree
-- ---------------------------------------------------------------------------

def join (left right : Words 8) : Input :=
  { chain := iv, block := left ++ right, counter := 0, length := 64, flags := parent }

/-- The tree over `bytes`, whose first chunk has the number `counter`. The left
subtree has the largest power of two of chunks that leaves a right one. -/
def tree (counter : Nat) (bytes : List UInt8) : Input :=
  if 1024 < bytes.length then
    let left := 1 <<< ((bytes.length - 1) / 1024).log2
    join (compress (tree counter (bytes.take (left * 1024))))
      (compress (tree (counter + left) (bytes.drop (left * 1024))))
  else chunk counter bytes
termination_by bytes.length
decreasing_by
  · rename_i h
    have hpos : (bytes.length - 1) / 1024 ≠ 0 := by omega
    have hle := Nat.log2_self_le hpos
    rw [List.length_take, Nat.one_shiftLeft]
    omega
  · rename_i h
    have hpos := Nat.two_pow_pos ((bytes.length - 1) / 1024).log2
    rw [List.length_drop, Nat.one_shiftLeft]
    omega

/-- The digest as 32 bytes. -/
def digest (bytes : List UInt8) : List UInt8 :=
  let top := tree 0 bytes
  (compress { top with flags := top.flags ||| root }).toList.flatMap fun (w : UInt32) =>
    [w.toUInt8, (w >>> 8).toUInt8, (w >>> 16).toUInt8, (w >>> 24).toUInt8]

def hexDigits (b : UInt8) : List Char :=
  [b.toNat / 16, b.toNat % 16].map fun n => "0123456789abcdef".toList.getD n '0'

/-- The digest of the bytes of a text, as 64 hexadecimal digits. -/
def hexOfText (text : String) : String :=
  String.ofList ((digest text.toUTF8.toList).flatMap hexDigits)

end JointPlan.Blake3
