import LinkAnalysis.Score

/-!
# BLAKE3

The unkeyed hash with an output of 32 bytes.  The input is cut into chunks of
1024 bytes, a chunk into blocks of 64 bytes.  The blocks of a chunk are
compressed one after another; the chunks form the leaves of a binary tree whose
left subtrees are complete and as large as possible.  The last compression of
all is marked as the root and yields the digest.
-/

namespace LinkAnalysis.Digest.Blake3

abbrev Chaining := Vector UInt32 8

abbrev Block := Vector UInt32 16

def initial : Chaining :=
  #v[0x6A09E667, 0xBB67AE85, 0x3C6EF372, 0xA54FF53A,
     0x510E527F, 0x9B05688C, 0x1F83D9AB, 0x5BE0CD19]

def blockBytes : Nat := 64

def chunkBytes : Nat := 1024

def chunkStart : UInt32 := 1

def chunkEnd : UInt32 := 2

def parent : UInt32 := 4

def root : UInt32 := 8

def rotate (x : UInt32) (amount : UInt32) : UInt32 :=
  (x >>> amount) ||| (x <<< (32 - amount))

def mix (a b c d : Fin 16) (x y : UInt32) (v : Block) : Block :=
  let v := v.set a (v[a] + v[b] + x)
  let v := v.set d (rotate (v[d] ^^^ v[a]) 16)
  let v := v.set c (v[c] + v[d])
  let v := v.set b (rotate (v[b] ^^^ v[c]) 12)
  let v := v.set a (v[a] + v[b] + y)
  let v := v.set d (rotate (v[d] ^^^ v[a]) 8)
  let v := v.set c (v[c] + v[d])
  v.set b (rotate (v[b] ^^^ v[c]) 7)

def round (m v : Block) : Block :=
  let v := mix 0 4 8 12 m[0] m[1] v
  let v := mix 1 5 9 13 m[2] m[3] v
  let v := mix 2 6 10 14 m[4] m[5] v
  let v := mix 3 7 11 15 m[6] m[7] v
  let v := mix 0 5 10 15 m[8] m[9] v
  let v := mix 1 6 11 12 m[10] m[11] v
  let v := mix 2 7 8 13 m[12] m[13] v
  mix 3 4 9 14 m[14] m[15] v

def permute (m : Block) : Block :=
  #v[m[2], m[6], m[3], m[10], m[7], m[0], m[4], m[13],
     m[1], m[11], m[12], m[5], m[9], m[14], m[15], m[8]]

def rounds : Nat → Block → Block → Block
  | 0, _, v => v
  | more + 1, m, v => rounds more (permute m) (round m v)

/-- A compression that has not been carried out yet, so that it can still be
marked as the root. -/
structure Pending where
  chaining : Chaining
  block : Block
  counter : UInt64
  length : UInt32
  flags : UInt32

def Pending.compress (p : Pending) (flags : UInt32) : Chaining :=
  let hchaining := p.chaining
  let v :=
    rounds 7 p.block #v[hchaining[0], hchaining[1], hchaining[2],
      hchaining[3], hchaining[4], hchaining[5], hchaining[6], hchaining[7],
      initial[0], initial[1], initial[2], initial[3], p.counter.toUInt32,
      (p.counter >>> 32).toUInt32, p.length, p.flags ||| flags]
  #v[v[0] ^^^ v[8], v[1] ^^^ v[9], v[2] ^^^ v[10], v[3] ^^^ v[11],
     v[4] ^^^ v[12], v[5] ^^^ v[13], v[6] ^^^ v[14], v[7] ^^^ v[15]]

/-- The word at position `i` of a row of bytes, the least byte first; missing
bytes are zero. -/
def word (bytes : List UInt8) (i : Nat) : UInt32 :=
  ((bytes.drop (4 * i)).take 4).foldr (fun b w => w <<< 8 ||| b.toUInt32) 0

def blockOf (bytes : List UInt8) : Block :=
  Vector.ofFn fun i : Fin 16 => word bytes i

/-- The last compression of a chunk: all blocks but the last are compressed on
the way. -/
def chunkFrom (counter : UInt64) (chaining : Chaining) (flags : UInt32)
    (bytes : List UInt8) : Pending :=
  if bytes.length ≤ blockBytes then
    ⟨chaining, blockOf bytes, counter, bytes.length.toUInt32,
      flags ||| chunkEnd⟩
  else
    let head : Pending :=
      ⟨chaining, blockOf (bytes.take blockBytes), counter, 64, flags⟩
    chunkFrom counter (head.compress 0) 0 (bytes.drop blockBytes)
termination_by bytes.length
decreasing_by simp_all [blockBytes]; omega

def chunk (counter : UInt64) (bytes : List UInt8) : Pending :=
  chunkFrom counter initial chunkStart bytes

def join (left right : Chaining) : Pending :=
  ⟨initial, left ++ right, 0, 64, parent⟩

/-- The bytes of the left subtree over more than one chunk: the largest power of
two of chunks that leaves something for the right subtree. -/
def leftBytes (total : Nat) : Nat :=
  chunkBytes * twoTo ((total - 1) / chunkBytes).log2

theorem leftBytes_pos (total : Nat) : 0 < leftBytes total := by
  exact Nat.mul_pos (by decide) (Nat.pow_pos (by decide))

theorem leftBytes_lt {total : Nat} (hlt : chunkBytes < total) :
    leftBytes total < total := by
  have hne : (total - 1) / chunkBytes ≠ 0 := by
    unfold chunkBytes at hlt ⊢
    omega
  have hpow := Nat.log2_self_le hne
  unfold leftBytes
  calc chunkBytes * twoTo ((total - 1) / chunkBytes).log2
      ≤ chunkBytes * ((total - 1) / chunkBytes) := Nat.mul_le_mul_left _ hpow
    _ ≤ total - 1 := Nat.mul_div_le _ _
    _ < total := by omega

/-- The last compression of the tree over the bytes, whose first chunk has this
number. -/
def tree (counter : Nat) (bytes : List UInt8) : Pending :=
  if hle : bytes.length ≤ chunkBytes then chunk counter.toUInt64 bytes
  else
    let cut := leftBytes bytes.length
    have hcut : cut < bytes.length := leftBytes_lt (by omega)
    have hpos : 0 < cut := leftBytes_pos bytes.length
    join ((tree counter (bytes.take cut)).compress 0)
      ((tree (counter + cut / chunkBytes) (bytes.drop cut)).compress 0)
termination_by bytes.length
decreasing_by
  · simp only [List.length_take]; omega
  · simp only [List.length_drop]; omega

def digest (bytes : List UInt8) : Chaining := (tree 0 bytes).compress root

def hexByte (b : UInt8) : List Char :=
  [Nat.digitChar (b.toNat / 16), Nat.digitChar (b.toNat % 16)]

def hexWord (w : UInt32) : List Char :=
  hexByte w.toUInt8 ++ hexByte (w >>> 8).toUInt8 ++ hexByte (w >>> 16).toUInt8
    ++ hexByte (w >>> 24).toUInt8

def hex (bytes : List UInt8) : String :=
  String.ofList ((digest bytes).toList.flatMap hexWord)

end LinkAnalysis.Digest.Blake3
