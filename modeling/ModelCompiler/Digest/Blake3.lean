/-!
The hash function BLAKE3 with its default output of 32 bytes.
-/
namespace ModelCompiler.Blake3

abbrev Words (n : Nat) := Vector UInt32 n

def initialValue : Words 8 :=
  #v[0x6A09E667, 0xBB67AE85, 0x3C6EF372, 0xA54FF53A, 0x510E527F, 0x9B05688C, 0x1F83D9AB,
    0x5BE0CD19]

def permutation : Vector (Fin 16) 16 :=
  #v[2, 6, 3, 10, 7, 0, 4, 13, 1, 11, 12, 5, 9, 14, 15, 8]

def chunkStart : UInt32 := 1
def chunkEnd : UInt32 := 2
def parentNode : UInt32 := 4
def rootNode : UInt32 := 8

def rotateRight (w n : UInt32) : UInt32 :=
  (w >>> n) ||| (w <<< (32 - n))

/-- The quarter round: mixes two message words into a column or a diagonal. -/
def mix (v : Words 16) (a b c d : Fin 16) (x y : UInt32) : Words 16 :=
  let va := v[a] + v[b] + x
  let vd := rotateRight (v[d] ^^^ va) 16
  let vc := v[c] + vd
  let vb := rotateRight (v[b] ^^^ vc) 12
  let va := va + vb + y
  let vd := rotateRight (vd ^^^ va) 8
  let vc := vc + vd
  let vb := rotateRight (vb ^^^ vc) 7
  (((v.set a va).set b vb).set c vc).set d vd

def round (v m : Words 16) : Words 16 :=
  let v := mix v 0 4 8 12 m[0] m[1]
  let v := mix v 1 5 9 13 m[2] m[3]
  let v := mix v 2 6 10 14 m[4] m[5]
  let v := mix v 3 7 11 15 m[6] m[7]
  let v := mix v 0 5 10 15 m[8] m[9]
  let v := mix v 1 6 11 12 m[10] m[11]
  let v := mix v 2 7 8 13 m[12] m[13]
  mix v 3 4 9 14 m[14] m[15]

def permute (m : Words 16) : Words 16 :=
  permutation.map fun i => m[i]

def rounds : Nat → Words 16 → Words 16 → Words 16
  | 0, v, _ => v
  | n + 1, v, m => rounds n (round v m) (permute m)

structure Block where
  chain : Words 8
  message : Words 16
  counter : Nat
  length : Nat
  flags : UInt32

namespace Block

def compress (b : Block) : Words 8 :=
  let h := b.chain
  let iv := initialValue
  let v : Words 16 := #v[h[0], h[1], h[2], h[3], h[4], h[5], h[6], h[7], iv[0], iv[1], iv[2], iv[3],
    UInt32.ofNat b.counter, UInt32.ofNat (b.counter >>> 32), UInt32.ofNat b.length, b.flags]
  let v := rounds 7 v b.message
  #v[v[0] ^^^ v[8], v[1] ^^^ v[9], v[2] ^^^ v[10], v[3] ^^^ v[11], v[4] ^^^ v[12],
    v[5] ^^^ v[13], v[6] ^^^ v[14], v[7] ^^^ v[15]]

def asRoot (b : Block) : Block :=
  { b with counter := 0, flags := b.flags ||| rootNode }

def parent (left right : Words 8) : Block where
  chain := initialValue
  message := left ++ right
  counter := 0
  length := 64
  flags := parentNode

end Block

/-- The little-endian word at the head of a list; missing bytes are zero. -/
def word (bytes : List UInt8) : UInt32 :=
  match bytes with
  | a :: b :: c :: d :: _ =>
    a.toUInt32 ||| (b.toUInt32 <<< 8) ||| (c.toUInt32 <<< 16) ||| (d.toUInt32 <<< 24)
  | [a, b, c] => a.toUInt32 ||| (b.toUInt32 <<< 8) ||| (c.toUInt32 <<< 16)
  | [a, b] => a.toUInt32 ||| (b.toUInt32 <<< 8)
  | [a] => a.toUInt32
  | [] => 0

def words (bytes : List UInt8) : Words 16 :=
  Vector.ofFn fun i => word (bytes.drop (4 * i.val))

/-- Cuts a list into pieces of `n + 1`, the last one shorter; the empty list is one piece. -/
def pieces (n : Nat) (bytes : List UInt8) : List (List UInt8) :=
  match h : bytes.drop (n + 1) with
  | [] => [bytes]
  | b :: rest => bytes.take (n + 1) :: pieces n (b :: rest)
termination_by bytes.length
decreasing_by
  have := congrArg List.length h
  simp only [List.length_drop, List.length_cons] at this ⊢
  omega

def chunkBlocks (counter : Nat) : Words 8 → UInt32 → List (List UInt8) → Block
  | chain, start, [] => ⟨chain, words [], counter, 0, start ||| chunkEnd⟩
  | chain, start, [b] => ⟨chain, words b, counter, b.length, start ||| chunkEnd⟩
  | chain, start, b :: bs =>
    chunkBlocks counter (Block.compress ⟨chain, words b, counter, b.length, start⟩) 0 bs

def chunk (counter : Nat) (bytes : List UInt8) : Block :=
  chunkBlocks counter initialValue chunkStart (pieces 63 bytes)

/-- The largest power of two below `n`. -/
def leftSize (n : Nat) : Nat :=
  Nat.pow 2 (n - 1).log2

theorem leftSize_lt {n : Nat} (h : 1 < n) : leftSize n < n := by
  have : Nat.pow 2 (n - 1).log2 ≤ n - 1 := Nat.log2_self_le (by omega)
  unfold leftSize
  omega

/-- The tree over a run of chunks, numbered from `counter`. -/
def subtree (counter : Nat) (chunks : List (List UInt8)) : Block :=
  if _h : 1 < chunks.length then
    let k := leftSize chunks.length
    Block.parent (subtree counter (chunks.take k)).compress
      (subtree (counter + k) (chunks.drop k)).compress
  else chunk counter chunks.flatten
termination_by chunks.length
decreasing_by
  · have := leftSize_lt _h
    simp only [List.length_take]
    omega
  · have : 0 < leftSize chunks.length := Nat.two_pow_pos _
    simp only [List.length_drop]
    omega

def wordBytes (w : UInt32) : List UInt8 :=
  [w.toUInt8, (w >>> 8).toUInt8, (w >>> 16).toUInt8, (w >>> 24).toUInt8]

def digest (message : List UInt8) : List UInt8 :=
  (subtree 0 (pieces 1023 message)).asRoot.compress.toList.flatMap wordBytes

def hexDigit (n : UInt8) : Char :=
  if n < 10 then Char.ofNat (48 + n.toNat) else Char.ofNat (87 + n.toNat)

def hexDigest (message : List UInt8) : String :=
  String.ofList ((digest message).flatMap fun (b : UInt8) =>
    [hexDigit (b >>> 4), hexDigit (b &&& 15)])

end ModelCompiler.Blake3
