/-!
# The BLAKE2b digest

The hash function BLAKE2b without a key, for digests of eight bytes. The state is eight words of
64 bits; each block of 128 bytes is mixed into it in twelve rounds. Words are little-endian.
-/

namespace AlgebraicForm.Blake2b

/-- The chaining state. -/
abbrev State := Vector UInt64 8

/-- The working state of one block. -/
abbrev Work := Vector UInt64 16

/-- The initial state before the parameters are mixed in. -/
def initial : State :=
  #v[0x6a09e667f3bcc908, 0xbb67ae8584caa73b, 0x3c6ef372fe94f82b, 0xa54ff53a5f1d36f1,
    0x510e527fade682d1, 0x9b05688c2b3e6c1f, 0x1f83d9abfb41bd6b, 0x5be0cd19137e2179]

/-- The length of a digest in bytes. -/
def digestLength : UInt64 := 8

/-- The length of a block in bytes. -/
def blockLength : Nat := 128

/-- The order in which the rounds take the words of a block. -/
def schedule : List (Vector (Fin 16) 16) :=
  [#v[0, 1, 2, 3, 4, 5, 6, 7, 8, 9, 10, 11, 12, 13, 14, 15],
    #v[14, 10, 4, 8, 9, 15, 13, 6, 1, 12, 0, 2, 11, 7, 5, 3],
    #v[11, 8, 12, 0, 5, 2, 15, 13, 10, 14, 3, 6, 7, 1, 9, 4],
    #v[7, 9, 3, 1, 13, 12, 11, 14, 2, 6, 5, 10, 4, 0, 15, 8],
    #v[9, 0, 5, 7, 2, 4, 10, 15, 14, 1, 11, 12, 6, 8, 3, 13],
    #v[2, 12, 6, 10, 0, 11, 8, 3, 4, 13, 7, 5, 15, 14, 1, 9],
    #v[12, 5, 1, 15, 14, 13, 4, 10, 0, 7, 6, 3, 9, 2, 8, 11],
    #v[13, 11, 7, 14, 12, 1, 3, 9, 5, 0, 15, 4, 8, 6, 2, 10],
    #v[6, 15, 14, 9, 11, 3, 0, 8, 12, 2, 13, 7, 1, 4, 10, 5],
    #v[10, 2, 8, 4, 7, 6, 1, 5, 15, 11, 9, 14, 3, 12, 13, 0],
    #v[0, 1, 2, 3, 4, 5, 6, 7, 8, 9, 10, 11, 12, 13, 14, 15],
    #v[14, 10, 4, 8, 9, 15, 13, 6, 1, 12, 0, 2, 11, 7, 5, 3]]

/-- Rotates a word to the right. -/
def rotateRight (x : UInt64) (count : UInt64) : UInt64 :=
  (x >>> count) ||| (x <<< (64 - count))

/-- Mixes two words of the block into four words of the working state. -/
def mix (v : Work) (a b c d : Fin 16) (x y : UInt64) : Work :=
  let va := v[a] + v[b] + x
  let vd := rotateRight (v[d] ^^^ va) 32
  let vc := v[c] + vd
  let vb := rotateRight (v[b] ^^^ vc) 24
  let va := va + vb + y
  let vd := rotateRight (vd ^^^ va) 16
  let vc := vc + vd
  let vb := rotateRight (vb ^^^ vc) 63
  (((v.set a va).set b vb).set c vc).set d vd

/-- One round: the columns of the working state, then its diagonals. -/
def round (block : Work) (v : Work) (order : Vector (Fin 16) 16) : Work :=
  let word (i : Fin 16) : UInt64 := block[order[i]]
  let v := mix v 0 4 8 12 (word 0) (word 1)
  let v := mix v 1 5 9 13 (word 2) (word 3)
  let v := mix v 2 6 10 14 (word 4) (word 5)
  let v := mix v 3 7 11 15 (word 6) (word 7)
  let v := mix v 0 5 10 15 (word 8) (word 9)
  let v := mix v 1 6 11 12 (word 10) (word 11)
  let v := mix v 2 7 8 13 (word 12) (word 13)
  mix v 3 4 9 14 (word 14) (word 15)

/-- Mixes a block into the state. `count` is the number of bytes up to the end of the block, and
`last` marks the last block. -/
def compress (h : State) (block : Work) (count : UInt64) (last : Bool) : State :=
  let v : Work := (h ++ initial).cast rfl
  let v := v.set 12 (v[12] ^^^ count)
  let v := if last then v.set 14 (~~~ v[14]) else v
  let v := schedule.foldl (round block) v
  Vector.ofFn fun i : Fin 8 => h[i] ^^^ v[i.val] ^^^ v[i.val + 8]

/-- The word that eight bytes make up; missing bytes are zero. -/
def wordOfBytes (bytes : List UInt8) : UInt64 :=
  bytes.foldr (fun b w => (w <<< 8) ||| b.toUInt64) 0

/-- The bytes of a word. -/
def bytesOfWord (w : UInt64) : List UInt8 :=
  (List.range 8).map fun i => (w >>> (8 * i).toUInt64).toUInt8

/-- The words of a block; a short block is filled up with zeros. -/
def blockOfBytes (bytes : List UInt8) : Work :=
  Vector.ofFn fun i : Fin 16 => wordOfBytes ((bytes.drop (8 * i)).take 8)

/-- Mixes a message into the state, `done` bytes of it being mixed in already. -/
def absorb (h : State) (done : Nat) (bytes : List UInt8) : State :=
  if blockLength < bytes.length then
    let count := done + blockLength
    absorb (compress h (blockOfBytes (bytes.take blockLength)) count.toUInt64 false) count
      (bytes.drop blockLength)
  else compress h (blockOfBytes bytes) (done + bytes.length).toUInt64 true
termination_by bytes.length
decreasing_by simp only [List.length_drop, blockLength] at *; omega

/-- The digest of a message, eight bytes long. -/
def digest (bytes : List UInt8) : List UInt8 :=
  let h := initial.set 0 (initial[0] ^^^ 0x01010000 ^^^ digestLength)
  bytesOfWord (absorb h 0 bytes)[0]

/-- Two hexadecimal digits for each byte. -/
def hexText (bytes : List UInt8) : String :=
  String.ofList (bytes.flatMap fun b =>
    [Nat.digitChar (b.toNat / 16), Nat.digitChar (b.toNat % 16)])

end AlgebraicForm.Blake2b
