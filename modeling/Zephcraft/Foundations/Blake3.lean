import Zephcraft.Foundations.Codec

/-!
# Foundations/Blake3 — the content hash

Plain BLAKE3 with a 32-byte output. Everything else in the development takes the hash as a parameter
and says which collisions it excludes; the function itself is here so that what the parameter is
applied to can be computed.
-/

namespace Blake3

def add32 (a b : ℕ) : ℕ := (a + b) % 2 ^ 32

/-- Rotation of a 32-bit word to the right. -/
def rotr32 (x n : ℕ) : ℕ := x >>> n ||| (x <<< (32 - n)) % 2 ^ 32

structure Row where
  w0 : ℕ
  w1 : ℕ
  w2 : ℕ
  w3 : ℕ

namespace Row

def toList (r : Row) : List ℕ := [r.w0, r.w1, r.w2, r.w3]

def map₂ (f : ℕ → ℕ → ℕ) (r s : Row) : Row := ⟨f r.w0 s.w0, f r.w1 s.w1, f r.w2 s.w2, f r.w3 s.w3⟩

def shift (r : Row) : Row := ⟨r.w1, r.w2, r.w3, r.w0⟩

/-- `(r ^ s)`, every word rotated. -/
def xorRotr (n : ℕ) (r s : Row) : Row := map₂ (fun x y => rotr32 (x ^^^ y) n) r s

end Row

/-- The first eight initialisation words, as two rows. -/
def iv : Row × Row :=
  (⟨0x6A09E667, 0xBB67AE85, 0x3C6EF372, 0xA54FF53A⟩,
    ⟨0x510E527F, 0x9B05688C, 0x1F83D9AB, 0x5BE0CD19⟩)

structure State where
  a : Row
  b : Row
  c : Row
  d : Row

namespace State

/-- The four columns mixed at once, each with its two message words. -/
def mix (s : State) (x y : Row) : State :=
  let a := (s.a.map₂ add32 s.b).map₂ add32 x
  let d := s.d.xorRotr 16 a
  let c := s.c.map₂ add32 d
  let b := s.b.xorRotr 12 c
  let a := (a.map₂ add32 b).map₂ add32 y
  let d := d.xorRotr 8 a
  let c := c.map₂ add32 d
  let b := b.xorRotr 7 c
  ⟨a, b, c, d⟩

def diagonalize (s : State) : State := ⟨s.a, s.b.shift, s.c.shift.shift, s.d.shift.shift.shift⟩

def undiagonalize (s : State) : State := ⟨s.a, s.b.shift.shift.shift, s.c.shift.shift, s.d.shift⟩

def round (s : State) : List ℕ → State
  | [m0, m1, m2, m3, m4, m5, m6, m7, m8, m9, m10, m11, m12, m13, m14, m15] =>
    (((s.mix ⟨m0, m2, m4, m6⟩ ⟨m1, m3, m5, m7⟩).diagonalize).mix
      ⟨m8, m10, m12, m14⟩ ⟨m9, m11, m13, m15⟩).undiagonalize
  | _ => s

end State

/-- The message words in the next round's order. -/
def permute : List ℕ → List ℕ
  | [m0, m1, m2, m3, m4, m5, m6, m7, m8, m9, m10, m11, m12, m13, m14, m15] =>
    [m2, m6, m3, m10, m7, m0, m4, m13, m1, m11, m12, m5, m9, m14, m15, m8]
  | m => m

def rounds : ℕ → State → List ℕ → State
  | 0, s, _ => s
  | n + 1, s, m => rounds n (s.round m) (permute m)

abbrev Chain := Row × Row

/-- Compress one block into a chaining value. -/
def compress (cv : Chain) (block : List ℕ) (counter blockLen flags : ℕ) : Chain :=
  let s := rounds 7 ⟨cv.1, cv.2, iv.1, ⟨counter % 2 ^ 32, counter / 2 ^ 32, blockLen, flags⟩⟩ block
  (s.a.map₂ Nat.xor s.c, s.b.map₂ Nat.xor s.d)

/-- Little-endian words of a byte string, the last one padded with zeros. -/
def wordsOf : Bytes → List ℕ
  | [] => []
  | [a] => [a.val]
  | [a, b] => [a.val + 2 ^ 8 * b.val]
  | [a, b, c] => [a.val + 2 ^ 8 * b.val + 2 ^ 16 * c.val]
  | a :: b :: c :: d :: rest =>
    (a.val + 2 ^ 8 * b.val + 2 ^ 16 * c.val + 2 ^ 24 * d.val) :: wordsOf rest

/-- The sixteen words of a block, padded with zeros. -/
def blockWords (block : Bytes) : List ℕ :=
  let ws := wordsOf block
  ws ++ List.replicate (16 - ws.length) 0

/-- The flags of a block: it starts or ends its chunk, joins two subtrees, is the root. -/
def chunkStart : ℕ := 1
def chunkEnd : ℕ := 2
def parent : ℕ := 4
def root : ℕ := 8

/-- The chaining value of a chunk, block after block; the fuel bounds their number. -/
def chunkFuel (counter rootFlag : ℕ) : ℕ → ℕ → Chain → Bytes → Chain
  | 0, _, cv, _ => cv
  | fuel + 1, startFlag, cv, bytes =>
    if bytes.length ≤ 64 then
      compress cv (blockWords bytes) counter bytes.length (startFlag + chunkEnd + rootFlag)
    else
      chunkFuel counter rootFlag fuel 0
        (compress cv (blockWords (bytes.take 64)) counter 64 startFlag) (bytes.drop 64)

/-- The chaining value of a subtree of chunks, the first of them numbered `counter`; the left half
is the largest power of two of chunks that leaves something to the right. -/
def treeFuel : ℕ → ℕ → ℕ → Bytes → Chain
  | 0, _, _, _ => iv
  | fuel + 1, counter, rootFlag, bytes =>
    if bytes.length ≤ 1024 then chunkFuel counter rootFlag 16 chunkStart iv bytes
    else
      let left := 2 ^ Nat.log2 ((bytes.length - 1) / 1024)
      let l := treeFuel fuel counter 0 (bytes.take (left * 1024))
      let r := treeFuel fuel (counter + left) 0 (bytes.drop (left * 1024))
      compress iv (l.1.toList ++ l.2.toList ++ r.1.toList ++ r.2.toList) 0 64 (parent + rootFlag)

end Blake3

def blake3 (bytes : Bytes) : B32 :=
  let cv := Blake3.treeFuel (bytes.length + 1) 0 Blake3.root bytes
  B32.ofBytes ((cv.1.toList ++ cv.2.toList).flatMap (leBytes 4))
