import SignerHost.Bytes

/-!
# The SHA-2 hash functions

SHA-256 and SHA-512 share one construction and differ in the width of a word, the amounts of
the rotations, the round constants and the initial registers.  Words are natural numbers below
a power of two, and a rotation by `n` places divides by `2 ^ n` and brings the remainder back on
top, so a closed digest can be evaluated as plain arithmetic.

* `sha256` has 32 bytes and `sha512` has 64, whatever the message.
* `hmacSha512` is the keyed variant for keys of at most one block.
-/

namespace SignerHost

namespace Sha2

/-- What distinguishes the members of the family. -/
structure Variant where
  /-- Bytes in a word. -/
  wordBytes : Nat
  /-- Words are below this power of two. -/
  bound : Nat
  /-- The divisors of the three rotations of the first register. -/
  sumA : Nat × Nat × Nat
  /-- The divisors of the three rotations of the fifth register. -/
  sumE : Nat × Nat × Nat
  /-- The divisors of two rotations and a shift, for the word fifteen places back. -/
  early : Nat × Nat × Nat
  /-- The divisors of two rotations and a shift, for the word two places back. -/
  late : Nat × Nat × Nat
  /-- One constant for each round. -/
  constants : List Nat
  /-- The registers before the first block. -/
  initial : List Nat

/-- The eight working registers. -/
structure Registers where
  a : Nat
  b : Nat
  c : Nat
  d : Nat
  e : Nat
  f : Nat
  g : Nat
  h : Nat

namespace Variant

/-- Rotation of a word to the right, by the power of two that it divides by. -/
def rotate (v : Variant) (x divisor : Nat) : Nat :=
  x / divisor + (x % divisor) * (v.bound / divisor)

/-- Keeps a sum of words below the word bound. -/
def wrap (v : Variant) (x : Nat) : Nat := x % v.bound

/-- The sum of three rotations. -/
def rotations (v : Variant) (divisors : Nat × Nat × Nat) (x : Nat) : Nat :=
  (v.rotate x divisors.1 ^^^ v.rotate x divisors.2.1) ^^^ v.rotate x divisors.2.2

/-- The sum of two rotations and a shift. -/
def rotationsShift (v : Variant) (divisors : Nat × Nat × Nat) (x : Nat) : Nat :=
  (v.rotate x divisors.1 ^^^ v.rotate x divisors.2.1) ^^^ (x / divisors.2.2)

/-- Adds `n` schedule words to a list that holds the latest word first.  A word depends on four
of the sixteen before it. -/
def extend (v : Variant) : Nat → List Nat → List Nat
  | 0, ws => ws
  | n + 1, ws =>
      v.extend n
        (v.wrap (v.rotationsShift v.late (ws.getD 1 0) + ws.getD 6 0
            + v.rotationsShift v.early (ws.getD 14 0) + ws.getD 15 0) :: ws)

/-- The message schedule of one block: one word for each round constant. -/
def schedule (v : Variant) (block : List Nat) : List Nat :=
  (v.extend (v.constants.length - 16) block.reverse).reverse

/-- One round, given the round constant and the schedule word. -/
def step (v : Variant) (r : Registers) (kw : Nat × Nat) : Registers :=
  let choice := (r.e &&& r.f) ^^^ ((v.bound - 1 - r.e) &&& r.g)
  let majority := ((r.a &&& r.b) ^^^ (r.a &&& r.c)) ^^^ (r.b &&& r.c)
  let t := r.h + v.rotations v.sumE r.e + choice + kw.1 + kw.2
  { a := v.wrap (t + v.rotations v.sumA r.a + majority), b := r.a, c := r.b, d := r.c,
    e := v.wrap (r.d + t), f := r.e, g := r.f, h := r.g }

/-- The registers after one block of sixteen words. -/
def compress (v : Variant) (r : Registers) (block : List Nat) : Registers :=
  let s := (v.constants.zip (v.schedule block)).foldl v.step r
  { a := v.wrap (r.a + s.a), b := v.wrap (r.b + s.b), c := v.wrap (r.c + s.c),
    d := v.wrap (r.d + s.d), e := v.wrap (r.e + s.e), f := v.wrap (r.f + s.f),
    g := v.wrap (r.g + s.g), h := v.wrap (r.h + s.h) }

/-- Runs `n` blocks of sixteen words. -/
def compressBlocks (v : Variant) : Nat → List Nat → Registers → Registers
  | 0, _, r => r
  | n + 1, ws, r => v.compressBlocks n (ws.drop 16) (v.compress r (ws.take 16))

/-- Bytes in a block. -/
def blockBytes (v : Variant) : Nat := 16 * v.wordBytes

/-- Cuts a byte string into `n` words, most significant byte first.  Every word takes the same
number of bytes. -/
def words (v : Variant) : Nat → Bytes → List Nat
  | 0, _ => []
  | n + 1, bs => Bytes.toNatBE (bs.take v.wordBytes) :: v.words n (bs.drop v.wordBytes)

/-- The message, a closing one bit, zeros up to a whole number of blocks, and the bit length.
The length takes two words at the end. -/
def pad (v : Variant) (message : Bytes) : Bytes :=
  let tail := 1 + 2 * v.wordBytes
  let zeros := (v.blockBytes - (message.length + tail) % v.blockBytes) % v.blockBytes
  message ++ 0x80 ::
    (List.replicate zeros 0 ++ Bytes.ofNatBE (2 * v.wordBytes) (8 * message.length))

/-- The registers before the first block. -/
def start (v : Variant) : Registers :=
  { a := v.initial.getD 0 0, b := v.initial.getD 1 0, c := v.initial.getD 2 0,
    d := v.initial.getD 3 0, e := v.initial.getD 4 0, f := v.initial.getD 5 0,
    g := v.initial.getD 6 0, h := v.initial.getD 7 0 }

/-- The registers written out, most significant byte first.  The digest has as many words as
there are registers. -/
def digest (v : Variant) (r : Registers) : Bytes :=
  [r.a, r.b, r.c, r.d, r.e, r.f, r.g, r.h].flatMap (Bytes.ofNatBE v.wordBytes)

/-- The digest of a message in the member of the family that the variant describes. -/
def hash (v : Variant) (message : Bytes) : Bytes :=
  let padded := v.pad message
  let blocks := padded.length / v.blockBytes
  v.digest (v.compressBlocks blocks (v.words (16 * blocks) padded) v.start)

theorem length_hash (v : Variant) (message : Bytes) :
    (v.hash message).length = 8 * v.wordBytes := by
  simp [hash, digest]
  omega

end Variant

/-- The parameters of SHA-256. -/
def narrow : Variant where
  wordBytes := 4
  bound := 1 <<< 32
  sumA := (1 <<< 2, 1 <<< 13, 1 <<< 22)
  sumE := (1 <<< 6, 1 <<< 11, 1 <<< 25)
  early := (1 <<< 7, 1 <<< 18, 1 <<< 3)
  late := (1 <<< 17, 1 <<< 19, 1 <<< 10)
  constants := [
    0x428a2f98, 0x71374491, 0xb5c0fbcf, 0xe9b5dba5, 0x3956c25b, 0x59f111f1,
    0x923f82a4, 0xab1c5ed5, 0xd807aa98, 0x12835b01, 0x243185be, 0x550c7dc3,
    0x72be5d74, 0x80deb1fe, 0x9bdc06a7, 0xc19bf174, 0xe49b69c1, 0xefbe4786,
    0x0fc19dc6, 0x240ca1cc, 0x2de92c6f, 0x4a7484aa, 0x5cb0a9dc, 0x76f988da,
    0x983e5152, 0xa831c66d, 0xb00327c8, 0xbf597fc7, 0xc6e00bf3, 0xd5a79147,
    0x06ca6351, 0x14292967, 0x27b70a85, 0x2e1b2138, 0x4d2c6dfc, 0x53380d13,
    0x650a7354, 0x766a0abb, 0x81c2c92e, 0x92722c85, 0xa2bfe8a1, 0xa81a664b,
    0xc24b8b70, 0xc76c51a3, 0xd192e819, 0xd6990624, 0xf40e3585, 0x106aa070,
    0x19a4c116, 0x1e376c08, 0x2748774c, 0x34b0bcb5, 0x391c0cb3, 0x4ed8aa4a,
    0x5b9cca4f, 0x682e6ff3, 0x748f82ee, 0x78a5636f, 0x84c87814, 0x8cc70208,
    0x90befffa, 0xa4506ceb, 0xbef9a3f7, 0xc67178f2]
  initial := [
    0x6a09e667, 0xbb67ae85, 0x3c6ef372, 0xa54ff53a, 0x510e527f, 0x9b05688c,
    0x1f83d9ab, 0x5be0cd19]

/-- The parameters of SHA-512. -/
def wide : Variant where
  wordBytes := 8
  bound := 1 <<< 64
  sumA := (1 <<< 28, 1 <<< 34, 1 <<< 39)
  sumE := (1 <<< 14, 1 <<< 18, 1 <<< 41)
  early := (1 <<< 1, 1 <<< 8, 1 <<< 7)
  late := (1 <<< 19, 1 <<< 61, 1 <<< 6)
  constants := [
    0x428a2f98d728ae22, 0x7137449123ef65cd, 0xb5c0fbcfec4d3b2f, 0xe9b5dba58189dbbc,
    0x3956c25bf348b538, 0x59f111f1b605d019, 0x923f82a4af194f9b, 0xab1c5ed5da6d8118,
    0xd807aa98a3030242, 0x12835b0145706fbe, 0x243185be4ee4b28c, 0x550c7dc3d5ffb4e2,
    0x72be5d74f27b896f, 0x80deb1fe3b1696b1, 0x9bdc06a725c71235, 0xc19bf174cf692694,
    0xe49b69c19ef14ad2, 0xefbe4786384f25e3, 0x0fc19dc68b8cd5b5, 0x240ca1cc77ac9c65,
    0x2de92c6f592b0275, 0x4a7484aa6ea6e483, 0x5cb0a9dcbd41fbd4, 0x76f988da831153b5,
    0x983e5152ee66dfab, 0xa831c66d2db43210, 0xb00327c898fb213f, 0xbf597fc7beef0ee4,
    0xc6e00bf33da88fc2, 0xd5a79147930aa725, 0x06ca6351e003826f, 0x142929670a0e6e70,
    0x27b70a8546d22ffc, 0x2e1b21385c26c926, 0x4d2c6dfc5ac42aed, 0x53380d139d95b3df,
    0x650a73548baf63de, 0x766a0abb3c77b2a8, 0x81c2c92e47edaee6, 0x92722c851482353b,
    0xa2bfe8a14cf10364, 0xa81a664bbc423001, 0xc24b8b70d0f89791, 0xc76c51a30654be30,
    0xd192e819d6ef5218, 0xd69906245565a910, 0xf40e35855771202a, 0x106aa07032bbd1b8,
    0x19a4c116b8d2d0c8, 0x1e376c085141ab53, 0x2748774cdf8eeb99, 0x34b0bcb5e19b48a8,
    0x391c0cb3c5c95a63, 0x4ed8aa4ae3418acb, 0x5b9cca4f7763e373, 0x682e6ff3d6b2b8a3,
    0x748f82ee5defb2fc, 0x78a5636f43172f60, 0x84c87814a1f0ab72, 0x8cc702081a6439ec,
    0x90befffa23631e28, 0xa4506cebde82bde9, 0xbef9a3f7b2c67915, 0xc67178f2e372532b,
    0xca273eceea26619c, 0xd186b8c721c0c207, 0xeada7dd6cde0eb1e, 0xf57d4f7fee6ed178,
    0x06f067aa72176fba, 0x0a637dc5a2c898a6, 0x113f9804bef90dae, 0x1b710b35131c471b,
    0x28db77f523047d84, 0x32caab7b40c72493, 0x3c9ebe0a15c9bebc, 0x431d67c49c100d4c,
    0x4cc5d4becb3e42b6, 0x597f299cfc657e2a, 0x5fcb6fab3ad6faec, 0x6c44198c4a475817]
  initial := [
    0x6a09e667f3bcc908, 0xbb67ae8584caa73b, 0x3c6ef372fe94f82b, 0xa54ff53a5f1d36f1,
    0x510e527fade682d1, 0x9b05688c2b3e6c1f, 0x1f83d9abfb41bd6b, 0x5be0cd19137e2179]

end Sha2

/-- The digest in 32 bytes, on which all commitments rest. -/
def sha256 (message : Bytes) : Bytes := Sha2.narrow.hash message

def sha512 (message : Bytes) : Bytes := Sha2.wide.hash message

@[simp] theorem length_sha256 (message : Bytes) : (sha256 message).length = 32 :=
  Sha2.narrow.length_hash message

@[simp] theorem length_sha512 (message : Bytes) : (sha512 message).length = 64 :=
  Sha2.wide.length_hash message

/-- Two applications of SHA-256, as used in checksums and transaction identifiers. -/
def doubleSha256 (message : Bytes) : Bytes := sha256 (sha256 message)

/-- SHA-256 in a domain of its own: the digest of the tag is prepended twice. -/
def taggedSha256 (tag message : Bytes) : Bytes :=
  sha256 (sha256 tag ++ (sha256 tag ++ message))

/-- HMAC with SHA-512, for keys of at most 128 bytes. -/
def hmacSha512 (key message : Bytes) : Bytes :=
  let padded := key ++ List.replicate (128 - key.length) 0
  sha512 (padded.map (· ^^^ 0x5c) ++ sha512 (padded.map (· ^^^ 0x36) ++ message))

end SignerHost
