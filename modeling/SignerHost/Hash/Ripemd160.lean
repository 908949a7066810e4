import SignerHost.Hash.Sha2

/-!
# The RIPEMD-160 hash function

Two lines of eighty steps run over the same sixteen words, and their registers are added
crosswise.  Words are natural numbers below `2 ^ 32`.

* `ripemd160` and `hash160` have 20 bytes, whatever the message.
-/

namespace SignerHost

namespace Ripemd160

/-- The five working registers. -/
structure Registers where
  a : Nat
  b : Nat
  c : Nat
  d : Nat
  e : Nat

/-- Keeps a sum of words below the word bound. -/
def wrap (x : Nat) : Nat := x % 0x100000000

/-- Rotation of a word to the left. -/
def rotate (x n : Nat) : Nat := ((x % (1 <<< (32 - n))) <<< n) + (x >>> (32 - n))

def complement (x : Nat) : Nat := 0xFFFFFFFF - x

/-- The five Boolean functions of the rounds.  The two lines of a round take them in opposite
order. -/
def mix : Nat → Nat → Nat → Nat → Nat
  | 0, x, y, z => (x ^^^ y) ^^^ z
  | 1, x, y, z => (x &&& y) ||| (complement x &&& z)
  | 2, x, y, z => (x ||| complement y) ^^^ z
  | 3, x, y, z => (x &&& z) ||| (y &&& complement z)
  | _, x, y, z => x ^^^ (y ||| complement z)

/-- One line: for each of five rounds a function and a constant, for each step the word it
reads and the amount it rotates by. -/
structure Line where
  functions : List Nat
  constants : List Nat
  order : List Nat
  amounts : List Nat

def left : Line where
  functions := [0, 1, 2, 3, 4]
  constants := [0x00000000, 0x5a827999, 0x6ed9eba1, 0x8f1bbcdc, 0xa953fd4e]
  order := [
    0, 1, 2, 3, 4, 5, 6, 7, 8, 9, 10, 11, 12, 13, 14, 15,
    7, 4, 13, 1, 10, 6, 15, 3, 12, 0, 9, 5, 2, 14, 11, 8,
    3, 10, 14, 4, 9, 15, 8, 1, 2, 7, 0, 6, 13, 11, 5, 12,
    1, 9, 11, 10, 0, 8, 12, 4, 13, 3, 7, 15, 14, 5, 6, 2,
    4, 0, 5, 9, 7, 12, 2, 10, 14, 1, 3, 8, 11, 6, 15, 13]
  amounts := [
    11, 14, 15, 12, 5, 8, 7, 9, 11, 13, 14, 15, 6, 7, 9, 8,
    7, 6, 8, 13, 11, 9, 7, 15, 7, 12, 15, 9, 11, 7, 13, 12,
    11, 13, 6, 7, 14, 9, 13, 15, 14, 8, 13, 6, 5, 12, 7, 5,
    11, 12, 14, 15, 14, 15, 9, 8, 9, 14, 5, 6, 8, 6, 5, 12,
    9, 15, 5, 11, 6, 8, 13, 12, 5, 12, 13, 14, 11, 8, 5, 6]

def right : Line where
  functions := [4, 3, 2, 1, 0]
  constants := [0x50a28be6, 0x5c4dd124, 0x6d703ef3, 0x7a6d76e9, 0x00000000]
  order := [
    5, 14, 7, 0, 9, 2, 11, 4, 13, 6, 15, 8, 1, 10, 3, 12,
    6, 11, 3, 7, 0, 13, 5, 10, 14, 15, 8, 12, 4, 9, 1, 2,
    15, 5, 1, 3, 7, 14, 6, 9, 11, 8, 12, 2, 10, 0, 4, 13,
    8, 6, 4, 1, 3, 11, 15, 0, 5, 12, 2, 13, 9, 7, 10, 14,
    12, 15, 10, 4, 1, 5, 8, 7, 6, 2, 13, 14, 0, 3, 9, 11]
  amounts := [
    8, 9, 9, 11, 13, 15, 15, 5, 7, 7, 8, 11, 14, 14, 12, 6,
    9, 13, 15, 7, 12, 8, 9, 11, 7, 7, 12, 7, 6, 15, 13, 11,
    9, 7, 15, 11, 8, 6, 6, 14, 12, 13, 5, 14, 13, 13, 7, 5,
    15, 5, 8, 11, 14, 14, 6, 14, 6, 9, 12, 9, 12, 5, 15, 8,
    8, 5, 12, 9, 12, 5, 14, 6, 8, 13, 6, 5, 15, 13, 11, 11]

namespace Line

def step (line : Line) (block : List Nat) (r : Registers) (j : Nat) : Registers :=
  let f := mix (line.functions.getD (j / 16) 0) r.b r.c r.d
  let t := wrap (r.a + f + block.getD (line.order.getD j 0) 0 + line.constants.getD (j / 16) 0)
  { a := r.e, b := wrap (rotate t (line.amounts.getD j 0) + r.e), c := r.b,
    d := rotate r.c 10, e := r.d }

def run (line : Line) (block : List Nat) (r : Registers) : Registers :=
  (List.range 80).foldl (line.step block) r

end Line

/-- The registers after one block of sixteen words. -/
def compress (r : Registers) (block : List Nat) : Registers :=
  let s := left.run block r
  let t := right.run block r
  { a := wrap (r.b + s.c + t.d), b := wrap (r.c + s.d + t.e), c := wrap (r.d + s.e + t.a),
    d := wrap (r.e + s.a + t.b), e := wrap (r.a + s.b + t.c) }

/-- Runs `n` blocks of sixteen words. -/
def compressBlocks : Nat → List Nat → Registers → Registers
  | 0, _, r => r
  | n + 1, ws, r => compressBlocks n (ws.drop 16) (compress r (ws.take 16))

/-- Cuts a byte string into `n` words, least significant byte first. -/
def words : Nat → Bytes → List Nat
  | 0, _ => []
  | n + 1, bs => Bytes.toNatLE (bs.take 4) :: words n (bs.drop 4)

/-- The message, a closing one bit, zeros up to a whole number of blocks, and the bit length.
The length has eight bytes, least significant first. -/
def pad (message : Bytes) : Bytes :=
  message ++ 0x80 ::
    (List.replicate ((64 - (message.length + 9) % 64) % 64) 0
      ++ Bytes.ofNatLE 8 (8 * message.length))

/-- The registers before the first block. -/
def start : Registers where
  a := 0x67452301
  b := 0xefcdab89
  c := 0x98badcfe
  d := 0x10325476
  e := 0xc3d2e1f0

end Ripemd160

/-- The digest of a message in 20 bytes. -/
def ripemd160 (message : Bytes) : Bytes :=
  let padded := Ripemd160.pad message
  let blocks := padded.length / 64
  let r := Ripemd160.compressBlocks blocks (Ripemd160.words (16 * blocks) padded) Ripemd160.start
  [r.a, r.b, r.c, r.d, r.e].flatMap (Bytes.ofNatLE 4)

@[simp] theorem length_ripemd160 (message : Bytes) : (ripemd160 message).length = 20 := by
  simp [ripemd160]

/-- The short digest of keys and scripts. -/
def hash160 (message : Bytes) : Bytes := ripemd160 (sha256 message)

@[simp] theorem length_hash160 (message : Bytes) : (hash160 message).length = 20 :=
  length_ripemd160 _

end SignerHost
