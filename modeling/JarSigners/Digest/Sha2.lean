import JarSigners.Digest.Blockwise

/-!
# SHA-256, SHA-384 and SHA-512

The three differ in the width of a word, in the rotation amounts, in the number of rounds and
in the words they start from. The words are the first bits of the fractional parts of the
roots of the first primes, so those for 32-bit words are the upper halves of the others.
-/

set_option autoImplicit false

namespace JarSigners.Digest.Sha2

/-- The operations on a word that the compression needs. -/
class Word (ω : Type) where
  octets : Nat
  ofNat : Nat → ω
  toNat : ω → Nat
  add : ω → ω → ω
  xor : ω → ω → ω
  and : ω → ω → ω
  not : ω → ω
  rotateRight : ω → ω → ω
  shiftRight : ω → ω → ω

instance : Word UInt32 where
  octets := 4
  ofNat := UInt32.ofNat
  toNat := UInt32.toNat
  add a b := a + b
  xor a b := a ^^^ b
  and a b := a &&& b
  not a := ~~~a
  rotateRight a n := (a >>> n) ||| (a <<< (32 - n))
  shiftRight a n := a >>> n

instance : Word UInt64 where
  octets := 8
  ofNat := UInt64.ofNat
  toNat := UInt64.toNat
  add a b := a + b
  xor a b := a ^^^ b
  and a b := a &&& b
  not a := ~~~a
  rotateRight a n := (a >>> n) ||| (a <<< (64 - n))
  shiftRight a n := a >>> n

/-- The eight words carried from block to block. -/
structure State (ω : Type) where
  a : ω
  b : ω
  c : ω
  d : ω
  e : ω
  f : ω
  g : ω
  h : ω

/-- What one width of word fixes: the amounts of the two large and the two small mixing
functions (the last small amount is a shift) and a word for every round. -/
structure Variant (ω : Type) where
  large0 : ω × ω × ω
  large1 : ω × ω × ω
  small0 : ω × ω × ω
  small1 : ω × ω × ω
  rounds : List ω

variable {ω : Type} [Word ω]

@[specialize]
def largeMix (amounts : ω × ω × ω) (w : ω) : ω :=
  Word.xor (Word.rotateRight w amounts.1)
    (Word.xor (Word.rotateRight w amounts.2.1) (Word.rotateRight w amounts.2.2))

@[specialize]
def smallMix (amounts : ω × ω × ω) (w : ω) : ω :=
  Word.xor (Word.rotateRight w amounts.1)
    (Word.xor (Word.rotateRight w amounts.2.1) (Word.shiftRight w amounts.2.2))

/-- Bit by bit, `x` chooses between `y` and `z`. -/
@[specialize]
def choose (x y z : ω) : ω :=
  Word.xor (Word.and x y) (Word.and (Word.not x) z)

/-- Bit by bit, what at least two of three agree on. -/
@[specialize]
def majority (x y z : ω) : ω :=
  Word.xor (Word.and x y) (Word.xor (Word.and x z) (Word.and y z))

/-- The block's own words, most significant octet first. -/
def blockWords (ω : Type) [Word ω] : (count : Nat) → Bytes → List ω
  | 0, _ => []
  | count + 1, block =>
    Word.ofNat (Bytes.toNatBE (block.take (Word.octets ω))) ::
      blockWords ω count (block.drop (Word.octets ω))

/-- The block's sixteen words, continued to one word for every round. -/
@[specialize]
def schedule (v : Variant ω) (block : Bytes) : List ω :=
  let zero : ω := Word.ofNat 0
  ((List.range (v.rounds.length - 16)).foldl (fun (w : Array ω) i =>
    w.push (Word.add (Word.add (smallMix v.small1 (w.getD (i + 14) zero)) (w.getD (i + 9) zero))
      (Word.add (smallMix v.small0 (w.getD (i + 1) zero)) (w.getD i zero))))
    (blockWords ω 16 block).toArray).toList

@[specialize]
def round (v : Variant ω) (s : State ω) (constant word : ω) : State ω :=
  let first := Word.add (Word.add s.h (largeMix v.large1 s.e))
    (Word.add (choose s.e s.f s.g) (Word.add constant word))
  let second := Word.add (largeMix v.large0 s.a) (majority s.a s.b s.c)
  ⟨Word.add first second, s.a, s.b, s.c, Word.add s.d first, s.e, s.f, s.g⟩

@[specialize]
def compress (v : Variant ω) (s : State ω) (block : Bytes) : State ω :=
  let t := (v.rounds.zip (schedule v block)).foldl (fun t (k, w) => round v t k w) s
  ⟨Word.add s.a t.a, Word.add s.b t.b, Word.add s.c t.c, Word.add s.d t.d,
    Word.add s.e t.e, Word.add s.f t.f, Word.add s.g t.g, Word.add s.h t.h⟩

/-- The carried words as octets. -/
def State.octets (s : State ω) : Bytes :=
  [s.a, s.b, s.c, s.d, s.e, s.f, s.g, s.h].flatMap fun w =>
    Bytes.ofNatBE (Word.octets ω) (Word.toNat w)

/-- Cube roots of the first eighty primes, 64 bits after the point. -/
def cubeRoots : List UInt64 :=
  [0x428a2f98d728ae22, 0x7137449123ef65cd, 0xb5c0fbcfec4d3b2f, 0xe9b5dba58189dbbc,
    0x3956c25bf348b538, 0x59f111f1b605d019, 0x923f82a4af194f9b, 0xab1c5ed5da6d8118,
    0xd807aa98a3030242, 0x12835b0145706fbe, 0x243185be4ee4b28c, 0x550c7dc3d5ffb4e2,
    0x72be5d74f27b896f, 0x80deb1fe3b1696b1, 0x9bdc06a725c71235, 0xc19bf174cf692694,
    0xe49b69c19ef14ad2, 0xefbe4786384f25e3, 0x0fc19dc68b8cd5b5, 0x240ca1cc77ac9c65,
    0x2de92c6f592b0275, 0x4a7484aa6ea6e483, 0x5cb0a9dcbd41fbd4, 0x76f988da831153b5,
    0x983e5152ee66dfab, 0xa831c66d2db43210, 0xb00327c898fb213f, 0xbf597fc7beef0ee4,
    0xc6e00bf33da88fc2, 0xd5a79147930aa725, 0x06ca6351e003826f, 0x142929670a0e6e70,
    0x27b70a8546d22ffc, 0x2e1b21385c26c926, 0x4d2c6dfc5ac42aed, 0x53380d139d95b3df,
    0x650a73548baf63de, 0x766a0abb3c77b2a8, 0x81c2c92e47edaee6, 0x92722c851482353b,
    0xa2bfe8a14cf10364, 0xa81a664bbc423001, 0xc24b8b70d0f89791, 0xc76c51a30654be30,
    0xd192e819d6ef5218, 0xd69906245565a910, 0xf40e35855771202a, 0x106aa07032bbd1b8,
    0x19a4c116b8d2d0c8, 0x1e376c085141ab53, 0x2748774cdf8eeb99, 0x34b0bcb5e19b48a8,
    0x391c0cb3c5c95a63, 0x4ed8aa4ae3418acb, 0x5b9cca4f7763e373, 0x682e6ff3d6b2b8a3,
    0x748f82ee5defb2fc, 0x78a5636f43172f60, 0x84c87814a1f0ab72, 0x8cc702081a6439ec,
    0x90befffa23631e28, 0xa4506cebde82bde9, 0xbef9a3f7b2c67915, 0xc67178f2e372532b,
    0xca273eceea26619c, 0xd186b8c721c0c207, 0xeada7dd6cde0eb1e, 0xf57d4f7fee6ed178,
    0x06f067aa72176fba, 0x0a637dc5a2c898a6, 0x113f9804bef90dae, 0x1b710b35131c471b,
    0x28db77f523047d84, 0x32caab7b40c72493, 0x3c9ebe0a15c9bebc, 0x431d67c49c100d4c,
    0x4cc5d4becb3e42b6, 0x597f299cfc657e2a, 0x5fcb6fab3ad6faec, 0x6c44198c4a475817]

def wide : Variant UInt64 where
  large0 := (28, 34, 39)
  large1 := (14, 18, 41)
  small0 := (1, 8, 7)
  small1 := (19, 61, 6)
  rounds := cubeRoots

def narrow : Variant UInt32 where
  large0 := (2, 13, 22)
  large1 := (6, 11, 25)
  small0 := (7, 18, 3)
  small1 := (17, 19, 10)
  rounds := (cubeRoots.take 64).map fun (w : UInt64) => (w >>> 32).toUInt32

/-- Square roots of the first eight primes, 64 bits after the point. -/
def start512 : State UInt64 :=
  ⟨0x6a09e667f3bcc908, 0xbb67ae8584caa73b, 0x3c6ef372fe94f82b, 0xa54ff53a5f1d36f1,
    0x510e527fade682d1, 0x9b05688c2b3e6c1f, 0x1f83d9abfb41bd6b, 0x5be0cd19137e2179⟩

/-- Square roots of the ninth to the sixteenth prime, 64 bits after the point. -/
def start384 : State UInt64 :=
  ⟨0xcbbb9d5dc1059ed8, 0x629a292a367cd507, 0x9159015a3070dd17, 0x152fecd8f70e5939,
    0x67332667ffc00b31, 0x8eb44a8768581511, 0xdb0c2e0d64f98fa7, 0x47b5481dbefa4fa4⟩

/-- Square roots of the first eight primes, 32 bits after the point. -/
def start256 : State UInt32 :=
  let top (w : UInt64) : UInt32 := (w >>> 32).toUInt32
  let s := start512
  ⟨top s.a, top s.b, top s.c, top s.d, top s.e, top s.f, top s.g, top s.h⟩

end Sha2

def sha256 : Blockwise (Sha2.State UInt32) where
  blockOctets := 64
  lengthOctets := 8
  start := Sha2.start256
  step := Sha2.compress Sha2.narrow
  octets := Sha2.State.octets

theorem length_sha256 (message : Bytes) : (sha256.digest message).length = 32 := by
  have hoctets : ∀ s : Sha2.State UInt32, s.octets.length = 32 := by
    intro s
    simp only [Sha2.State.octets, List.flatMap_cons, List.flatMap_nil, List.length_append,
      Bytes.length_ofNatBE, List.length_nil]
    rfl
  exact hoctets _

def sha384 : Blockwise (Sha2.State UInt64) where
  blockOctets := 128
  lengthOctets := 16
  start := Sha2.start384
  step := Sha2.compress Sha2.wide
  octets s := s.octets.take 48

def sha512 : Blockwise (Sha2.State UInt64) where
  blockOctets := 128
  lengthOctets := 16
  start := Sha2.start512
  step := Sha2.compress Sha2.wide
  octets := Sha2.State.octets

end JarSigners.Digest
