import JarSigners.Digest.Blockwise

/-!
# SHA-1

Eighty rounds in four groups of twenty, each group with its own mixing function and constant.
-/

set_option autoImplicit false

namespace JarSigners.Digest.Sha1

/-- The five words carried from block to block. -/
structure State where
  a : UInt32
  b : UInt32
  c : UInt32
  d : UInt32
  e : UInt32

def rotateLeft (w n : UInt32) : UInt32 :=
  (w <<< n) ||| (w >>> (32 - n))

/-- The block's sixteen words, most significant octet first. -/
def blockWords : (count : Nat) → Bytes → List UInt32
  | 0, _ => []
  | count + 1, block =>
    (Bytes.toNatBE (block.take 4)).toUInt32 :: blockWords count (block.drop 4)

/-- The block's words, continued to one word for every round. -/
def schedule (block : Bytes) : List UInt32 :=
  ((List.range 64).foldl (fun (w : Array UInt32) i =>
    w.push (rotateLeft
      (w.getD (i + 13) 0 ^^^ w.getD (i + 8) 0 ^^^ w.getD (i + 2) 0 ^^^ w.getD i 0) 1))
    (blockWords 16 block).toArray).toList

/-- The mixing function and the constant of round `t`. -/
def mix (t : Nat) (b c d : UInt32) : UInt32 × UInt32 :=
  if t < 20 then ((b &&& c) ||| (~~~b &&& d), 0x5A827999)
  else if t < 40 then (b ^^^ c ^^^ d, 0x6ED9EBA1)
  else if t < 60 then ((b &&& c) ||| (b &&& d) ||| (c &&& d), 0x8F1BBCDC)
  else (b ^^^ c ^^^ d, 0xCA62C1D6)

def round (s : State) (t : Nat) (word : UInt32) : State :=
  let (mixed, constant) := mix t s.b s.c s.d
  ⟨rotateLeft s.a 5 + mixed + s.e + constant + word, s.a, rotateLeft s.b 30, s.c, s.d⟩

def compress (s : State) (block : Bytes) : State :=
  let t := ((List.range 80).zip (schedule block)).foldl (fun t (i, w) => round t i w) s
  ⟨s.a + t.a, s.b + t.b, s.c + t.c, s.d + t.d, s.e + t.e⟩

def start : State :=
  ⟨0x67452301, 0xEFCDAB89, 0x98BADCFE, 0x10325476, 0xC3D2E1F0⟩

def State.octets (s : State) : Bytes :=
  [s.a, s.b, s.c, s.d, s.e].flatMap fun w => Bytes.ofNatBE 4 w.toNat

end Sha1

def sha1 : Blockwise Sha1.State where
  blockOctets := 64
  lengthOctets := 8
  start := Sha1.start
  step := Sha1.compress
  octets := Sha1.State.octets

end JarSigners.Digest
