import JarSigners.Bytes

/-!
# Inflation

A deflated payload is blocks, each stored or written with prefix codes for literals, lengths
and distances. Codes are canonical, so a list of code lengths determines them; all words have to
be used unless there is only one code. What comes before the beginning of the output is
zero. Octets behind the last block are not looked at.
-/

set_option autoImplicit false

namespace JarSigners.Zip

/-- The bits of a deflated payload, each octet's low bit first. -/
abbrev Bits := List Bool

def bitsOf (bytes : Bytes) : Bits :=
  bytes.flatMap fun b => (List.range 8).map fun i => b.toNat.testBit i

/-- The number written by some bits, low bit first. -/
def bitsToNat (bits : Bits) : Nat :=
  bits.foldr (fun b n => n * 2 + b.toNat) 0

/-- Why inflation stopped. -/
inductive InflateEnd where
  /-- The last block ended. -/
  | complete
  /-- The payload ended first. -/
  | truncated
  /-- The payload is not deflated data from here on. -/
  | malformed
  deriving DecidableEq, Repr

/-- A step that may stop the inflation. -/
abbrev Step (α : Type) := Except InflateEnd α

def takeBits (count : Nat) (bits : Bits) : Step (Nat × Bits) :=
  let taken := bits.take count
  if taken.length = count then .ok (bitsToNat taken, bits.drop count) else .error .truncated

/-- A prefix code: a word leads to a symbol, on to longer words, or nowhere. -/
inductive Code where
  | unused
  | word (symbol : Nat)
  | branch (zero one : Code)

namespace Code

/-- Give a symbol the word of this length and number, high bit first. -/
def insert (symbol number : Nat) : (length : Nat) → Code → Code
  | 0, _ => .word symbol
  | length + 1, code =>
    let (zero, one) := match code with
      | branch zero one => (zero, one)
      | _ => (.unused, .unused)
    if number.testBit length then branch zero (insert symbol number length one)
    else branch (insert symbol number length zero) one

/-- The symbol whose word comes next. -/
def next : Code → Bits → Step (Nat × Bits)
  | unused, _ => .error .malformed
  | word symbol, bits => .ok (symbol, bits)
  | branch _ _, [] => .error .truncated
  | branch zero one, b :: bits => if b then one.next bits else zero.next bits

/-- The longest word. -/
def maxLength : Nat := 15

/-- Give words of one length to the symbols that have it, from a first number on; the number
after the last one is returned doubled, as the first for the next length. -/
def insertLength (lengths : List Nat) (length : Nat) (state : Nat × Code) : Nat × Code :=
  let (number, code) := lengths.zipIdx.foldl (fun (number, code) (l, symbol) =>
    if l = length then (number + 1, insert symbol number length code) else (number, code)) state
  (number * 2, code)

/-- The canonical code with these lengths, zero for symbols without a word. -/
def ofLengths? (lengths : List Nat) : Option Code :=
  let used := lengths.filter (· ≠ 0)
  let room := used.foldl (fun room l => room + Nat.pow 2 (maxLength - l)) 0
  if room ≠ Nat.pow 2 maxLength && used.length > 1 then none
  else
    some (((List.range maxLength).foldl (fun state l => insertLength lengths (l + 1) state)
      (0, .unused)).2)

/-- The code with these lengths, or a stop. -/
def ofLengths (lengths : List Nat) : Step Code :=
  match ofLengths? lengths with
  | some code => .ok code
  | none => .error .malformed

end Code

/-- The shortest length of a length symbol and how many bits are added to it. -/
def lengthBases : List (Nat × Nat) :=
  [(3, 0), (4, 0), (5, 0), (6, 0), (7, 0), (8, 0), (9, 0), (10, 0), (11, 1), (13, 1), (15, 1),
   (17, 1), (19, 2), (23, 2), (27, 2), (31, 2), (35, 3), (43, 3), (51, 3), (59, 3), (67, 4),
   (83, 4), (99, 4), (115, 4), (131, 5), (163, 5), (195, 5), (227, 5), (258, 0)]

/-- The shortest distance of a distance symbol and how many bits are added to it. -/
def distanceBases : List (Nat × Nat) :=
  [(1, 0), (2, 0), (3, 0), (4, 0), (5, 1), (7, 1), (9, 2), (13, 2), (17, 3), (25, 3), (33, 4),
   (49, 4), (65, 5), (97, 5), (129, 6), (193, 6), (257, 7), (385, 7), (513, 8), (769, 8),
   (1025, 9), (1537, 9), (2049, 10), (3073, 10), (4097, 11), (6145, 11), (8193, 12),
   (12289, 12), (16385, 13), (24577, 13)]

/-- The number that a symbol and the bits behind it stand for. -/
def extended (bases : List (Nat × Nat)) (symbol : Nat) (bits : Bits) : Step (Nat × Bits) :=
  match bases[symbol]? with
  | none => .error .malformed
  | some (base, count) => (takeBits count bits).map fun (more, rest) => (base + more, rest)

/-- Repeat what stands `distance` octets back. -/
def copyBack (distance : Nat) : (length : Nat) → Array UInt8 → Array UInt8
  | 0, out => out
  | length + 1, out =>
    let b := if distance ≤ out.size then out.getD (out.size - distance) 0 else 0
    copyBack distance length (out.push b)

/-- What a symbol adds to the output. -/
inductive Token where
  | literal (b : UInt8)
  | repetition (length distance : Nat)
  | blockEnd

def nextToken (literals distances : Code) (bits : Bits) : Step (Token × Bits) := do
  let (symbol, bits) ← literals.next bits
  if symbol < 256 then .ok (.literal symbol.toUInt8, bits)
  else if symbol = 256 then .ok (.blockEnd, bits)
  else
    let (length, bits) ← extended lengthBases (symbol - 257) bits
    let (symbol, bits) ← distances.next bits
    let (distance, bits) ← extended distanceBases symbol bits
    .ok (.repetition length distance, bits)

/-- The output so far, and the bits behind the block or why there are none. -/
abbrev BlockResult := Array UInt8 × Step Bits

/-- The tokens of a block; every token takes at least one bit of `fuel`. -/
def inflateTokens (literals distances : Code) :
    (fuel : Nat) → Bits → Array UInt8 → BlockResult
  | 0, _, out => (out, .error .truncated)
  | fuel + 1, bits, out =>
    match nextToken literals distances bits with
    | .error stop => (out, .error stop)
    | .ok (.literal b, rest) => inflateTokens literals distances fuel rest (out.push b)
    | .ok (.repetition length distance, rest) =>
      inflateTokens literals distances fuel rest (copyBack distance length out)
    | .ok (.blockEnd, rest) => (out, .ok rest)

/-- Octets from bits, as many as there are up to a count. -/
def octetsOf : (count : Nat) → Bits → Array UInt8 → BlockResult
  | 0, bits, out => (out, .ok bits)
  | count + 1, bits, out =>
    match takeBits 8 bits with
    | .error stop => (out, .error stop)
    | .ok (b, rest) => octetsOf count rest (out.push b.toUInt8)

/-- A stored block begins at an octet with its length and the complement of that. -/
def inflateStored (bits : Bits) (out : Array UInt8) : BlockResult :=
  let header : Step (Nat × Bits) := do
    let (length, bits) ← takeBits 16 (bits.drop (bits.length % 8))
    let (complement, bits) ← takeBits 16 bits
    if length + complement = 65535 then .ok (length, bits) else .error .malformed
  match header with
  | .error stop => (out, .error stop)
  | .ok (length, bits) => octetsOf length bits out

/-- The code lengths of literals in a block with fixed codes. -/
def fixedLiteralLengths : List Nat :=
  List.replicate 144 8 ++ List.replicate 112 9 ++ List.replicate 24 7 ++ List.replicate 8 8

def fixedDistanceLengths : List Nat :=
  List.replicate 32 5

/-- The order in which the lengths of length codes are written. -/
def lengthCodeOrder : List Nat :=
  [16, 17, 18, 0, 8, 7, 9, 6, 10, 5, 11, 4, 12, 3, 13, 2, 14, 1, 15]

def takeMany (width : Nat) : (count : Nat) → Bits → Step (List Nat × Bits)
  | 0, bits => .ok ([], bits)
  | count + 1, bits => do
    let (n, bits) ← takeBits width bits
    let (rest, bits) ← takeMany width count bits
    .ok (n :: rest, bits)

/-- Code lengths, with runs written shortly; `done` holds those read, newest first. Every run
takes at least one bit of `fuel`. -/
def codeLengths (code : Code) (count : Nat) :
    (fuel : Nat) → Bits → List Nat → Step (List Nat × Bits)
  | 0, _, _ => .error .truncated
  | fuel + 1, bits, done =>
    if done.length = count then .ok (done.reverse, bits)
    else if count < done.length then .error .malformed
    else do
      let (symbol, bits) ← code.next bits
      if symbol < 16 then codeLengths code count fuel bits (symbol :: done)
      else if symbol = 16 then
        match done with
        | [] => .error .malformed
        | last :: _ =>
          let (n, bits) ← takeBits 2 bits
          codeLengths code count fuel bits (List.replicate (3 + n) last ++ done)
      else if symbol = 17 then
        let (n, bits) ← takeBits 3 bits
        codeLengths code count fuel bits (List.replicate (3 + n) 0 ++ done)
      else
        let (n, bits) ← takeBits 7 bits
        codeLengths code count fuel bits (List.replicate (11 + n) 0 ++ done)

/-- The two codes that a block with its own codes begins with. -/
def dynamicCodes (bits : Bits) : Step (Code × Code × Bits) := do
  let (literalCount, bits) ← takeBits 5 bits
  let (distanceCount, bits) ← takeBits 5 bits
  let (lengthCount, bits) ← takeBits 4 bits
  let literalCount := literalCount + 257
  let distanceCount := distanceCount + 1
  if 286 < literalCount || 30 < distanceCount then .error .malformed
  else
    let (written, bits) ← takeMany 3 (lengthCount + 4) bits
    let placed := lengthCodeOrder.zip written
    let lengths := (List.range 19).map fun n =>
      ((placed.find? fun p => p.1 = n).map Prod.snd).getD 0
    let code ← Code.ofLengths lengths
    let (all, bits) ←
      codeLengths code (literalCount + distanceCount) (bits.length + 1) bits []
    let literals ← Code.ofLengths (all.take literalCount)
    let distances ← Code.ofLengths (all.drop literalCount)
    .ok (literals, distances, bits)

def inflateDynamic (bits : Bits) (out : Array UInt8) : BlockResult :=
  match dynamicCodes bits with
  | .error stop => (out, .error stop)
  | .ok (literals, distances, bits) =>
    inflateTokens literals distances (bits.length + 1) bits out

def inflateFixed (bits : Bits) (out : Array UInt8) : BlockResult :=
  match Code.ofLengths fixedLiteralLengths, Code.ofLengths fixedDistanceLengths with
  | .ok literals, .ok distances => inflateTokens literals distances (bits.length + 1) bits out
  | _, _ => (out, .error .malformed)

/-- A block of the kind that two bits have told. -/
def inflateBlock (kind : Nat) (bits : Bits) (out : Array UInt8) : BlockResult :=
  match kind with
  | 0 => inflateStored bits out
  | 1 => inflateFixed bits out
  | 2 => inflateDynamic bits out
  | _ => (out, .error .malformed)

/-- Blocks up to the last one; every block takes at least one bit of `fuel`. -/
def inflateBlocks : (fuel : Nat) → Bits → Array UInt8 → Array UInt8 × InflateEnd
  | 0, _, out => (out, .truncated)
  | fuel + 1, bits, out =>
    match takeBits 1 bits with
    | .error stop => (out, stop)
    | .ok (last, rest) =>
      match takeBits 2 rest with
      | .error stop => (out, stop)
      | .ok (kind, rest) =>
        match inflateBlock kind rest out with
        | (out, .error stop) => (out, stop)
        | (out, .ok rest) => if last = 1 then (out, .complete) else inflateBlocks fuel rest out

/-- The octets that a deflated payload stands for, and why they end. -/
def inflate (bytes : Bytes) : Bytes × InflateEnd :=
  let bits := bitsOf bytes
  let (out, ending) := inflateBlocks (bits.length + 1) bits #[]
  (out.toList, ending)

end JarSigners.Zip
