import JarSigners.Bytes

/-!
# Digests that take a message block by block

SHA-1 and SHA-2 carry a state from block to block, and end a message with a marker, zeros and
its length in bits. `Blockwise.digest` hashes a whole message; `Blockwise.Progress` takes it
in pieces of any size. The two give the same octets however the message is cut
(`finish_feed_all`).
-/

set_option autoImplicit false

namespace JarSigners.Digest

/-- A digest's block size, the size of the length at its end, and what it does to a block. -/
structure Blockwise (σ : Type) where
  blockOctets : Nat
  lengthOctets : Nat
  start : σ
  step : σ → Bytes → σ
  octets : σ → Bytes

namespace Blockwise

variable {σ : Type}

/-- What is put behind a message of `length` octets: a marker bit, zeros up to the end of a
block, and the length in bits. -/
def padding (d : Blockwise σ) (length : Nat) : Bytes :=
  let used := (length + 1 + d.lengthOctets) % d.blockOctets
  0x80 :: List.replicate ((d.blockOctets - used) % d.blockOctets) 0 ++
    Bytes.ofNatBE d.lengthOctets (length * 8)

/-- The state after `count` blocks, and the octets behind them. -/
def absorb (d : Blockwise σ) : (count : Nat) → σ → Bytes → σ × Bytes
  | 0, s, rest => (s, rest)
  | count + 1, s, rest =>
    absorb d count (d.step s (rest.take d.blockOctets)) (rest.drop d.blockOctets)

/-- The state after all whole blocks, and the octets that fill none. -/
def absorbWhole (d : Blockwise σ) (s : σ) (bytes : Bytes) : σ × Bytes :=
  absorb d (bytes.length / d.blockOctets) s bytes

/-- The digest of a whole message. -/
def digest (d : Blockwise σ) (message : Bytes) : Bytes :=
  d.octets (absorbWhole d d.start (message ++ d.padding message.length)).1

/-- A message of which some octets have been seen: the state after its whole blocks, the
octets behind them, and how many there were altogether. -/
structure Progress (σ : Type) where
  state : σ
  pending : Bytes
  seen : Nat

def begin (d : Blockwise σ) : Progress σ :=
  ⟨d.start, [], 0⟩

/-- Take the next piece of the message. -/
def feed (d : Blockwise σ) (p : Progress σ) (piece : Bytes) : Progress σ :=
  let (state, pending) := absorbWhole d p.state (p.pending ++ piece)
  ⟨state, pending, p.seen + piece.length⟩

/-- The digest of the message seen so far. -/
def finish (d : Blockwise σ) (p : Progress σ) : Bytes :=
  d.octets (absorbWhole d p.state (p.pending ++ d.padding p.seen)).1

/-- Blocks are cut off from the front alone. -/
theorem absorb_append (d : Blockwise σ) (count : Nat) (s : σ) (bytes more : Bytes)
    (h : count * d.blockOctets ≤ bytes.length) :
    absorb d count s (bytes ++ more) =
      ((absorb d count s bytes).1, (absorb d count s bytes).2 ++ more) := by
  induction count generalizing s bytes with
  | zero => rfl
  | succ count ih =>
    rw [Nat.succ_mul] at h
    have hb : d.blockOctets ≤ bytes.length := by omega
    simp only [absorb]
    rw [List.take_append_of_le_length hb, List.drop_append_of_le_length hb]
    exact ih _ _ (by simp only [List.length_drop]; omega)

theorem absorb_add (d : Blockwise σ) (m n : Nat) (s : σ) (bytes : Bytes) :
    absorb d (m + n) s bytes =
      absorb d n (absorb d m s bytes).1 (absorb d m s bytes).2 := by
  induction m generalizing s bytes with
  | zero => simp [absorb]
  | succ m ih =>
    rw [Nat.succ_add]
    simp only [absorb]
    exact ih _ _

theorem length_absorb (d : Blockwise σ) (count : Nat) (s : σ) (bytes : Bytes) :
    (absorb d count s bytes).2.length = bytes.length - count * d.blockOctets := by
  induction count generalizing s bytes with
  | zero => simp [absorb]
  | succ count ih =>
    simp only [absorb, ih, List.length_drop, Nat.succ_mul]
    omega

/-- Taking a message in two parts leaves the state and the rest that taking it whole does. -/
theorem absorbWhole_append (d : Blockwise σ) (hpos : 0 < d.blockOctets) (s : σ)
    (bytes more : Bytes) :
    absorbWhole d s (bytes ++ more) =
      absorbWhole d (absorbWhole d s bytes).1 ((absorbWhole d s bytes).2 ++ more) := by
  have hfit : bytes.length / d.blockOctets * d.blockOctets ≤ bytes.length :=
    Nat.div_mul_le_self _ _
  have hlen := length_absorb d (bytes.length / d.blockOctets) s bytes
  have hcount : (bytes ++ more).length / d.blockOctets =
      bytes.length / d.blockOctets +
        ((absorbWhole d s bytes).2 ++ more).length / d.blockOctets := by
    simp only [absorbWhole, List.length_append, hlen]
    have hsplit : bytes.length + more.length =
        (bytes.length - bytes.length / d.blockOctets * d.blockOctets + more.length) +
          bytes.length / d.blockOctets * d.blockOctets := by omega
    rw [hsplit, Nat.add_mul_div_right _ _ hpos]
    omega
  rw [absorbWhole, hcount, absorb_add, absorb_append d _ _ _ _ hfit]
  rfl

theorem finish_feed (d : Blockwise σ) (hpos : 0 < d.blockOctets) (message piece : Bytes)
    (p : Progress σ) (hstate : (p.state, p.pending) = absorbWhole d d.start message)
    (hseen : p.seen = message.length) :
    ((d.feed p piece).state, (d.feed p piece).pending) =
        absorbWhole d d.start (message ++ piece) ∧
      (d.feed p piece).seen = (message ++ piece).length := by
  rw [absorbWhole_append d hpos, ← hstate]
  simp [feed, hseen]

/-- A message taken in pieces has the digest of the whole message. -/
theorem finish_feed_all (d : Blockwise σ) (hpos : 0 < d.blockOctets) (pieces : List Bytes) :
    d.finish (pieces.foldl d.feed d.begin) = d.digest pieces.flatten := by
  have inv : ∀ (pieces : List Bytes) (message : Bytes) (p : Progress σ),
      (p.state, p.pending) = absorbWhole d d.start message → p.seen = message.length →
      d.finish (pieces.foldl d.feed p) = d.digest (message ++ pieces.flatten) := by
    intro pieces
    induction pieces with
    | nil =>
      intro message p hstate hseen
      simp only [List.foldl_nil, List.flatten_nil, List.append_nil, finish, digest]
      rw [absorbWhole_append d hpos d.start message, ← hstate, hseen]
    | cons piece pieces ih =>
      intro message p hstate hseen
      obtain ⟨h1, h2⟩ := finish_feed d hpos message piece p hstate hseen
      rw [List.foldl_cons, ih (message ++ piece) _ h1 h2]
      simp [List.append_assoc]
  simpa using inv pieces [] d.begin
    (by simp [begin, absorbWhole, absorb]) (by simp [begin])

end Blockwise

end JarSigners.Digest
