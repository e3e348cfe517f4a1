import JarSigners.Proofs.Text.Caseless
import JarSigners.Proofs.Text.Utf8

/-!
# Slices of a text

A slice is asked for by the octet at which a text is cut, and there is none where that octet is
beyond the end or within a character. The parts that make up a text are found by the octets of the
first (`cutAtOctet?_append`), and texts that are alike have as many octets
(`utf8ByteSize_eq_of_alike`); so counting octets finds the parts that counting characters does.
-/

set_option autoImplicit false

namespace JarSigners.Text

/-! ### Cuts at octets -/

/-- Whether a text can be cut at this octet: where a character begins, or at the end. -/
def isBoundary (text : String) (octet : Nat) : Bool :=
  String.Pos.Raw.isValid text ⟨octet⟩

/-- What stands before and behind a place where a text can be cut. -/
def parts {text : String} (cut : text.Pos) : String × String :=
  ((text.sliceTo cut).copy, (text.sliceFrom cut).copy)

/-- The slices of a text before and behind an octet, if it can be cut there. -/
def cutAtOctet? (text : String) (octet : Nat) : Option (String × String) :=
  if h : String.Pos.Raw.IsValid text ⟨octet⟩ then some (parts ⟨⟨octet⟩, h⟩) else none

def sliceTo? (text : String) (octet : Nat) : Option String :=
  (cutAtOctet? text octet).map Prod.fst

def sliceFrom? (text : String) (octet : Nat) : Option String :=
  (cutAtOctet? text octet).map Prod.snd

variable {text front back : String} {octet : Nat}

theorem parts_eq {cut : text.Pos} (h : cut.Splits front back) : parts cut = (front, back) := by
  rw [parts, h.copy_sliceTo_eq, h.copy_sliceFrom_eq]

/-- The parts that make up a text are its slices where the first of them ends. -/
theorem cutAtOctet?_append (front back : String) :
    cutAtOctet? (front ++ back) front.utf8ByteSize = some (front, back) := by
  have hvalid : String.Pos.Raw.IsValid (front ++ back) ⟨front.utf8ByteSize⟩ :=
    String.Pos.Raw.isValid_rawEndPos.append_right back
  rw [cutAtOctet?, dif_pos hvalid, parts_eq ⟨rfl, rfl⟩]

theorem sliceTo?_append (front back : String) :
    sliceTo? (front ++ back) front.utf8ByteSize = some front := by
  rw [sliceTo?, cutAtOctet?_append, Option.map_some]

theorem sliceFrom?_append (front back : String) :
    sliceFrom? (front ++ back) front.utf8ByteSize = some back := by
  rw [sliceFrom?, cutAtOctet?_append, Option.map_some]

/-- A text is cut into two parts that make it up, the first of them with the octets before the
cut. -/
theorem cutAtOctet?_eq_some_iff :
    cutAtOctet? text octet = some (front, back) ↔
      text = front ++ back ∧ front.utf8ByteSize = octet := by
  constructor
  · intro h
    rw [cutAtOctet?] at h
    split at h
    next hvalid =>
      cases h
      have hsplits := String.Pos.splits (⟨⟨octet⟩, hvalid⟩ : text.Pos)
      exact ⟨hsplits.eq_append, (congrArg String.Pos.Raw.byteIdx hsplits.offset_eq_rawEndPos).symm⟩
    next => cases h
  · rintro ⟨rfl, rfl⟩
    exact cutAtOctet?_append front back

/-- A text can be cut where one of its parts ends, and nowhere else. -/
theorem isBoundary_iff :
    isBoundary text octet = true ↔
      ∃ front back, text = front ++ back ∧ front.utf8ByteSize = octet := by
  simp only [← cutAtOctet?_eq_some_iff, isBoundary, String.Pos.Raw.isValid_eq_true_iff, cutAtOctet?]
  constructor
  · intro hvalid
    exact ⟨_, _, dif_pos hvalid⟩
  · rintro ⟨front, back, h⟩
    by_contra hnot
    rw [dif_neg hnot] at h
    cases h

/-! ### Numbers of octets -/

theorem length_utf8 (text : String) : (utf8 text).length = text.utf8ByteSize := by
  rw [utf8, ByteArray.toList, toList_loop_eq]
  rfl

/-- A letter takes one octet, capital or small. -/
theorem utf8Size_toLower (c : Char) : c.toLower.utf8Size = c.utf8Size := by
  have hsmall : ∀ d : Char, d.toNat < 128 → d.utf8Size = 1 := by
    intro d hd
    rw [← String.length_utf8EncodeChar, encodeChar_of_small hd, List.length_singleton]
  have hlower := toNat_toLower c
  split at hlower
  next hcapital => rw [hsmall c (by omega), hsmall c.toLower (by omega)]
  next => rw [Char.toNat_inj.1 hlower]

/-- Folding a text leaves its number of octets as it is. -/
theorem length_encode_folded (text : List Char) :
    ((folded text).flatMap String.utf8EncodeChar).length =
      (text.flatMap String.utf8EncodeChar).length := by
  induction text with
  | nil => rfl
  | cons c rest ih =>
    have hcons : folded (c :: rest) = c.toLower :: folded rest := rfl
    rw [hcons, List.flatMap_cons, List.flatMap_cons, List.length_append, List.length_append, ih,
      String.length_utf8EncodeChar, String.length_utf8EncodeChar, utf8Size_toLower]

/-- Texts that are alike have the same number of octets. -/
theorem utf8ByteSize_eq_of_alike {a b : String} (h : alike a b = true) :
    a.utf8ByteSize = b.utf8ByteSize := by
  rw [← length_utf8, ← length_utf8, utf8_eq, utf8_eq, ← length_encode_folded,
    ← length_encode_folded b.toList, alike_iff.1 h]

end JarSigners.Text
