import JarSigners.Asn1.Element

/-!
# The order of a set

The members of a set have an order of their own, whatever order they were written in. Members
are compared part by part, each part by its octets. Where a part is optional and both members
leave it out, the comparison ends and the member written first stays first; only members
that have been compared to the end can turn out to be the same, which a set does not allow.
-/

set_option autoImplicit false

namespace JarSigners.Asn1

/-- What a member is compared by, part by part; `none` is a part that is left out. -/
abbrev Rank := List (Option Bytes)

/-- Compare octets: the first that differs decides, and a proper beginning comes first. -/
def compareOctets : Bytes → Bytes → Ordering
  | [], [] => .eq
  | [], _ :: _ => .lt
  | _ :: _, [] => .gt
  | a :: as, b :: bs => if a < b then .lt else if b < a then .gt else compareOctets as bs

/-- Compare the rank of a member with that of a later one. A part that is left out comes before
one that is there. -/
def compareRanks : Rank → Rank → Ordering
  | [], [] => .eq
  | [], _ :: _ => .lt
  | _ :: _, [] => .gt
  | none :: _, none :: _ => .lt
  | none :: _, some _ :: _ => .lt
  | some _ :: _, none :: _ => .gt
  | some a :: as, some b :: bs =>
    match compareOctets a b with
    | .eq => compareRanks as bs
    | decided => decided

/-- Put a member among those before it, which are in order, last first. -/
def placeMember? {α : Type} (rank : α → Rank) (x : α) : List α → Option (List α)
  | [] => some [x]
  | y :: rest =>
    match compareRanks (rank y) (rank x) with
    | .lt => some (x :: y :: rest)
    | .eq => none
    | .gt => (placeMember? rank x rest).map (y :: ·)

/-- The members of a set in order, unless two are the same. -/
def setOf? {α : Type} (rank : α → Rank) (items : List α) : Option (List α) :=
  (items.foldlM (fun placed x => placeMember? rank x placed) []).map List.reverse

/-- An element as a whole is compared by its encoding. -/
def Element.rank (e : Element) : Rank := [some e.encode]

/-- An element that can be of several kinds is compared by tag and length, then by how many
octets of its encoding have their high bit set, and then by its encoding. -/
def Element.variantRank (e : Element) : Rank :=
  let high := (e.encode.filter fun b => 0x80 ≤ b).length
  [some e.opening, some (Bytes.ofNatBE 4 high), some e.encode]

/-- A part that may be left out. -/
def optionalRank {α : Type} (rank : α → Rank) : Option α → Rank
  | none => [none]
  | some x => rank x

end JarSigners.Asn1
