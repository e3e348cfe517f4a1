import JarSigners.Signing.Signer

/-!
# Sample signers

Numbered signers to try signing with. Equal numbers give equal signers and different numbers
different certificates; keys on the curve differ as well, while all RSA signers have one key.
-/

set_option autoImplicit false

namespace JarSigners.Signer

/-- A key for samples only. -/
def sampleRsaKey : SigningKey :=
  .rsa
    ⟨0xc232cd6e25636838a76cc30becf54373ac4deab1a63ddf8eb27c82a4a228b63cb94880c95718232ac9d8610ea9b793e316c1b7c16baea565e5cdf80dabc457cfeddbc8e3c4b174f8689ded83f6a63fe9194fe7ce8b0e3df89f75e02df0621b7784a016e2d08c32537a637bfb8c3ff3cbc83b358bbb597528d319574575e7a75cca37b653fc4888ac460f673ed472a6c6dd3ac13d87dbefae2ca55da95c8ccd421c6fb910df79dda447e919ab64ddcedd4af139088d94a65cb3abb32d06a0d58594eb28082820aebde79715ec93953d700d68aea45115278ac7071159eb875cf393a5feb77310d1293531f1bee356332cdc237af2168178177d9d0f69722bae93,
      65537⟩
    0x2536f51529870e3ee51ebb95fa77d9d03df1c48afcaf98bad0cb7981b12d9a16b2ef08f70c80aca4937faac1d3964179e02f8956409b7c48b5ac2ddff8cdac824533bc20a1dddbeb8aa8d10e5be2ea16726a54a2c915169d2179c657275cb5a4c6bea3041e30efa7fda938e630af44ba058a0b2dd6de42cc6affcd309b72a428973c55647b559d334082f248ba282547b1804b94c0667985e55d7a77576b5f0122ae2e3180a80375a0bcf773bf00cafd3203796fb5fc2864240bc38e335fffcb7938932ce1020c030f13117d07461ac6065c97b805a4a35fcad22ec6e18507d81f58900b8522d97a9031a9432dfcebbed380d2ab0a6b3839977d0774308da811

/-- A number on the curve that belongs to the number of a signer. -/
def sampleSecret (number : Nat) : Nat :=
  1 + Bytes.toNatBE (Digest.sha256.digest (Bytes.ofNatBE 8 number)) %
    (PublicKey.p256.order - 1)

def sampleKey (number : Nat) : KeyKind → SigningKey
  | .rsa => sampleRsaKey
  | .ec => (SigningKey.ec? (sampleSecret number)).getD sampleRsaKey

/-- A serial number; different numbers below two to the 48th give different ones. -/
def sampleSerial (number : Nat) : Asn1.Integer :=
  ⟨0x41 :: 0x53 :: Bytes.ofNatBE 6 number⟩

/-- A signer with a number, of a name given by pairs. -/
def sample (number : Nat) (keyName : String) (pairs : List (String × String)) (kind : KeyKind) :
    Except DraftError Signer :=
  (DistinguishedName.ofPairs pairs).map fun name =>
    .issue keyName (sampleSerial number) name (sampleKey number kind)

end JarSigners.Signer
