import JarSigners.Bytes

/-!
# CRC-32

The check value that stands beside every payload of an archive.
-/

set_option autoImplicit false

namespace JarSigners.Zip

/-- One step of division by the reversed polynomial. -/
def crcStep (r : UInt32) : UInt32 :=
  if r &&& 1 = 1 then (r >>> 1) ^^^ 0xEDB88320 else r >>> 1

/-- The remainder of a single octet. -/
def crcOfOctet (b : UInt32) : UInt32 :=
  crcStep (crcStep (crcStep (crcStep (crcStep (crcStep (crcStep (crcStep b)))))))

/-- The remainders of all octets. -/
def crcTable : Array UInt32 :=
  (Array.range 256).map fun n => crcOfOctet n.toUInt32

def crc32 (bytes : Bytes) : UInt32 :=
  let r := bytes.foldl (fun (r : UInt32) b =>
    (r >>> 8) ^^^ crcTable.getD ((r ^^^ b.toUInt32) &&& 0xFF).toNat 0) 0xFFFFFFFF
  r ^^^ 0xFFFFFFFF

end JarSigners.Zip
