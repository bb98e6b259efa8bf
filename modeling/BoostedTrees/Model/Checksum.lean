/-!
# Checksums

The reflected cyclic redundancy check of thirty-two bits with the polynomial
`0xedb88320`, one bit at a time: the register starts with all bits set, takes each
byte into its low end, and is inverted at the end.
-/

namespace BoostedTrees.Checksum

/-- One step of the register: a bit that is shifted out adds the polynomial. -/
def shiftBit (register : UInt32) : UInt32 :=
  if register &&& 1 = 1 then (register >>> 1) ^^^ 0xedb88320 else register >>> 1

/-- Eight steps of the register. -/
def shiftByte (register : UInt32) : UInt32 :=
  (List.range 8).foldl (fun r _ => shiftBit r) register

/-- The register after one more byte. -/
def addByte (register : UInt32) (b : UInt8) : UInt32 := shiftByte (register ^^^ b.toUInt32)

/-- The checksum of bytes. -/
def crc32 (bytes : List UInt8) : UInt32 := bytes.foldl addByte 0xffffffff ^^^ 0xffffffff

-- The digits from one to nine, as the check value of this code is given.
example : crc32 [0x31, 0x32, 0x33, 0x34, 0x35, 0x36, 0x37, 0x38, 0x39] = 0xcbf43926 := by
  decide +kernel

end BoostedTrees.Checksum
