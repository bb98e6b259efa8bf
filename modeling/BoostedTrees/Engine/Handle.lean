import BoostedTrees.Text.Ascii

/-!
# Handles

An engine names each of its models by a handle, a word that is not zero.
-/

namespace BoostedTrees

structure Handle where
  raw : UInt64
  raw_ne_zero : raw ≠ 0
deriving DecidableEq

namespace Handle

/-- The handle of a word, unless it is zero. -/
def ofRaw? (raw : UInt64) : Option Handle :=
  if h : raw ≠ 0 then some ⟨raw, h⟩ else none

/-- The handle as a hexadecimal number. -/
def text (h : Handle) : String := "0x" ++ String.ofList (Nat.toDigits 16 h.raw.toNat)

end Handle

end BoostedTrees
