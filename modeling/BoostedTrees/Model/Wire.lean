import BoostedTrees.Number.Single
import BoostedTrees.Dictionary
import BoostedTrees.Text.Ascii

/-!
# The binary wire form

Whole numbers are written seven bits to a byte, lowest first, with the high bit set
in all bytes but the last; signed ones are folded onto the naturals first, so that
small magnitudes stay short. Numbers in single precision take four bytes, lowest
first, truth values one. Lists, texts and dictionaries start with their length.
Records are their fields in order.

Reading takes a value off the front of the bytes. It accepts more than is written:
a number may have more bytes than it needs, as long as it fits its width.
-/

namespace BoostedTrees.Wire

abbrev Bytes := List UInt8

/-! ## Writing -/

/-- A natural, seven bits to a byte. -/
def varint (n : Nat) : Bytes :=
  if n < 0x80 then [n.toUInt8] else (n % 0x80 + 0x80).toUInt8 :: varint (n / 0x80)
termination_by n
decreasing_by omega

def uint32 (n : UInt32) : Bytes := varint n.toNat

def uint64 (n : UInt64) : Bytes := varint n.toNat

/-- The fold of the integers onto the naturals: `0, -1, 1, -2, …`. -/
def fold (n : Int) : Nat := if n < 0 then 2 * n.natAbs - 1 else 2 * n.natAbs

/-- The integer that a natural is the fold of. -/
def unfold (n : Nat) : Int := if n % 2 = 0 then n / 2 else -(n / 2 : Int) - 1

@[simp] theorem unfold_fold (n : Int) : unfold (fold n) = n := by
  unfold unfold fold
  split <;> split <;> omega

def int32 (n : Int32) : Bytes := varint (fold n.toInt)

/-- A word of thirty-two bits, lowest byte first. -/
def word (w : UInt32) : Bytes :=
  [w.toUInt8, (w >>> 8).toUInt8, (w >>> 16).toUInt8, (w >>> 24).toUInt8]

def single (x : Single) : Bytes := word x.bits

def bool (b : Bool) : Bytes := [if b then 1 else 0]

def list {α : Type} (item : α → Bytes) (items : List α) : Bytes :=
  varint items.length ++ items.flatMap item

def text (t : String) : Bytes :=
  let bytes := Text.utf8 t
  varint bytes.length ++ bytes

def dictionary {α : Type} (value : α → Bytes) (d : Dictionary α) : Bytes :=
  list (fun (k, v) => text k ++ value v) d.entries

/-! ## Reading -/

/-- Takes a value off the front of bytes. -/
abbrev Reader (α : Type) := Bytes → Option (α × Bytes)

namespace Reader

variable {α β : Type}

/-- A value that takes no bytes. -/
def pure (a : α) : Reader α := fun bytes => some (a, bytes)

/-- One value after another, the second depending on the first. -/
def bind (r : Reader α) (next : α → Reader β) : Reader β := fun bytes =>
  match r bytes with
  | some (a, rest) => next a rest
  | none => none

instance : Monad Reader where
  pure := pure
  bind := bind

/-- A natural below `2 ^ width`, in at most `count` bytes of seven bits. -/
def varintWithin : (count width : Nat) → Reader Nat
  | 0, _, _ => none
  | _ + 1, _, [] => none
  | count + 1, width, b :: bytes =>
    let low := b.toNat % 0x80
    if b.toNat < 0x80 then
      if low < Nat.pow 2 width then some (low, bytes) else none
    else
      match varintWithin count (width - 7) bytes with
      | some (high, rest) => some (low + 0x80 * high, rest)
      | none => none

/-- A natural of the given width in bits. -/
def varint (width : Nat) : Reader Nat := varintWithin ((width + 6) / 7) width

def uint32 : Reader UInt32 := do return UInt32.ofNat (← varint 32)

def uint64 : Reader UInt64 := do return UInt64.ofNat (← varint 64)

def int32 : Reader Int32 := do return Int32.ofInt (Wire.unfold (← varint 32))

/-- A word of thirty-two bits, lowest byte first. -/
def word : Reader UInt32
  | a :: b :: c :: d :: bytes =>
    some (a.toUInt32 ||| b.toUInt32 <<< 8 ||| c.toUInt32 <<< 16 ||| d.toUInt32 <<< 24, bytes)
  | _ => none

def single : Reader Single := do return ⟨← word⟩

def bool : Reader Bool
  | b :: bytes => if b = 0 then some (false, bytes) else if b = 1 then some (true, bytes) else none
  | [] => none

/-- A given number of values. -/
def times (item : Reader α) : (count : Nat) → Reader (List α)
  | 0 => pure []
  | count + 1 => do
    let a ← item
    let rest ← times item count
    return a :: rest

def list (item : Reader α) : Reader (List α) := do times item (← varint 64)

/-- A given number of bytes. -/
def take (count : Nat) : Reader Bytes := fun bytes =>
  if count ≤ bytes.length then some (bytes.take count, bytes.drop count) else none

def text : Reader String := do
  let bytes ← take (← varint 64)
  fun rest => (Text.ofUtf8? bytes).map (·, rest)

/-- A text and a value. -/
def entry (value : Reader α) : Reader (String × α) := do return (← text, ← value)

def dictionary (value : Reader α) : Reader (Dictionary α) := do
  return Dictionary.ofList (← list (entry value))

end Reader

end BoostedTrees.Wire
