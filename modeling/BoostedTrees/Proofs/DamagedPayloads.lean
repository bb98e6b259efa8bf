import BoostedTrees.Proofs.ChecksummedForm
import Mathlib.Data.Nat.Bitwise
import Mathlib.Logic.Function.Iterate

/-!
# Damage to a payload

A checksum of thirty-two bits misses no damage within four bytes in a row. A step of the register
is linear and loses nothing, because the polynomial sets the highest bit just where a bit is
shifted out. So up to four bytes can be taken in as one word, steps that follow bring different
words to different registers, and the bytes behind the damage keep registers apart.

Damage to a payload leaves the header as it was, and with it the size and the checksum that the
payload is held against. What the payload could be read as is never asked.

## Main definitions

* `Checksum.ofBytes`: bytes as one word, the lowest byte first

## Main results

* `Checksum.shiftBit_xor`, `Checksum.shiftBit_injective`: one step of the register
* `Checksum.foldl_addByte_eq`: up to four bytes are taken in as one word
* `Checksum.crc32_ne_of_burst`: payloads that differ within four bytes have different checksums
* `StoredModel.decode_of_damaged`: a damaged payload is refused for its checksum
-/

namespace BoostedTrees

namespace Checksum

/-! ## Steps of the register -/

theorem and_one_eq_one_iff (r : UInt32) : r &&& 1 = 1 ↔ r.toNat % 2 = 1 := by
  rw [← UInt32.toNat_inj, UInt32.toNat_and]
  exact (Nat.and_one_is_mod r.toNat).congr_left

/-- A register without a lowest bit is halved. -/
theorem shiftBit_of_even {r : UInt32} (h : r.toNat % 2 = 0) : shiftBit r = r >>> 1 :=
  if_neg ((and_one_eq_one_iff r).not.mpr (by omega))

theorem shiftBit_of_odd {r : UInt32} (h : r.toNat % 2 = 1) :
    shiftBit r = (r >>> 1) ^^^ 0xedb88320 :=
  if_pos ((and_one_eq_one_iff r).mpr h)

theorem shiftBit_xor (a b : UInt32) : shiftBit (a ^^^ b) = shiftBit a ^^^ shiftBit b := by
  have hlow : (a ^^^ b).toNat % 2 = (a.toNat + b.toNat) % 2 := by
    rw [UInt32.toNat_xor, Nat.xor_mod_two_eq]
  have hhalf : (a ^^^ b) >>> 1 = (a >>> 1) ^^^ (b >>> 1) := UInt32.shiftRight_xor
  rcases Nat.mod_two_eq_zero_or_one a.toNat with ha | ha <;>
    rcases Nat.mod_two_eq_zero_or_one b.toNat with hb | hb
  · rw [shiftBit_of_even ha, shiftBit_of_even hb, shiftBit_of_even (by omega), hhalf]
  · rw [shiftBit_of_even ha, shiftBit_of_odd hb, shiftBit_of_odd (by omega), hhalf, UInt32.xor_assoc]
  · rw [shiftBit_of_odd ha, shiftBit_of_even hb, shiftBit_of_odd (by omega), hhalf]
    ac_rfl
  · -- The polynomial is added twice.
    rw [shiftBit_of_odd ha, shiftBit_of_odd hb, shiftBit_of_even (by omega), hhalf,
      UInt32.xor_comm (b >>> 1), ← UInt32.xor_assoc, UInt32.xor_assoc (a >>> 1), UInt32.xor_self,
      UInt32.xor_zero]

theorem toNat_shiftRight_one (r : UInt32) : (r >>> 1).toNat = r.toNat / 2 := by
  rw [UInt32.toNat_shiftRight]
  exact Nat.shiftRight_one r.toNat

/-- Only zero is brought to zero: the polynomial is more than half of a register can be. -/
theorem eq_zero_of_shiftBit {r : UInt32} (h : shiftBit r = 0) : r = 0 := by
  have hlt := r.toNat_lt
  have hhalf := toNat_shiftRight_one r
  rcases Nat.mod_two_eq_zero_or_one r.toNat with hr | hr
  · rw [shiftBit_of_even hr] at h
    rw [h] at hhalf
    rw [← UInt32.toNat_inj]
    change 0 = _ at hhalf
    change _ = 0
    omega
  · rw [shiftBit_of_odd hr, UInt32.xor_eq_zero_iff] at h
    rw [h] at hhalf
    change 0xedb88320 = _ at hhalf
    omega

theorem shiftBit_injective : Function.Injective shiftBit := by
  intro a b h
  apply UInt32.xor_eq_zero_iff.mp
  apply eq_zero_of_shiftBit
  rw [shiftBit_xor, h, UInt32.xor_self]

theorem shiftByte_eq_iterate : shiftByte = shiftBit^[8] := rfl

theorem iterate_shiftBit_xor (n : Nat) (a b : UInt32) :
    shiftBit^[n] (a ^^^ b) = shiftBit^[n] a ^^^ shiftBit^[n] b := by
  induction n generalizing a b with
  | zero => rfl
  | succ n ih => rw [Function.iterate_succ_apply, shiftBit_xor, ih]; rfl

theorem shiftByte_xor (a b : UInt32) : shiftByte (a ^^^ b) = shiftByte a ^^^ shiftByte b := by
  rw [shiftByte_eq_iterate, iterate_shiftBit_xor]

theorem shiftByte_injective : Function.Injective shiftByte := by
  rw [shiftByte_eq_iterate]
  exact shiftBit_injective.iterate 8

/-- Bits above others that are not set come down. -/
theorem iterate_shiftBit_of_dvd {n : Nat} {a b : UInt32} (h : a.toNat = 2 ^ n * b.toNat) :
    shiftBit^[n] a = b := by
  induction n generalizing a with
  | zero => exact UInt32.toNat_inj.mp (by simpa using h)
  | succ n ih =>
    rw [Nat.pow_succ', Nat.mul_assoc] at h
    rw [Function.iterate_succ_apply, shiftBit_of_even (by omega)]
    apply ih
    rw [toNat_shiftRight_one, h]
    exact Nat.mul_div_cancel_left _ Nat.two_pos

/-! ## Words -/

/-- Bytes as one word, the lowest byte first. -/
def ofBytes : List UInt8 → UInt32
  | [] => 0
  | b :: bytes => b.toUInt32 ^^^ (ofBytes bytes <<< 8)

theorem toNat_shiftLeft_eight (w : UInt32) : (w <<< 8).toNat = 2 ^ 8 * w.toNat % 2 ^ 32 := by
  have hshift : (8 : UInt32).toNat % 32 = 8 := rfl
  rw [UInt32.toNat_shiftLeft, hshift, Nat.shiftLeft_eq, Nat.mul_comm]

theorem toNat_ofBytes_lt (bytes : List UInt8) : (ofBytes bytes).toNat < 2 ^ (8 * bytes.length) := by
  induction bytes with
  | nil => exact Nat.one_pos
  | cons b bytes ih =>
    have hpow : 2 ^ (8 * (bytes.length + 1)) = 2 ^ 8 * 2 ^ (8 * bytes.length) := by
      rw [← Nat.pow_add]
      congr 1
      omega
    have hb := b.toNat_lt
    have hpos : 0 < 2 ^ (8 * bytes.length) := Nat.two_pow_pos _
    rw [List.length_cons, ofBytes, UInt32.toNat_xor]
    apply Nat.xor_lt_two_pow
    · rw [hpow, UInt8.toNat_toUInt32]
      omega
    · rw [hpow, toNat_shiftLeft_eight]
      exact Nat.lt_of_le_of_lt (Nat.mod_le _ _) (Nat.mul_lt_mul_of_pos_left ih (by decide))

/-- A word of three bytes or less comes down whole. -/
theorem shiftByte_shiftLeft_eight {w : UInt32} (h : w.toNat < 2 ^ 24) :
    shiftByte (w <<< 8) = w := by
  rw [shiftByte_eq_iterate]
  apply iterate_shiftBit_of_dvd
  rw [toNat_shiftLeft_eight]
  omega

theorem toNat_ofBytes_lt_of_length {bytes : List UInt8} (h : bytes.length ≤ 3) :
    (ofBytes bytes).toNat < 2 ^ 24 :=
  Nat.lt_of_lt_of_le (toNat_ofBytes_lt bytes) (Nat.pow_le_pow_right Nat.two_pos (by omega))

/-- Up to four bytes are taken in as one word. -/
theorem foldl_addByte_eq {bytes : List UInt8} (h : bytes.length ≤ 4) (r : UInt32) :
    bytes.foldl addByte r = shiftByte^[bytes.length] (r ^^^ ofBytes bytes) := by
  induction bytes generalizing r with
  | nil => rw [ofBytes, UInt32.xor_zero]; rfl
  | cons b bytes ih =>
    rw [List.length_cons] at h
    -- What the bytes behind `b` would add later may as well be added above it now.
    have hlater : shiftByte (ofBytes bytes <<< 8) = ofBytes bytes :=
      shiftByte_shiftLeft_eight (toNat_ofBytes_lt_of_length (by omega))
    rw [List.foldl_cons, ih (by omega), List.length_cons, Function.iterate_succ_apply, addByte,
      ofBytes, ← UInt32.xor_assoc, shiftByte_xor (r ^^^ b.toUInt32), hlater]

/-- Different bytes, up to four of them, are different words. -/
theorem eq_of_ofBytes_eq {bytes bytes' : List UInt8} (hlength : bytes.length = bytes'.length)
    (hle : bytes.length ≤ 4) (h : ofBytes bytes = ofBytes bytes') : bytes = bytes' := by
  induction bytes generalizing bytes' with
  | nil => exact (List.length_eq_zero_iff.mp hlength.symm).symm
  | cons b bytes ih =>
    cases bytes' with
    | nil => cases hlength
    | cons b' bytes' =>
      rw [List.length_cons] at hle
      rw [List.length_cons, List.length_cons, Nat.add_right_cancel_iff] at hlength
      -- The lowest bytes differ below the eighth bit, the others above it.
      have hdiff : (b ^^^ b').toUInt32 = (ofBytes bytes ^^^ ofBytes bytes') <<< 8 := by
        rw [UInt8.toUInt32_xor, UInt32.shiftLeft_xor]
        apply UInt32.xor_eq_zero_iff.mp
        rw [ofBytes, ofBytes, ← UInt32.xor_eq_zero_iff] at h
        rw [← h]
        ac_rfl
      have hlt : (ofBytes bytes ^^^ ofBytes bytes').toNat < 2 ^ 24 := by
        rw [UInt32.toNat_xor]
        apply Nat.xor_lt_two_pow
        · exact toNat_ofBytes_lt_of_length (by omega)
        · exact toNat_ofBytes_lt_of_length (by omega)
      have hzero : ofBytes bytes ^^^ ofBytes bytes' = 0 := by
        have hb := (b ^^^ b').toNat_lt
        have heq := congrArg UInt32.toNat hdiff
        rw [UInt8.toNat_toUInt32, toNat_shiftLeft_eight] at heq
        apply UInt32.toNat_inj.mp
        change _ = 0
        omega
      have hrest := UInt32.xor_eq_zero_iff.mp hzero
      rw [ofBytes, ofBytes, hrest, UInt32.xor_left_inj, UInt8.toUInt32_inj] at h
      rw [h, ih hlength (by omega) hrest]

/-! ## Checksums -/

/-- Registers that differ still do after any more bytes. -/
theorem foldl_addByte_injective (bytes : List UInt8) :
    Function.Injective fun r => bytes.foldl addByte r := by
  induction bytes with
  | nil => exact Function.injective_id
  | cons b bytes ih =>
    intro r r' h
    exact (UInt32.xor_left_inj _).mp (shiftByte_injective (ih h))

theorem take_eq_take_of_getElem? {l l' : List UInt8} {n : Nat} (h : ∀ i < n, l[i]? = l'[i]?) :
    l.take n = l'.take n := by
  apply List.ext_getElem?
  intro i
  rw [List.getElem?_take, List.getElem?_take]
  exact ite_congr rfl (h i) fun _ => rfl

/-- Payloads of one length that differ, but nowhere outside of four bytes in a row, have different
checksums. -/
theorem crc32_ne_of_burst {bytes damaged : List UInt8} (hlength : damaged.length = bytes.length)
    (hne : damaged ≠ bytes) (place : Nat)
    (h : ∀ i, i < place ∨ place + 4 ≤ i → damaged[i]? = bytes[i]?) :
    crc32 damaged ≠ crc32 bytes := by
  have hsplit : ∀ l : List UInt8,
      l = l.take place ++ ((l.drop place).take 4 ++ l.drop (place + 4)) := by
    intro l
    rw [← List.drop_drop, List.take_append_drop, List.take_append_drop]
  have hfront : damaged.take place = bytes.take place :=
    take_eq_take_of_getElem? fun i hi => h i (.inl hi)
  have hback : damaged.drop (place + 4) = bytes.drop (place + 4) := by
    apply List.ext_getElem?
    intro i
    rw [List.getElem?_drop, List.getElem?_drop]
    exact h _ (.inr (Nat.le_add_right _ i))
  -- If the checksums were equal, so would be the registers before the bytes in the back, and
  -- with them the words that are taken in after the bytes in front.
  intro heq
  rw [crc32, crc32, UInt32.xor_left_inj, hsplit damaged, hsplit bytes, hfront, hback] at heq
  simp only [List.foldl_append] at heq
  have hword := foldl_addByte_injective _ heq
  have hlengths : ((damaged.drop place).take 4).length = ((bytes.drop place).take 4).length := by
    simp only [List.length_take, List.length_drop, hlength]
  rw [foldl_addByte_eq (List.length_take_le _ _), foldl_addByte_eq (List.length_take_le _ _),
    hlengths] at hword
  have hword := (UInt32.xor_right_inj _).mp (shiftByte_injective.iterate _ hword)
  have hmiddle := eq_of_ofBytes_eq hlengths (List.length_take_le _ _) hword
  apply hne
  rw [hsplit damaged, hsplit bytes, hfront, hback, hmiddle]

end Checksum

namespace StoredModel

variable {m : StoredModel} {bytes damaged : List UInt8}

/-- A buffer in the checksummed form whose payload was damaged within four bytes in a row is
refused for its checksum. -/
theorem decode_of_damaged (h : m.encode .deprecated = .ok bytes)
    (hlength : damaged.length = bytes.length) (hne : damaged ≠ bytes) (place : Nat)
    (hplace : Header.size ≤ place)
    (hburst : ∀ i, i < place ∨ place + 4 ≤ i → damaged[i]? = bytes[i]?) :
    decode damaged = .error (.checksumMismatch (Checksum.crc32 (bytes.drop Header.size))
      (Checksum.crc32 (damaged.drop Header.size))) := by
  obtain ⟨hsize, rfl⟩ := encode_deprecated_eq_ok_iff.mp h
  -- The damage leaves the header as it was.
  have hheader : damaged.take Header.size = m.plainHeader.toBytes := by
    have hwritten : (m.plainHeader.toBytes ++ Wire.plainModel m).take Header.size =
        m.plainHeader.toBytes := rfl
    rw [← hwritten]
    apply Checksum.take_eq_take_of_getElem?
    intro i hi
    exact hburst i (.inl (Nat.lt_of_lt_of_le hi hplace))
  obtain ⟨payload, rfl⟩ : ∃ payload, damaged = m.plainHeader.toBytes ++ payload :=
    ⟨_, hheader ▸ (List.take_append_drop _ _).symm⟩
  have hlength : payload.length = (Wire.plainModel m).length := by
    simpa only [List.length_append, Nat.add_left_cancel_iff] using hlength
  have hchecksum : Checksum.crc32 payload ≠ m.plainHeader.checksum := by
    apply Checksum.crc32_ne_of_burst hlength ?_ (place - Header.size)
    · intro i hi
      exact hburst (i + Header.size) (by omega)
    · rintro rfl
      exact hne rfl
  -- The payload is as long as the header says, and nothing is refused before the checksum.
  have hread : Header.ofBytes (m.plainHeader.toBytes ++ payload) = .ok m.plainHeader :=
    Header.ofBytes_append _ (UInt8.le_refl _) _
  have hdrop : (m.plainHeader.toBytes ++ payload).drop Header.size = payload := rfl
  have henough : ¬payload.length < (Wire.plainModel m).length := hlength.not_lt
  have htake : payload.take (Wire.plainModel m).length = payload := by
    rw [← hlength, List.take_length]
  rw [decode, detect?_plainHeader]
  dsimp only
  rw [ofDeprecated_eq hread]
  dsimp only
  rw [hdrop, plainHeader_payloadSize hsize, if_neg henough, htake, if_pos hchecksum]
  rfl

theorem decode_of_damaged_misshapen : ∃ bytes, misshapen.encode .deprecated = .ok bytes ∧
    ∃ actual, decode ((bytes.set 40 0xff).set 43 0xee) =
      .error (.checksumMismatch (Checksum.crc32 (bytes.drop Header.size)) actual) := by
  have hwritten : misshapen.encode .deprecated = .ok _ :=
    encode_deprecated_eq_ok_iff.mpr ⟨by decide +kernel, rfl⟩
  refine ⟨_, hwritten, _, decode_of_damaged hwritten ?_ ?_ 40 (by decide) ?_⟩
  · rw [List.length_set, List.length_set]
  · exact fun heq => absurd (congrArg (·[43]?) heq) (by decide +kernel)
  · intro i hi
    rw [List.getElem?_set_ne (by omega), List.getElem?_set_ne (by omega)]

end StoredModel

end BoostedTrees
