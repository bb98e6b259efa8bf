import BoostedTrees.Text.Ascii

/-!
# Texts as bytes

The UTF-8 form of a text is that of its characters, one after another, and it reads back
as the text. ASCII characters are single bytes; all bytes of other characters have the
high bit set, so they are never taken for ASCII.
-/

namespace BoostedTrees.Text

theorem ofUtf8?_utf8 (t : String) : ofUtf8? (utf8 t) = some t := by
  have hbytes : (⟨(utf8 t).toArray⟩ : ByteArray) = t.toByteArray := by
    simp only [utf8, String.toUTF8_eq_toByteArray, Array.toArray_toList]
  rw [ofUtf8?, hbytes, String.fromUTF8?, dif_pos t.isValidUTF8]
  rfl

theorem utf8_ofList (cs : List Char) :
    utf8 (String.ofList cs) = cs.flatMap String.utf8EncodeChar := by
  simp [utf8, List.utf8Encode]

theorem utf8_eq_flatMap (t : String) : utf8 t = t.toList.flatMap String.utf8EncodeChar := by
  rw [← utf8_ofList, String.ofList_toList]

theorem utf8EncodeChar_of_lt {c : Char} (h : c.toNat < 0x80) :
    String.utf8EncodeChar c = [ascii c] := by
  have hle : c.val.toNat ≤ 127 := Nat.le_of_lt_succ h
  simp only [String.utf8EncodeChar, if_pos hle]
  rfl

theorem le_of_mem_utf8EncodeChar {c : Char} (h : 0x80 ≤ c.toNat) {b : UInt8}
    (hb : b ∈ String.utf8EncodeChar c) : 0x80 ≤ b := by
  have hgt : ¬c.val.toNat ≤ 127 := by
    have : c.val.toNat = c.toNat := rfl
    omega
  simp only [String.utf8EncodeChar, if_neg hgt] at hb
  -- Bytes that follow are `10xxxxxx`; the first one starts with two, three or four ones.
  have hlow : ∀ n : Nat, 0x80 ≤ UInt8.ofNat (n % 64 + 128) := fun n => by
    rw [UInt8.le_iff_toNat_le, UInt8.toNat_ofNat']
    simp only [UInt8.reduceToNat]
    omega
  have hfirst : ∀ n low : Nat, 0x80 ≤ low → n + low < 0x100 → 0x80 ≤ UInt8.ofNat (n + low) := by
    intro n low hlow hlt
    rw [UInt8.le_iff_toNat_le, UInt8.toNat_ofNat']
    simp only [UInt8.reduceToNat]
    omega
  split at hb
  · simp only [List.mem_cons, List.not_mem_nil, or_false] at hb
    rcases hb with rfl | rfl
    · exact hfirst _ 192 (by omega) (by omega)
    · exact hlow _
  split at hb
  · simp only [List.mem_cons, List.not_mem_nil, or_false] at hb
    rcases hb with rfl | rfl | rfl
    · exact hfirst _ 224 (by omega) (by omega)
    · exact hlow _
    · exact hlow _
  · simp only [List.mem_cons, List.not_mem_nil, or_false] at hb
    rcases hb with rfl | rfl | rfl | rfl
    · exact hfirst _ 240 (by omega) (by omega)
    · exact hlow _
    · exact hlow _
    · exact hlow _

end BoostedTrees.Text
