import BoostedTrees.Lease.Stream
import BoostedTrees.Proofs.JsonDecoding

/-!
# Frames and texts of records read back

A frame tells how long its model is. So a reader takes off just the frame, whatever follows
it, and notices if a part of it is cut off: within one of the two words in front, or within
the model. The text of a record is read back as the record.

## Main results

* `LeaseRecord.ofFrame_append`: a frame is read as its record, and what follows it is left
* `LeaseRecord.ofFrame_of_prefix`: what is read of a frame that is cut off
* `LeaseRecord.ofText?_toJson`: a record is read back from its text
-/

namespace BoostedTrees

namespace Wire

variable {p rest : List UInt8}

theorem reader_word_append (w : UInt32) (rest : List UInt8) :
    Reader.word (word w ++ rest) = some (w, rest) :=
  (reads_word w rest (w, rest)).mpr ⟨trivial, rfl⟩

theorem length_word (w : UInt32) : (word w).length = 4 := rfl

theorem reader_word_of_length_lt (h : p.length < 4) : Reader.word p = none := by
  match p with
  | [] | [_] | [_, _] | [_, _, _] => rfl
  | _ :: _ :: _ :: _ :: _ =>
    simp only [List.length_cons] at h
    omega

/-- What begins like a word with something behind it is too short to be a word, or else is
the word with a beginning of what is behind it. -/
theorem prefix_word_append {w : UInt32} (h : p <+: word w ++ rest) :
    p.length < 4 ∨ ∃ q, q <+: rest ∧ p = word w ++ q := by
  by_cases hshort : p.length < 4
  · exact .inl hshort
  · obtain ⟨q, rfl⟩ : word w <+: p :=
      List.prefix_of_prefix_length_le (List.prefix_append _ _) h (by rw [length_word]; omega)
    exact .inr ⟨q, (List.prefix_append_right_inj _).mp h, rfl⟩

end Wire

namespace LeaseRecord

open Json Wire

variable {r : LeaseRecord} {f p : List UInt8}

/-! ## Frames -/

/-- Models that are longer than their length field allows have no frame. -/
theorem toFrame_eq_ok_iff :
    r.toFrame = .ok f ↔ r.model.length < 2 ^ 32 ∧
      f = word r.version.toUInt32 ++ (word (UInt32.ofNat r.model.length) ++ r.model) := by
  unfold toFrame
  split
  next hfits =>
    rw [Except.ok.injEq, List.append_assoc, and_iff_right (show r.model.length < 2 ^ 32 from hfits)]
    exact eq_comm
  next hlong => exact iff_of_false nofun fun h => hlong h.1

/-- Behind the two words stands the model, or what there is of it. -/
theorem ofFrame_words (version length : UInt32) (stream : List UInt8) :
    ofFrame (word version ++ (word length ++ stream)) =
      if stream.length < length.toNat then
        .error (.serialization (.endsEarly stream.length length.toNat))
      else .ok (⟨version.toInt32, stream.take length.toNat⟩, stream.drop length.toNat) := by
  have hlength : (stream.take length.toNat).length < length.toNat ↔
      stream.length < length.toNat := by
    rw [List.length_take]
    omega
  unfold ofFrame
  rw [reader_word_append]
  dsimp only
  rw [reader_word_append]
  dsimp only
  by_cases hshort : stream.length < length.toNat
  · rw [if_pos hshort, if_pos (hlength.mpr hshort), List.take_of_length_le hshort.le]
  · rw [if_neg hshort, if_neg (mt hlength.mp hshort)]

/-- A frame is read as its record, and what follows it is left. -/
theorem ofFrame_append (h : r.toFrame = .ok f) (rest : List UInt8) :
    ofFrame (f ++ rest) = .ok (r, rest) := by
  obtain ⟨hfits, rfl⟩ := toFrame_eq_ok_iff.mp h
  have hlength : (UInt32.ofNat r.model.length).toNat = r.model.length :=
    UInt32.toNat_ofNat_of_lt' hfits
  rw [List.append_assoc, List.append_assoc, ofFrame_words, hlength, if_neg (by simp),
    List.take_left, List.drop_left, Int32.toInt32_toUInt32]

/-- A frame that is cut off is not read: either one of the words in front is not there, or
not all of the model. -/
theorem ofFrame_of_prefix (h : r.toFrame = .ok f) (hp : p <+: f) (hne : p ≠ f) :
    ofFrame p = .error (if p.length < 8 then .streamEnded
      else .serialization (.endsEarly (p.length - 8) r.model.length)) := by
  obtain ⟨hfits, rfl⟩ := toFrame_eq_ok_iff.mp h
  rcases prefix_word_append hp with hshort | ⟨q, hq, rfl⟩
  · rw [if_pos (by omega), ofFrame, reader_word_of_length_lt hshort]
  · rcases prefix_word_append hq with hshort | ⟨model, hmodel, rfl⟩
    · rw [if_pos (by rw [List.length_append, length_word]; omega), ofFrame, reader_word_append]
      dsimp only
      rw [reader_word_of_length_lt hshort]
    · have hcut : model.length < r.model.length := by
        refine lt_of_le_of_ne hmodel.length_le fun heq => hne ?_
        rw [hmodel.eq_of_length heq]
      have hlength : (UInt32.ofNat r.model.length).toNat = r.model.length :=
        UInt32.toNat_ofNat_of_lt' hfits
      have hwords : (word r.version.toUInt32 ++ (word (UInt32.ofNat r.model.length) ++ model)).length =
          model.length + 8 := by
        simp only [List.length_append, length_word]
        omega
      rw [ofFrame_words, hlength, if_pos hcut, hwords, if_neg (by omega), Nat.add_sub_cancel]

/-! ## Texts -/

/-- The fields that a record is written as. -/
def fields (r : LeaseRecord) : List (String × Json) := [
  ("version", .number (intBytes r.version.toInt)),
  ("model", .array (r.model.map fun b => .number (digitBytes b.toNat)))]

theorem shows_toJson (r : LeaseRecord) : Shows (bytesOf r.toJson) (recordOf r.fields) := by
  have hmodel : Shows (bytesOf (Writer.array (r.model.map fun b => Writer.nat b.toNat)))
      (.array (r.model.map fun b => .number (digitBytes b.toNat))) :=
    shows_array (fun b : UInt8 => Writer.nat b.toNat) (fun b => .number (digitBytes b.toNat)) _
      fun b _ => shows_nat b.toNat
  exact shows_recordOf [("version", _, _), ("model", _, _)] (by
    intro m hm
    simp only [List.mem_cons, List.not_mem_nil, or_false] at hm
    rcases hm with rfl | rfl
    · exact shows_int r.version.toInt
    · exact hmodel)

theorem decoder_recordOf (depth : Nat) (r : LeaseRecord) :
    decoder (depth + 2) (recordOf r.fields) = some r := by
  have hrecord : Record.ofJson? ["version", "model"] (depth + 2) (recordOf r.fields) =
      some ⟨depth + 1, r.fields.reverse⟩ :=
    Record.ofJson?_recordOf (depth + 1) (by simp [fields]) (by simp [fields])
  have hversion : Record.required ⟨depth + 1, r.fields.reverse⟩ "version" Decoder.int32 =
      some r.version := @Decoder.int32_intBytes (depth + 1) r.version
  have hmodel : Record.required ⟨depth + 1, r.fields.reverse⟩ "model"
      (Decoder.list Decoder.uint8) = some r.model :=
    Decoder.list_map Decoder.uint8_digitBytes r.model
  rw [decoder, hrecord]
  simp only [Option.bind_eq_bind, Option.bind_some, hversion, hmodel]
  rfl

/-- A record is read back from its text. -/
theorem ofText?_toJson (r : LeaseRecord) : ofText? (String.ofList r.toJson) = some r := by
  have hparse : parsePrefix (Text.utf8 (String.ofList r.toJson)) = some (recordOf r.fields, []) := by
    rw [Text.utf8_ofList]
    exact parsePrefix_of_shows r.shows_toJson
  rw [ofText?, hparse, Option.bind_eq_bind, Option.bind_some]
  exact decoder_recordOf 125 r

end LeaseRecord

end BoostedTrees
