import BoostedTrees.Json.Decoder
import BoostedTrees.Proofs.JsonNumbers
import BoostedTrees.Proofs.WireForm

/-!
# Written JSON decoded again

With the values that texts show, whole numbers, texts, lists, dictionaries and records of
what can be decoded are decoded as what was written. Where only some values can be
decoded, a list of them is decoded just if all of its items can.

## Main definitions

* `Json.Decoder.Gives`: a decoder gives back just the values with a property
* `Single.ReadsBack`: a number is read back from its own text

## Main results

* `Json.Decoder.gives_list`, `Json.Decoder.dictionary_entries`: lists and dictionaries are
  read back
* `Json.Decoder.gives_single`: so are finite numbers that are read back alone, and no others
* `Json.Record.ofJson?_recordOf`: so are the fields of a record
-/

namespace BoostedTrees

namespace Json

/-! ## Typed values -/

namespace Decoder

variable {α β : Type} {depth : Nat}

@[simp] theorem text_lexeme (t : String) : text depth (.string (lexeme t)) = some t :=
  textOf?_lexeme t

theorem nat_digitBytes {bound n : Nat} (h : n < bound) (hbound : bound ≤ wordBound) :
    nat bound depth (.number (digitBytes n)) = some n := by
  rw [nat, numberOf?_digitBytes (by omega)]
  exact if_pos h

@[simp] theorem uint32_digitBytes (n : UInt32) :
    uint32 depth (.number (digitBytes n.toNat)) = some n := by
  rw [uint32, nat_digitBytes n.toNat_lt (by decide), Option.map_some, UInt32.ofNat_toNat]

@[simp] theorem uint8_digitBytes (n : UInt8) :
    uint8 depth (.number (digitBytes n.toNat)) = some n := by
  rw [uint8, nat_digitBytes n.toNat_lt (by decide), Option.map_some, UInt8.ofNat_toNat]

@[simp] theorem uint64_digitBytes (n : UInt64) :
    uint64 depth (.number (digitBytes n.toNat)) = some n := by
  have hlt : n.toNat < wordBound := n.toNat_lt
  rw [uint64, nat_digitBytes hlt le_rfl, Option.map_some, UInt64.ofNat_toNat]

@[simp] theorem int32_intBytes (n : Int32) :
    int32 depth (.number (intBytes n.toInt)) = some n := by
  have hlow := n.le_toInt
  have hhigh := n.toInt_lt
  rw [int32, intBytes_eq]
  rcases lt_or_ge n.toInt 0 with hneg | hpos
  · rw [decide_eq_true hneg, numberOf?_negative (by omega) (by omega)]
    dsimp only
    rw [if_pos (by omega)]
    have hvalue : -(n.toInt.natAbs : Int) = n.toInt := by omega
    rw [hvalue, Int32.ofInt_toInt]
  · have hword : n.toInt.natAbs < wordBound := by
      rw [wordBound]
      omega
    rw [decide_eq_false (not_lt.mpr hpos), signBytes, if_neg Bool.false_ne_true, List.nil_append,
      numberOf?_digitBytes hword]
    dsimp only
    rw [if_pos (by omega)]
    have hvalue : (n.toInt.natAbs : Int) = n.toInt := by omega
    rw [← Int32.ofInt_eq_ofNat, hvalue, Int32.ofInt_toInt]

/-- From a value the decoder gives what it is the value of, provided that a condition
holds, and nothing otherwise. -/
def Gives (d : Decoder α) (depth : Nat) (j : Json) (a : α) (P : Prop) : Prop :=
  ∀ b, d depth j = some b ↔ P ∧ b = a

theorem gives_of_eq {d : Decoder α} {j : Json} {a : α} (h : d depth j = some a) :
    Gives d depth j a True := by
  intro b
  rw [h, Option.some.injEq, eq_comm, true_and]

theorem Gives.eq {d : Decoder α} {j : Json} {a : α} {P : Prop} (h : Gives d depth j a P)
    (hP : P) : d depth j = some a :=
  (h a).mpr ⟨hP, rfl⟩

theorem Gives.eq_none {d : Decoder α} {j : Json} {a : α} {P : Prop} (h : Gives d depth j a P)
    (hP : ¬P) : d depth j = none :=
  Option.eq_none_iff_forall_ne_some.mpr fun b hb => hP ((h b).mp hb).1

theorem mapM_map_eq_some_iff {f : β → Option α} {json : α → β} {P : α → Prop} {l : List α}
    (h : ∀ a ∈ l, ∀ b, f (json a) = some b ↔ P a ∧ b = a) (r : List α) :
    (l.map json).mapM f = some r ↔ (∀ a ∈ l, P a) ∧ r = l := by
  induction l generalizing r with
  | nil => simp [eq_comm]
  | cons a l ih =>
    obtain ⟨ha, hl⟩ := List.forall_mem_cons.mp h
    simp only [List.map_cons, List.mapM_cons, Option.bind_eq_bind, Option.bind_eq_some_iff, ha,
      ih hl, and_assoc, exists_and_left, exists_eq_left, Option.pure_def, Option.some.injEq,
      List.forall_mem_cons]
    rw [eq_comm (a := r)]

/-- A list is decoded if all of its items are. -/
theorem gives_list {d : Decoder α} {json : α → Json} {P : α → Prop} {l : List α}
    (h : ∀ a ∈ l, Gives d depth (json a) a (P a)) :
    Gives (list d) (depth + 1) (.array (l.map json)) l (∀ a ∈ l, P a) :=
  mapM_map_eq_some_iff h

/-- A list of values that are all decoded is decoded. -/
theorem list_map {d : Decoder α} {json : α → Json} (h : ∀ a, d depth (json a) = some a)
    (l : List α) : list d (depth + 1) (.array (l.map json)) = some l :=
  (gives_list fun a _ => gives_of_eq (h a)).eq fun _ _ => trivial

/-- A dictionary is decoded if its values are. -/
theorem dictionary_entries {d : Decoder α} {json : α → Json} (h : ∀ a, d depth (json a) = some a)
    (entries : Dictionary α) :
    dictionary d (depth + 1)
        (.object (entries.entries.map fun e => (lexeme e.1, json e.2))) = some entries := by
  have hentry : ∀ e ∈ entries.entries, ∀ e', (do return ((← textOf? (lexeme e.1)),
      (← d depth (json e.2))) : Option (String × α)) = some e' ↔ True ∧ e' = e := by
    intro e _ e'
    simp [textOf?_lexeme, h, eq_comm]
  have hmap : (entries.entries.map fun e => (lexeme e.1, json e.2)).mapM
      (fun m => do return ((← textOf? m.1), (← d depth m.2))) = some entries.entries :=
    (mapM_map_eq_some_iff hentry _).mpr ⟨fun _ _ => trivial, rfl⟩
  exact (congrArg (Option.map Dictionary.ofList) hmap).trans
    (congrArg some entries.ofList_entries)

end Decoder

end Json

/-! ## Numbers in single precision -/

/-- A number is read back from its own text. -/
def Single.ReadsBack (x : Single) : Prop :=
  Json.decode Json.Decoder.single (Text.utf8 (String.ofList (Json.Writer.single x))) = some x

instance (x : Single) : Decidable x.ReadsBack :=
  inferInstanceAs (Decidable (Json.decode _ _ = some x))

namespace Json

/-- A finite number that is read back alone is read back as a part of a larger text, and
one that is not finite is not read. -/
theorem Decoder.gives_single {depth : Nat} {x : Single} (h : x.isFinite → x.ReadsBack) :
    Gives single depth (singleShown x) x x.isFinite := by
  by_cases hfinite : x.isFinite
  · have hread := h hfinite
    have hparse := parse_of_shows (shows_single x)
    rw [singleShown, if_pos hfinite] at hparse ⊢
    rw [Single.ReadsBack, decode, Text.utf8_ofList] at hread
    -- What the digits are read as does not depend on how deep they stand.
    have hsingle : single depth (.number (singleBytes x)) = some x :=
      calc single depth (.number (singleBytes x))
          = (some (Json.number (singleBytes x))).bind (single maxDepth) := rfl
        _ = (parse (bytesOf (Writer.single x))).bind (single maxDepth) := by rw [hparse]
        _ = some x := hread
    intro b
    rw [hsingle, Option.some.injEq, eq_comm, and_iff_right hfinite]
  · intro b
    rw [singleShown, if_neg hfinite]
    exact iff_of_false (Option.some_ne_none b).symm fun hb => hfinite hb.1

/-! ## Records -/

/-- The value that a record of the given fields is written as. -/
def recordOf (fields : List (String × Json)) : Json :=
  .object (fields.map fun f => (lexeme f.1, f.2))

/-- Members shown with what they are written as and with the values of that. -/
theorem shows_recordOf (members : List (String × List Char × Json))
    (h : ∀ m ∈ members, Shows (bytesOf m.2.1) m.2.2) :
    Shows (bytesOf (Writer.object (members.map fun m => (m.1, m.2.1))))
      (recordOf (members.map fun m => (m.1, m.2.2))) := by
  rw [recordOf, List.map_map]
  exact shows_object (fun m => m.2.1) (fun m => m.2.2) (fun m => m.1) members h

namespace Record

variable {names : List String} {fields : List (String × Json)}

/-- Members that are fields, each given once, are all read. -/
theorem ofMembers_fields (seen : List (String × Json)) (hnames : ∀ f ∈ fields, f.1 ∈ names)
    (hnodup : ((fields ++ seen).map (·.1)).Nodup) :
    ofMembers names (fields.map fun f => (lexeme f.1, f.2)) seen =
      some (fields.reverse ++ seen) := by
  induction fields generalizing seen with
  | nil => rfl
  | cons f fields ih =>
    have hmem : names.contains f.1 := List.contains_iff_mem.mpr (hnames f List.mem_cons_self)
    rw [List.cons_append, List.map_cons, List.nodup_cons, List.map_append, List.mem_append,
      not_or] at hnodup
    obtain ⟨⟨hfields, hseen⟩, hrest⟩ := hnodup
    -- A field is not seen twice, as no two of them have one name.
    have hany : seen.any (·.1 = f.1) = false := by
      rw [List.any_eq_false]
      intro g hg heq
      exact hseen (of_decide_eq_true heq ▸ List.mem_map_of_mem hg)
    have hnext := ih (f :: seen) (fun g hg => hnames g (List.mem_cons_of_mem _ hg)) (by
      rw [List.map_append, List.map_cons, List.nodup_middle, List.nodup_cons, List.mem_append,
        not_or]
      exact ⟨⟨hfields, hseen⟩, hrest⟩)
    rw [List.map_cons, ofMembers, textOf?_lexeme]
    simp only [Option.bind_eq_bind, Option.bind_some, hmem, hany, hnext, Bool.not_true,
      Bool.false_eq_true, if_false, List.reverse_cons, List.append_assoc, List.singleton_append]

/-- The record that an object of fields is read as. -/
def ofFields (depth : Nat) (fields : List (String × Json)) : Record := ⟨depth, fields.reverse⟩

/-- An object of fields is read as a record of them. -/
theorem ofJson?_recordOf (depth : Nat) (hnames : ∀ f ∈ fields, f.1 ∈ names)
    (hnodup : (fields.map (·.1)).Nodup) :
    ofJson? names (depth + 1) (recordOf fields) = some (ofFields depth fields) := by
  have hmembers := ofMembers_fields [] hnames (by rwa [List.append_nil])
  rw [List.append_nil] at hmembers
  simp only [recordOf, ofJson?, enter, hmembers, Option.bind_eq_bind, Option.bind_some]
  rfl

end Record

end Json

end BoostedTrees
