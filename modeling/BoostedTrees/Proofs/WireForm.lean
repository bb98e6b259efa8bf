import BoostedTrees.Model.Codec
import BoostedTrees.Proofs.Utf8
import Mathlib.Algebra.Group.Nat.Defs

/-!
# The wire form reads back

A reader takes off what the writer of the same form wrote, whatever follows, as long as
all lengths in it fit sixty-four bits; what has a longer length is refused. So bytes
that were written and are accepted give back the value that was written.

## Main definitions

* `Wire.Reads`: a reader takes off just what a writer writes

## Main results

* `Wire.reads_storedModel`: stored models read back
* `StoredModel.decode_toUbj_eq_ok_iff`, `StoredModel.decode_encode_ubj`: so do whole buffers
  in the compact binary form
-/

namespace BoostedTrees

/-! ## Dictionaries -/

namespace Dictionary

variable {β : Type}

theorem comesBefore_irrefl (cs : List Char) : comesBefore cs cs = false := by
  induction cs with
  | nil => rfl
  | cons c cs ih => simp only [comesBefore, if_true, ih]

theorem place_eq_concat {key : String} {value : β} {l : List (String × β)}
    (h : ∀ e ∈ l, comesBefore e.1.toList key.toList) :
    place key value l = l ++ [(key, value)] := by
  induction l with
  | nil => rfl
  | cons e l ih =>
    have he := h e List.mem_cons_self
    have hne : key ≠ e.1 := fun heq => by
      rw [← heq, comesBefore_irrefl] at he
      cases he
    have hnot : ¬comesBefore key.toList e.1.toList := fun hbefore => by
      have := comesBefore_trans hbefore he
      rw [comesBefore_irrefl] at this
      cases this
    rw [place, if_neg hne, if_neg hnot, ih fun e he => h e (List.mem_cons_of_mem _ he),
      List.cons_append]

/-- The entries of a dictionary, put in one after another, give the dictionary. -/
theorem ofList_entries (d : Dictionary β) : ofList d.entries = d := by
  have h : ∀ (l : List (String × β)) (d : Dictionary β),
      (d.entries ++ l).Pairwise (fun a b => comesBefore a.1.toList b.1.toList) →
      (l.foldl (fun d e => d.insert e.1 e.2) d).entries = d.entries ++ l := by
    intro l
    induction l with
    | nil => exact fun d _ => (List.append_nil _).symm
    | cons e l ih =>
      intro d hsorted
      -- The entries are in order, so the next one is put at the end.
      have hlast : (d.insert e.1 e.2).entries = d.entries ++ [e] :=
        place_eq_concat fun a ha =>
          (List.pairwise_append.mp hsorted).2.2 a ha e List.mem_cons_self
      rw [List.foldl_cons, ih, hlast, List.append_assoc, List.singleton_append]
      rw [hlast, List.append_assoc, List.singleton_append]
      exact hsorted
  exact ext (h d.entries empty d.sorted)

/-- What is in its place already may be put there again. -/
theorem place_of_mem {key : String} {value : β} {l : List (String × β)}
    (hsorted : l.Pairwise fun a b => comesBefore a.1.toList b.1.toList) (h : (key, value) ∈ l) :
    place key value l = l := by
  induction l with
  | nil => cases h
  | cons e l ih =>
    obtain ⟨hfirst, hrest⟩ := List.pairwise_cons.mp hsorted
    rcases List.mem_cons.mp h with rfl | h
    · rw [place, if_pos rfl]
    · have hbefore := hfirst _ h
      have hne : key ≠ e.1 := fun heq => by
        rw [heq, comesBefore_irrefl] at hbefore
        cases hbefore
      have hnot : ¬comesBefore key.toList e.1.toList := fun hafter => by
        have := comesBefore_trans hafter hbefore
        rw [comesBefore_irrefl] at this
        cases this
      rw [place, if_neg hne, if_neg hnot, ih hrest h]

/-- Its own entries, put in again, leave a dictionary as it is. -/
theorem foldl_insert_entries (d : Dictionary β) :
    d.entries.foldl (fun d e => d.insert e.1 e.2) d = d := by
  have h : ∀ l : List (String × β), (∀ e ∈ l, e ∈ d.entries) →
      l.foldl (fun d e => d.insert e.1 e.2) d = d := by
    intro l
    induction l with
    | nil => exact fun _ => rfl
    | cons e l ih =>
      intro hl
      have hsame : d.insert e.1 e.2 = d := ext (place_of_mem d.sorted (hl e List.mem_cons_self))
      rw [List.foldl_cons, hsame]
      exact ih fun e he => hl e (List.mem_cons_of_mem _ he)
  exact h d.entries fun _ he => he

end Dictionary

/-! ## Readers and writers -/

namespace Wire

variable {α β : Type}

/-- A reader takes off what a writer writes of values with a property, and refuses what
it writes of others. -/
def Reads (r : Reader α) (w : α → Bytes) (P : α → Prop) : Prop :=
  ∀ a rest b, r (w a ++ rest) = some b ↔ P a ∧ b = (a, rest)

theorem bind_apply (r : Reader α) (next : α → Reader β) (bytes : Bytes) :
    (r >>= next) bytes = match r bytes with
      | some (a, rest) => next a rest
      | none => none := rfl

theorem bind_eq_some_iff (r : Reader α) (next : α → Reader β) (bytes : Bytes) (b : β × Bytes) :
    (r >>= next) bytes = some b ↔ ∃ c, r bytes = some c ∧ next c.1 c.2 = some b := by
  rw [bind_apply]
  cases r bytes with
  | none => simp
  | some c => simp

theorem Reads.bind {r : Reader α} {w : α → Bytes} {P : α → Prop} (h : Reads r w P)
    (next : α → Reader β) (a : α) (rest : Bytes) (b : β × Bytes) :
    (r >>= next) (w a ++ rest) = some b ↔ P a ∧ next a rest = some b := by
  simp only [bind_eq_some_iff, h a rest, and_assoc, exists_and_left, exists_eq_left]

theorem Reads.mono {r : Reader α} {w : α → Bytes} {P Q : α → Prop} (h : Reads r w P)
    (hPQ : ∀ a, P a ↔ Q a) : Reads r w Q := fun a rest b => by rw [← hPQ a]; exact h a rest b

theorem pure_eq_some_iff (a : α) (rest : Bytes) (b : α × Bytes) :
    (pure a : Reader α) rest = some b ↔ b = (a, rest) :=
  ⟨fun h => (Option.some.inj h).symm, fun h => congrArg some h.symm⟩

/-- A reader whose value is turned into another reads what is written of that other. -/
theorem Reads.map {r : Reader α} {w : α → Bytes} {P : α → Prop} (h : Reads r w P) {f : α → β}
    {g : β → α} (hfg : ∀ b, f (g b) = b) :
    Reads (do return f (← r)) (fun b => w (g b)) fun b => P (g b) := by
  intro b rest c
  rw [h.bind, pure_eq_some_iff, hfg]

/-! ### Numbers -/

theorem div_lt_two_pow_iff {n width : Nat} (h : 0x80 ≤ n) :
    n / 0x80 < 2 ^ (width - 7) ↔ n < 2 ^ width := by
  rcases Nat.le_total 7 width with hw | hw
  · obtain ⟨k, rfl⟩ := Nat.exists_eq_add_of_le hw
    rw [Nat.add_sub_cancel_left, Nat.pow_add, Nat.div_lt_iff_lt_mul (by omega), Nat.mul_comm]
  · have hpow : 2 ^ width ≤ 2 ^ 7 := Nat.pow_le_pow_right (by omega) hw
    have hzero : width - 7 = 0 := by omega
    rw [hzero]
    omega

theorem varintWithin_varint {count width : Nat} (hwidth : width ≤ 7 * count) (hcount : 0 < count)
    (n : Nat) (rest : Bytes) (b : Nat × Bytes) :
    Reader.varintWithin count width (varint n ++ rest) = some b ↔
      n < 2 ^ width ∧ b = (n, rest) := by
  -- Induction on the bytes that may follow; every byte takes seven bits off the width.
  induction count generalizing width n b with
  | zero => omega
  | succ count ih =>
    rw [varint]
    split
    · next hn =>
      -- The number is small enough for the last byte.
      have hbyte : n.toUInt8.toNat = n := Nat.mod_eq_of_lt (by omega)
      simp only [List.cons_append, List.nil_append, Reader.varintWithin, hbyte, hn, if_true,
        Nat.mod_eq_of_lt hn, Nat.pow_eq]
      split
      · next hlt => simp only [Option.some.injEq, hlt, true_and, eq_comm]
      · next hge => exact iff_of_false nofun fun h => hge h.1
    · next hn =>
      -- Its low seven bits are written, marked as not the last ones.
      have hbyte : (n % 0x80 + 0x80).toUInt8.toNat = n % 0x80 + 0x80 :=
        Nat.mod_eq_of_lt (by omega)
      have hhigh : ¬n % 0x80 + 0x80 < 0x80 := by omega
      have hlow : (n % 0x80 + 0x80) % 0x80 = n % 0x80 := by omega
      simp only [List.cons_append, Reader.varintWithin, hbyte, hhigh, if_false, hlow]
      rcases Nat.eq_zero_or_pos count with rfl | hpos
      · -- There is no byte left, but the number needs one more.
        have hpow : 2 ^ width ≤ 2 ^ 7 := Nat.pow_le_pow_right (by omega) (by omega)
        refine iff_of_false (by simp only [Reader.varintWithin, reduceCtorEq, not_false_eq_true]) ?_
        omega
      · have ih := ih (by omega : width - 7 ≤ 7 * count) hpos (n / 0x80)
        rw [← div_lt_two_pow_iff (by omega : 0x80 ≤ n)]
        cases hr : Reader.varintWithin count (width - 7) (varint (n / 0x80) ++ rest) with
        | none =>
          refine iff_of_false nofun fun h => ?_
          have := (ih (n / 0x80, rest)).mpr ⟨h.1, rfl⟩
          rw [hr] at this
          cases this
        | some c =>
          obtain ⟨hlt, rfl⟩ := (ih c).mp hr
          have hsum : n % 0x80 + 0x80 * (n / 0x80) = n := Nat.mod_add_div n 0x80
          simp only [hsum, Option.some.injEq, hlt, true_and, eq_comm]

theorem reads_varint {width : Nat} (h : 0 < width) :
    Reads (Reader.varint width) varint fun n => n < 2 ^ width :=
  varintWithin_varint (by omega) (by omega)

theorem reads_uint32 : Reads Reader.uint32 uint32 fun _ => True :=
  ((reads_varint (by omega)).map fun n : UInt32 => UInt32.ofNat_toNat).mono fun n =>
    iff_true_intro n.toNat_lt

theorem reads_uint64 : Reads Reader.uint64 uint64 fun _ => True :=
  ((reads_varint (by omega)).map fun n : UInt64 => UInt64.ofNat_toNat).mono fun n =>
    iff_true_intro n.toNat_lt

theorem reads_int32 : Reads Reader.int32 int32 fun _ => True := by
  have hfold : ∀ n : Int32, Int32.ofInt (unfold (fold n.toInt)) = n := fun n => by
    rw [unfold_fold, Int32.ofInt_toInt]
  refine ((reads_varint (by omega)).map hfold).mono fun n => iff_true_intro ?_
  have hlow := n.le_toInt
  have hhigh := n.toInt_lt
  simp only [fold]
  split <;> omega

/-- The byte at a place of a word, put back into its place. -/
theorem getLsbD_byte (w : BitVec 32) (k : Nat) {i : Nat} (hi : i < 32) :
    (((w >>> k).setWidth 8).setWidth 32 <<< k).getLsbD i =
      (decide (k ≤ i ∧ i < k + 8) && w.getLsbD i) := by
  simp only [BitVec.getLsbD_shiftLeft, BitVec.getLsbD_setWidth, BitVec.getLsbD_ushiftRight, hi,
    decide_true, Bool.true_and]
  by_cases h : k ≤ i
  · have hplace : k + (i - k) = i := by omega
    have hlt : i - k < 32 := by omega
    have hiff : i - k < 8 ↔ k ≤ i ∧ i < k + 8 := by omega
    simp only [hplace, hlt, hiff, Nat.not_lt.mpr h, decide_true, decide_false, Bool.not_false,
      Bool.true_and]
  · simp only [Nat.lt_of_not_le h, h, decide_true, Bool.not_true, Bool.false_and, false_and,
      decide_false]

theorem or_bytes (w : UInt32) :
    w.toUInt8.toUInt32 ||| (w >>> 8).toUInt8.toUInt32 <<< 8 |||
      (w >>> 16).toUInt8.toUInt32 <<< 16 ||| (w >>> 24).toUInt8.toUInt32 <<< 24 = w := by
  -- Compare bit by bit.
  apply UInt32.toBitVec_inj.mp
  apply BitVec.eq_of_getLsbD_eq
  intro i hi
  have hfirst : ((w.toBitVec.setWidth 8).setWidth 32).getLsbD i =
      (decide (0 ≤ i ∧ i < 0 + 8) && w.toBitVec.getLsbD i) := by
    simpa only [BitVec.ushiftRight_zero, BitVec.shiftLeft_zero] using getLsbD_byte w.toBitVec 0 hi
  have h8 := getLsbD_byte w.toBitVec 8 hi
  have h16 := getLsbD_byte w.toBitVec 16 hi
  have h24 := getLsbD_byte w.toBitVec 24 hi
  have hbytes : (w.toUInt8.toUInt32 ||| (w >>> 8).toUInt8.toUInt32 <<< 8 |||
      (w >>> 16).toUInt8.toUInt32 <<< 16 ||| (w >>> 24).toUInt8.toUInt32 <<< 24).toBitVec =
      (w.toBitVec.setWidth 8).setWidth 32 ||| ((w.toBitVec >>> 8).setWidth 8).setWidth 32 <<< 8 |||
        ((w.toBitVec >>> 16).setWidth 8).setWidth 32 <<< 16 |||
        ((w.toBitVec >>> 24).setWidth 8).setWidth 32 <<< 24 := rfl
  simp only [hbytes, BitVec.getLsbD_or, hfirst, h8, h16, h24]
  -- One of the four bytes has the bit.
  have hplace : (decide (0 ≤ i ∧ i < 0 + 8) || decide (8 ≤ i ∧ i < 8 + 8) ||
      decide (16 ≤ i ∧ i < 16 + 8) || decide (24 ≤ i ∧ i < 24 + 8)) = true := by
    simp only [Bool.or_eq_true, decide_eq_true_eq]
    omega
  cases w.toBitVec.getLsbD i with
  | false => simp only [Bool.and_false, Bool.or_false]
  | true => simpa only [Bool.and_true] using hplace

theorem reads_word : Reads Reader.word word fun _ => True := by
  intro w rest b
  simp only [word, Reader.word, List.cons_append, List.nil_append, or_bytes, Option.some.injEq,
    true_and, eq_comm]

theorem reads_single : Reads Reader.single single fun _ => True :=
  reads_word.map fun _ => rfl

theorem reads_bool : Reads Reader.bool bool fun _ => True := by
  intro x rest b
  cases x <;> simp [bool, Reader.bool, eq_comm]

/-! ### Lists and texts -/

theorem times_eq_some_iff {r : Reader α} {w : α → Bytes} {P : α → Prop} (h : Reads r w P)
    (items : List α) (rest : Bytes) (b : List α × Bytes) :
    Reader.times r items.length (items.flatMap w ++ rest) = some b ↔
      (∀ a ∈ items, P a) ∧ b = (items, rest) := by
  induction items generalizing b with
  | nil =>
    exact (pure_eq_some_iff [] rest b).trans (by simp)
  | cons a items ih =>
    have hnext : ∀ b, (do return a :: (← Reader.times r items.length) : Reader (List α))
        (items.flatMap w ++ rest) = some b ↔ (∀ a ∈ items, P a) ∧ b = (a :: items, rest) := by
      intro b
      simp only [bind_eq_some_iff, ih, and_assoc, exists_and_left, exists_eq_left,
        pure_eq_some_iff]
    rw [List.length_cons, Reader.times, List.flatMap_cons, List.append_assoc, h.bind, hnext,
      List.forall_mem_cons, and_assoc]

theorem reads_list {r : Reader α} {w : α → Bytes} {P : α → Prop} (h : Reads r w P) :
    Reads (Reader.list r) (list w) fun items => items.length < 2 ^ 64 ∧ ∀ a ∈ items, P a := by
  intro items rest b
  rw [Reader.list, list, List.append_assoc, (reads_varint (by omega)).bind,
    times_eq_some_iff h, and_assoc]

/-- The length of a text in bytes fits its field. -/
def TextFits (t : String) : Prop := (Text.utf8 t).length < 2 ^ 64

instance (t : String) : Decidable (TextFits t) :=
  inferInstanceAs (Decidable ((Text.utf8 t).length < 2 ^ 64))

theorem reads_text : Reads Reader.text text TextFits := by
  intro t rest b
  have htake : Reader.take (Text.utf8 t).length (Text.utf8 t ++ rest) =
      some (Text.utf8 t, rest) := by
    rw [Reader.take, if_pos (by rw [List.length_append]; omega), List.take_left, List.drop_left]
  rw [Reader.text, text, List.append_assoc, (reads_varint (by omega)).bind, bind_eq_some_iff,
    htake]
  simp only [Option.some.injEq, exists_eq_left', Text.ofUtf8?_utf8, Option.map_some, TextFits]
  rw [eq_comm (a := b)]

theorem reads_dictionary {r : Reader α} {w : α → Bytes} {P : α → Prop} (h : Reads r w P) :
    Reads (Reader.dictionary r) (dictionary w) fun d =>
      d.entries.length < 2 ^ 64 ∧ ∀ e ∈ d.entries, TextFits e.1 ∧ P e.2 := by
  have hentry : Reads (Reader.entry r) (fun e : String × α => text e.1 ++ w e.2)
      fun e => TextFits e.1 ∧ P e.2 := by
    intro e rest b
    rw [Reader.entry, List.append_assoc, reads_text.bind, h.bind, pure_eq_some_iff, and_assoc]
  exact (reads_list hentry).map Dictionary.ofList_entries

/-! ### Records -/

/-- A list of values of which all can be written and read. -/
theorem reads_plainList {r : Reader α} {w : α → Bytes} (h : Reads r w fun _ => True) :
    Reads (Reader.list r) (list w) fun items => items.length < 2 ^ 64 :=
  (reads_list h).mono fun _ => and_iff_left fun _ _ => trivial

/-- The lengths of the lists of a tree fit their fields. -/
def TreeFits (t : StoredTree) : Prop :=
  t.splitIndices.length < 2 ^ 64 ∧ t.splitConditions.length < 2 ^ 64 ∧
    t.leftChildren.length < 2 ^ 64 ∧ t.rightChildren.length < 2 ^ 64 ∧
    t.defaultLeft.length < 2 ^ 64 ∧ t.baseWeights.length < 2 ^ 64 ∧
    t.lossChanges.length < 2 ^ 64 ∧ t.sumHessian.length < 2 ^ 64

instance (t : StoredTree) : Decidable (TreeFits t) :=
  inferInstanceAs (Decidable (_ ∧ _ ∧ _ ∧ _ ∧ _ ∧ _ ∧ _ ∧ _))

theorem reads_storedTree : Reads Reader.storedTree storedTree TreeFits := by
  intro t rest b
  simp only [Reader.storedTree, storedTree, List.append_assoc, (reads_plainList reads_uint32).bind,
    (reads_plainList reads_single).bind, (reads_plainList reads_int32).bind,
    (reads_plainList reads_bool).bind, pure_eq_some_iff, TreeFits, and_assoc]

/-- The lengths of the lists of a forest fit their fields. -/
def ForestFits (f : StoredForest) : Prop :=
  (f.trees.length < 2 ^ 64 ∧ ∀ t ∈ f.trees, TreeFits t) ∧ f.treeInfo.length < 2 ^ 64

instance (f : StoredForest) : Decidable (ForestFits f) :=
  inferInstanceAs (Decidable ((_ ∧ _) ∧ _))

theorem reads_storedForest : Reads Reader.storedForest storedForest ForestFits := by
  intro f rest b
  simp only [Reader.storedForest, storedForest, List.append_assoc,
    (reads_list reads_storedTree).bind, (reads_plainList reads_uint32).bind, pure_eq_some_iff,
    ForestFits, and_assoc]

theorem reads_storedParameters :
    Reads Reader.storedParameters storedParameters fun _ => True := by
  intro p rest b
  simp only [Reader.storedParameters, storedParameters, List.append_assoc, reads_single.bind,
    reads_uint32.bind, reads_uint64.bind, pure_eq_some_iff, true_and]

theorem reads_version : Reads Reader.version version fun _ => True := by
  intro v rest b
  simp only [Reader.version, version, List.append_assoc, reads_uint32.bind, pure_eq_some_iff,
    true_and]

/-- All lengths in a stored model fit their fields. -/
structure ModelFits (m : StoredModel) : Prop where
  attributes : m.attributes.entries.length < 2 ^ 64 ∧
    ∀ e ∈ m.attributes.entries, TextFits e.1 ∧ TextFits e.2
  featureNames : m.featureNames.length < 2 ^ 64 ∧ ∀ t ∈ m.featureNames, TextFits t
  featureTypes : m.featureTypes.length < 2 ^ 64 ∧ ∀ t ∈ m.featureTypes, TextFits t
  objective : TextFits m.objective
  forest : ForestFits m.forest

theorem reads_storedModel : Reads Reader.storedModel storedModel ModelFits := by
  intro m rest b
  simp only [Reader.storedModel, storedModel, List.append_assoc, reads_version.bind,
    (reads_dictionary reads_text).bind, (reads_list reads_text).bind,
    reads_storedParameters.bind, reads_text.bind, reads_storedForest.bind, pure_eq_some_iff,
    true_and]
  constructor
  · rintro ⟨ha, hn, ht, ho, hf, rfl⟩
    exact ⟨⟨ha, hn, ht, ho, hf⟩, rfl⟩
  · rintro ⟨⟨ha, hn, ht, ho, hf⟩, rfl⟩
    exact ⟨ha, hn, ht, ho, hf, rfl⟩

end Wire

/-! ## Buffers -/

namespace StoredModel

theorem detect?_toUbj_append (m : StoredModel) (rest : List UInt8) :
    ModelFormat.detect? (m.toUbj ++ rest) = some .ubj := by
  rw [ModelFormat.detect?, toUbj, List.append_assoc,
    if_pos (List.isPrefixOf_iff_prefix.mpr (List.prefix_append _ _))]

/-- A buffer in the compact binary form, and what follows it, are read like a payload. -/
theorem decode_toUbj_append (m : StoredModel) (rest : List UInt8) :
    decode (m.toUbj ++ rest) = match Wire.Reader.storedModel (Wire.storedModel m ++ rest) with
      | none => .error .binary
      | some (m, rest) =>
        if rest.isEmpty then .ok m else .error (.corrupt (.trailingBytes rest.length)) := by
  rw [decode, detect?_toUbj_append]
  rfl

theorem detect?_toUbj (m : StoredModel) : ModelFormat.detect? m.toUbj = some .ubj := by
  have hdetect := m.detect?_toUbj_append []
  rwa [List.append_nil] at hdetect

/-- A buffer in the compact binary form is accepted if the lengths in the model fit their
fields, and it gives back the model that it was made from. -/
theorem decode_toUbj_eq_ok_iff {m m' : StoredModel} :
    decode m.toUbj = .ok m' ↔ Wire.ModelFits m ∧ m' = m := by
  have hread := Wire.reads_storedModel m []
  rw [← List.append_nil m.toUbj, decode_toUbj_append]
  cases hm : Wire.Reader.storedModel (Wire.storedModel m ++ []) with
  | none =>
    refine iff_of_false nofun fun h => ?_
    have := (hread (m, [])).mpr ⟨h.1, rfl⟩
    rw [hm] at this
    cases this
  | some b =>
    -- What was read is the model, and nothing is left.
    obtain ⟨hfits, rfl⟩ := (hread b).mp hm
    simp only [List.isEmpty_nil, if_true, Except.ok.injEq, hfits, true_and, eq_comm]

/-- Every model whose lists and texts have lengths that are words, whatever its trees are, is
written in the compact binary form, shown to be in that form by its first bytes, and read
back as it was, down to the bits of every number. -/
theorem decode_encode_ubj {m : StoredModel} (h : Wire.ModelFits m) :
    ∃ bytes, m.encode .ubj = .ok bytes ∧ ModelFormat.detect? bytes = some .ubj ∧
      decode bytes = .ok m := by
  refine ⟨m.toUbj, rfl, m.detect?_toUbj, ?_⟩
  exact decode_toUbj_eq_ok_iff.mpr ⟨h, rfl⟩

/-- A model that no loader takes: its one tree has lists of different lengths, its numbers
are not finite, and its objective is not known. -/
def misshapen : StoredModel where
  version := ⟨0, 0xffffffff, 7⟩
  attributes := Dictionary.empty.insert "π" ""
  featureNames := ["a", "b"]
  featureTypes := []
  parameters := ⟨⟨0xffc12345⟩, 3, 0xffffffffffffffff⟩
  objective := "none"
  forest := {
    trees := [{
      splitIndices := [127, 128, 0xffffffff]
      splitConditions := [Single.infinity, ⟨0x7f800001⟩]
      leftChildren := [-1, 1, 0x7fffffff]
      rightChildren := []
      defaultLeft := [true, false]
      baseWeights := [Single.negInfinity]
      lossChanges := []
      sumHessian := [⟨0x80000000⟩] }]
    treeInfo := [5, 16384] }

theorem decode_encode_ubj_misshapen :
    Wire.ModelFits misshapen ∧ ∃ bytes, misshapen.encode .ubj = .ok bytes ∧
      ModelFormat.detect? bytes = some .ubj ∧ decode bytes = .ok misshapen := by
  have hfits : Wire.ModelFits misshapen := by
    refine ⟨?_, ?_, ?_, ?_, ?_⟩ <;> decide +kernel
  exact ⟨hfits, decode_encode_ubj hfits⟩

end StoredModel

end BoostedTrees
