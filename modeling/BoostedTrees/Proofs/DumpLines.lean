import BoostedTrees.Importance
import BoostedTrees.Proofs.CutText
import BoostedTrees.Proofs.NumberText
import BoostedTrees.Proofs.TreeShapes

/-!
# Lines of text dumps

A text dump is read line by line, so what a line says must be known for every feature map. The
lines are those of the nodes, in preorder, unless a name holds a line feed: no line ends in a
carriage return, because behind the label of a split only numbers and fixed words follow. Of these
numbers and words it is known, too, which characters they have, and by that they are told from
what stands in the label.

## Main definitions

* `FeatureMap.Condition`: what stands behind the name in a label
* `Tree.dumpRow`: the line of a node as it stands in the text dump

## Main results

* `FeatureMap.exists_label_eq`: a label is a name and a condition
* `Tree.dumpLine_of_split`, `Tree.dumpLine_of_leaf`: the parts of a line
* `Tree.lines_dumpText`: the lines of a text dump are those of its nodes
-/

namespace BoostedTrees

open Text

/-! ## Labels -/

/-- The characters that numbers are written with, beside digits. -/
def Single.marks : List Char := ['-', '.', 'i', 'n', 'f', 'N', 'a']

namespace FeatureMap

/-- A feature that is given no name is named by its index. -/
theorem toList_name {map : FeatureMap} {feature : UInt32}
    (h : map.names[feature.toNat]? = none) :
    (map.name feature).toList = 'f' :: Nat.toDigits 10 feature.toNat := by
  rw [name, List.getD_eq_getElem?_getD, h, Option.getD_none, String.toList_append]
  exact congrArg ('f' :: ·) Nat.toList_repr

/-- What stands behind the name in a label: nothing, or a number that the value is below. -/
inductive Condition : List Char → Prop where
  | none : Condition []
  | below {number : List Char} (h : ∀ c ∈ number, c.isDigit ∨ c ∈ Single.marks) :
      Condition ('<' :: number)

/-- A label is a name and a condition, whatever kind the feature has. -/
theorem exists_label_eq (map : FeatureMap) (feature : UInt32) (threshold : Single) :
    ∃ condition, Condition condition ∧
      map.label feature threshold = (map.name feature).toList ++ condition := by
  rw [label]
  split
  · exact ⟨[], .none, (List.append_nil _).symm⟩
  · refine ⟨_, .below ?_, rfl⟩
    intro c hc
    rcases Numeral.mem_withSign hc with rfl | hc
    · exact .inr List.mem_cons_self
    · exact .inl (Numeral.isDigit_of_mem_toDigits c hc)
  · exact ⟨_, .below threshold.mem_chars, rfl⟩

/-- A condition has no character but these. -/
theorem Condition.notMem {condition : List Char} (h : Condition condition) {c : Char}
    (hdigit : c.isDigit = false) (hmark : c ∉ '<' :: Single.marks) : c ∉ condition := by
  cases h with
  | none => exact List.not_mem_nil
  | below hnumber =>
    intro hc
    rcases List.mem_cons.mp hc with rfl | hc
    · exact hmark List.mem_cons_self
    · rcases hnumber c hc with hin | hin
      · rw [hin] at hdigit
        cases hdigit
      · exact hmark (List.mem_cons_of_mem _ hin)

end FeatureMap

/-! ## Lines -/

namespace Tree

variable (t : Tree) (map : FeatureMap) (statistics : Bool)

/-- What a line says of the children of a split. -/
def childrenText (i left right : Nat) : List Char :=
  assignment "yes" (Nat.toDigits 10 left) ++ ',' :: (assignment "no" (Nat.toDigits 10 right) ++
    ',' :: assignment "missing" (Nat.toDigits 10 (((t.node i).missingChild?).getD 0)))

/-- What a line says of statistics, if they are asked for. -/
def statisticsText (statistics : Bool) (values : List (Statistic × Single)) : List Char :=
  if statistics then values.flatMap fun v => ',' :: assignment v.1.name v.2.chars else []

/-- The line of a node as it stands in the text dump, indented by its depth. -/
def dumpRow (p : Nat × Nat) : List Char :=
  List.replicate p.2 '\t' ++ t.dumpLine map statistics p.1

theorem toList_dumpText : (t.dumpText map statistics).toList =
    (t.outline.map (t.dumpRow map statistics)).flatMap (· ++ ['\n']) := by
  rw [dumpText, String.toList_ofList, List.flatMap_map]
  rfl

variable {t map statistics} {i left right : Nat}

/-- The parts of the line of a leaf. -/
theorem dumpLine_of_leaf (h : (t.node i).children = none) :
    t.dumpLine map statistics i = Nat.toDigits 10 i ++ ':' ::
      (assignment "leaf" (t.node i).value.chars ++
        statisticsText statistics [(.cover, (t.node i).cover)]) := by
  cases statistics <;> simp [dumpLine, h, statisticsText, Statistic.name]

/-- The parts of the line of a split. -/
theorem dumpLine_of_split (h : (t.node i).children = some (left, right)) :
    t.dumpLine map statistics i = Nat.toDigits 10 i ++ ':' :: '[' ::
      (map.label (t.node i).feature (t.node i).threshold ++ ']' :: ' ' ::
        (t.childrenText i left right ++
          statisticsText statistics [(.gain, (t.node i).gain), (.cover, (t.node i).cover)])) := by
  cases statistics <;> simp [dumpLine, h, childrenText, statisticsText, Statistic.name]

/-! ### Characters -/

/-- A character that neither numbers nor the fixed words of a line have. -/
def IsForeign (c : Char) : Prop :=
  c.isDigit = false ∧ c ∉ Single.marks ∧ c ∉ [':', '=', ',', 'y', 'e', 's', 'o', 'm', 'g', 'c', 'v', 'r', 'l']

namespace IsForeign

variable {c : Char} (hc : IsForeign c)
include hc

theorem notMem_toDigits (n : Nat) : c ∉ Nat.toDigits 10 n := Numeral.notMem_toDigits hc.1 n

theorem notMem_chars (x : Single) : c ∉ x.chars := Single.notMem_chars hc.1 hc.2.1 x

theorem notMem_childrenText : c ∉ t.childrenText i left right := by
  obtain ⟨-, hmarks, hletters⟩ := id hc
  simp only [Single.marks, List.mem_cons, List.not_mem_nil, or_false, not_or] at hmarks hletters
  simp [childrenText, assignment, hc.notMem_toDigits, hmarks, hletters]

theorem notMem_statisticsText (values : List (Statistic × Single)) :
    c ∉ statisticsText statistics values := by
  obtain ⟨-, hmarks, hletters⟩ := id hc
  simp only [Single.marks, List.mem_cons, List.not_mem_nil, or_false, not_or] at hmarks hletters
  have hname : ∀ s : Statistic, c ∉ s.name.toList := by
    rintro (_ | _)
    · simp [Statistic.name, hmarks, hletters]
    · simp [Statistic.name, hletters]
  cases statistics with
  | false => exact List.not_mem_nil
  | true => simp [statisticsText, assignment, hname, hc.notMem_chars, hletters]

/-- The line of a leaf has no such character. -/
theorem notMem_dumpLine (h : (t.node i).children = none) : c ∉ t.dumpLine map statistics i := by
  obtain ⟨-, hmarks, hletters⟩ := id hc
  simp only [Single.marks, List.mem_cons, List.not_mem_nil, or_false, not_or] at hmarks hletters
  rw [dumpLine_of_leaf h]
  simp [assignment, hc.notMem_toDigits, hc.notMem_chars, hc.notMem_statisticsText, hmarks, hletters]

end IsForeign

theorem isForeign_bracket : IsForeign '[' := by simp [IsForeign, Single.marks]

theorem isForeign_feed : IsForeign '\n' := by simp [IsForeign, Single.marks]

theorem isForeign_return : IsForeign '\r' := by simp [IsForeign, Single.marks]

/-- No line ends in a carriage return. -/
theorem dropReturn_dumpRow (p : Nat × Nat) :
    dropReturn (t.dumpRow map statistics p) = t.dumpRow map statistics p := by
  cases h : (t.node p.1).children with
  | none =>
    apply dropReturn_of_notMem
    rw [dumpRow, List.mem_append, not_or]
    exact ⟨by simp, isForeign_return.notMem_dumpLine h⟩
  | some children =>
    obtain ⟨left, right⟩ := children
    rw [dumpRow, dumpLine_of_split h]
    generalize hlabel : map.label (t.node p.1).feature (t.node p.1).threshold = label
    -- A name may hold carriage returns, but the line goes on behind it.
    have hsplit : ∀ rest : List Char, List.replicate p.2 '\t' ++ (Nat.toDigits 10 p.1 ++ ':' ::
        '[' :: (label ++ rest)) = List.replicate p.2 '\t' ++ Nat.toDigits 10 p.1 ++ ':' ::
        '[' :: label ++ rest := by
      intro rest
      simp
    rw [hsplit, dropReturn_append _ (List.cons_ne_nil _ _), dropReturn_of_notMem]
    simp [isForeign_return.notMem_childrenText, isForeign_return.notMem_statisticsText]

/-- The line of a node has a line feed just if it shows a name with one. -/
theorem feed_notMem_dumpRow {p : Nat × Nat} (h : (t.node p.1).isLeaf = false →
      '\n' ∉ (map.name (t.node p.1).feature).toList) : '\n' ∉ t.dumpRow map statistics p := by
  cases hchildren : (t.node p.1).children with
  | none =>
    rw [dumpRow, List.mem_append, not_or]
    exact ⟨by simp, isForeign_feed.notMem_dumpLine hchildren⟩
  | some children =>
    obtain ⟨left, right⟩ := children
    have hname := h (by rw [Node.isLeaf, hchildren]; rfl)
    obtain ⟨condition, hcondition, hlabel⟩ :=
      map.exists_label_eq (t.node p.1).feature (t.node p.1).threshold
    have hnot : '\n' ∉ condition := hcondition.notMem rfl (by simp [Single.marks])
    rw [dumpRow, dumpLine_of_split hchildren, hlabel]
    simp [hname, hnot, isForeign_feed.notMem_toDigits, isForeign_feed.notMem_childrenText,
      isForeign_feed.notMem_statisticsText]

/-- The lines of a text dump are those of the nodes, if no name breaks them. -/
theorem lines_dumpText (h : ∀ n ∈ t.splits, '\n' ∉ (map.name n.feature).toList) :
    lines (t.dumpText map statistics).toList = t.outline.map (t.dumpRow map statistics) := by
  have hrow : ∀ p ∈ t.outline, splitOn '\n' (t.dumpRow map statistics p) =
      [t.dumpRow map statistics p] := by
    intro p hp
    apply splitOn_of_notMem
    apply feed_notMem_dumpRow
    intro hsplit
    exact h _ (List.mem_filter.mpr ⟨List.mem_map_of_mem (List.mem_map_of_mem hp), by rw [hsplit]; rfl⟩)
  rw [toList_dumpText, lines_flatMap, List.flatMap_map, List.map_flatMap, List.map_eq_flatMap]
  refine List.flatMap_congr fun p hp => ?_
  rw [hrow p hp, List.map_singleton, dropReturn_dumpRow]

end Tree

end BoostedTrees
