import BoostedTrees.Proofs.DumpLines
import BoostedTrees.Proofs.RoutedRows
import BoostedTrees.Proofs.TreeWalks

/-!
# Dumps describe the tree that predicts

Without a feature map a dump says all that a prediction needs: the name of a split shows the
feature that it looks at, and its children are told by their ids. So a structured dump can be
followed with a row, knowing nothing of the array, and it ends in the leaf that the row reaches.
The text dump says the same. Its lines are those of the nested nodes in preorder, each indented by
how deep its node is nested, and what a line says is what the fields of its node say.

## Main definitions

* `DumpFields.childFor?`, `DumpNode.leafFor?`: a row follows a structured dump
* `DumpNode.outline`: the nested nodes in preorder, with their depths
* `DumpFields.ShownBy`: a line of a text dump says what the fields of a node say

## Main results

* `Tree.childFor?_splitFields`: the fields of a split send a row where the split sends it
* `Tree.Unfolds.leafFor?_toNode`: a row ends in its leaf
* `Tree.Unfolds.forall₂_shownBy`: the lines are those of the nested nodes
* `Tree.dumps_of_ofStored`: both dumps of a tree that is read
-/

namespace BoostedTrees

open Text

/-! ## Following a structured dump -/

namespace DumpFields

/-- The feature that has a name where no names are given. -/
def featureOf? (name : String) : Option Nat :=
  match name.toList with
  | 'f' :: digits => natOfText? 0x100000000 digits
  | _ => none

/-- The id of the child that a split sends a row to: a value that is absent or a NaN goes to the
child for missing values, a value below the condition to `yes`, any other to `no`. -/
def childFor? (f : DumpFields) (row : Array Single) : Option UInt32 := do
  let feature ← featureOf? (← f.split)
  let condition ← f.splitCondition
  let v := row.getD feature Single.nan
  if v.isNaN then f.missing else if v < condition then f.yes else f.no

end DumpFields

namespace DumpNode

mutual

/-- The leaf that a row ends in, by what the nodes say. -/
def leafFor? (row : Array Single) : DumpNode → Option DumpNode
  | node f children =>
    match f.leaf, f.childFor? row with
    | some _, _ => some (node f children)
    | none, some id => leafBelow? row id children
    | none, none => none

/-- The leaf that a row ends in, below the child with an id. -/
def leafBelow? (row : Array Single) (id : UInt32) : List DumpNode → Option DumpNode
  | [] => none
  | child :: more => if child.fields.id = id then leafFor? row child else leafBelow? row id more

end

mutual

/-- What a node and those below it say, in preorder, each with the depth that it is nested at. -/
def outline : DumpNode → (depth : Nat) → List (DumpFields × Nat)
  | node f children, depth => (f, depth) :: outlineBelow children (depth + 1)

def outlineBelow : List DumpNode → (depth : Nat) → List (DumpFields × Nat)
  | [], _ => []
  | child :: more, depth => outline child depth ++ outlineBelow more depth

end

end DumpNode

/-! ## What a line says -/

namespace DumpFields

/-- An id as a line shows it. -/
def idText (id : Option UInt32) : List Char := (id.map fun n => Nat.toDigits 10 n.toNat).getD []

/-- What a line says of a node beside its statistics. -/
def description (f : DumpFields) : List Char :=
  Nat.toDigits 10 ((f.id).toNat) ++ ':' ::
    match f.leaf with
    | some value => Tree.assignment "leaf" value.chars
    | none =>
      '[' :: ((f.split.getD "").toList ++ '<' :: ((f.splitCondition.map Single.chars).getD [] ++
        ']' :: ' ' :: (Tree.assignment "yes" (idText f.yes) ++
          ',' :: (Tree.assignment "no" (idText f.no) ++
            ',' :: Tree.assignment "missing" (idText f.missing)))))

/-- How a line shows a statistic: not at all if the node has none, else as it was before it was
widened. -/
def ShowsStatistic (s : Statistic) (value : Option Double) (text : List Char) : Prop :=
  match value with
  | none => text = []
  | some y => ∃ x : Single, x.toDouble = y ∧ text = ',' :: Tree.assignment s.name x.chars

/-- The line is indented by the depth of a node and says what its fields say. -/
def ShownBy (p : DumpFields × Nat) (line : List Char) : Prop :=
  ∃ gain cover, ShowsStatistic .gain p.1.gain gain ∧ ShowsStatistic .cover p.1.cover cover ∧
    line = List.replicate p.2 '\t' ++ (p.1.description ++ (gain ++ cover))

/-- The node is either a split or a leaf. It has a cover if statistics are asked for, and a gain
if it is a split, too. A split says how deep it is. -/
structure IsComplete (statistics : Bool) (p : DumpFields × Nat) : Prop where
  isSome_leaf : p.1.leaf.isSome = p.1.split.isNone
  isSome_cover : p.1.cover.isSome = statistics
  isSome_gain : p.1.gain.isSome = (statistics && p.1.split.isSome)
  depth_eq : p.1.depth.map (·.toNat) = p.1.split.map fun _ => p.2

end DumpFields

/-! ## Dumps of shapes -/

namespace Tree

variable {t : Tree} {i : Nat} {s : Shape} (row : Array Single) (statistics : Bool)

theorem toNat_word (h : i < 2 ^ 32) : (UInt32.ofNat i).toNat = i := UInt32.toNat_ofNat_of_lt h

theorem featureOf?_name (feature : UInt32) :
    DumpFields.featureOf? (FeatureMap.empty.name feature) = some feature.toNat := by
  rw [DumpFields.featureOf?, FeatureMap.toList_name rfl]
  exact natOfText?_toDigits feature.toNat_lt

/-- The fields of a split send a row where the split sends it. -/
theorem childFor?_splitFields (depth : Nat) :
    (t.splitFields .empty statistics depth i).childFor? row =
      ((t.node i).childFor? row).map UInt32.ofNat := by
  have hfields : (t.splitFields .empty statistics depth i).childFor? row =
      (DumpFields.featureOf? (FeatureMap.empty.name (t.node i).feature)).bind fun feature =>
        if (row.getD feature Single.nan).isNaN then (t.node i).missingChild?.map UInt32.ofNat
        else if row.getD feature Single.nan < (t.node i).threshold then
          (t.node i).children.map fun c => UInt32.ofNat c.1
        else (t.node i).children.map fun c => UInt32.ofNat c.2 := rfl
  rw [hfields, featureOf?_name, Option.bind_some, Node.childFor?]
  split
  · rfl
  · cases (t.node i).children with
    | none => split <;> rfl
    | some children => split <;> rfl

theorem Unfolds.id_toNode (h : t.Unfolds i s) (map : FeatureMap) (depth : Nat) :
    (s.toNode (t.fieldsAt map statistics) depth).fields.id = UInt32.ofNat i := by
  cases h <;> rfl

/-- A row that follows the dump of a shape ends in its leaf. -/
theorem Unfolds.leafFor?_toNode (h : t.Unfolds i s) (hnodup : s.places.Nodup)
    (hlt : ∀ j ∈ s.places, j < 2 ^ 32) {fuel : Nat} (hfuel : s.height ≤ fuel) (depth : Nat) :
    ∃ leaf, (t.pathFrom row fuel i).getLast? = some leaf ∧ (t.node leaf).children = none ∧
      (s.toNode (t.fieldsAt .empty statistics) depth).leafFor? row =
        some (.node (t.leafFields statistics leaf) []) := by
  -- Both ways down go along the shape. The fuel lasts, for every step takes one off the height.
  induction h generalizing fuel depth with
  | @leaf i hnode =>
    have hchild : (t.node i).childFor? row = none :=
      Node.childFor?_eq_none_iff.mpr hnode
    refine ⟨i, ?_, hnode, rfl⟩
    cases fuel with
    | zero => rfl
    | succ fuel =>
      rw [pathFrom, hchild]
      rfl
  | @split i l r left right hnode hleft hright ihleft ihright =>
    rw [Shape.height] at hfuel
    obtain ⟨fuel, rfl⟩ : ∃ n, fuel = n + 1 := ⟨fuel - 1, by omega⟩
    obtain ⟨hfuelleft, hfuelright⟩ : left.height ≤ fuel ∧ right.height ≤ fuel := by omega
    have hne : l ≠ r := ne_of_nodup hleft hright hnodup
    rw [Shape.places, List.nodup_cons, List.nodup_append'] at hnodup
    rw [Shape.places, List.forall_mem_cons, List.forall_mem_append] at hlt
    obtain ⟨-, hltleft, hltright⟩ := hlt
    obtain ⟨child, hchild⟩ : ∃ child, (t.node i).childFor? row = some child := by
      apply Option.ne_none_iff_exists'.mp
      intro hnone
      cases hnode.symm.trans (Node.childFor?_eq_none_iff.mp hnone)
    have hid := @childFor?_splitFields t i row statistics depth
    rw [hchild, Option.map_some] at hid
    have hstep : ((Shape.split i left right).toNode (t.fieldsAt .empty statistics) depth).leafFor? row =
        DumpNode.leafBelow? row (UInt32.ofNat child)
          [left.toNode (t.fieldsAt .empty statistics) (depth + 1),
            right.toNode (t.fieldsAt .empty statistics) (depth + 1)] := by
      rw [Shape.toNode, DumpNode.leafFor?, fieldsAt, hid]
      rfl
    have hpath : ∀ leaf, (t.pathFrom row fuel child).getLast? = some leaf →
        (t.pathFrom row (fuel + 1) i).getLast? = some leaf := by
      intro leaf hlast
      rw [pathFrom_succ_of_some hchild, List.getLast?_cons, hlast]
      rfl
    obtain ⟨l', r', hchildren, hside⟩ := Node.exists_of_childFor?_eq_some hchild
    cases hnode.symm.trans hchildren
    rw [hstep, DumpNode.leafBelow?, hleft.id_toNode]
    rcases hside with rfl | rfl
    · obtain ⟨leaf, hlast, hleaf, hends⟩ := ihleft hnodup.2.1 hltleft hfuelleft (depth + 1)
      rw [if_pos rfl]
      exact ⟨leaf, hpath leaf hlast, hleaf, hends⟩
    · obtain ⟨leaf, hlast, hleaf, hends⟩ := ihright hnodup.2.2.1 hltright hfuelright (depth + 1)
      -- The other child has another id, because both fit a word.
      have hother : UInt32.ofNat l ≠ UInt32.ofNat child := by
        intro heq
        have hnat := congrArg UInt32.toNat heq
        rw [toNat_word (hltleft l hleft.mem_places),
          toNat_word (hltright child hright.mem_places)] at hnat
        exact hne hnat
      rw [if_neg hother, DumpNode.leafBelow?, hright.id_toNode, if_pos rfl]
      exact ⟨leaf, hpath leaf hlast, hleaf, hends⟩

/-! ## The lines of a dump -/

theorem showsStatistic (s : Statistic) (x : Single) :
    DumpFields.ShowsStatistic s (shownStatistic statistics x) (statisticsText statistics [(s, x)]) := by
  cases statistics with
  | false => rfl
  | true => exact ⟨x, rfl, List.append_nil _⟩

/-- The line of a leaf says what its fields say. -/
theorem shownBy_leaf (h : (t.node i).children = none) (hi : i < 2 ^ 32) (depth : Nat) :
    DumpFields.ShownBy (t.leafFields statistics i, depth) (t.dumpRow .empty statistics (i, depth)) := by
  refine ⟨[], _, rfl, showsStatistic statistics .cover (t.node i).cover, ?_⟩
  rw [dumpRow, dumpLine_of_leaf h, DumpFields.description]
  simp [leafFields, toNat_word hi]

/-- The line of a split says what its fields say. -/
theorem shownBy_split {l r : Nat} (h : (t.node i).children = some (l, r)) (hi : i < 2 ^ 32)
    (hl : l < 2 ^ 32) (hr : r < 2 ^ 32) (depth : Nat) :
    DumpFields.ShownBy (t.splitFields .empty statistics depth i, depth)
      (t.dumpRow .empty statistics (i, depth)) := by
  refine ⟨_, _, showsStatistic statistics .gain (t.node i).gain,
    showsStatistic statistics .cover (t.node i).cover, ?_⟩
  obtain ⟨m, hmissing, hm⟩ : ∃ m, (t.node i).missingChild? = some m ∧ m < 2 ^ 32 := by
    rw [Node.missingChild?, h, Option.map_some]
    refine ⟨_, rfl, ?_⟩
    dsimp only
    split
    · exact hl
    · exact hr
  have hlabel : FeatureMap.empty.label (t.node i).feature (t.node i).threshold =
      (FeatureMap.empty.name (t.node i).feature).toList ++ '<' :: (t.node i).threshold.chars := rfl
  have hstatistics : statisticsText statistics
      [(.gain, (t.node i).gain), (.cover, (t.node i).cover)] =
        statisticsText statistics [(.gain, (t.node i).gain)] ++
          statisticsText statistics [(.cover, (t.node i).cover)] := by
    cases statistics <;> simp [statisticsText]
  rw [dumpRow, dumpLine_of_split h, hlabel, hstatistics, childrenText, hmissing,
    DumpFields.description]
  simp [splitFields, h, hmissing, DumpFields.idText, toNat_word hi, toNat_word hl, toNat_word hr,
    toNat_word hm]

/-- The lines of a shape are those of its nested nodes. -/
theorem Unfolds.forall₂_shownBy (h : t.Unfolds i s) (hlt : ∀ j ∈ s.places, j < 2 ^ 32)
    (depth : Nat) :
    List.Forall₂ DumpFields.ShownBy ((s.toNode (t.fieldsAt .empty statistics) depth).outline depth)
      ((s.outline depth).map (t.dumpRow .empty statistics)) := by
  induction h generalizing depth with
  | leaf hnode =>
    exact .cons (shownBy_leaf statistics hnode (hlt _ List.mem_cons_self) depth) .nil
  | split hnode hleft hright ihleft ihright =>
    rw [Shape.places, List.forall_mem_cons, List.forall_mem_append] at hlt
    obtain ⟨hi, hltleft, hltright⟩ := hlt
    rw [Shape.outline, List.map_cons, List.map_append, Shape.toNode, DumpNode.outline,
      DumpNode.outlineBelow, DumpNode.outlineBelow, DumpNode.outlineBelow, List.append_nil]
    refine .cons ?_ (List.rel_append (ihleft hltleft _) (ihright hltright _))
    exact shownBy_split statistics hnode hi (hltleft _ hleft.mem_places)
      (hltright _ hright.mem_places) depth

/-- The nodes of the dump of a shape are complete. -/
theorem Unfolds.forall_isComplete (h : t.Unfolds i s) {depth : Nat}
    (hdepth : depth + s.height < 2 ^ 32) :
    ∀ p ∈ (s.toNode (t.fieldsAt .empty statistics) depth).outline depth,
      DumpFields.IsComplete statistics p := by
  have hstatistic : ∀ x, (shownStatistic statistics x).isSome = statistics := by
    intro x
    cases statistics <;> rfl
  induction h generalizing depth with
  | @leaf i hnode =>
    rw [Shape.toNode, DumpNode.outline, DumpNode.outlineBelow, List.forall_mem_singleton]
    exact ⟨rfl, hstatistic _, (Bool.and_false _).symm, rfl⟩
  | @split i l r left right hnode hleft hright ihleft ihright =>
    rw [Shape.height] at hdepth
    rw [Shape.toNode, DumpNode.outline, DumpNode.outlineBelow, DumpNode.outlineBelow,
      DumpNode.outlineBelow, List.append_nil, List.forall_mem_cons, List.forall_mem_append]
    refine ⟨⟨rfl, hstatistic _, ?_, ?_⟩, ihleft (by omega), ihright (by omega)⟩
    · exact (hstatistic _).trans (Bool.and_true _).symm
    · exact congrArg some (toNat_word (by omega))

/-- Both dumps of a tree that is read, in which names are those by default. Following the
structured dump, every row ends in its leaf, the value of which is the output for the row. The
lines of the text dump are those of the nested nodes in preorder, each indented by how deep its
node is nested. Gains and covers are shown in both just if statistics are asked for. -/
theorem dumps_of_ofStored {stored : StoredTree} {features : UInt64}
    (h : ofStored stored features = .ok t) (statistics : Bool) :
    let root := t.dumpNode .empty statistics
    (∀ row, ∃ f, root.leafFor? row = some (.node f []) ∧ f.id.toNat = t.leafOf row ∧
      f.leaf = some (t.output row) ∧ (t.node (t.leafOf row)).isLeaf) ∧
      List.Forall₂ DumpFields.ShownBy (root.outline 0)
        (lines (t.dumpText .empty statistics).toList) ∧
      ∀ p ∈ root.outline 0, DumpFields.IsComplete statistics p := by
  obtain ⟨-, -, -, hvalid⟩ := ofStored_eq_ok h
  obtain ⟨s, hs, hplaces⟩ := exists_shape_of_validate hvalid
  have hlt : ∀ j ∈ s.places, j < 2 ^ 31 := fun j hj =>
    lt_of_ofStored h j ((mem_places_iff_lt hplaces j).mp hj)
  have hword : ∀ j ∈ s.places, j < 2 ^ 32 := fun j hj => (hlt j hj).trans (by decide)
  have hheight := height_lt_size hplaces
  intro root
  have hroot : root = s.toNode (t.fieldsAt .empty statistics) 0 :=
    hs.dumpNode_eq hplaces .empty statistics
  have hfeed : ∀ n ∈ t.splits, '\n' ∉ (FeatureMap.empty.name n.feature).toList := by
    intro n _
    rw [FeatureMap.toList_name rfl]
    exact List.not_mem_cons_of_ne_of_not_mem (by decide) (Numeral.notMem_toDigits rfl _)
  rw [hroot, lines_dumpText hfeed, hs.outline_eq hplaces]
  refine ⟨fun row => ?_, hs.forall₂_shownBy statistics hword 0, hs.forall_isComplete statistics ?_⟩
  · obtain ⟨leaf, hlast, hleaf, hends⟩ := hs.leafFor?_toNode row statistics
      (nodup_places hplaces) hword (Nat.le_of_lt hheight) 0
    have hreached : t.leafOf row = leaf := by
      rw [leafOf, path, List.getLastD_eq_getLast?, hlast, Option.getD_some]
    refine ⟨_, hends, ?_, ?_, ?_⟩
    · rw [hreached]
      exact toNat_word (hword leaf (hs.mem_places_of_mem_pathFrom (List.mem_of_getLast? hlast)))
    · rw [output, hreached]
      rfl
    · rw [hreached, Node.isLeaf, hleaf]
      rfl
  · -- The last node is at a place that is not below the height.
    have hsize := lt_of_ofStored h (t.size - 1) (by omega)
    omega

/-- Rows of a tree whose nodes are not in preorder, one of them too short for its second split. -/
theorem dumps_of_ofStored_crossed :
    let root := crossed.dumpNode .empty true
    (∃ f, root.leafFor? #[0] = some (.node f []) ∧ f.id.toNat = 4 ∧ f.leaf = some 4) ∧
      (∃ f, root.leafFor? #[0, 1] = some (.node f []) ∧ f.id.toNat = 1 ∧ f.leaf = some 1) ∧
      (root.outline 0).length = (lines (crossed.dumpText .empty true).toList).length := by
  intro root
  have h : ofStored crossed.toStored 2 = .ok crossed := by decide +kernel
  obtain ⟨hrow, hlines, -⟩ := dumps_of_ofStored h true
  have hleaf : crossed.leafOf #[0] = 4 ∧ crossed.output #[0] = 4 ∧ crossed.leafOf #[0, 1] = 1 ∧
      crossed.output #[0, 1] = 1 := by decide +kernel
  obtain ⟨hmissing, hvalue, hbelow, hvalue'⟩ := hleaf
  have hshort := hrow #[0]
  have hlong := hrow #[0, 1]
  rw [hmissing, hvalue] at hshort
  rw [hbelow, hvalue'] at hlong
  obtain ⟨f, hends, hid, hshown, -⟩ := hshort
  obtain ⟨f', hends', hid', hshown', -⟩ := hlong
  exact ⟨⟨f, hends, hid, hshown⟩, ⟨f', hends', hid', hshown'⟩, hlines.length_eq⟩

end Tree

end BoostedTrees
