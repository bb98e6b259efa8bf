import BoostedTrees.Proofs.BestSplits
import BoostedTrees.Proofs.Contributions
import BoostedTrees.Proofs.GrownTrees

/-!
# The rows that a grown tree routes

While a tree is grown, the rows of a node are dealt to its children by the split that was found.
A prediction asks the nodes instead, with the values of one row. Both say the same of every row of
the matrix: what is on the path of a row does not depend on when it is asked.

So the rows that a node was grown on are just those whose path passes it, in their order, and its
statistics are theirs.

## Main definitions

* `Tree.reaching`: the rows whose path passes a node

## Main results

* `Tree.Unfolds.mem_pathFrom_iff`: a path passes a child if and only if it passes the parent and
  goes on to this child
* `Growth.statistics_grow`: the statistics of a node are those of the rows that reach it
-/

namespace BoostedTrees

open BoostedTrees.Split (twoRows entries_twoRows)

theorem Matrix.getD_row (m : Matrix) (row : Nat) {column : Nat} (h : column < m.columns) :
    (m.row row).getD column Single.nan = m.value row column := by
  have hstop : (row + 1) * m.columns = row * m.columns + m.columns := Nat.succ_mul _ _
  simp only [Matrix.row, Rows.row, Matrix.toRows, Matrix.value, Array.getD_eq_getD_getElem?,
    Array.getElem?_extract, hstop]
  split
  · rfl
  · -- The row ends where the values end.
    rw [Array.getElem?_eq_none (by omega)]

namespace Tree

variable {t : Tree} {i : Nat} {s : Shape} {row : Array Single} {fuel : Nat}

/-! ## Paths -/

theorem mem_pathFrom_self (t : Tree) (row : Array Single) (fuel i : Nat) :
    i ∈ t.pathFrom row fuel i := by
  obtain ⟨rest, hrest⟩ := t.exists_pathFrom_eq_cons row fuel i
  rw [hrest]
  exact List.mem_cons_self

theorem pathFrom_succ_of_some {child : Nat} (h : (t.node i).childFor? row = some child) :
    t.pathFrom row (fuel + 1) i = i :: t.pathFrom row fuel child := by
  rw [pathFrom, h]

/-- The rows, in their order, whose path passes a node. -/
def reaching (t : Tree) (m : Matrix) (rows : List Nat) (i : Nat) : List Nat :=
  rows.filter fun row => i ∈ t.path (m.row row)

namespace Unfolds

/-- A path stays in the shape below the node that it starts from. -/
theorem mem_places_of_mem_pathFrom (h : t.Unfolds i s) {j : Nat}
    (hj : j ∈ t.pathFrom row fuel i) : j ∈ s.places := by
  induction fuel generalizing i s with
  | zero =>
    rw [pathFrom, List.mem_singleton] at hj
    exact hj ▸ h.mem_places
  | succ fuel ih =>
    cases hchild : (t.node i).childFor? row with
    | none =>
      rw [pathFrom, hchild, List.mem_singleton] at hj
      exact hj ▸ h.mem_places
    | some child =>
      rw [pathFrom_succ_of_some hchild, List.mem_cons] at hj
      obtain ⟨left, right, hchildren, hside⟩ := Node.exists_of_childFor?_eq_some hchild
      cases h with
      | leaf hleaf => cases hleaf.symm.trans hchildren
      | split hsplit hleft hright =>
        cases Option.some.inj (hsplit.symm.trans hchildren)
        rw [Shape.places, List.mem_cons, List.mem_append]
        refine hj.imp_right fun hj => ?_
        rcases hside with rfl | rfl
        · exact .inl (ih hleft hj)
        · exact .inr (ih hright hj)

theorem ne_of_nodup {l r : Nat} {left right : Shape} (hleft : t.Unfolds l left)
    (hright : t.Unfolds r right) (hnodup : (Shape.split i left right).places.Nodup) : l ≠ r := by
  rintro rfl
  exact (List.nodup_append'.mp hnodup.of_cons).2.2 hleft.mem_places hright.mem_places

/-- Children of nodes of the shape stand in the shape, below its top. -/
theorem mem_tail_places (h : t.Unfolds i s) {j child : Nat} {children : Nat × Nat}
    (hj : j ∈ s.places) (hchildren : (t.node j).children = some children)
    (hchild : child = children.1 ∨ child = children.2) : child ∈ s.places.tail := by
  induction h with
  | leaf hleaf =>
    cases List.mem_singleton.mp hj
    cases hleaf.symm.trans hchildren
  | split hsplit hleft hright ihleft ihright =>
    rw [Shape.places, List.tail_cons, List.mem_append]
    rw [Shape.places, List.mem_cons, List.mem_append] at hj
    rcases hj with rfl | hj | hj
    · cases Option.some.inj (hsplit.symm.trans hchildren)
      rcases hchild with rfl | rfl
      · exact .inl hleft.mem_places
      · exact .inr hright.mem_places
    · exact .inl (List.mem_of_mem_tail (ihleft hj))
    · exact .inr (List.mem_of_mem_tail (ihright hj))

/-- With fuel for the whole shape, a path passes a child if and only if it passes the parent and
goes on to this child. -/
theorem mem_pathFrom_iff (h : t.Unfolds i s) (hnodup : s.places.Nodup) (hfuel : s.height ≤ fuel)
    {j child : Nat} {children : Nat × Nat} (hj : j ∈ s.places)
    (hchildren : (t.node j).children = some children)
    (hchild : child = children.1 ∨ child = children.2) :
    child ∈ t.pathFrom row fuel i ↔
      j ∈ t.pathFrom row fuel i ∧ (t.node j).childFor? row = some child := by
  induction h generalizing fuel with
  | leaf hleaf =>
    cases List.mem_singleton.mp hj
    cases hleaf.symm.trans hchildren
  | @split i l r left right hsplit hleft hright ihleft ihright =>
    have hbelow := (Unfolds.split hsplit hleft hright).mem_tail_places hj hchildren hchild
    rw [Shape.places, List.nodup_cons, List.nodup_append'] at hnodup
    obtain ⟨htop, hnodupLeft, hnodupRight, hdisjoint⟩ := hnodup
    rw [Shape.height] at hfuel
    obtain ⟨fuel, rfl⟩ : ∃ n, fuel = n + 1 := ⟨fuel - 1, by omega⟩
    -- The top sends the row to one of its two children.
    obtain ⟨next, hnext⟩ : ∃ next, (t.node i).childFor? row = some next := by
      refine Option.ne_none_iff_exists'.mp fun hnone => ?_
      cases hsplit.symm.trans (Node.childFor?_eq_none_iff.mp hnone)
    have hside : next = l ∨ next = r := by
      obtain ⟨_, _, hpair, hside⟩ := Node.exists_of_childFor?_eq_some hnext
      cases Option.some.inj (hsplit.symm.trans hpair)
      exact hside
    have hpath : ∀ k ∈ left.places ++ right.places,
        (k ∈ t.pathFrom row (fuel + 1) i ↔ k ∈ t.pathFrom row fuel next) := by
      intro k hk
      rw [pathFrom_succ_of_some hnext, List.mem_cons]
      exact or_iff_right fun h => htop (h ▸ hk)
    rw [hpath child hbelow]
    rcases List.mem_cons.mp hj with rfl | hj
    · cases Option.some.inj (hsplit.symm.trans hchildren)
      rw [hnext, Option.some.injEq, and_iff_right (t.mem_pathFrom_self row _ _)]
      refine ⟨fun hmem => ?_, fun h => h ▸ t.mem_pathFrom_self row fuel next⟩
      -- The other child is not on a path from the one that the row goes to.
      rcases hside with rfl | rfl <;> rcases hchild with rfl | rfl
      · rfl
      · exact (hdisjoint (hleft.mem_places_of_mem_pathFrom hmem) hright.mem_places).elim
      · exact (hdisjoint hleft.mem_places (hright.mem_places_of_mem_pathFrom hmem)).elim
      · rfl
    · rw [hpath j hj]
      rcases List.mem_append.mp hj with hj | hj
      · have hmem := List.mem_of_mem_tail (hleft.mem_tail_places hj hchildren hchild)
        rcases hside with rfl | rfl
        · exact ihleft hnodupLeft (by omega) hj
        · exact iff_of_false
            (fun h => hdisjoint hmem (hright.mem_places_of_mem_pathFrom h))
            fun h => hdisjoint hj (hright.mem_places_of_mem_pathFrom h.1)
      · have hmem := List.mem_of_mem_tail (hright.mem_tail_places hj hchildren hchild)
        rcases hside with rfl | rfl
        · exact iff_of_false
            (fun h => hdisjoint (hleft.mem_places_of_mem_pathFrom h) hmem)
            fun h => hdisjoint (hleft.mem_places_of_mem_pathFrom h.1) hj
        · exact ihright hnodupRight (by omega) hj

end Unfolds

section Reaching

variable {m : Matrix} {rows : List Nat}

/-- The rows that reach a child are those that reach the parent and go on to this child. -/
theorem Unfolds.reaching_child (h : t.Unfolds 0 s) (hplaces : s.places.Perm (List.range t.size))
    {child : Nat} {children : Nat × Nat} (hi : i < t.size)
    (hchildren : (t.node i).children = some children)
    (hchild : child = children.1 ∨ child = children.2) :
    t.reaching m rows child =
      (t.reaching m rows i).filter fun row => (t.node i).childFor? (m.row row) = some child := by
  rw [reaching, reaching, List.filter_filter]
  refine List.filter_congr fun row _ => ?_
  rw [← Bool.decide_and, decide_eq_decide, and_comm]
  exact h.mem_pathFrom_iff (hplaces.nodup_iff.mpr List.nodup_range)
    (Nat.le_of_lt (height_lt_size hplaces)) (hplaces.mem_iff.mpr (List.mem_range.mpr hi))
    hchildren hchild

end Reaching

end Tree

namespace Growth

variable {rules : GrowthRules} {m : Matrix} {g : Gradient} {t : Tree} {i : Nat} {rows : List Nat}
  {shape : Tree.Shape}

/-- A prediction goes on from a split to the child that growth has dealt the row to. -/
theorem childFor?_splitOver {total : Sums} {s : Split}
    (h : Split.find? rules m g rows total = some s) (l r row : Nat) :
    (splitOver rules total s l r).childFor? (m.row row) =
      some (if s.sendsLeft m row then l else r) := by
  have hcolumn : s.feature.toNat < m.columns :=
    Nat.lt_of_lt_of_le (Split.feature_lt_of_find? h) (Nat.mod_le _ _)
  simp only [Node.childFor?, Node.missingChild?, splitOver, m.getD_row row hcolumn,
    Split.sendsLeft]
  split
  · rfl
  · simp

section Reaching

variable {whole : Tree.Shape} (hwhole : t.Unfolds 0 whole)
  (hplaces : whole.places.Perm (List.range t.size))
include hwhole hplaces

/-- The split of the rows that reach a node deals them to its children as predictions do. -/
theorem dealt_reaching {total : Sums} {s : Split} {l r : Nat}
    (hfind : Split.find? rules m g (t.reaching m rows i) total = some s)
    (hnode : t.node i = splitOver rules total s l r) (hi : i < t.size) (hne : l ≠ r) :
    s.leftRows m (t.reaching m rows i) = t.reaching m rows l ∧
      s.rightRows m (t.reaching m rows i) = t.reaching m rows r := by
  have hchildren : (t.node i).children = some (l, r) := by
    rw [hnode]
    rfl
  rw [hwhole.reaching_child hplaces hi hchildren (.inl rfl),
    hwhole.reaching_child hplaces hi hchildren (.inr rfl)]
  simp only [hnode, childFor?_splitOver hfind, Split.leftRows, Split.rightRows, Option.some.injEq]
  constructor
  · refine List.filter_congr fun row _ => ?_
    cases s.sendsLeft m row <;> simp [hne.symm]
  · refine List.filter_congr fun row _ => ?_
    cases s.sendsLeft m row <;> simp [hne]

/-- If a node is grown on the rows that reach it, so are the nodes below it. -/
theorem Grown.forall_reaching (h : Grown rules m g t i (t.reaching m rows i) shape)
    (hnodup : shape.places.Nodup) (hlt : ∀ j ∈ shape.places, j < t.size) :
    ∀ j ∈ shape.places, ∃ below, Grown rules m g t j (t.reaching m rows j) below ∧
      below.places.Nodup := by
  generalize hreach : t.reaching m rows i = reach at h
  induction h with
  | leaf hnode =>
    intro j hj
    cases List.mem_singleton.mp hj
    exact ⟨_, hreach ▸ .leaf hnode, hnodup⟩
  | @split i l r _ s left right hfind hnode hleft hright ihleft ihright =>
    subst hreach
    have hself := Grown.split hfind hnode hleft hright
    have hne := hleft.unfolds.ne_of_nodup hright.unfolds hnodup
    obtain ⟨hnodupLeft, hnodupRight, -⟩ := List.nodup_append'.mp hnodup.of_cons
    obtain ⟨hdealt, hdealt'⟩ :=
      dealt_reaching hwhole hplaces hfind hnode (hlt i List.mem_cons_self) hne
    intro j hj
    rw [Tree.Shape.places, List.mem_cons, List.mem_append] at hj
    rcases hj with rfl | hj | hj
    · exact ⟨_, hself, hnodup⟩
    · refine ihleft hnodupLeft (fun k hk => hlt k ?_) hdealt.symm j hj
      exact List.mem_cons_of_mem _ (List.mem_append_left _ hk)
    · refine ihright hnodupRight (fun k hk => hlt k ?_) hdealt'.symm j hj
      exact List.mem_cons_of_mem _ (List.mem_append_right _ hk)

end Reaching

theorem reaching_root (t : Tree) (m : Matrix) (rows : List Nat) : t.reaching m rows 0 = rows :=
  List.filter_eq_self.mpr fun row _ => decide_eq_true (t.mem_pathFrom_self (m.row row) _ 0)

/-- The statistics of a grown tree are those of the rows it routes. The cover of a node is the sum
of the second derivatives of the rows that reach it, and its value is the weight of these rows,
scaled by the learning rate. The rows that reach the children of a split are the two parts of those
that reach the split. -/
theorem statistics_grow (rules : GrowthRules) (m : Matrix) (g : Gradient) (rows : List Nat)
    {i : Nat} (hi : i < (grow rules m g rows).size) :
    let t := grow rules m g rows
    let total := g.sums (t.reaching m rows i)
    (t.node i).cover = total.second.toSingle ∧
      (t.node i).value =
        (total.weight rules.lambda.toDouble * rules.learningRate.toDouble).toSingle ∧
      ∀ left right, (t.node i).children = some (left, right) →
        (t.reaching m rows i).partition
            (fun row => decide ((t.node i).childFor? (m.row row) = some left)) =
          (t.reaching m rows left, t.reaching m rows right) := by
  intro t total
  obtain ⟨shape, hgrown, hplaces, -⟩ := exists_grown rules m g rows
  have hnodup := hplaces.nodup_iff.mpr List.nodup_range
  have hlt : ∀ j ∈ shape.places, j < t.size := fun j hj => List.mem_range.mp (hplaces.mem_iff.mp hj)
  have hmem : i ∈ shape.places := hplaces.mem_iff.mpr (List.mem_range.mpr hi)
  have hroot : Grown rules m g t 0 (t.reaching m rows 0) shape := by
    rw [reaching_root]
    exact hgrown
  obtain ⟨below, hbelow, hnodupBelow⟩ :=
    hroot.forall_reaching hgrown.unfolds hplaces hnodup hlt i hmem
  cases hbelow with
  | leaf hnode =>
    rw [hnode]
    exact ⟨rfl, rfl, fun _ _ hchildren => by cases hchildren⟩
  | @split _ l r _ s left right hfind hnode hleft hright =>
    rw [hnode]
    refine ⟨rfl, rfl, fun _ _ hchildren => ?_⟩
    cases hchildren
    have hne := hleft.unfolds.ne_of_nodup hright.unfolds hnodupBelow
    obtain ⟨hdealt, hdealt'⟩ := dealt_reaching hgrown.unfolds hplaces hfind hnode hi hne
    rw [← hdealt, ← hdealt', ← s.partition_eq]
    congr 1
    funext row
    rw [childFor?_splitOver hfind]
    cases s.sendsLeft m row <;> simp [hne.symm]

theorem find?_twoRows :
    Split.find? ⟨1, 1, 0, 0, 0⟩ twoRows (.ofList [(3, 1), (-1, 1)]) [0, 1]
      ((Gradient.ofList [(3, 1), (-1, 1)]).sums [0, 1]) = some ⟨0, 1 / 2, true, 8⟩ := by
  have hcolumns : List.range (lowWord twoRows.columns) = [0] := rfl
  rw [Split.find?, Split.findBy?, Split.offers, hcolumns, List.map_cons, List.map_nil,
    Split.bestOf?, entries_twoRows]
  decide +kernel

/-- The two rows are told apart in the middle of their values. -/
theorem grow_twoRows :
    grow ⟨1, 1, 0, 0, 0⟩ twoRows (.ofList [(3, 1), (-1, 1)]) [0, 1] =
      ⟨#[⟨0, 1 / 2, some (1, 2), true, -1, 8, 2⟩, .leaf (-3) 1, .leaf 1 1]⟩ := by
  have hlevels : levels ⟨1, 1, 0, 0, 0⟩ [0, 1] = 1 := rfl
  rw [grow, hlevels, growAt]
  simp only [find?_twoRows]
  decide +kernel

/-- Both rows reach the root, which covers them; one of them reaches each of its children. -/
theorem statistics_grow_two_rows :
    let t := grow ⟨1, 1, 0, 0, 0⟩ twoRows (.ofList [(3, 1), (-1, 1)]) [0, 1]
    (0 < t.size ∧ (t.node 0).cover = 2 ∧ (t.node 0).value = -1) ∧
      (1 < t.size ∧ t.reaching twoRows [0, 1] 1 = [0] ∧
        (t.node 1).cover = 1 ∧ (t.node 1).value = -3) ∧
      2 < t.size ∧ t.reaching twoRows [0, 1] 2 = [1] ∧
        (t.node 2).cover = 1 ∧ (t.node 2).value = 1 := by
  intro t
  have hsize : t.size = 3 := congrArg Tree.size grow_twoRows
  have hroot : 0 < t.size := by omega
  have hleft : 1 < t.size := by omega
  have hright : 2 < t.size := by omega
  have hnode : t.node 0 = ⟨0, 1 / 2, some (1, 2), true, -1, 8, 2⟩ :=
    congrArg (fun t => Tree.node t 0) grow_twoRows
  obtain ⟨hcover, hvalue, hparts⟩ := statistics_grow _ _ _ _ hroot
  -- The root deals its rows to its children.
  have hdealt := hparts 1 2 (congrArg Node.children hnode)
  rw [reaching_root] at hcover hvalue hdealt
  have hhalves : [0, 1].partition (fun row =>
      decide ((t.node 0).childFor? (twoRows.row row) = some 1)) = ([0], [1]) := by
    rw [hnode]
    decide +kernel
  obtain ⟨hone, htwo⟩ := Prod.mk.inj (hdealt.symm.trans hhalves)
  obtain ⟨hcoverLeft, hvalueLeft, -⟩ := statistics_grow _ _ _ _ hleft
  obtain ⟨hcoverRight, hvalueRight, -⟩ := statistics_grow _ _ _ _ hright
  rw [hone] at hcoverLeft hvalueLeft
  rw [htwo] at hcoverRight hvalueRight
  refine ⟨⟨hroot, hcover.trans ?_, hvalue.trans ?_⟩,
    ⟨hleft, hone, hcoverLeft.trans ?_, hvalueLeft.trans ?_⟩,
    hright, htwo, hcoverRight.trans ?_, hvalueRight.trans ?_⟩ <;> decide +kernel

end Growth

end BoostedTrees
