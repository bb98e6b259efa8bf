import BoostedTrees.Proofs.Effects
import BoostedTrees.Proofs.TreeStorage

/-!
# The trees of a history

A tree that is read was searched from its root, and the search gave an order in which parents
come before their children. A tree that is grown gets its nodes in such an order: children
are put at the end of the array. So in every tree that a history leaves, a row walks from the
root down to a leaf, and the walk passes places of the array only.

## Main definitions

* `Tree.Ascending`: children stand behind their parents

## Main results

* `Growth.ordered_grow`: trees that are grown are in the order of their places
* `Learner.forall_trees_after`: what holds of trees that are grown and of trees that are read
  holds of all trees that a history leaves
* `Learner.exists_ordered_after`: all of them have an order
-/

namespace BoostedTrees

namespace Tree

variable {t : Tree} {i j : Nat}

/-- Children stand behind their parents in the array. -/
def Ascending (t : Tree) : Prop :=
  ∀ i left right, (t.node i).children = some (left, right) → i < left ∧ i < right

/-! ## Growing -/

theorem ascending_leaf (value cover : Single) : (leaf value cover).Ascending := by
  intro i left right h
  rcases i with _ | i
  · cases h
  · cases h

theorem Ascending.setStatistics (h : t.Ascending) (i : Nat) (value cover : Single) :
    (t.setStatistics i value cover).Ascending := by
  intro j left right hj
  rw [children_node_setStatistics] at hj
  exact h j left right hj

/-- The two nodes that a split puts at the end have no children. -/
theorem lt_of_children_split {feature : UInt32} {threshold : Single} {defaultLeft : Bool}
    {gain : Single} {c : Nat × Nat}
    (h : ((t.split i feature threshold defaultLeft gain).node j).children = some c) :
    j < t.size := by
  by_contra hge
  have hblank : (t.split i feature threshold defaultLeft gain).node j = Node.blank := by
    simp only [node, Tree.split, Array.getD_eq_getD_getElem?, Array.getElem?_push]
    split
    · rfl
    split
    · rfl
    · rw [Array.getElem?_eq_none]
      · rfl
      · rw [Array.size_modify]
        exact Nat.le_of_not_lt hge
  rw [hblank] at h
  cases h

theorem Ascending.split (h : t.Ascending) (i : Nat) (feature : UInt32) (threshold : Single)
    (defaultLeft : Bool) (gain : Single) :
    (t.split i feature threshold defaultLeft gain).Ascending := by
  intro j left right hj
  have hlt : j < t.size := lt_of_children_split hj
  rcases children_node_split hj with hold | hnew
  · exact h j left right hold
  · cases hnew
    exact ⟨hlt, Nat.lt_succ_of_lt hlt⟩

/-- Children that stand in the array behind their parents make an order of it. -/
theorem Ascending.ordered (h : t.Ascending) (hbounds : t.InBounds) (hpos : 0 < t.size) :
    t.Ordered 0 (List.range t.size) where
  nodup := List.nodup_range
  mem_iff _ := List.mem_range
  root_lt := hpos
  children_later := by
    intro before after i left right horder hchildren
    obtain ⟨hleft, hright⟩ := hbounds i left right hchildren
    obtain ⟨hleft', hright'⟩ := h i left right hchildren
    -- What is larger than a number of an ascending list stands behind it.
    have hbehind : ∀ j, i < j → j < t.size → j ∈ after := by
      intro j hij hj
      have hmem : j ∈ before ++ i :: after := horder ▸ List.mem_range.mpr hj
      have hsorted : (before ++ i :: after).Pairwise (· < ·) := horder ▸ List.pairwise_lt_range
      rcases List.mem_append.mp hmem with hbefore | hrest
      · have hlt := (List.pairwise_append.mp hsorted).2.2 j hbefore i List.mem_cons_self
        exact absurd hlt (Nat.lt_asymm hij)
      · exact (List.mem_cons.mp hrest).resolve_left (Nat.ne_of_gt hij)
    exact ⟨⟨fun hknown => absurd rfl hknown, hleft, hright⟩, hbehind left hleft' hleft,
      hbehind right hright' hright⟩

end Tree

namespace Growth

variable (rules : GrowthRules) (m : Matrix) (g : Gradient)

theorem ascending_growAt (levels : Nat) (t : Tree) (i : Nat) (rows : List Nat)
    (h : t.Ascending) : (growAt rules m g levels t i rows).Ascending := by
  induction levels generalizing t i rows with
  | zero => exact h.setStatistics i _ _
  | succ levels ih =>
    rw [growAt]
    dsimp only
    split
    · exact h.setStatistics i _ _
    -- The left side is grown in the tree that is split, and the right side in what comes of it.
    · exact ih _ _ _ (ih _ _ _ ((h.setStatistics i _ _).split i _ _ _ _))

/-- Growth takes no node away. -/
theorem size_le_growAt (levels : Nat) (t : Tree) (i : Nat) (rows : List Nat) :
    t.size ≤ (growAt rules m g levels t i rows).size := by
  induction levels generalizing t i rows with
  | zero => exact Nat.le_of_eq (Tree.size_setStatistics t i _ _).symm
  | succ levels ih =>
    rw [growAt]
    dsimp only
    split
    · exact Nat.le_of_eq (Tree.size_setStatistics t i _ _).symm
    · refine Nat.le_trans ?_ (Nat.le_trans (ih _ _ _) (ih _ _ _))
      rw [Tree.size_split, Tree.size_setStatistics]
      exact Nat.le_add_right _ _

/-- A tree is grown in the order of its places. -/
theorem ordered_grow (rows : List Nat) :
    (grow rules m g rows).Ordered 0 (List.range (grow rules m g rows).size) := by
  have hpos : 0 < (grow rules m g rows).size :=
    Nat.lt_of_lt_of_le Nat.one_pos (size_le_growAt rules m g _ (.leaf 0 0) 0 rows)
  exact (ascending_growAt rules m g _ _ _ _ (Tree.ascending_leaf 0 0)).ordered
    (inBounds_grow rules m g rows) hpos

end Growth

/-! ## Histories -/

namespace Learner

section Trees

variable {P : Tree → Prop} (hgrown : ∀ rules m g rows, P (Growth.grow rules m g rows))
  (hread : ∀ s features t, Tree.ofStored s features = .ok t → P t)

include hgrown hread

/-- A request keeps what holds of all trees, if it holds of those that may be added. -/
theorem Effect.forall_trees {l : Learner} {r : Request} {p} (h : Effect l r p)
    (hl : ∀ t ∈ l.forest.trees, P t.tree) : ∀ t ∈ p.2.forest.trees, P t.tree := by
  cases h with
  | looked _ c => exact hl
  | gaveSettings _ s _ => simpa only [withSettings_forest] using hl
  | setAttributes a => exact hl
  | setNames _ => exact hl
  | setTypes _ => exact hl
  | loaded _ _ hforest => exact forall_of_storedForest hforest fun s t ht => hread s _ t ht
  | refusedTraining _ _ c => exact hl
  | trained _ _ iteration m g c =>
    intro t ht
    rcases List.mem_append.mp ht with ht | ht
    · exact hl t ht
    · obtain ⟨⟨tree, k⟩, hmem, rfl⟩ := List.mem_map.mp ht
      exact forall_growOutputs (fun g rows => hgrown _ m g rows) g _ _ tree
        (List.fst_mem_of_mem_zipIdx hmem)

/-- What holds of every tree that is grown, and of every tree that is read, holds of all trees
that a history of a new learner leaves. -/
theorem forall_trees_after (created : List Matrix) (os : List Occasion) :
    ∀ t ∈ ((create created).after os).forest.trees, P t.tree :=
  after_induction (P := fun l => ∀ t ∈ l.forest.trees, P t.tree)
    (fun _ ht => absurd ht List.not_mem_nil) fun o _ l hl =>
      (effect_answer l o).forall_trees hgrown hread hl

end Trees

/-- The trees that a history leaves have an order in which parents come first. -/
theorem exists_ordered_after (created : List Matrix) (os : List Occasion) :
    ∀ t ∈ ((create created).after os).forest.trees,
      ∃ features order, t.tree.Ordered features order := by
  refine forall_trees_after (P := fun t => ∃ features order, t.Ordered features order) ?_ ?_
    created os
  · exact fun rules m g rows => ⟨0, _, Growth.ordered_grow rules m g rows⟩
  · intro s features t ht
    obtain ⟨-, -, -, hvalid⟩ := Tree.ofStored_eq_ok ht
    exact ⟨features, Tree.exists_ordered_of_validate hvalid⟩

end Learner

end BoostedTrees
