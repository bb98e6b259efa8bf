import BoostedTrees.Proofs.GrowthRuns
import BoostedTrees.Proofs.OrderedTrees
import BoostedTrees.Proofs.SplitFeatures
import BoostedTrees.Proofs.ValidShapes

/-!
# Grown trees are well formed

Growing at a leaf changes this node and no other, and puts whatever comes below it at the end of
the array. So the nodes below it unfold to a shape whose places are the leaf and the new end of
the array, each of them once, and the shape is no higher than there are levels. At every node of
the shape stands what the rows that come there make of it: the statistics of these rows, and the
split that was found for them.

For the whole tree, the shape holds every place of the array. This makes the tree valid, and it
bounds the depth of the nodes.

## Main definitions

* `Growth.Grown`: the nodes below a node are grown on certain rows
* `Growth.Grows`: what growing at a node leaves

## Main results

* `Growth.grows_growAt`: growing at a leaf, as a step from one tree to another
* `Growth.exists_grown`: a grown tree has a shape that holds every place once
* `Growth.wellFormed_grow`: a grown tree is valid, has its children behind their parents, and
  keeps to the limit on its depth
-/

namespace BoostedTrees

namespace Tree

variable {t t' : Tree} {i j : Nat}

/-! ## Nodes -/

theorem node_of_size_le (h : t.size ≤ i) : t.node i = Node.blank := by
  rw [node, Array.getD_eq_getD_getElem?, Array.getElem?_eq_none h, Option.getD_none]

theorem node_setStatistics_of_ne (h : j ≠ i) (value cover : Single) :
    (t.setStatistics i value cover).node j = t.node j := by
  simp only [node, setStatistics, Array.getD_eq_getD_getElem?, Array.getElem?_modify,
    if_neg h.symm]

theorem node_setStatistics_self (h : i < t.size) (value cover : Single) :
    (t.setStatistics i value cover).node i = { t.node i with value, cover } := by
  have hnodes : t.nodes[i]? = some t.nodes[i] := Array.getElem?_eq_getElem h
  simp only [node, setStatistics, Array.getD_eq_getD_getElem?, Array.getElem?_modify, if_true,
    hnodes, Option.map_some, Option.getD_some]

section Split

variable (feature : UInt32) (threshold : Single) (defaultLeft : Bool) (gain : Single)

/-- A node that is not split stays; the two nodes that are new are blank. -/
theorem node_split_of_ne (h : j ≠ i) :
    (t.split i feature threshold defaultLeft gain).node j = t.node j := by
  have hold : ∀ k, t.size ≤ k → t.nodes[k]? = none := fun k hk => Array.getElem?_eq_none hk
  simp only [node, split, Array.getD_eq_getD_getElem?, Array.getElem?_push,
    Array.getElem?_modify, Array.size_push, Array.size_modify, if_neg h.symm]
  split
  · next hlast => rw [hold j (by rw [hlast]; exact Nat.le_succ _)]; rfl
  split
  · next hnew => rw [hold j (Nat.le_of_eq hnew.symm)]; rfl
  · rfl

theorem node_split_self (h : i < t.size) :
    (t.split i feature threshold defaultLeft gain).node i =
      { t.node i with
        feature, threshold, children := some (t.size, t.size + 1), defaultLeft, gain } := by
  have hnodes : t.nodes[i]? = some t.nodes[i] := Array.getElem?_eq_getElem h
  have hlast : i ≠ t.nodes.size + 1 := Nat.ne_of_lt (Nat.lt_succ_of_lt h)
  have hnew : i ≠ t.nodes.size := Nat.ne_of_lt h
  simp only [node, split, Array.getD_eq_getD_getElem?, Array.getElem?_push,
    Array.getElem?_modify, Array.size_push, Array.size_modify, if_neg hlast, if_neg hnew, if_true,
    hnodes, Option.map_some, Option.getD_some]

end Split

end Tree

namespace Growth

variable (rules : GrowthRules) (m : Matrix) (g : Gradient)

/-! ## What stands at a node -/

/-- The leaf over rows with the given sums. -/
def leafOver (total : Sums) : Node := .leaf (value rules total) total.second.toSingle

/-- The split over rows with the given sums. -/
def splitOver (total : Sums) (s : Split) (left right : Nat) : Node :=
  { leafOver rules total with
    feature := s.feature
    threshold := s.threshold
    children := some (left, right)
    defaultLeft := s.defaultLeft
    gain := s.gain.toSingle }

/-- The nodes below a node are grown on the rows that come there, and have a shape. -/
inductive Grown (t : Tree) : (i : Nat) → (rows : List Nat) → Tree.Shape → Prop
  | leaf {i : Nat} {rows : List Nat} (hnode : t.node i = leafOver rules (g.sums rows)) :
      Grown t i rows (.leaf i)
  | split {i l r : Nat} {rows : List Nat} {s : Split} {left right : Tree.Shape}
      (hfind : Split.find? rules m g rows (g.sums rows) = some s)
      (hnode : t.node i = splitOver rules (g.sums rows) s l r)
      (hleft : Grown t l (s.leftRows m rows) left)
      (hright : Grown t r (s.rightRows m rows) right) : Grown t i rows (.split i left right)

variable {rules m g} {t t' : Tree} {i : Nat} {rows : List Nat} {shape : Tree.Shape}

theorem node_measured_of_ne {j : Nat} (h : j ≠ i) :
    (measured rules g t i rows).node j = t.node j :=
  Tree.node_setStatistics_of_ne h _ _

theorem node_measured (h : i < t.size) (hblank : t.node i = .blank) :
    (measured rules g t i rows).node i = leafOver rules (g.sums rows) := by
  rw [measured, Tree.node_setStatistics_self h, hblank]
  rfl

theorem node_branched_of_ne {j : Nat} {s : Split} (h : j ≠ i) :
    (branched rules g t i rows s).node j = t.node j := by
  rw [branched, Tree.node_split_of_ne _ _ _ _ h, node_measured_of_ne h]

theorem node_branched {s : Split} (h : i < t.size) (hblank : t.node i = .blank) :
    (branched rules g t i rows s).node i =
      splitOver rules (g.sums rows) s t.size (t.size + 1) := by
  rw [branched, Tree.node_split_self _ _ _ _ (by rwa [size_measured]), node_measured h hblank,
    size_measured]
  rfl

namespace Grown

/-- A tree that has the same nodes at the places of the shape is grown in the same way. -/
theorem congr (h : Grown rules m g t i rows shape)
    (hsame : ∀ j ∈ shape.places, t'.node j = t.node j) : Grown rules m g t' i rows shape := by
  induction h with
  | leaf hnode => exact .leaf ((hsame _ List.mem_cons_self).trans hnode)
  | split hfind hnode _ _ ihleft ihright =>
    refine .split hfind ((hsame _ List.mem_cons_self).trans hnode) (ihleft ?_) (ihright ?_)
    · exact fun j hj => hsame j (List.mem_cons_of_mem _ (List.mem_append_left _ hj))
    · exact fun j hj => hsame j (List.mem_cons_of_mem _ (List.mem_append_right _ hj))

theorem unfolds (h : Grown rules m g t i rows shape) : t.Unfolds i shape := by
  induction h with
  | leaf hnode => exact .leaf (congrArg Node.children hnode)
  | split _ hnode _ _ ihleft ihright =>
    exact .split (congrArg Node.children hnode) ihleft ihright

end Grown

/-! ## Growing at a leaf -/

variable (rules m g) in
/-- What growing at a node makes of a tree: the nodes below it are grown, they stand at the end
of the array, and no other node has changed. -/
structure Grows (t t' : Tree) (levels i : Nat) (rows : List Nat) (shape : Tree.Shape) : Prop where
  grown : Grown rules m g t' i rows shape
  size_le : t.size ≤ t'.size
  frame : ∀ j < t.size, j ≠ i → t'.node j = t.node j
  mem_iff : ∀ j, j ∈ shape.places ↔ j = i ∨ t.size ≤ j ∧ j < t'.size
  nodup : shape.places.Nodup
  height_le : shape.height ≤ levels

theorem grows_measured (h : i < t.size) (hblank : t.node i = .blank) (levels : Nat) :
    Grows rules m g t (measured rules g t i rows) levels i rows (.leaf i) where
  grown := .leaf (node_measured h hblank)
  size_le := Nat.le_of_eq (size_measured rules g t i rows).symm
  frame := fun j _ hj => node_measured_of_ne hj
  mem_iff := by
    intro j
    rw [size_measured, Tree.Shape.places, List.mem_singleton]
    omega
  nodup := List.nodup_singleton i
  height_le := Nat.zero_le levels

/-- The left child is grown in the tree with the split, and the right one in what comes of it. -/
theorem Grows.branch {t₁ t₂ : Tree} {levels : Nat} {s : Split} {left right : Tree.Shape}
    (h : i < t.size) (hblank : t.node i = .blank)
    (hfind : Split.find? rules m g rows (g.sums rows) = some s)
    (hleft : Grows rules m g (branched rules g t i rows s) t₁ levels t.size
      (s.leftRows m rows) left)
    (hright : Grows rules m g t₁ t₂ levels (t.size + 1) (s.rightRows m rows) right) :
    Grows rules m g t t₂ (levels + 1) i rows (.split i left right) := by
  have hsize := size_branched rules g t i rows s
  have hle := hleft.size_le
  have hle' := hright.size_le
  have hmemLeft := hleft.mem_iff
  have hmemRight := hright.mem_iff
  rw [hsize] at hle hmemLeft
  refine ⟨?_, by omega, ?_, ?_, ?_, ?_⟩
  · -- Growing to the right changes no place of the left shape, and growing no place before it.
    refine .split (l := t.size) (r := t.size + 1) hfind ?_ ?_ hright.grown
    · rw [hright.frame i (by omega) (by omega), hleft.frame i (by omega) (by omega),
        node_branched h hblank]
    · refine hleft.grown.congr fun j hj => ?_
      have := (hmemLeft j).mp hj
      exact hright.frame j (by omega) (by omega)
  · intro j hj hne
    rw [hright.frame j (by omega) (by omega), hleft.frame j (by omega) (by omega),
      node_branched_of_ne hne]
  · intro j
    rw [Tree.Shape.places, List.mem_cons, List.mem_append, hmemLeft, hmemRight]
    omega
  · rw [Tree.Shape.places, List.nodup_cons, List.nodup_append']
    refine ⟨fun hmem => ?_, hleft.nodup, hright.nodup, fun j hj hj' => ?_⟩
    · rw [List.mem_append, hmemLeft, hmemRight] at hmem
      omega
    · rw [hmemLeft] at hj
      rw [hmemRight] at hj'
      omega
  · have := hleft.height_le
    have := hright.height_le
    rw [Tree.Shape.height]
    omega

/-- Growing at a leaf grows the nodes below it, at the end of the array. -/
theorem grows_growAt (levels : Nat) (h : i < t.size) (hblank : t.node i = .blank) :
    ∃ shape, Grows rules m g t (growAt rules m g levels t i rows) levels i rows shape := by
  induction levels generalizing t i rows with
  | zero => exact ⟨_, grows_measured h hblank 0⟩
  | succ levels ih =>
    cases hfind : Split.find? rules m g rows (g.sums rows) with
    | none =>
      rw [growAt_of_none hfind]
      exact ⟨_, grows_measured h hblank _⟩
    | some s =>
      have hsize := size_branched rules g t i rows s
      have hchild : ∀ j, t.size ≤ j → (branched rules g t i rows s).node j = .blank := by
        intro j hj
        rw [node_branched_of_ne (Nat.ne_of_gt (Nat.lt_of_lt_of_le h hj)),
          Tree.node_of_size_le hj]
      obtain ⟨left, hleft⟩ := @ih (branched rules g t i rows s) t.size (s.leftRows m rows)
        (by omega) (hchild _ (Nat.le_refl _))
      -- The right child is still blank when its turn comes.
      have hle := hleft.size_le
      obtain ⟨right, hright⟩ := @ih _ (t.size + 1) (s.rightRows m rows) (by omega)
        ((hleft.frame (t.size + 1) (by omega) (Nat.succ_ne_self _)).trans
          (hchild _ (Nat.le_succ _)))
      rw [growAt_succ_of_some hfind]
      exact ⟨_, hleft.branch h hblank hfind hright⟩

/-! ## The whole tree -/

variable (rules m g rows)

/-- A grown tree has a shape that holds every place once and is no higher than there are levels. -/
theorem exists_grown :
    ∃ shape, Grown rules m g (grow rules m g rows) 0 rows shape ∧
      shape.places.Perm (List.range (grow rules m g rows).size) ∧
      shape.height ≤ levels rules rows := by
  obtain ⟨shape, h⟩ : ∃ shape, Grows rules m g (.leaf 0 0) (grow rules m g rows)
      (levels rules rows) 0 rows shape := grows_growAt _ Nat.one_pos rfl
  refine ⟨shape, h.grown, ?_, h.height_le⟩
  refine (List.perm_ext_iff_of_nodup h.nodup List.nodup_range).mpr fun j => ?_
  have hsize : (Tree.leaf 0 0).size = 1 := rfl
  have hle := h.size_le
  rw [h.mem_iff, List.mem_range]
  omega

theorem validate_grow : (grow rules m g rows).validate (UInt64.ofNat m.columns) = .ok () := by
  obtain ⟨shape, hgrown, hplaces, -⟩ := exists_grown rules m g rows
  refine Tree.validate_of_unfolds hgrown.unfolds hplaces fun i children hchildren _ => ?_
  -- Splits use columns below the low word of their number, which no word of it is below.
  have hlt := splitsBelow_grow rules m g rows i children hchildren
  have hlow : lowWord m.columns = m.columns % 2 ^ 32 := rfl
  have hword : (UInt64.ofNat m.columns).toNat = m.columns % 2 ^ 64 := rfl
  omega

theorem ascending_grow : (grow rules m g rows).Ascending :=
  ascending_growAt rules m g _ _ _ _ (Tree.ascending_leaf 0 0)

end Growth

namespace Tree

variable (t : Tree)

/-- Every list of a stored tree has one entry for each node. -/
theorem lengths_toStored :
    t.toStored.nodeCount = t.size ∧ ∀ p ∈ t.toStored.lengths, p.2 = t.size := by
  constructor
  · simp only [StoredTree.nodeCount, toStored, List.length_map, Array.length_toList, size]
  · simp only [StoredTree.lengths, toStored, List.length_map, Array.length_toList, size,
      List.forall_mem_cons, List.not_mem_nil, false_imp_iff, implies_true, and_self]

/-- The depths of the nodes are among those of the outline, or zero. -/
theorem forall_mem_depths {d : Nat} (h : ∀ p ∈ t.outline, p.2 ≤ d) : ∀ k ∈ t.depths, k ≤ d := by
  have hfold : ∀ (ps : List (Nat × Nat)) (ds : Array Nat), (∀ p ∈ ps, p.2 ≤ d) →
      (∀ k ∈ ds, k ≤ d) → ∀ k ∈ ps.foldl (fun ds p => ds.setIfInBounds p.1 p.2) ds, k ≤ d := by
    intro ps
    induction ps with
    | nil => exact fun ds _ hds => hds
    | cons p ps ih =>
      intro ds hps hds
      obtain ⟨hp, hps⟩ := List.forall_mem_cons.mp hps
      refine ih _ hps fun k hk => ?_
      rcases Array.mem_or_eq_of_mem_setIfInBounds hk with hk | rfl
      · exact hds k hk
      · exact hp
  refine hfold _ _ h fun k hk => ?_
  rw [(Array.mem_replicate.mp hk).2]
  exact Nat.zero_le d

end Tree

namespace Growth

variable (rules : GrowthRules) (m : Matrix) (g : Gradient) (rows : List Nat)

/-- No node of a grown tree is deeper than there are levels. -/
theorem depths_grow : ∀ d ∈ (grow rules m g rows).depths, d ≤ levels rules rows := by
  obtain ⟨shape, hgrown, hplaces, hheight⟩ := exists_grown rules m g rows
  exact Tree.forall_mem_depths _ ((hgrown.unfolds.forall_depth_le_iff hplaces _).mpr hheight)

/-- Grown trees are well formed. With a limit on the depth growth always ends, and whenever it
ends it has built the tree of `grow`. This tree is valid for the columns of the matrix, its
children stand behind their parents, all lists that it is stored as have one entry for each
node, and with a limit on the depth no node is deeper. -/
theorem wellFormed_grow :
    (0 < rules.maxDepth → Ends rules m g rows) ∧
      (Ends rules m g rows →
        ∃ n, (step rules m g)^[n] (start rows) = ⟨grow rules m g rows, []⟩) ∧
      (grow rules m g rows).validate (UInt64.ofNat m.columns) = .ok () ∧
      (∀ i left right, ((grow rules m g rows).node i).children = some (left, right) →
        i < left ∧ i < right) ∧
      ((grow rules m g rows).toStored.nodeCount = (grow rules m g rows).size ∧
        ∀ p ∈ (grow rules m g rows).toStored.lengths, p.2 = (grow rules m g rows).size) ∧
      (0 < rules.maxDepth → ∀ d ∈ (grow rules m g rows).depths, d ≤ rules.maxDepth) := by
  refine ⟨fun h => ends_of_pos h rows, exists_run_of_ends, validate_grow rules m g rows,
    ascending_grow rules m g rows, Tree.lengths_toStored _, fun hpos d hd => ?_⟩
  have hle := depths_grow rules m g rows d hd
  rwa [levels, if_neg (Nat.ne_of_gt hpos)] at hle

end Growth

end BoostedTrees
