import BoostedTrees.Proofs.TreeSearch
import BoostedTrees.Tree.Dump
import Mathlib.Data.List.Forall2

/-!
# The shape of a valid tree

Walks through the array of a tree carry fuel. In a valid tree they need none: what they pass
below a node unfolds to a finite shape, in which every place of the array stands exactly once.
The shape is less high than there are nodes, so a walk with as much fuel as nodes follows it to
its leaves, and what the walk gives can be computed along the shape.

## Main definitions

* `Tree.Shape`: the places below a node, as a binary tree
* `Tree.Unfolds`: what is below a node has a shape
* `Tree.splits`: the splits of a tree in preorder
* `Tree.Shape.toNode`: a structured dump with the form of a shape

## Main results

* `Tree.exists_shape_of_validate`: a valid tree has a shape that holds every place once
* `Tree.Unfolds.outline_eq`, `Tree.Unfolds.dumpNode_eq`: outline and dump follow the shape
* `Tree.perm_splits_of_validate`: the splits in preorder are all splits of the array
-/

namespace BoostedTrees

namespace Tree

/-- The places below a node of an array, as a binary tree. -/
inductive Shape where
  | leaf (i : Nat)
  | split (i : Nat) (left right : Shape)

namespace Shape

/-- How many splits stand above the lowest leaf. -/
def height : Shape → Nat
  | leaf _ => 0
  | split _ left right => max left.height right.height + 1

/-- The places in preorder. -/
def places : Shape → List Nat
  | leaf i => [i]
  | split i left right => i :: (left.places ++ right.places)

/-- The places in preorder with their depths, below a node of the given depth. -/
def outline : Shape → (depth : Nat) → List (Nat × Nat)
  | leaf i, depth => [(i, depth)]
  | split i left right, depth =>
    (i, depth) :: (left.outline (depth + 1) ++ right.outline (depth + 1))

variable (s : Shape)

theorem height_lt_length_places : s.height < s.places.length := by
  induction s with
  | leaf i => exact Nat.one_pos
  | split i left right hleft hright =>
    rw [places, List.length_cons, List.length_append, height]
    omega

theorem map_fst_outline (depth : Nat) : (s.outline depth).map (·.1) = s.places := by
  induction s generalizing depth with
  | leaf i => rfl
  | split i left right hleft hright =>
    rw [outline, places, List.map_cons, List.map_append, hleft, hright]

/-- No node is deeper than the lowest leaf, which is as deep as the shape is high. -/
theorem forall_depth_le_iff (depth d : Nat) :
    (∀ p ∈ s.outline depth, p.2 ≤ depth + d) ↔ s.height ≤ d := by
  induction s generalizing depth d with
  | leaf i => simp [outline, height]
  | split i left right hleft hright =>
    rw [outline, height, List.forall_mem_cons, List.forall_mem_append]
    cases d with
    | zero =>
      -- Both children are deeper than the split.
      have hroot : ∀ s : Shape, ∃ p ∈ s.outline (depth + 1), p.2 = depth + 1 := by
        intro s
        cases s with
        | leaf i => exact ⟨_, List.mem_cons_self, rfl⟩
        | split i left right => exact ⟨_, List.mem_cons_self, rfl⟩
      obtain ⟨p, hp, hdepth⟩ := hroot left
      refine iff_of_false (fun h => ?_) (by omega)
      have hle := h.2.1 p hp
      omega
    | succ d =>
      have hsame : depth + (d + 1) = depth + 1 + d := by omega
      rw [hsame, hleft, hright]
      omega

end Shape

variable {t : Tree} {i : Nat} {s : Shape} {features : UInt64}

/-- What is below a node of the array has a shape. -/
inductive Unfolds (t : Tree) : Nat → Shape → Prop where
  | leaf {i : Nat} (h : (t.node i).children = none) : Unfolds t i (.leaf i)
  | split {i l r : Nat} {left right : Shape} (h : (t.node i).children = some (l, r))
      (hleft : Unfolds t l left) (hright : Unfolds t r right) : Unfolds t i (.split i left right)

/-! ## Valid trees -/

/-- A search passes the places of the shapes below the nodes on its stack. -/
theorem Search.exists_shapes {stack order : List Nat} {seen : Array Bool}
    (h : Search t features stack seen order) :
    ∃ shapes, List.Forall₂ t.Unfolds stack shapes ∧ order.Perm (shapes.flatMap Shape.places) := by
  induction h with
  | done seen => exact ⟨[], .nil, .refl _⟩
  | @leaf i _ _ _ _ hnode _ ih =>
    obtain ⟨shapes, hshapes, hperm⟩ := ih
    exact ⟨.leaf i :: shapes, .cons (.leaf hnode) hshapes, hperm.cons i⟩
  | @split i left right stack seen order hunseen hnode hchecked hsearch ih =>
    obtain ⟨shapes, hshapes, hperm⟩ := ih
    cases hshapes with
    | @cons _ b _ _ hright hmore =>
      cases hmore with
      | @cons _ a _ rest hleft hrest =>
        refine ⟨.split i a b :: rest, .cons (.split hnode hleft hright) hrest, ?_⟩
        rw [List.flatMap_cons, List.flatMap_cons] at hperm
        rw [List.flatMap_cons, Shape.places, List.cons_append, List.append_assoc]
        -- The search goes to the right first, preorder to the left.
        exact (hperm.trans (List.perm_append_comm_assoc _ _ _)).cons i

/-- A valid tree has a shape, in which every place of the array stands once. -/
theorem exists_shape_of_validate (h : t.validate features = .ok ()) :
    ∃ s, t.Unfolds 0 s ∧ s.places.Perm (List.range t.size) := by
  obtain ⟨hpos, order, hsearch, hall⟩ := search_of_validate h
  have hroot : ∀ i ∈ [0], i < t.size := by
    intro i hi
    rw [List.mem_singleton.mp hi]
    exact hpos
  obtain ⟨shapes, hshapes, hperm⟩ := hsearch.exists_shapes
  cases hshapes with
  | @cons _ s _ _ hs hnil =>
    cases hnil with
    | nil =>
      rw [List.flatMap_cons, List.flatMap_nil, List.append_nil] at hperm
      refine ⟨s, hs, hperm.symm.trans ?_⟩
      have hnodup := (hsearch.unseen_nodup Array.size_replicate hroot).2
      have hlt : ∀ i ∈ order, i < t.size :=
        hsearch.forall_mem (fun _ _ _ _ hchecked => ⟨hchecked.left_lt, hchecked.right_lt⟩) hroot
      refine (List.perm_ext_iff_of_nodup hnodup List.nodup_range).mpr fun i => ?_
      exact ⟨fun hi => List.mem_range.mpr (hlt i hi), fun hi => hall i (List.mem_range.mp hi)⟩

theorem height_lt_size (h : s.places.Perm (List.range t.size)) : s.height < t.size := by
  have hlt := s.height_lt_length_places
  rwa [h.length_eq, List.length_range] at hlt

theorem mem_places_iff_lt (h : s.places.Perm (List.range t.size)) (i : Nat) :
    i ∈ s.places ↔ i < t.size :=
  h.mem_iff.trans List.mem_range

theorem nodup_places (h : s.places.Perm (List.range t.size)) : s.places.Nodup :=
  h.nodup_iff.mpr List.nodup_range

/-! ## Walks -/

/-- The splits of a tree, in preorder. -/
def splits (t : Tree) : List Node := (t.preorder.map t.node).filter (!·.isLeaf)

/-- The splits of a shape, in preorder. -/
def Shape.splits (t : Tree) : Shape → List Node
  | .leaf _ => []
  | .split i left right => t.node i :: (left.splits t ++ right.splits t)

/-- The structured dump of a shape, by what it says of the node on top of a shape. -/
def Shape.toNode (fields : Shape → (depth : Nat) → DumpFields) : Shape → (depth : Nat) → DumpNode
  | .leaf i, depth => .node (fields (.leaf i) depth) []
  | .split i left right, depth =>
    .node (fields (.split i left right) depth)
      [left.toNode fields (depth + 1), right.toNode fields (depth + 1)]

section Dump

variable (t : Tree) (map : FeatureMap) (statistics : Bool)

/-- A statistic as the dump shows it. -/
def shownStatistic (x : Single) : Option Double := if statistics then some x.toDouble else none

/-- What the dump says of a leaf. -/
def leafFields (i : Nat) : DumpFields where
  id := UInt32.ofNat i
  depth := none
  split := none
  splitCondition := none
  yes := none
  no := none
  missing := none
  gain := none
  cover := shownStatistic statistics (t.node i).cover
  leaf := some (t.node i).value

/-- What the dump says of a split. -/
def splitFields (depth i : Nat) : DumpFields where
  id := UInt32.ofNat i
  depth := some (UInt32.ofNat depth)
  split := some (map.name (t.node i).feature)
  splitCondition := some (t.node i).threshold
  yes := (t.node i).children.map fun c => UInt32.ofNat c.1
  no := (t.node i).children.map fun c => UInt32.ofNat c.2
  missing := (t.node i).missingChild?.map UInt32.ofNat
  gain := shownStatistic statistics (t.node i).gain
  cover := shownStatistic statistics (t.node i).cover
  leaf := none

/-- What the dump says of the node on top of a shape. -/
def fieldsAt : Shape → (depth : Nat) → DumpFields
  | .leaf i, _ => t.leafFields statistics i
  | .split i _ _, depth => t.splitFields map statistics depth i

end Dump

namespace Unfolds

/-- With enough fuel the outline follows the shape. -/
theorem outlineFrom_eq (h : t.Unfolds i s) {fuel : Nat} (hfuel : s.height ≤ fuel) (depth : Nat) :
    t.outlineFrom fuel depth i = s.outline depth := by
  induction h generalizing fuel depth with
  | leaf hnode =>
    cases fuel with
    | zero => rfl
    | succ fuel =>
      rw [outlineFrom, hnode]
      rfl
  | split hnode _ _ hleft hright =>
    rw [Shape.height] at hfuel
    obtain ⟨fuel, rfl⟩ : ∃ n, fuel = n + 1 := ⟨fuel - 1, by omega⟩
    rw [outlineFrom, hnode]
    dsimp only
    rw [hleft (by omega), hright (by omega)]
    rfl

/-- With enough fuel the structured dump follows the shape. -/
theorem dumpNodeFrom_eq (h : t.Unfolds i s) {fuel : Nat} (hfuel : s.height ≤ fuel)
    (map : FeatureMap) (statistics : Bool) (depth : Nat) :
    t.dumpNodeFrom map statistics fuel depth i = s.toNode (t.fieldsAt map statistics) depth := by
  induction h generalizing fuel depth with
  | leaf hnode =>
    unfold dumpNodeFrom
    dsimp only
    rw [hnode]
    rfl
  | @split i _ _ _ _ hnode _ _ hleft hright =>
    rw [Shape.height] at hfuel
    obtain ⟨fuel, rfl⟩ : ∃ n, fuel = n + 1 := ⟨fuel - 1, by omega⟩
    unfold dumpNodeFrom
    dsimp only [Shape.toNode, fieldsAt, splitFields]
    have hbelow := @hleft fuel (by omega) (depth + 1)
    have hbeside := @hright fuel (by omega) (depth + 1)
    rw [hnode, ← hbelow, ← hbeside]
    rfl

/-- The splits in preorder are those of the shape. -/
theorem filter_places_eq (h : t.Unfolds i s) :
    (s.places.map t.node).filter (!·.isLeaf) = s.splits t := by
  induction h with
  | @leaf i hnode =>
    have hleaf : (t.node i).isLeaf := by rw [Node.isLeaf, hnode]; rfl
    simp only [Shape.places, Shape.splits, List.map_cons, List.map_nil, List.filter_cons, hleaf,
      Bool.not_true, Bool.false_eq_true, if_false, List.filter_nil]
  | @split i _ _ _ _ hnode _ _ hleft hright =>
    have hsplit : (t.node i).isLeaf = false := by rw [Node.isLeaf, hnode]; rfl
    simp only [Shape.places, Shape.splits, List.map_cons, List.map_append, List.filter_cons,
      List.filter_append, hsplit, Bool.not_false, if_true, hleft, hright]

end Unfolds

section Shaped

variable (h : t.Unfolds 0 s) (hplaces : s.places.Perm (List.range t.size))
include h hplaces

theorem Unfolds.outline_eq : t.outline = s.outline 0 :=
  h.outlineFrom_eq (Nat.le_of_lt (height_lt_size hplaces)) 0

theorem Unfolds.preorder_eq : t.preorder = s.places := by
  rw [preorder, h.outline_eq hplaces, Shape.map_fst_outline]

theorem Unfolds.splits_eq : t.splits = s.splits t := by
  rw [splits, h.preorder_eq hplaces, h.filter_places_eq]

theorem Unfolds.dumpNode_eq (map : FeatureMap) (statistics : Bool) :
    t.dumpNode map statistics = s.toNode (t.fieldsAt map statistics) 0 :=
  h.dumpNodeFrom_eq (Nat.le_of_lt (height_lt_size hplaces)) map statistics 0

/-- No node of the tree is deeper than its shape is high. -/
theorem Unfolds.forall_depth_le_iff (d : Nat) : (∀ p ∈ t.outline, p.2 ≤ d) ↔ s.height ≤ d := by
  have hiff := s.forall_depth_le_iff 0 d
  rwa [Nat.zero_add, ← h.outline_eq hplaces] at hiff

end Shaped

/-- In preorder stand all splits of the array, each as often as there. -/
theorem perm_splits_of_validate (h : t.validate features = .ok ()) :
    t.splits.Perm (t.nodes.toList.filter (!·.isLeaf)) := by
  obtain ⟨s, hs, hplaces⟩ := exists_shape_of_validate h
  have hnodes : (List.range t.size).map t.node = t.nodes.toList := by
    refine List.ext_getElem (by simp [size]) fun i hi hi' => ?_
    have hsize : i < t.nodes.size := by simpa using hi'
    simp [node, Array.getD, hsize]
  rw [splits, hs.preorder_eq hplaces, ← hnodes]
  exact (hplaces.map t.node).filter _

end Tree

end BoostedTrees
