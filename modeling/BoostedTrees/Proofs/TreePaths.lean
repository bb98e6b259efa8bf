import BoostedTrees.Proofs.TreeStorage
import BoostedTrees.Proofs.ValidShapes

/-!
# Paths from the root

A path is a list of turns, one for every split that it passes. Below a node that unfolds to a
shape there is a path to every place of the shape, and there is no other path; if no place stands
in the shape twice, no place has two paths.

Conversely, if every place of an array has exactly one path from the root, then no path passes a
place twice. So paths have fewer turns than there are places, whatever lies below the root is
finite, and it unfolds to a shape that holds every place once. Hence the search with marks, which
accepts such shapes and no others, decides whether the children form a tree.

## Main definitions

* `Side.follow`: the place that a path leads to, in any array of places with children
* `Tree.child?`: the children of the nodes of a tree
* `Tree.Shape.paths`: the paths to the places of a shape, in preorder

## Main results

* `Tree.Unfolds.existsUnique_path`: every place of a shape has one path
* `Tree.exists_shape_of_existsUnique`: places with one path each are the places of a shape
* `Tree.validate_eq_ok_iff`: what the check of a tree accepts
-/

namespace BoostedTrees

namespace Side

/-- The member of a pair on a side. -/
def pick : Side → Nat × Nat → Nat
  | left, children => children.1
  | right, children => children.2

/-- The place that turns lead to from a place, if there is a child to turn to every time. -/
def follow (child? : Nat → Side → Option Nat) : (i : Nat) → (turns : List Side) → Option Nat
  | i, [] => some i
  | i, side :: turns => (child? i side).bind fun child => follow child? child turns

variable {child? : Nat → Side → Option Nat} {i j : Nat}

theorem follow_append (i : Nat) (turns more : List Side) :
    follow child? i (turns ++ more) =
      (follow child? i turns).bind fun j => follow child? j more := by
  induction turns generalizing i with
  | nil => rfl
  | cons side turns ih =>
    rw [List.cons_append, follow, follow, Option.bind_assoc]
    congr 1
    funext child
    exact ih child

/-- A path from the root starts with a path to every place that it passes. -/
theorem exists_follow_take {turns : List Side} (h : follow child? i turns = some j) (m : Nat) :
    ∃ k, follow child? i (turns.take m) = some k := by
  rw [← List.take_append_drop m turns, follow_append] at h
  obtain ⟨k, hk, -⟩ := Option.bind_eq_some_iff.mp h
  exact ⟨k, hk⟩

/-- If the places that paths lead to lie below a number, and no two paths lead to the same one,
then paths have fewer turns than this number. -/
theorem length_lt_of_follow {n : Nat} (hlt : ∀ turns j, follow child? i turns = some j → j < n)
    (hunique : ∀ turns turns' j, follow child? i turns = some j →
      follow child? i turns' = some j → turns = turns')
    {turns : List Side} (h : follow child? i turns = some j) : turns.length < n := by
  -- The places that the path passes are one more than its turns, and all of them are different.
  have hnodup : ((List.range (turns.length + 1)).map fun m =>
      follow child? i (turns.take m)).Nodup := by
    apply List.Nodup.map_on ?_ List.nodup_range
    intro m hm m' hm' heq
    rw [List.mem_range] at hm hm'
    obtain ⟨k, hk⟩ := exists_follow_take h m
    have hsame := hunique _ _ k hk (heq ▸ hk)
    have hlength := congrArg List.length hsame
    rw [List.length_take, List.length_take] at hlength
    omega
  have hsubset : ((List.range (turns.length + 1)).map fun m =>
      follow child? i (turns.take m)) ⊆ (List.range n).map some := by
    intro place hplace
    obtain ⟨m, -, rfl⟩ := List.mem_map.mp hplace
    obtain ⟨k, hk⟩ := exists_follow_take h m
    rw [hk]
    exact List.mem_map_of_mem (List.mem_range.mpr (hlt _ _ hk))
  have hlength := hnodup.length_le_of_subset hsubset
  simp only [List.length_map, List.length_range] at hlength
  omega

end Side

namespace Tree

open Side (follow)

/-- The child of a node on a side. -/
def child? (t : Tree) (i : Nat) (side : Side) : Option Nat := (t.node i).children.map side.pick

variable {t : Tree} {i j : Nat} {s : Shape} {features : UInt64} {turns : List Side}

theorem follow_cons_of_leaf (h : (t.node i).children = none) (side : Side) (turns : List Side) :
    follow t.child? i (side :: turns) = none := by
  rw [follow, child?, h]
  rfl

theorem follow_cons_of_split {children : Nat × Nat} (h : (t.node i).children = some children)
    (side : Side) (turns : List Side) :
    follow t.child? i (side :: turns) = follow t.child? (side.pick children) turns := by
  rw [follow, child?, h]
  rfl

/-- Paths from a node of a tree whose children are nodes of it stay in the tree. -/
theorem InBounds.follow_lt (hbounds : t.InBounds) (hi : i < t.size)
    (h : follow t.child? i turns = some j) : j < t.size := by
  induction turns generalizing i with
  | nil =>
    cases h
    exact hi
  | cons side turns ih =>
    cases hnode : (t.node i).children with
    | none =>
      rw [follow_cons_of_leaf hnode] at h
      cases h
    | some children =>
      rw [follow_cons_of_split hnode] at h
      obtain ⟨hleft, hright⟩ := hbounds i _ _ hnode
      cases side with
      | left => exact ih hleft h
      | right => exact ih hright h

/-! ## The paths of a shape -/

/-- The paths to the places of a shape, in preorder. -/
def Shape.paths : Shape → List (List Side)
  | leaf _ => [[]]
  | split _ left right => [] :: (left.paths.map (.left :: ·) ++ right.paths.map (.right :: ·))

theorem Shape.nodup_paths (s : Shape) : s.paths.Nodup := by
  induction s with
  | leaf i => exact List.nodup_singleton _
  | split i left right hleft hright =>
    rw [paths, List.nodup_cons, List.nodup_append']
    refine ⟨by simp, hleft.map (List.cons_injective), hright.map (List.cons_injective), ?_⟩
    -- The first turn tells paths on the left from paths on the right.
    rintro path hpath hpath'
    obtain ⟨turns, -, rfl⟩ := List.mem_map.mp hpath
    obtain ⟨turns', -, heq⟩ := List.mem_map.mp hpath'
    cases heq

namespace Unfolds

/-- The paths of a shape lead to its places, in the same order. -/
theorem map_follow_paths (h : t.Unfolds i s) :
    s.paths.map (follow t.child? i) = s.places.map some := by
  induction h with
  | leaf _ => rfl
  | split hnode _ _ hleft hright =>
    have hturn := follow_cons_of_split hnode
    simp only [Shape.paths, Shape.places, List.map_cons, List.map_append, List.map_map,
      Function.comp_def, hturn, Side.pick, hleft, hright]
    rfl

/-- Every path from a node is one of the shape below it. -/
theorem mem_paths (h : t.Unfolds i s) (hturns : follow t.child? i turns = some j) :
    turns ∈ s.paths := by
  induction h generalizing turns with
  | leaf hnode =>
    cases turns with
    | nil => exact List.mem_cons_self
    | cons side turns =>
      rw [follow_cons_of_leaf hnode] at hturns
      cases hturns
  | split hnode _ _ hleft hright =>
    cases turns with
    | nil => exact List.mem_cons_self
    | cons side turns =>
      rw [follow_cons_of_split hnode] at hturns
      apply List.mem_cons_of_mem
      cases side with
      | left => exact List.mem_append_left _ (List.mem_map_of_mem (hleft hturns))
      | right => exact List.mem_append_right _ (List.mem_map_of_mem (hright hturns))

/-- The places of the shape below a node are those that paths lead to. -/
theorem mem_places_iff (h : t.Unfolds i s) :
    j ∈ s.places ↔ ∃ turns, follow t.child? i turns = some j := by
  have hmap := h.map_follow_paths
  constructor
  · intro hj
    have hmem : some j ∈ s.paths.map (follow t.child? i) := hmap ▸ List.mem_map_of_mem hj
    obtain ⟨turns, -, hturns⟩ := List.mem_map.mp hmem
    exact ⟨turns, hturns⟩
  · rintro ⟨turns, hturns⟩
    have hmem : follow t.child? i turns ∈ s.places.map some :=
      hmap ▸ List.mem_map_of_mem (h.mem_paths hturns)
    obtain ⟨k, hk, heq⟩ := List.mem_map.mp hmem
    obtain rfl : k = j := Option.some.inj (heq.trans hturns)
    exact hk

/-- Every place of a shape in which none stands twice has one path. -/
theorem existsUnique_path (h : t.Unfolds i s) (hnodup : s.places.Nodup) (hj : j ∈ s.places) :
    ∃! turns, follow t.child? i turns = some j := by
  have hinjective := List.inj_on_of_nodup_map
    (h.map_follow_paths ▸ hnodup.map fun _ _ => Option.some.inj)
  obtain ⟨turns, hturns⟩ := h.mem_places_iff.mp hj
  refine ⟨turns, hturns, fun turns' hturns' => ?_⟩
  exact hinjective (h.mem_paths hturns') (h.mem_paths hturns) (hturns'.trans hturns.symm)

end Unfolds

/-! ## From paths to shapes -/

/-- If the paths from a node have a greatest length, then what is below it has a shape. -/
theorem exists_unfolds {bound : Nat}
    (h : ∀ turns j, follow t.child? i turns = some j → turns.length ≤ bound) :
    ∃ s, t.Unfolds i s := by
  -- Paths from a child have one turn less than those that pass through it.
  induction bound generalizing i with
  | zero =>
    cases hnode : (t.node i).children with
    | none => exact ⟨.leaf i, .leaf hnode⟩
    | some children =>
      have hle := h [.left] _ (follow_cons_of_split hnode _ _)
      exact absurd hle (Nat.not_succ_le_zero 0)
  | succ bound ih =>
    cases hnode : (t.node i).children with
    | none => exact ⟨.leaf i, .leaf hnode⟩
    | some children =>
      have hchild : ∀ side : Side, ∃ s, t.Unfolds (side.pick children) s := by
        intro side
        apply ih
        intro turns j hturns
        have hle := h (side :: turns) j ((follow_cons_of_split hnode _ _).trans hturns)
        exact Nat.le_of_succ_le_succ hle
      obtain ⟨left, hleft⟩ := hchild .left
      obtain ⟨right, hright⟩ := hchild .right
      exact ⟨.split i left right, .split hnode hleft hright⟩

/-- If every node has one path from the root, the nodes unfold to a shape that holds each of
them once. -/
theorem exists_shape_of_existsUnique (hbounds : t.InBounds) (hpos : 0 < t.size)
    (h : ∀ i < t.size, ∃! turns, follow t.child? 0 turns = some i) :
    ∃ s, t.Unfolds 0 s ∧ s.places.Perm (List.range t.size) := by
  have hlt : ∀ turns j, follow t.child? 0 turns = some j → j < t.size :=
    fun _ _ => hbounds.follow_lt hpos
  have hunique : ∀ turns turns' j, follow t.child? 0 turns = some j →
      follow t.child? 0 turns' = some j → turns = turns' :=
    fun turns turns' j hturns => (h j (hlt _ _ hturns)).unique hturns
  -- Paths are bounded, because none of them passes a place twice.
  obtain ⟨s, hs⟩ := exists_unfolds fun _ _ hturns =>
    Nat.le_of_lt (Side.length_lt_of_follow hlt hunique hturns)
  refine ⟨s, hs, ?_⟩
  -- The paths of the shape are all different, and hence so are the places that they lead to.
  have hnodup : s.places.Nodup := by
    apply List.Nodup.of_map some
    rw [← hs.map_follow_paths]
    apply List.Nodup.map_on ?_ s.nodup_paths
    intro turns hturns turns' _ heq
    have hmem : follow t.child? 0 turns ∈ s.places.map some :=
      hs.map_follow_paths ▸ List.mem_map_of_mem hturns
    obtain ⟨j, -, hj⟩ := List.mem_map.mp hmem
    exact hunique turns turns' j hj.symm (heq ▸ hj.symm)
  apply (List.perm_ext_iff_of_nodup hnodup List.nodup_range).mpr
  intro i
  rw [hs.mem_places_iff, List.mem_range]
  exact ⟨fun ⟨turns, hturns⟩ => hlt turns i hturns, fun hi => (h i hi).exists⟩

/-- A tree whose children are nodes of it is valid if and only if it has a root, every node has
one path from the root, and the splits use features of the model. -/
theorem validate_eq_ok_iff (hbounds : t.InBounds) :
    t.validate features = .ok () ↔
      0 < t.size ∧ (∀ i < t.size, ∃! turns, follow t.child? 0 turns = some i) ∧
        ∀ i children, (t.node i).children = some children → features ≠ 0 →
          (t.node i).feature.toNat < features.toNat := by
  constructor
  · intro h
    obtain ⟨s, hs, hplaces⟩ := exists_shape_of_validate h
    have hmem := mem_places_iff_lt hplaces
    refine ⟨(hmem 0).mp hs.mem_places, fun i hi => ?_, fun i children hnode => ?_⟩
    · exact hs.existsUnique_path (nodup_places hplaces) ((hmem i).mpr hi)
    · exact (splitChecked_of_validate h hnode).feature_lt
  · rintro ⟨hpos, hpaths, hfeatures⟩
    obtain ⟨s, hs, hplaces⟩ := exists_shape_of_existsUnique hbounds hpos hpaths
    exact validate_of_unfolds hs hplaces hfeatures

end Tree

end BoostedTrees
