import BoostedTrees.Tree.Validation
import BoostedTrees.Proofs.Calls
import Mathlib.Data.List.Nodup
import Mathlib.Data.List.Perm.Subperm

/-!
# The search through a valid tree

A tree is valid if the search through it ends well and marks all nodes. The nodes that it
passes, listed in order, are all nodes of the tree, each of them once; and since a node is
put on the stack only when its parent is passed, every child comes after its parent. So
walks go down this list, and no walk is longer than it.

## Main definitions

* `Tree.Search`: a search that ends well, with the nodes that it passes
* `Tree.Ordered`: all nodes of a tree in an order in which parents come first

## Main results

* `Tree.exists_ordered_of_validate`: the nodes of a valid tree have such an order
-/

namespace BoostedTrees

namespace Tree

variable {t : Tree} {features : UInt64} {fuel i : Nat} {stack order : List Nat}
  {seen seen' : Array Bool}

/-! ## Marks -/

/-- One more node is marked. -/
theorem getD_mark_iff (hi : i < seen.size) (j : Nat) :
    (seen.setIfInBounds i true).getD j false = true ↔ j = i ∨ seen.getD j false = true := by
  rw [Array.getD_eq_getD_getElem?, Array.getD_eq_getD_getElem?, Array.getElem?_setIfInBounds]
  by_cases hij : i = j
  · simp [hij, hij ▸ hi]
  · simp [hij, Ne.symm hij]

/-- One node fewer is left without a mark. -/
theorem count_mark (hi : i < seen.size) (hunseen : seen.getD i false = false) :
    (seen.setIfInBounds i true).count false + 1 = seen.count false := by
  have hget : seen[i] = false := by
    simpa only [Array.getD_eq_getD_getElem?, Array.getElem?_eq_getElem hi, Option.getD_some]
      using hunseen
  have hpos : 0 < seen.count false := Array.count_pos_iff.mpr (hget ▸ Array.getElem_mem hi)
  rw [Array.setIfInBounds, dif_pos hi, Array.count_set hi, hget]
  simp only [BEq.rfl, if_true, Bool.true_beq, Bool.false_eq_true, if_false]
  omega

/-! ## Searches -/

/-- What is known of a split whose checks have passed. -/
structure SplitChecked (t : Tree) (features : UInt64) (i left right : Nat) : Prop where
  feature_lt : features ≠ 0 → (t.node i).feature.toNat < features.toNat
  left_lt : left < t.size
  right_lt : right < t.size

theorem feature_lt_of_checkFeature (h : t.checkFeature features i = .ok ())
    (hknown : features ≠ 0) : (t.node i).feature.toNat < features.toNat := by
  unfold checkFeature at h
  dsimp only at h
  split at h
  · cases h
  · next hin => exact Nat.lt_of_not_le fun hle => hin ⟨hknown, hle⟩

theorem lt_of_checkChild {side : Side} {child : Nat} (h : t.checkChild i side child = .ok ()) :
    child < t.size := by
  unfold checkChild at h
  split at h
  · cases h
  split at h
  · cases h
  · next hin => exact Nat.lt_of_not_le hin

/-- A search from the nodes on a stack ends well and passes the nodes of `order`. -/
inductive Search (t : Tree) (features : UInt64) :
    (stack : List Nat) → (seen : Array Bool) → (order : List Nat) → Prop
  /-- The stack is empty. -/
  | done (seen : Array Bool) : Search t features [] seen []
  /-- A leaf is marked. -/
  | leaf {i : Nat} {stack : List Nat} {seen : Array Bool} {order : List Nat}
      (hunseen : seen.getD i false = false) (hnode : (t.node i).children = none)
      (hrest : Search t features stack (seen.setIfInBounds i true) order) :
      Search t features (i :: stack) seen (i :: order)
  /-- A split is marked, and its children are put on the stack. -/
  | split {i left right : Nat} {stack : List Nat} {seen : Array Bool} {order : List Nat}
      (hunseen : seen.getD i false = false) (hnode : (t.node i).children = some (left, right))
      (hchecked : t.SplitChecked features i left right)
      (hrest : Search t features (right :: left :: stack) (seen.setIfInBounds i true) order) :
      Search t features (i :: stack) seen (i :: order)

/-- With as many steps as there are nodes without a mark, and one more, what ends well is a
search, and it marks no other nodes than those that it passes. -/
theorem search_of_visit (h : t.visit features fuel stack seen = .ok seen')
    (hsize : seen.size = t.size) (hstack : ∀ i ∈ stack, i < t.size)
    (hfuel : seen.count false < fuel) :
    ∃ order, Search t features stack seen order ∧ seen'.size = t.size ∧
      ∀ i, seen'.getD i false = true → seen.getD i false = true ∨ i ∈ order := by
  induction fuel generalizing stack seen with
  | zero => exact absurd hfuel (Nat.not_lt_zero _)
  | succ fuel ih =>
    cases stack with
    | nil =>
      cases h
      exact ⟨[], .done _, hsize, fun i hi => .inl hi⟩
    | cons i stack =>
      obtain ⟨hi, hrest⟩ := List.forall_mem_cons.mp hstack
      have hi : i < seen.size := Nat.lt_of_lt_of_eq hi hsize.symm
      rw [visit] at h
      by_cases hmark : seen.getD i false = true
      · rw [if_pos hmark] at h
        cases h
      rw [if_neg hmark] at h
      have hunseen : seen.getD i false = false := Bool.eq_false_iff.mpr hmark
      have hsize' : (seen.setIfInBounds i true).size = t.size :=
        Array.size_setIfInBounds.trans hsize
      -- One step is taken, and one node fewer is without a mark.
      have hfuel' : (seen.setIfInBounds i true).count false < fuel := by
        have := count_mark hi hunseen
        omega
      have hmarks : ∀ {order : List Nat} {j : Nat},
          (seen.setIfInBounds i true).getD j false = true ∨ j ∈ order →
            seen.getD j false = true ∨ j ∈ i :: order := by
        intro order j hj
        rw [getD_mark_iff hi, or_assoc] at hj
        rw [List.mem_cons]
        exact or_left_comm.mp hj
      dsimp only at h
      split at h
      · next hnode =>
        obtain ⟨order, hsearch, hend, hseen⟩ := ih h hsize' hrest hfuel'
        exact ⟨i :: order, .leaf hunseen hnode hsearch, hend, fun j hj => hmarks (hseen j hj)⟩
      · next left right hnode =>
        obtain ⟨⟨⟩, hfeature, h⟩ := Except.bind_eq_ok h
        obtain ⟨⟨⟩, hleft, h⟩ := Except.bind_eq_ok h
        obtain ⟨⟨⟩, hright, h⟩ := Except.bind_eq_ok h
        have hchecked : t.SplitChecked features i left right :=
          ⟨feature_lt_of_checkFeature hfeature, lt_of_checkChild hleft, lt_of_checkChild hright⟩
        have hstack' : ∀ i ∈ right :: left :: stack, i < t.size :=
          List.forall_mem_cons.mpr ⟨hchecked.right_lt,
            List.forall_mem_cons.mpr ⟨hchecked.left_lt, hrest⟩⟩
        obtain ⟨order, hsearch, hend, hseen⟩ := ih h hsize' hstack' hfuel'
        exact ⟨i :: order, .split hunseen hnode hchecked hsearch, hend,
          fun j hj => hmarks (hseen j hj)⟩

namespace Search

/-- A property that the nodes on the stack have, and all children, holds of all nodes that
are passed. -/
theorem forall_mem {P : Nat → Prop} (h : Search t features stack seen order)
    (hchildren : ∀ i left right, (t.node i).children = some (left, right) →
      t.SplitChecked features i left right → P left ∧ P right)
    (hstack : ∀ i ∈ stack, P i) : ∀ i ∈ order, P i := by
  induction h with
  | done seen => exact fun _ hi => absurd hi List.not_mem_nil
  | leaf _ _ _ ih =>
    obtain ⟨hi, hrest⟩ := List.forall_mem_cons.mp hstack
    exact List.forall_mem_cons.mpr ⟨hi, ih hrest⟩
  | split _ hnode hchecked _ ih =>
    obtain ⟨hi, hrest⟩ := List.forall_mem_cons.mp hstack
    obtain ⟨hleft, hright⟩ := hchildren _ _ _ hnode hchecked
    refine List.forall_mem_cons.mpr ⟨hi, ih ?_⟩
    exact List.forall_mem_cons.mpr ⟨hright, List.forall_mem_cons.mpr ⟨hleft, hrest⟩⟩

/-- All nodes on the stack are passed. -/
theorem mem_of_mem_stack (h : Search t features stack seen order) : ∀ i ∈ stack, i ∈ order := by
  induction h with
  | done seen => exact fun _ hi => hi
  | leaf _ _ _ ih =>
    refine List.forall_mem_cons.mpr ⟨List.mem_cons_self, ?_⟩
    exact fun i hi => List.mem_cons_of_mem _ (ih i hi)
  | split _ _ _ _ ih =>
    refine List.forall_mem_cons.mpr ⟨List.mem_cons_self, ?_⟩
    intro i hi
    exact List.mem_cons_of_mem _ (ih i (List.mem_cons_of_mem _ (List.mem_cons_of_mem _ hi)))

/-- Only nodes without a mark are passed, and none of them twice. -/
theorem unseen_nodup (h : Search t features stack seen order) (hsize : seen.size = t.size)
    (hstack : ∀ i ∈ stack, i < t.size) :
    (∀ i ∈ order, seen.getD i false = false) ∧ order.Nodup := by
  have hmark : ∀ {i : Nat} {seen : Array Bool} {order : List Nat}, i < seen.size →
      seen.getD i false = false →
      (∀ j ∈ order, (seen.setIfInBounds i true).getD j false = false) ∧ order.Nodup →
        (∀ j ∈ i :: order, seen.getD j false = false) ∧ (i :: order).Nodup := by
    intro i seen order hi hunseen hrest
    -- What comes later is not marked by then, so it is another node and was not marked before.
    have hlater : ∀ j ∈ order, j ≠ i ∧ seen.getD j false = false := by
      intro j hj
      have hnot := mt (getD_mark_iff hi j).mpr (by rw [hrest.1 j hj]; exact Bool.false_ne_true)
      exact ⟨fun h => hnot (.inl h), Bool.eq_false_iff.mpr fun h => hnot (.inr h)⟩
    refine ⟨List.forall_mem_cons.mpr ⟨hunseen, fun j hj => (hlater j hj).2⟩, ?_⟩
    exact List.nodup_cons.mpr ⟨fun hmem => (hlater i hmem).1 rfl, hrest.2⟩
  induction h with
  | done seen => exact ⟨fun _ hi => absurd hi List.not_mem_nil, .nil⟩
  | leaf hunseen _ _ ih =>
    obtain ⟨hi, hrest⟩ := List.forall_mem_cons.mp hstack
    exact hmark (hsize ▸ hi) hunseen (ih (Array.size_setIfInBounds.trans hsize) hrest)
  | split hunseen _ hchecked _ ih =>
    obtain ⟨hi, hrest⟩ := List.forall_mem_cons.mp hstack
    refine hmark (hsize ▸ hi) hunseen (ih (Array.size_setIfInBounds.trans hsize) ?_)
    exact List.forall_mem_cons.mpr ⟨hchecked.right_lt,
      List.forall_mem_cons.mpr ⟨hchecked.left_lt, hrest⟩⟩

/-- The children of a split have passed their checks and come after it. -/
theorem children_later (h : Search t features stack seen order) {before after : List Nat}
    {left right : Nat} (horder : order = before ++ i :: after)
    (hnode : (t.node i).children = some (left, right)) :
    t.SplitChecked features i left right ∧ left ∈ after ∧ right ∈ after := by
  induction h generalizing before with
  | done seen => exact absurd horder (by simp)
  | leaf _ hleaf _ ih =>
    rcases List.cons_eq_append_iff.mp horder with ⟨-, hcons⟩ | ⟨before', -, hrest⟩
    · obtain ⟨rfl, -⟩ := List.cons.inj hcons
      rw [hleaf] at hnode
      cases hnode
    · exact ih hrest
  | split _ hsplit hchecked hsearch ih =>
    rcases List.cons_eq_append_iff.mp horder with ⟨-, hcons⟩ | ⟨before', -, hrest⟩
    · -- The node that is passed first: its children are on the stack from here on.
      obtain ⟨rfl, rfl⟩ := List.cons.inj hcons
      rw [hsplit] at hnode
      cases hnode
      have hmem := hsearch.mem_of_mem_stack
      exact ⟨hchecked, hmem _ (by simp), hmem _ (by simp)⟩
    · exact ih hrest

end Search

/-! ## Valid trees -/

/-- All nodes of a tree in an order in which every split has passed its checks and comes
before its children. -/
structure Ordered (t : Tree) (features : UInt64) (order : List Nat) : Prop where
  nodup : order.Nodup
  mem_iff : ∀ i, i ∈ order ↔ i < t.size
  root_lt : 0 < t.size
  children_later : ∀ {before after : List Nat} {i left right : Nat},
    order = before ++ i :: after → (t.node i).children = some (left, right) →
      t.SplitChecked features i left right ∧ left ∈ after ∧ right ∈ after

/-- The search through a valid tree starts at the root and passes all nodes. -/
theorem search_of_validate (h : t.validate features = .ok ()) :
    0 < t.size ∧ ∃ order, Search t features [0] (Array.replicate t.size false) order ∧
      ∀ i < t.size, i ∈ order := by
  unfold validate at h
  split at h
  · cases h
  next hsize =>
  have hpos : 0 < t.size := Nat.pos_of_ne_zero hsize
  obtain ⟨seen, hvisit, h⟩ := Except.bind_eq_ok h
  have hroot : ∀ i ∈ [0], i < t.size := by
    intro i hi
    rw [List.mem_singleton.mp hi]
    exact hpos
  obtain ⟨order, hsearch, hend, hseen⟩ := search_of_visit hvisit Array.size_replicate hroot
    (by rw [Array.count_replicate]; simp)
  refine ⟨hpos, order, hsearch, ?_⟩
  split at h
  · cases h
  · next hall =>
    -- No node was left without a mark, and none was marked at the start.
    intro i hi
    have hmarked := Array.findIdx?_eq_none_iff.mp hall seen[i] (Array.getElem_mem (by omega))
    have hget : seen.getD i false = true := by
      rw [Array.getD_eq_getD_getElem?, Array.getElem?_eq_getElem (by omega), Option.getD_some]
      simpa using hmarked
    refine (hseen i hget).resolve_left fun hstart => ?_
    simp [Array.getD_eq_getD_getElem?, hi] at hstart

/-- The nodes of a valid tree have an order in which parents come first. -/
theorem exists_ordered_of_validate (h : t.validate features = .ok ()) :
    ∃ order, t.Ordered features order := by
  obtain ⟨hpos, order, hsearch, hall⟩ := search_of_validate h
  have hroot : ∀ i ∈ [0], i < t.size := by
    intro i hi
    rw [List.mem_singleton.mp hi]
    exact hpos
  have hlt : ∀ i ∈ order, i < t.size :=
    hsearch.forall_mem (fun _ _ _ _ hchecked => ⟨hchecked.left_lt, hchecked.right_lt⟩) hroot
  exact ⟨order, {
    nodup := (hsearch.unseen_nodup Array.size_replicate hroot).2
    mem_iff := fun i => ⟨hlt i, hall i⟩
    root_lt := hpos
    children_later := fun horder hnode => hsearch.children_later horder hnode }⟩

/-- All nodes of a valid tree have a property that the root has and all children. -/
theorem forall_of_validate {P : Nat → Prop} (h : t.validate features = .ok ()) (hroot : P 0)
    (hchildren : ∀ i left right, (t.node i).children = some (left, right) → P left ∧ P right) :
    ∀ i < t.size, P i := by
  obtain ⟨-, order, hsearch, hall⟩ := search_of_validate h
  have hP : ∀ i ∈ order, P i := by
    refine hsearch.forall_mem (fun i left right hnode _ => hchildren i left right hnode) ?_
    intro i hi
    rw [List.mem_singleton.mp hi]
    exact hroot
  exact fun i hi => hP i (hall i hi)

/-- Every split of a valid tree has passed its checks. -/
theorem splitChecked_of_validate (h : t.validate features = .ok ()) {left right : Nat}
    (hnode : (t.node i).children = some (left, right)) :
    t.SplitChecked features i left right := by
  obtain ⟨order, hordered⟩ := exists_ordered_of_validate h
  have hi : i < t.size := by
    by_contra hout
    rw [node, Array.getD_eq_getD_getElem?, Array.getElem?_eq_none (Nat.le_of_not_lt hout)] at hnode
    cases hnode
  obtain ⟨before, after, horder⟩ := List.append_of_mem ((hordered.mem_iff i).mpr hi)
  exact (hordered.children_later horder hnode).1

namespace Ordered

/-- The order has as many nodes as the tree. -/
theorem length_eq (h : t.Ordered features order) : order.length = t.size := by
  apply Nat.le_antisymm
  · have hsub : order ⊆ List.range t.size := fun i hi => List.mem_range.mpr ((h.mem_iff i).mp hi)
    simpa only [List.length_range] using h.nodup.length_le_of_subset hsub
  · have hsub : List.range t.size ⊆ order := fun i hi => (h.mem_iff i).mpr (List.mem_range.mp hi)
    simpa only [List.length_range] using List.nodup_range.length_le_of_subset hsub

end Ordered

end Tree

end BoostedTrees
