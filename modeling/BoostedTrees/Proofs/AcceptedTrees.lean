import BoostedTrees.Proofs.GrownTrees
import BoostedTrees.Proofs.StoredRoundTrip
import BoostedTrees.Proofs.TreePaths

/-!
# The stored trees that are accepted

What a stored tree must be is said here of its lists alone, without a search: the lists have one
length, every node has two children or none, every node has one path from the root, and splits use
features of the model. Reading accepts these trees and no others.

The search of the check is a loop over a stack, which knows of no number of steps. Every step
either fails or marks one more node, so the loop ends on all arrays, on those with cycles and
shared children too, and what it ends with is what the check goes by.

## Main definitions

* `StoredTree.RootedTree`: the lists of a stored tree are a rooted binary tree
* `Tree.searchStep`, `Tree.SearchEnds`: the loop of the search, and how it ends

## Main results

* `Tree.searchEnds_visit`: the search ends after at most one step more than there are nodes
* `Tree.exists_ofStored_iff`: reading accepts exactly the rooted binary trees
-/

namespace BoostedTrees

/-! ## The loop of the search -/

/-- Where a search stands: the places that wait, the next one first, and the marks. -/
structure SearchState where
  waiting : List Nat
  seen : Array Bool

namespace Tree

variable (t : Tree) (features : UInt64)

/-- One step of the search: the next place is marked, and its children wait. -/
def searchStep : SearchState → Except TreeError SearchState
  | ⟨[], seen⟩ => .ok ⟨[], seen⟩
  | ⟨i :: waiting, seen⟩ =>
    if seen.getD i false then .error (.duplicateVisit i)
    else
      let seen := seen.setIfInBounds i true
      match (t.node i).children with
      | none => .ok ⟨waiting, seen⟩
      | some (left, right) => do
        t.checkFeature features i
        t.checkChild i .left left
        t.checkChild i .right right
        return ⟨right :: left :: waiting, seen⟩

/-- A number of steps, one after another, as long as none fails. -/
def searchSteps : (steps : Nat) → SearchState → Except TreeError SearchState
  | 0, state => .ok state
  | steps + 1, state => (searchStep t features state).bind (searchSteps steps)

/-- The search from the root ends, within a step more than there are nodes: it fails, or no place
waits any more and these are the marks. -/
def SearchEnds (outcome : Except TreeError (Array Bool)) : Prop :=
  ∃ steps ≤ t.size + 1, t.searchSteps features steps ⟨[0], Array.replicate t.size false⟩ =
    outcome.map (SearchState.mk [])

variable {t features} {i steps : Nat} {waiting : List Nat} {seen : Array Bool}
  {state : SearchState}

theorem searchSteps_nil (steps : Nat) :
    t.searchSteps features steps ⟨[], seen⟩ = .ok ⟨[], seen⟩ := by
  induction steps with
  | zero => rfl
  | succ steps ih => exact ih

/-- A walk with fuel makes as many steps of the loop. -/
theorem visit_eq_searchSteps (steps : Nat) (waiting : List Nat) (seen : Array Bool) :
    t.visit features steps waiting seen =
      (t.searchSteps features steps ⟨waiting, seen⟩).map (·.seen) := by
  induction steps generalizing waiting seen with
  | zero => rfl
  | succ steps ih =>
    cases waiting with
    | nil =>
      rw [searchSteps_nil]
      rfl
    | cons i waiting =>
      rw [visit, searchSteps, searchStep]
      by_cases hmark : seen.getD i false = true
      · rw [if_pos hmark, if_pos hmark]
        rfl
      rw [if_neg hmark, if_neg hmark]
      cases hnode : (t.node i).children with
      | none => exact ih _ _
      | some children =>
        -- The checks of a split are the same on both sides, and so is the state they leave.
        dsimp only
        cases t.checkFeature features i with
        | error e => rfl
        | ok _ =>
          cases t.checkChild i .left children.1 with
          | error e => rfl
          | ok _ =>
            cases t.checkChild i .right children.2 with
            | error e => rfl
            | ok _ => exact ih _ _

/-- A step that does not fail marks a place that had no mark, and only places of the tree are
added to those that wait. -/
theorem searchStep_eq_ok (h : t.searchStep features ⟨i :: waiting, seen⟩ = .ok state) :
    seen.getD i false = false ∧ state.seen = seen.setIfInBounds i true ∧
      ((∀ j ∈ waiting, j < t.size) → ∀ j ∈ state.waiting, j < t.size) := by
  rw [searchStep] at h
  split at h
  · cases h
  next hmark =>
  dsimp only at h
  split at h
  · cases h
    exact ⟨Bool.eq_false_iff.mpr hmark, rfl, id⟩
  · next left right hnode =>
    obtain ⟨⟨⟩, -, h⟩ := Except.bind_eq_ok h
    obtain ⟨⟨⟩, hleft, h⟩ := Except.bind_eq_ok h
    obtain ⟨⟨⟩, hright, h⟩ := Except.bind_eq_ok h
    cases h
    refine ⟨Bool.eq_false_iff.mpr hmark, rfl, fun hwaiting => ?_⟩
    exact List.forall_mem_cons.mpr ⟨lt_of_checkChild hright,
      List.forall_mem_cons.mpr ⟨lt_of_checkChild hleft, hwaiting⟩⟩

/-- After more steps than there are places without a mark, no place waits. -/
theorem waiting_eq_nil_of_searchSteps
    (h : t.searchSteps features steps ⟨waiting, seen⟩ = .ok state) (hsize : seen.size = t.size)
    (hwaiting : ∀ i ∈ waiting, i < t.size) (hsteps : seen.count false < steps) :
    state.waiting = [] := by
  induction steps generalizing waiting seen with
  | zero => exact absurd hsteps (Nat.not_lt_zero _)
  | succ steps ih =>
    cases waiting with
    | nil =>
      rw [searchSteps_nil] at h
      cases h
      rfl
    | cons i waiting =>
      obtain ⟨⟨waiting', seen'⟩, hstep, h⟩ := Except.bind_eq_ok h
      obtain ⟨hunseen, rfl, hwaiting'⟩ := searchStep_eq_ok hstep
      obtain ⟨hi, hrest⟩ := List.forall_mem_cons.mp hwaiting
      apply ih h (Array.size_setIfInBounds.trans hsize) (hwaiting' hrest)
      -- The step used up one place without a mark.
      have hcount := count_mark (hsize ▸ hi) hunseen
      omega

/-- On every array the search ends, with what the check goes by. -/
theorem searchEnds_visit (t : Tree) (features : UInt64) :
    t.SearchEnds features
      (t.visit features (t.size + 1) [0] (Array.replicate t.size false)) := by
  refine ⟨t.size + 1, Nat.le_refl _, ?_⟩
  rw [visit_eq_searchSteps]
  cases hsteps : t.searchSteps features (t.size + 1) ⟨[0], Array.replicate t.size false⟩ with
  | error e => rfl
  | ok state =>
    have hnil : state.waiting = [] := by
      rcases Nat.eq_zero_or_pos t.size with hempty | hpos
      · -- Without nodes the root is read as a leaf, and one step is enough.
        rw [hempty, searchSteps, searchStep, node_of_size_le (Nat.le_of_eq hempty)] at hsteps
        cases hsteps
        rfl
      · apply waiting_eq_nil_of_searchSteps hsteps Array.size_replicate
        · rintro i hi
          rwa [List.mem_singleton.mp hi]
        · rw [Array.count_replicate_self]
          exact Nat.lt_succ_self _
    obtain ⟨waiting, seen⟩ := state
    cases hnil
    rfl

end Tree

/-! ## Rooted binary trees -/

namespace StoredTree

variable (s : StoredTree)

/-- The entry of a child. -/
def entry (i : Nat) : Side → Int32
  | .left => s.leftChildren.getD i noChild
  | .right => s.rightChildren.getD i noChild

/-- The child that the entry of a node gives, if it is not negative. -/
def child? (i : Nat) (side : Side) : Option Nat :=
  if s.entry i side < 0 then none else some (s.entry i side).toInt.toNat

/-- The lists of a stored tree are a binary tree of `n` nodes with its root in the place `0`, and
its splits use features of the model; all features will do where their number is zero. -/
structure RootedTree (features : UInt64) (n : Nat) : Prop where
  pos : 0 < n
  lengths : ∀ k ∈ [s.splitIndices.length, s.splitConditions.length, s.leftChildren.length,
    s.rightChildren.length, s.defaultLeft.length, s.baseWeights.length, s.lossChanges.length,
    s.sumHessian.length], k = n
  leaf_or_split : ∀ i < n, (∀ side, s.entry i side = noChild) ∨
    ∀ side, ∃ child : Nat, child < n ∧ (s.entry i side).toInt = child
  existsUnique_path : ∀ i < n, ∃! turns, Side.follow s.child? 0 turns = some i
  feature_lt : features ≠ 0 → ∀ i < n, (∀ side, s.entry i side ≠ noChild) →
    (s.splitIndices.getD i 0).toNat < features.toNat

variable {s} {nodes i : Nat} {features : UInt64}

/-! ## Reading nodes -/

theorem toInt_noChild : noChild.toInt = -1 := rfl

theorem place_eq_ok_iff {side : Side} {child : Int32} {c : Nat} :
    place nodes i side child = .ok c ↔ child.toInt = c ∧ c < nodes := by
  have hneg : child < 0 ↔ child.toInt < 0 := Int32.lt_iff_toInt_lt
  unfold place
  split
  · next hout =>
    rw [hneg] at hout
    exact iff_of_false nofun (by omega)
  · next hin =>
    rw [hneg] at hin
    rw [Except.ok.injEq]
    omega

/-- The children of a node are read where both entries say that there is no child, or where both
are places of the array. -/
theorem children_eq_ok_iff {left right : Int32} {c : Option (Nat × Nat)} :
    children nodes i left right = .ok c ↔
      (left = noChild ∧ right = noChild ∧ c = none) ∨
        ∃ l r : Nat, (left.toInt = l ∧ l < nodes) ∧ (right.toInt = r ∧ r < nodes) ∧ c = some (l, r) := by
  -- No place is negative, and so none is mistaken for the entry of a leaf.
  have hne : ∀ {child : Int32} {k : Nat}, child.toInt = k → child ≠ noChild := by
    rintro child k hk rfl
    rw [toInt_noChild] at hk
    omega
  constructor
  · intro h
    unfold children at h
    split at h
    · next hleaf =>
      cases h
      exact .inl ⟨hleaf.1, hleaf.2, rfl⟩
    split at h
    · cases h
    · obtain ⟨l, hl, h⟩ := Except.bind_eq_ok h
      obtain ⟨r, hr, h⟩ := Except.bind_eq_ok h
      cases h
      exact .inr ⟨l, r, place_eq_ok_iff.mp hl, place_eq_ok_iff.mp hr, rfl⟩
  · rintro (⟨rfl, rfl, rfl⟩ | ⟨l, r, hl, hr, rfl⟩)
    · rfl
    · have hleaf : ¬(left = noChild ∧ right = noChild) := fun h => hne hl.1 h.1
      have hhalf : ¬(left = noChild ∨ right = noChild) := not_or.mpr ⟨hne hl.1, hne hr.1⟩
      rw [children, if_neg hleaf, if_neg hhalf, place_eq_ok_iff.mpr hl, place_eq_ok_iff.mpr hr]
      rfl

theorem getD_toArray {α : Type} (l : List α) (i : Nat) (d : α) :
    l.toArray.getD i d = l.getD i d := by
  simp [Array.getD_eq_getD_getElem?, List.getD_eq_getElem?_getD]

theorem entry_left (s : StoredTree) (i : Nat) :
    s.leftChildren.toArray.getD i noChild = s.entry i .left :=
  getD_toArray _ i noChild

theorem entry_right (s : StoredTree) (i : Nat) :
    s.rightChildren.toArray.getD i noChild = s.entry i .right :=
  getD_toArray _ i noChild

theorem feature_nodeAt (s : StoredTree) (i : Nat) (c : Option (Nat × Nat)) :
    (s.nodeAt i c).feature = s.splitIndices.getD i 0 :=
  getD_toArray _ i 0

/-- Both entries of a node are read as a pair of children, or neither of them is a child. -/
theorem child?_eq_of_children {n : Nat} {c : Option (Nat × Nat)}
    (h : children n i (s.entry i .left) (s.entry i .right) = .ok c) (side : Side) :
    s.child? i side = c.map side.pick := by
  have hsome : ∀ {k : Nat}, (s.entry i side).toInt = k → s.child? i side = some k := by
    intro k hk
    have hnonneg : ¬s.entry i side < 0 := by
      rw [Int32.lt_iff_toInt_lt, hk]
      exact Int.not_lt_of_ge (Int.natCast_nonneg k)
    rw [child?, if_neg hnonneg, hk, Int.toNat_natCast]
  rcases children_eq_ok_iff.mp h with ⟨hleft, hright, rfl⟩ | ⟨l, r, hl, hr, rfl⟩
  · have hentry : s.entry i side = noChild := by cases side <;> assumption
    rw [child?, hentry]
    rfl
  · cases side with
    | left => exact hsome hl.1
    | right => exact hsome hr.1

theorem children_of_leaf_or_split {n : Nat} (h : (∀ side, s.entry i side = noChild) ∨
    ∀ side, ∃ child : Nat, child < n ∧ (s.entry i side).toInt = child) :
    ∃ c, children n i (s.entry i .left) (s.entry i .right) = .ok c := by
  rcases h with hleaf | hsplit
  · exact ⟨none, children_eq_ok_iff.mpr (.inl ⟨hleaf .left, hleaf .right, rfl⟩)⟩
  · obtain ⟨l, hl, hleft⟩ := hsplit .left
    obtain ⟨r, hr, hright⟩ := hsplit .right
    exact ⟨some (l, r), children_eq_ok_iff.mpr (.inr ⟨l, r, ⟨hleft, hl⟩, ⟨hright, hr⟩, rfl⟩)⟩

theorem checkLengths_eq_ok_iff : s.checkLengths = .ok () ↔ ∀ p ∈ s.lengths, p.2 = s.nodeCount := by
  refine ⟨length_eq_of_checkLengths, fun h => ?_⟩
  have hnone : s.lengths.find? (·.2 ≠ s.nodeCount) = none := by
    apply List.find?_eq_none.mpr
    rintro p hp
    simpa using h p hp
  rw [checkLengths, hnone]

end StoredTree

namespace Tree

open Side (follow)

variable {s : StoredTree} {t : Tree} {features : UInt64} {n : Nat}

/-- The nodes of a tree are those that the entries of lists of one length are read as. -/
structure ReadFrom (s : StoredTree) (t : Tree) : Prop where
  lengths : ∀ p ∈ s.lengths, p.2 = t.size
  size_eq : s.nodeCount = t.size
  children_eq : ∀ i < t.size, StoredTree.children t.size i (s.entry i .left) (s.entry i .right) =
    .ok (t.node i).children
  feature_eq : ∀ i < t.size, (t.node i).feature = s.splitIndices.getD i 0

namespace ReadFrom

/-- The children of the tree are those of the lists. -/
theorem child?_eq (h : ReadFrom s t) : t.child? = s.child? := by
  funext i side
  by_cases hi : i < t.size
  · exact (StoredTree.child?_eq_of_children (h.children_eq i hi) side).symm
  · -- Where there are no nodes, there are no entries either.
    have hright : s.rightChildren.length = t.size :=
      h.lengths ("right_children", s.rightChildren.length) (by simp [StoredTree.lengths])
    have hleft : s.leftChildren.length = t.size := h.size_eq
    have hentry : s.entry i side = StoredTree.noChild := by
      cases side with
      | left =>
        rw [StoredTree.entry, List.getD_eq_getElem?_getD, List.getElem?_eq_none (by omega)]
        rfl
      | right =>
        rw [StoredTree.entry, List.getD_eq_getElem?_getD, List.getElem?_eq_none (by omega)]
        rfl
    rw [child?, node_of_size_le (Nat.le_of_not_lt hi), StoredTree.child?, hentry]
    rfl

theorem inBounds (h : ReadFrom s t) : t.InBounds := by
  intro i left right hnode
  by_cases hi : i < t.size
  · have hread := h.children_eq i hi
    rw [hnode] at hread
    obtain ⟨⟨-, hleft, -⟩, -, hright, -⟩ := StoredTree.children_eq_ok hread
    exact ⟨hleft, hright⟩
  · rw [node_of_size_le (Nat.le_of_not_lt hi)] at hnode
    cases hnode

/-- A node has children if and only if both entries are others than that of a leaf. -/
theorem exists_children_iff (h : ReadFrom s t) {i : Nat} (hi : i < t.size) :
    (∃ children, (t.node i).children = some children) ↔
      ∀ side, s.entry i side ≠ StoredTree.noChild := by
  rcases StoredTree.children_eq_ok_iff.mp (h.children_eq i hi) with
    ⟨hleft, -, hnone⟩ | ⟨l, r, ⟨hleft, -⟩, ⟨hright, -⟩, hsome⟩
  · rw [hnone]
    exact iff_of_false (by simp) fun hall => hall .left hleft
  · refine iff_of_true ⟨(l, r), hsome⟩ fun side hentry => ?_
    have hminus : (s.entry i side).toInt = -1 := congrArg Int32.toInt hentry
    cases side <;> omega

/-- The tree is valid if and only if the lists are a rooted tree. -/
theorem validate_eq_ok_iff (h : ReadFrom s t) :
    t.validate features = .ok () ↔ s.RootedTree features t.size := by
  rw [Tree.validate_eq_ok_iff h.inBounds, h.child?_eq]
  constructor
  · rintro ⟨hpos, hpaths, hfeatures⟩
    have hlengths := h.lengths
    simp only [StoredTree.lengths, List.forall_mem_cons] at hlengths
    refine ⟨hpos, ?_, fun i hi => ?_, hpaths, fun hknown i hi hsplit => ?_⟩
    · have hleft : s.leftChildren.length = t.size := h.size_eq
      simpa [hleft] using hlengths
    · rcases StoredTree.children_eq_ok_iff.mp (h.children_eq i hi) with
        ⟨hleft, hright, -⟩ | ⟨l, r, ⟨hleft, hl⟩, ⟨hright, hr⟩, -⟩
      · exact .inl fun side => by cases side <;> assumption
      · refine .inr fun side => ?_
        cases side with
        | left => exact ⟨l, hl, hleft⟩
        | right => exact ⟨r, hr, hright⟩
    · obtain ⟨children, hnode⟩ := (h.exists_children_iff hi).mpr hsplit
      rw [← h.feature_eq i hi]
      exact hfeatures i children hnode hknown
  · intro hrooted
    refine ⟨hrooted.pos, hrooted.existsUnique_path, fun i children hnode hknown => ?_⟩
    have hi : i < t.size := by
      by_contra hout
      rw [node_of_size_le (Nat.le_of_not_lt hout)] at hnode
      cases hnode
    rw [h.feature_eq i hi]
    exact hrooted.feature_lt hknown i hi ((h.exists_children_iff hi).mp ⟨children, hnode⟩)

end ReadFrom

/-- What is read was read from the entries of the lists. -/
theorem readFrom_of_ofStored (h : ofStored s features = .ok t) : ReadFrom s t := by
  obtain ⟨hsize, hnodes⟩ := node_of_ofStored h
  obtain ⟨⟨⟩, hlengths, -⟩ := Except.bind_eq_ok h
  refine ⟨hsize ▸ StoredTree.length_eq_of_checkLengths hlengths, hsize.symm, ?_, ?_⟩
  · intro i hi
    obtain ⟨c, hc, hnode⟩ := hnodes i hi
    rw [hnode, hsize, ← StoredTree.entry_left, ← StoredTree.entry_right]
    exact hc
  · intro i hi
    obtain ⟨c, -, hnode⟩ := hnodes i hi
    rw [hnode, StoredTree.feature_nodeAt]

/-- Lists of one length whose entries are leaves or pairs of places are read as nodes. -/
theorem exists_readFrom (h : s.RootedTree features n) :
    ∃ t : Tree, t.size = n ∧ ReadFrom s t ∧ s.nodes = .ok t.nodes.toList := by
  have hlengths := h.lengths
  simp only [List.forall_mem_cons] at hlengths
  have hleft : s.nodeCount = n := hlengths.2.2.1
  -- The tree is made of the children that the entries of every node are read as.
  choose! c hc using fun i hi => StoredTree.children_of_leaf_or_split (h.leaf_or_split i hi)
  have hsize : ((List.range n).map fun i => s.nodeAt i (c i)).toArray.size = n := by simp
  have hnode : ∀ i < n, node ⟨((List.range n).map fun i => s.nodeAt i (c i)).toArray⟩ i =
      s.nodeAt i (c i) := by
    intro i hi
    simp [node, Array.getD_eq_getD_getElem?, hi]
  refine ⟨⟨((List.range n).map fun i => s.nodeAt i (c i)).toArray⟩, hsize, ⟨?_, ?_, ?_, ?_⟩, ?_⟩
  · rw [size, hsize]
    obtain ⟨hindices, hconditions, -, hrest⟩ := hlengths
    simp only [StoredTree.lengths, List.forall_mem_cons]
    exact ⟨hindices, hconditions, hrest.1, hrest.2.1, hrest.2.2.1, hrest.2.2.2.1, hrest.2.2.2.2.1,
      by simp⟩
  · rw [size, hsize, hleft]
  · rw [size, hsize]
    intro i hi
    rw [hnode i hi]
    exact hc i hi
  · rw [size, hsize]
    intro i hi
    rw [hnode i hi, StoredTree.feature_nodeAt]
  · rw [StoredTree.nodes, hleft]
    apply List.mapM_eq_pure
    intro i hi
    simp only [StoredTree.entry_left, StoredTree.entry_right, hc i (List.mem_range.mp hi)]
    rfl

/-- Reading a stored tree succeeds if and only if its lists are a rooted binary tree whose splits
use features of the model; and the search of the check ends on every array of nodes. -/
theorem exists_ofStored_iff (s : StoredTree) (features : UInt64) :
    ((∃ t, ofStored s features = .ok t) ↔ ∃ n, s.RootedTree features n) ∧
      ∀ t : Tree, t.SearchEnds features
        (t.visit features (t.size + 1) [0] (Array.replicate t.size false)) := by
  refine ⟨⟨?_, ?_⟩, fun t => searchEnds_visit t features⟩
  · rintro ⟨t, h⟩
    obtain ⟨-, -, -, hvalid⟩ := ofStored_eq_ok h
    exact ⟨t.size, (readFrom_of_ofStored h).validate_eq_ok_iff.mp hvalid⟩
  · rintro ⟨n, hrooted⟩
    obtain ⟨t, rfl, hread, hnodes⟩ := exists_readFrom hrooted
    have hlengths : s.checkLengths = .ok () :=
      StoredTree.checkLengths_eq_ok_iff.mpr (hread.size_eq ▸ hread.lengths)
    have hvalid : t.validate features = .ok () := hread.validate_eq_ok_iff.mpr hrooted
    refine ⟨t, ?_⟩
    simp only [ofStored, hlengths, hnodes, bind, Except.bind, Array.toArray_toList, hvalid]
    rfl

end Tree

end BoostedTrees
