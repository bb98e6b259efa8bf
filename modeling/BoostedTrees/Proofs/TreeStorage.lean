import BoostedTrees.Learner.Training
import BoostedTrees.Proofs.Loading
import BoostedTrees.Proofs.TreeSearch
import Mathlib.Algebra.Group.Nat.Defs

/-!
# Trees read back from what is stored of them

The children of every node of a tree are nodes of it, however the tree came about. A
stored tree is accepted only if every node is reached from the root, and places that do
not fit the fields for children are never reached. So a tree that is accepted when it is
read back has no node at such a place, and it is the tree that was stored.

## Main definitions

* `Tree.InBounds`: the children of all nodes are nodes of the tree

## Main results

* `Growth.inBounds_grow`, `Tree.inBounds_of_ofStored`: trees that are grown or read have
  children in bounds
* `Tree.eq_of_ofStored_toStored`: a tree that is accepted when read back is the same tree
-/

namespace BoostedTrees

namespace Tree

variable {t t' : Tree} {s : StoredTree} {features : UInt64}

/-- The children of all nodes are nodes of the tree. -/
def InBounds (t : Tree) : Prop :=
  ∀ i left right, (t.node i).children = some (left, right) → left < t.size ∧ right < t.size

/-! ## Growing -/

theorem inBounds_leaf (value cover : Single) : (leaf value cover).InBounds := by
  intro i left right h
  rcases i with _ | i
  · cases h
  · cases h

theorem children_node_setStatistics (i j : Nat) (value cover : Single) :
    ((t.setStatistics i value cover).node j).children = (t.node j).children := by
  simp only [node, setStatistics, Array.getD_eq_getD_getElem?, Array.getElem?_modify]
  split
  · cases t.nodes[j]? <;> rfl
  · rfl

theorem InBounds.setStatistics (h : t.InBounds) (i : Nat) (value cover : Single) :
    (t.setStatistics i value cover).InBounds := by
  intro j left right hj
  rw [children_node_setStatistics] at hj
  rw [size_setStatistics]
  exact h j left right hj

theorem children_node_split {i j : Nat} {feature : UInt32} {threshold : Single}
    {defaultLeft : Bool} {gain : Single} {c : Nat × Nat}
    (h : ((t.split i feature threshold defaultLeft gain).node j).children = some c) :
    (t.node j).children = some c ∨ c = (t.size, t.size + 1) := by
  simp only [node, split, Array.getD_eq_getD_getElem?, Array.getElem?_push,
    Array.getElem?_modify] at h ⊢
  -- The two nodes that are new are leaves.
  split at h
  · cases h
  split at h
  · cases h
  split at h
  · cases hj : t.nodes[j]? with
    | none => rw [hj] at h; cases h
    | some n =>
      rw [hj] at h
      cases h
      exact .inr rfl
  · exact .inl h

theorem InBounds.split (h : t.InBounds) (i : Nat) (feature : UInt32) (threshold : Single)
    (defaultLeft : Bool) (gain : Single) :
    (t.split i feature threshold defaultLeft gain).InBounds := by
  intro j left right hj
  rw [size_split]
  rcases children_node_split hj with hj | hj
  · obtain ⟨hleft, hright⟩ := h j left right hj
    omega
  · cases hj
    omega

end Tree

/-- Grown trees have children in bounds. -/
theorem Growth.inBounds_growAt (rules : GrowthRules) (m : Matrix) (g : Gradient) (levels : Nat)
    (t : Tree) (i : Nat) (rows : List Nat) (h : t.InBounds) :
    (growAt rules m g levels t i rows).InBounds := by
  induction levels generalizing t i rows with
  | zero => exact h.setStatistics i _ _
  | succ levels ih =>
    rw [growAt]
    dsimp only
    split
    · exact h.setStatistics i _ _
    · -- The right subtree is grown in the tree that the left one left.
      exact ih _ _ _ (ih _ _ _ ((h.setStatistics i _ _).split i _ _ _ _))

theorem Growth.inBounds_grow (rules : GrowthRules) (m : Matrix) (g : Gradient) (rows : List Nat) :
    (grow rules m g rows).InBounds :=
  inBounds_growAt rules m g _ _ _ _ (Tree.inBounds_leaf 0 0)

namespace StoredTree

variable {nodes i : Nat} {left right : Int32} {l r : Nat}

theorem place_eq_ok {side : Side} {child : Int32} {c : Nat} (h : place nodes i side child = .ok c) :
    c = child.toInt.toNat ∧ c < nodes ∧ c < 2 ^ 31 := by
  unfold place at h
  split at h
  · cases h
  · next hin =>
    cases h
    have hlt : child.toInt < 2 ^ 31 := Int32.toInt_lt child
    exact ⟨rfl, by omega, by omega⟩

/-- Children are read as places of the array that fit their fields. -/
theorem children_eq_ok (h : children nodes i left right = .ok (some (l, r))) :
    (l = left.toInt.toNat ∧ l < nodes ∧ l < 2 ^ 31) ∧
      r = right.toInt.toNat ∧ r < nodes ∧ r < 2 ^ 31 := by
  unfold children at h
  split at h
  · cases h
  split at h
  · cases h
  · obtain ⟨l', hl, h⟩ := Except.bind_eq_ok h
    obtain ⟨r', hr, h⟩ := Except.bind_eq_ok h
    cases h
    exact ⟨place_eq_ok hl, place_eq_ok hr⟩

end StoredTree

/-! ## Reading -/

theorem List.mapM_eq_ok {α β ε : Type} {f : α → Except ε β} {l : List α} {bs : List β}
    (h : l.mapM f = .ok bs) :
    bs.length = l.length ∧
      ∀ (i : Nat) (a : α), l[i]? = some a → ∃ b, bs[i]? = some b ∧ f a = .ok b := by
  induction l generalizing bs with
  | nil =>
    cases h
    exact ⟨rfl, fun i a ha => by cases ha⟩
  | cons a l ih =>
    rw [List.mapM_cons] at h
    obtain ⟨b, ha, h⟩ := Except.bind_eq_ok h
    obtain ⟨rest, hl, h⟩ := Except.bind_eq_ok h
    cases h
    obtain ⟨hlength, hrest⟩ := ih hl
    refine ⟨congrArg (· + 1) hlength, ?_⟩
    intro i c hc
    rcases i with _ | i
    · cases hc
      exact ⟨b, rfl, ha⟩
    · exact hrest i c hc

namespace StoredTree

variable {s : StoredTree} {ns : List Node}

/-- The node that is read at a place, with the given children. -/
def nodeAt (s : StoredTree) (i : Nat) (children : Option (Nat × Nat)) : Node where
  feature := s.splitIndices.toArray.getD i 0
  threshold := s.splitConditions.toArray.getD i 0
  children
  defaultLeft := s.defaultLeft.toArray.getD i false
  value := s.baseWeights.toArray.getD i 0
  gain := s.lossChanges.toArray.getD i 0
  cover := s.sumHessian.toArray.getD i 0

theorem nodes_eq_ok (h : s.nodes = .ok ns) :
    ns.length = s.nodeCount ∧ ∀ i < s.nodeCount, ∃ c,
      children s.nodeCount i (s.leftChildren.toArray.getD i noChild)
        (s.rightChildren.toArray.getD i noChild) = .ok c ∧ ns[i]? = some (s.nodeAt i c) := by
  obtain ⟨hlength, hnodes⟩ := List.mapM_eq_ok h
  rw [List.length_range] at hlength
  refine ⟨hlength, ?_⟩
  intro i hi
  obtain ⟨n, hn, hread⟩ := hnodes i i (by rw [List.getElem?_range hi])
  obtain ⟨c, hc, hread⟩ := Except.bind_eq_ok hread
  cases hread
  exact ⟨c, hc, hn⟩

end StoredTree

namespace Tree

variable {t t' : Tree} {s : StoredTree} {features : UInt64}

theorem ofStored_eq_ok (h : ofStored s features = .ok t) :
    ∃ ns, s.nodes = .ok ns ∧ t = ⟨ns.toArray⟩ ∧ t.validate features = .ok () := by
  unfold ofStored at h
  obtain ⟨⟨⟩, -, h⟩ := Except.bind_eq_ok h
  obtain ⟨ns, hns, h⟩ := Except.bind_eq_ok h
  obtain ⟨⟨⟩, hvalid, h⟩ := Except.bind_eq_ok h
  cases h
  exact ⟨ns, hns, rfl, hvalid⟩

/-- A tree that is read has as many nodes as were stored, each read from its entries. -/
theorem node_of_ofStored (h : ofStored s features = .ok t) :
    t.size = s.nodeCount ∧ ∀ i < t.size, ∃ c,
      StoredTree.children s.nodeCount i (s.leftChildren.toArray.getD i StoredTree.noChild)
        (s.rightChildren.toArray.getD i StoredTree.noChild) = .ok c ∧
        t.node i = s.nodeAt i c := by
  obtain ⟨ns, hns, rfl, -⟩ := ofStored_eq_ok h
  obtain ⟨hlength, hnodes⟩ := StoredTree.nodes_eq_ok hns
  refine ⟨hlength, ?_⟩
  intro i hi
  obtain ⟨c, hc, hn⟩ := hnodes i (hlength ▸ hi)
  refine ⟨c, hc, ?_⟩
  rw [node, Array.getD_eq_getD_getElem?, List.getElem?_toArray, hn, Option.getD_some]

/-- The children in a tree that is read are nodes of it, at places that fit their fields. -/
theorem children_of_ofStored (h : ofStored s features = .ok t) :
    ∀ i left right, (t.node i).children = some (left, right) →
      (left < t.size ∧ left < 2 ^ 31) ∧ right < t.size ∧ right < 2 ^ 31 := by
  obtain ⟨hsize, hnodes⟩ := node_of_ofStored h
  intro i left right hchildren
  by_cases hi : i < t.size
  · obtain ⟨c, hc, hn⟩ := hnodes i hi
    rw [hn] at hchildren
    cases hchildren
    obtain ⟨⟨-, hleft, hleft'⟩, -, hright, hright'⟩ := StoredTree.children_eq_ok hc
    rw [hsize]
    exact ⟨⟨hleft, hleft'⟩, hright, hright'⟩
  · rw [node, Array.getD_eq_getD_getElem?,
      Array.getElem?_eq_none (Nat.le_of_not_lt hi)] at hchildren
    cases hchildren

/-- Trees that are read have children in bounds. -/
theorem inBounds_of_ofStored (h : ofStored s features = .ok t) : t.InBounds := by
  intro i left right hchildren
  obtain ⟨⟨hleft, -⟩, hright, -⟩ := children_of_ofStored h i left right hchildren
  exact ⟨hleft, hright⟩

/-- All nodes of a tree that is read are at places that fit the fields for children. -/
theorem lt_of_ofStored (h : ofStored s features = .ok t) : ∀ i < t.size, i < 2 ^ 31 := by
  obtain ⟨ns, -, -, hvalid⟩ := ofStored_eq_ok h
  refine forall_of_validate hvalid (by omega) fun i left right hchildren => ?_
  obtain ⟨⟨-, hleft⟩, -, hright⟩ := children_of_ofStored h i left right hchildren
  exact ⟨hleft, hright⟩

theorem toInt_storedChild {c : Nat} (h : c < 2 ^ 31) : (storedChild (some c)).toInt = c :=
  Int32.toInt_ofNat_of_lt h

/-- The children of a node are read back from their entries. -/
theorem children_storedChild {nodes i : Nat} {children c : Option (Nat × Nat)}
    (hbounds : ∀ left right, children = some (left, right) → left < 2 ^ 31 ∧ right < 2 ^ 31)
    (h : StoredTree.children nodes i (storedChild (children.map (·.1)))
      (storedChild (children.map (·.2))) = .ok c) : c = children := by
  cases children with
  | none =>
    cases h
    rfl
  | some pair =>
    obtain ⟨left, right⟩ := pair
    obtain ⟨hleft, hright⟩ := hbounds left right rfl
    have hleft := toInt_storedChild hleft
    have hright := toInt_storedChild hright
    cases c with
    | none =>
      -- Only leaves are read as nodes without children.
      unfold StoredTree.children at h
      split at h
      · next hleaf =>
        have : (storedChild (some left)).toInt = -1 := congrArg Int32.toInt hleaf.1
        omega
      split at h
      · cases h
      · obtain ⟨l, -, h⟩ := Except.bind_eq_ok h
        obtain ⟨r, -, h⟩ := Except.bind_eq_ok h
        cases h
    | some pair' =>
      obtain ⟨left', right'⟩ := pair'
      obtain ⟨⟨hl, -⟩, hr, -⟩ := StoredTree.children_eq_ok h
      rw [Option.map_some, hleft, Int.toNat_natCast] at hl
      rw [Option.map_some, hright, Int.toNat_natCast] at hr
      rw [hl, hr]

theorem getD_map_toArray {α : Type} (t : Tree) (f : Node → α) (a : α) {i : Nat} (h : i < t.size) :
    (t.nodes.toList.map f).toArray.getD i a = f (t.node i) := by
  have h : i < t.nodes.size := h
  simp [node, Array.getD_eq_getD_getElem?, h]

/-- A tree that is accepted when it is read back is the tree that was stored. -/
theorem eq_of_ofStored_toStored (hbounds : t.InBounds)
    (h : ofStored t.toStored features = .ok t') : t' = t := by
  obtain ⟨hsize, hnodes⟩ := node_of_ofStored h
  have hsize : t'.size = t.size := hsize.trans (by
    simp [StoredTree.nodeCount, toStored, size])
  have hnode : ∀ i < t.size, t'.node i = t.node i := by
    intro i hi
    obtain ⟨c, hc, hn⟩ := hnodes i (by omega)
    have hleft : t.toStored.leftChildren.toArray.getD i StoredTree.noChild =
        storedChild ((t.node i).children.map (·.1)) :=
      getD_map_toArray t (fun n => storedChild (n.children.map Prod.fst)) _ hi
    have hright : t.toStored.rightChildren.toArray.getD i StoredTree.noChild =
        storedChild ((t.node i).children.map (·.2)) :=
      getD_map_toArray t (fun n => storedChild (n.children.map Prod.snd)) _ hi
    rw [hleft, hright] at hc
    -- All nodes are reached, so every child is at a place that its field can hold.
    have hchildren : c = (t.node i).children := by
      refine children_storedChild (fun left right hlr => ?_) hc
      obtain ⟨hl, hr⟩ := hbounds i left right hlr
      exact ⟨lt_of_ofStored h left (by omega), lt_of_ofStored h right (by omega)⟩
    rw [hn, hchildren]
    simp only [StoredTree.nodeAt, toStored, getD_map_toArray t _ _ hi]
  -- Trees of one size with the same nodes are one tree.
  obtain ⟨nodes⟩ := t
  obtain ⟨nodes'⟩ := t'
  refine congrArg Tree.mk (Array.ext hsize fun i hi hi' => ?_)
  have heq := hnode i hi'
  simpa [node, Array.getD_eq_getD_getElem?, hi, hi'] using heq

end Tree

/-! ## Forests -/

namespace Forest

/-- The trees of a forest have children in bounds. -/
def InBounds (f : Forest) : Prop := ∀ t ∈ f.trees, t.tree.InBounds

theorem inBounds_empty : empty.InBounds := fun _ h => absurd h List.not_mem_nil

theorem InBounds.addRound {f : Forest} (h : f.InBounds) {round : List Tree}
    (hround : ∀ t ∈ round, t.InBounds) : (f.addRound round).InBounds := by
  intro t ht
  rcases List.mem_append.mp ht with ht | ht
  · exact h t ht
  · obtain ⟨⟨tree, k⟩, hmem, rfl⟩ := List.mem_map.mp ht
    exact hround tree (List.fst_mem_of_mem_zipIdx hmem)

end Forest

namespace Learner

variable {features : UInt64} {m : StoredModel} {outputs : Nat} {f : Forest}

/-- What holds of every tree that is grown on a matrix holds of the trees of a round. -/
theorem forall_growOutputs {P : Tree → Prop} {s : Settings} {m : Matrix}
    (hP : ∀ g rows, P (Growth.grow s.growthRules m g rows)) (g : Gradient) (outputs : List Nat)
    (source : Random.Xoshiro) : ∀ t ∈ growOutputs s m g outputs source, P t := by
  induction outputs generalizing source with
  | nil => exact fun _ ht => absurd ht List.not_mem_nil
  | cons k outputs ih => exact List.forall_mem_cons.mpr ⟨hP _ _, ih _⟩

/-- All trees of a round have children in bounds. -/
theorem inBounds_growOutputs (s : Settings) (m : Matrix) (g : Gradient) (outputs : List Nat)
    (source : Random.Xoshiro) : ∀ t ∈ growOutputs s m g outputs source, t.InBounds :=
  forall_growOutputs (Growth.inBounds_grow _ m) g outputs source

/-- Trees that are accepted when they are read back are the trees that were stored. -/
theorem eq_of_storedTrees {i : Nat} {trees ts : List Tree} (hbounds : ∀ t ∈ trees, t.InBounds)
    (h : storedTrees features i (trees.map Tree.toStored) = .ok ts) : ts = trees := by
  induction trees generalizing i ts with
  | nil =>
    cases h
    rfl
  | cons t trees ih =>
    obtain ⟨t', rest, ht', hrest, rfl⟩ := storedTrees_cons h
    rw [Tree.eq_of_ofStored_toStored (hbounds t List.mem_cons_self) ht',
      ih (fun t ht => hbounds t (List.mem_cons_of_mem _ ht)) hrest]

/-- Forests that are read have children in bounds. -/
theorem inBounds_storedForest (h : storedForest m outputs = .ok f) : f.InBounds :=
  forall_of_storedForest h fun _ _ => Tree.inBounds_of_ofStored

/-- A forest that is accepted when it is read back is the forest that was stored. -/
theorem eq_of_storedForest_toStored {l : Learner} (hbounds : l.forest.InBounds)
    (h : storedForest l.toStored outputs = .ok f) : f = l.forest := by
  obtain ⟨-, -, -, ts, hts, rfl⟩ := storedForest_eq_ok h
  have htrees : l.toStored.forest.trees = (l.forest.trees.map (·.tree)).map Tree.toStored := by
    simp [toStored]
  rw [htrees] at hts
  have hts := eq_of_storedTrees (fun t ht => by
    obtain ⟨o, ho, rfl⟩ := List.mem_map.mp ht
    exact hbounds o ho) hts
  subst hts
  have hzip : List.zipWith OutputTree.mk (l.forest.trees.map (·.tree))
      (l.forest.trees.map (·.output)) = l.forest.trees := by
    rw [List.zipWith_map, List.zipWith_self]
    exact List.map_id _
  exact congrArg Forest.mk hzip

end Learner

end BoostedTrees
