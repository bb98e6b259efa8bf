import BoostedTrees.Proofs.StoredRoundTrip
import BoostedTrees.Proofs.TreePaths

/-!
# The walks of a tree

The nodes of a tree that is read stand in the array in any order: a child may stand before its
parent. Preorder, depths and means do not depend on that. They are compared here with the paths
from the root, and with the passes that compute them in place: a loop over a stack for the
preorder, a pass over the preorder for the depths, and a pass backwards over it for the means.

The passes are right because a parent stands before everything below it in preorder, whatever its
place in the array. That is never said in so many words: what is below a node has a shape, a pass
over the places of the shape changes these entries and no others, and the induction is on the
shape.

## Main definitions

* `Tree.walkStep`, `Tree.passDepth`, `Tree.passMean`: the steps of the three passes
* `Tree.Preordered`, `Tree.RootDistances`, `Tree.CoverMeans`: what the passes should give

## Main results

* `Tree.Unfolds.iterate_walkStep`: a loop over a stack passes the places of a shape
* `Tree.Unfolds.foldl_passDepth`, `Tree.Unfolds.foldl_passMean`: what the passes leave behind
* `Tree.walks_of_ofStored`: the walks of a tree that is read are right
-/

namespace BoostedTrees

/-! ## Overwritten entries -/

/-- An array that has new values at some places and is the old one everywhere else. -/
structure Overwritten {β : Type} (old new : Array β) (entries : List (Nat × β)) : Prop where
  size_eq : new.size = old.size
  getElem?_of_mem : ∀ p ∈ entries, new[p.1]? = some p.2
  getElem?_of_notMem : ∀ j, j ∉ entries.map (·.1) → new[j]? = old[j]?

namespace Overwritten

variable {β : Type} {old mid new new' : Array β} {entries entries' : List (Nat × β)} {i : Nat} {b : β}

theorem refl (old : Array β) : Overwritten old old [] := ⟨rfl, nofun, fun _ _ => rfl⟩

/-- The old array matters only where nothing new is written. -/
theorem of_old (h : Overwritten mid new entries) (hsize : mid.size = old.size)
    (hold : ∀ j, j ∉ entries.map (·.1) → mid[j]? = old[j]?) : Overwritten old new entries where
  size_eq := h.size_eq.trans hsize
  getElem?_of_mem := h.getElem?_of_mem
  getElem?_of_notMem j hj := (h.getElem?_of_notMem j hj).trans (hold j hj)

/-- A value that stays may as well be written. -/
theorem cons (h : Overwritten old new entries) (hb : old[i]? = some b)
    (hi : i ∉ entries.map (·.1)) : Overwritten old new ((i, b) :: entries) where
  size_eq := h.size_eq
  getElem?_of_mem := List.forall_mem_cons.mpr
    ⟨(h.getElem?_of_notMem i hi).trans hb, h.getElem?_of_mem⟩
  getElem?_of_notMem j hj := h.getElem?_of_notMem j (List.not_mem_of_not_mem_cons hj)

theorem perm (h : Overwritten old new entries) (hperm : entries.Perm entries') :
    Overwritten old new entries' where
  size_eq := h.size_eq
  getElem?_of_mem p hp := h.getElem?_of_mem p (hperm.mem_iff.mpr hp)
  getElem?_of_notMem j hj := h.getElem?_of_notMem j ((hperm.map _).mem_iff.not.mpr hj)

theorem append (h : Overwritten old mid entries) (h' : Overwritten mid new entries')
    (hdisjoint : (entries.map (·.1)).Disjoint (entries'.map (·.1))) :
    Overwritten old new (entries ++ entries') where
  size_eq := h'.size_eq.trans h.size_eq
  getElem?_of_mem := by
    -- What was written first is still there, because it stands at other places.
    apply List.forall_mem_append.mpr ⟨fun p hp => ?_, h'.getElem?_of_mem⟩
    rw [h'.getElem?_of_notMem p.1 (hdisjoint (List.mem_map_of_mem hp))]
    exact h.getElem?_of_mem p hp
  getElem?_of_notMem j hj := by
    rw [List.map_append, List.mem_append, not_or] at hj
    rw [h'.getElem?_of_notMem j hj.2, h.getElem?_of_notMem j hj.1]

theorem setIfInBounds (old : Array β) (hi : i < old.size) (b : β) :
    Overwritten old (old.setIfInBounds i b) [(i, b)] where
  size_eq := Array.size_setIfInBounds
  getElem?_of_mem := by simp [hi]
  getElem?_of_notMem j hj := by
    rw [List.map_singleton, List.mem_singleton] at hj
    exact Array.getElem?_setIfInBounds_ne (Ne.symm hj)

/-- Entries at different places are written one after another. -/
theorem foldl_setIfInBounds (hnodup : (entries.map (·.1)).Nodup)
    (hlt : ∀ p ∈ entries, p.1 < old.size) :
    Overwritten old (entries.foldl (fun a p => a.setIfInBounds p.1 p.2) old) entries := by
  induction entries generalizing old with
  | nil => exact refl old
  | cons p entries ih =>
    obtain ⟨hp, hrest⟩ := List.forall_mem_cons.mp hlt
    rw [List.map_cons, List.nodup_cons] at hnodup
    apply append (setIfInBounds old hp p.2) (ih hnodup.2 ?_)
    · simpa using hnodup.1
    · simpa using hrest

/-- Where every place is overwritten, the new values decide the array. -/
theorem unique (h : Overwritten old new entries) (h' : Overwritten old new' entries) :
    new = new' := by
  apply Array.ext_getElem?
  intro j
  by_cases hj : j ∈ entries.map (·.1)
  · obtain ⟨p, hp, rfl⟩ := List.mem_map.mp hj
    rw [h.getElem?_of_mem p hp, h'.getElem?_of_mem p hp]
  · rw [h.getElem?_of_notMem j hj, h'.getElem?_of_notMem j hj]

end Overwritten

namespace Tree

open Side (follow)

/-! ## The passes -/

section Passes

variable (t : Tree)

/-- One round of the loop over a stack, from the places that wait and those that are passed: the
next place is passed, and its children wait before all others. -/
def walkStep : (state : List Nat × List Nat) → List Nat × List Nat
  | ([], order) => ([], order)
  | (i :: waiting, order) =>
    match (t.node i).children with
    | none => (waiting, order ++ [i])
    | some (left, right) => (left :: right :: waiting, order ++ [i])

/-- A split makes its children deeper than itself. -/
def passDepth (ds : Array Nat) (i : Nat) : Array Nat :=
  match (t.node i).children with
  | none => ds
  | some (left, right) =>
    let depth := ds.getD i 0 + 1
    (ds.setIfInBounds left depth).setIfInBounds right depth

section Means

variable {α : Type} [OfNat α 0] [Add α] [Mul α] [Div α] [LT α] [DecidableLT α] (read : Single → α)

/-- The mean of a split from those of its children, weighted by their covers; the own value of the
split where the covers do not sum to a positive number. -/
def mixedMean (i left right : Nat) (leftMean rightMean : α) : α :=
  let leftCover := read (t.node left).cover
  let rightCover := read (t.node right).cover
  if 0 < leftCover + rightCover then
    (leftCover * leftMean + rightCover * rightMean) / (leftCover + rightCover)
  else read (t.node i).value

/-- The mean of a node is written down, taken from the means that its children have by then. -/
def passMean (ms : Array α) (i : Nat) : Array α :=
  ms.setIfInBounds i
    (match (t.node i).children with
    | none => read (t.node i).value
    | some (left, right) => t.mixedMean read i left right (ms.getD left 0) (ms.getD right 0))

end Means

end Passes

/-! ## What the passes should give -/

/-- All nodes once, the root first, and every split before the nodes that paths from its left
child lead to, which stand before those that paths from its right child lead to. -/
structure Preordered (t : Tree) (order : List Nat) : Prop where
  perm : order.Perm (List.range t.size)
  head?_eq : order.head? = some 0
  subtrees : ∀ i < t.size, ∀ left right, (t.node i).children = some (left, right) →
    ∃ leftTree rightTree, i :: (leftTree ++ rightTree) <:+: order ∧
      (∀ j, j ∈ leftTree ↔ ∃ turns, follow t.child? left turns = some j) ∧
      ∀ j, j ∈ rightTree ↔ ∃ turns, follow t.child? right turns = some j

/-- Every node has one path from the root, and its depth is the number of turns of this path. -/
structure RootDistances (t : Tree) (ds : Array Nat) : Prop where
  size_eq : ds.size = t.size
  existsUnique_path : ∀ i < t.size, ∃! turns, follow t.child? 0 turns = some i
  getElem?_eq : ∀ turns i, follow t.child? 0 turns = some i → ds[i]? = some turns.length

/-- The mean of a leaf is its value; that of a split is mixed from the means of its children. -/
structure CoverMeans {α : Type} [OfNat α 0] [Add α] [Mul α] [Div α] [LT α] [DecidableLT α]
    (t : Tree) (read : Single → α) (ms : Array α) : Prop where
  size_eq : ms.size = t.size
  leaf : ∀ i < t.size, (t.node i).children = none → ms[i]? = some (read (t.node i).value)
  split : ∀ i < t.size, ∀ left right, (t.node i).children = some (left, right) →
    ∃ leftMean rightMean, ms[left]? = some leftMean ∧ ms[right]? = some rightMean ∧
      ms[i]? = some (t.mixedMean read i left right leftMean rightMean)

variable {t : Tree} {i j : Nat} {s : Shape} {features : UInt64}

namespace Unfolds

/-- What is below a place of a shape stands in a row in the shape. -/
theorem exists_below (h : t.Unfolds i s) (hj : j ∈ s.places) :
    ∃ below, t.Unfolds j below ∧ below.places <:+: s.places := by
  induction h with
  | leaf hnode =>
    obtain rfl := List.mem_singleton.mp hj
    exact ⟨_, .leaf hnode, List.infix_rfl⟩
  | @split i l r left right hnode hl hr hleft hright =>
    rcases List.mem_cons.mp hj with rfl | hj
    · exact ⟨_, .split hnode hl hr, List.infix_rfl⟩
    rcases List.mem_append.mp hj with hj | hj
    · obtain ⟨below, hbelow, hrow⟩ := hleft hj
      exact ⟨below, hbelow, hrow.trans ⟨[i], right.places, by simp [Shape.places]⟩⟩
    · obtain ⟨below, hbelow, hrow⟩ := hright hj
      exact ⟨below, hbelow, hrow.trans ⟨i :: left.places, [], by simp [Shape.places]⟩⟩

/-! ## Preorder -/

/-- As many rounds of the loop as a shape has places pass these places in preorder. -/
theorem iterate_walkStep (h : t.Unfolds i s) (waiting order : List Nat) :
    t.walkStep^[s.places.length] (i :: waiting, order) = (waiting, order ++ s.places) := by
  induction h generalizing waiting order with
  | leaf hnode => simp [Shape.places, walkStep, hnode]
  | @split i l r left right hnode _ _ hleft hright =>
    have hstep : t.walkStep (i :: waiting, order) = (l :: r :: waiting, order ++ [i]) := by
      simp [walkStep, hnode]
    -- The right subtree waits while the left one is passed.
    rw [Shape.places, List.length_cons, Function.iterate_succ_apply, hstep, List.length_append,
      Nat.add_comm, Function.iterate_add_apply, hleft, hright]
    simp

theorem preordered (h : t.Unfolds 0 s) (hplaces : s.places.Perm (List.range t.size)) :
    t.Preordered s.places where
  perm := hplaces
  head?_eq := by cases h <;> rfl
  subtrees i hi left right hnode := by
    obtain ⟨below, hbelow, hrow⟩ := h.exists_below ((mem_places_iff_lt hplaces i).mpr hi)
    cases hbelow with
    | leaf hleaf =>
      rw [hnode] at hleaf
      cases hleaf
    | split hsplit hleft hright =>
      rw [hnode] at hsplit
      cases hsplit
      exact ⟨_, _, hrow, fun _ => hleft.mem_places_iff, fun _ => hright.mem_places_iff⟩

/-! ## Depths -/

/-- A place is as deep in the outline of a shape as its path has turns. -/
theorem mem_outline (h : t.Unfolds i s) {turns : List Side}
    (hturns : follow t.child? i turns = some j) (depth : Nat) :
    (j, depth + turns.length) ∈ s.outline depth := by
  induction h generalizing turns depth with
  | leaf hnode =>
    cases turns with
    | nil =>
      cases hturns
      exact List.mem_singleton_self _
    | cons side turns =>
      rw [follow_cons_of_leaf hnode] at hturns
      cases hturns
  | split hnode _ _ hleft hright =>
    cases turns with
    | nil =>
      cases hturns
      exact List.mem_cons_self
    | cons side turns =>
      rw [follow_cons_of_split hnode] at hturns
      rw [List.length_cons, Nat.add_comm turns.length, ← Nat.add_assoc]
      apply List.mem_cons_of_mem
      cases side with
      | left => exact List.mem_append_left _ (hleft hturns (depth + 1))
      | right => exact List.mem_append_right _ (hright hturns (depth + 1))

/-- A split writes the depths of its children and nothing else. -/
theorem overwritten_passDepth {l r depth : Nat} {ds : Array Nat}
    (hnode : (t.node i).children = some (l, r)) (hdepth : ds[i]? = some depth) (hne : l ≠ r)
    (hl : l < ds.size) (hr : r < ds.size) :
    Overwritten ds (t.passDepth ds i) [(l, depth + 1), (r, depth + 1)] := by
  have hstep : t.passDepth ds i =
      (ds.setIfInBounds l (depth + 1)).setIfInBounds r (depth + 1) := by
    simp [passDepth, hnode, Array.getD_eq_getD_getElem?, hdepth]
  rw [hstep]
  apply Overwritten.append (.setIfInBounds ds hl _) (.setIfInBounds _ ?_ _)
  · simpa using hne.symm
  · rwa [Array.size_setIfInBounds]

/-- A pass over the places of a shape, from an array in which its top has a depth, writes the
depths of the outline. -/
theorem foldl_passDepth (h : t.Unfolds i s) (hnodup : s.places.Nodup) {ds : Array Nat} {depth : Nat}
    (hlt : ∀ j ∈ s.places, j < ds.size) (hdepth : ds[i]? = some depth) :
    Overwritten ds (s.places.foldl t.passDepth ds) (s.outline depth) := by
  induction h generalizing ds depth with
  | leaf hnode =>
    simp only [Shape.places, Shape.outline, List.foldl_cons, List.foldl_nil, passDepth, hnode]
    exact (Overwritten.refl ds).cons hdepth List.not_mem_nil
  | @split i l r left right hnode hl hr hleft hright =>
    rw [Shape.places, List.nodup_cons, List.nodup_append'] at hnodup
    obtain ⟨hi, hnodupLeft, hnodupRight, hdisjoint⟩ := hnodup
    rw [Shape.places, List.forall_mem_cons, List.forall_mem_append] at hlt
    obtain ⟨-, hltLeft, hltRight⟩ := hlt
    have hl := hl.mem_places
    have hr := hr.mem_places
    have hfst : (left.outline (depth + 1) ++ right.outline (depth + 1)).map (·.1) =
        left.places ++ right.places := by
      rw [List.map_append, Shape.map_fst_outline, Shape.map_fst_outline]
    -- The children have their depths before their subtrees are passed.
    have hstep := overwritten_passDepth hnode hdepth (fun heq => hdisjoint hl (heq ▸ hr))
      (hltLeft l hl) (hltRight r hr)
    have hdepthLeft : (t.passDepth ds i)[l]? = some (depth + 1) :=
      hstep.getElem?_of_mem (l, depth + 1) (by simp)
    have hdepthRight : (t.passDepth ds i)[r]? = some (depth + 1) :=
      hstep.getElem?_of_mem (r, depth + 1) (by simp)
    have hpassLeft := hleft hnodupLeft (by rwa [hstep.size_eq]) hdepthLeft
    -- The pass on the left does not touch the top of the right subtree.
    have hr' : r ∉ (left.outline (depth + 1)).map (·.1) := by
      rw [Shape.map_fst_outline]
      exact fun hr' => hdisjoint hr' hr
    have hpassRight := hright hnodupRight (by rwa [hpassLeft.size_eq, hstep.size_eq])
      ((hpassLeft.getElem?_of_notMem r hr').trans hdepthRight)
    have hpass := hpassLeft.append hpassRight (by rwa [Shape.map_fst_outline, Shape.map_fst_outline])
    rw [← List.foldl_append] at hpass
    refine (hpass.of_old hstep.size_eq ?_).cons hdepth (by rwa [hfst])
    rintro j hj
    rw [hfst] at hj
    apply hstep.getElem?_of_notMem
    rintro hchild
    -- Both children are places of their subtrees, and so they are written by these passes.
    rcases List.mem_pair.mp hchild with rfl | rfl
    · exact hj (List.mem_append_left _ hl)
    · exact hj (List.mem_append_right _ hr)

/-- The entries of the depths are those of the outline. -/
theorem overwritten_depths (h : t.Unfolds 0 s) (hplaces : s.places.Perm (List.range t.size)) :
    Overwritten (Array.replicate t.size 0) t.depths (s.outline 0) := by
  have hfst := s.map_fst_outline 0
  rw [depths, h.outline_eq hplaces]
  apply Overwritten.foldl_setIfInBounds
  · rw [hfst]
    exact nodup_places hplaces
  · rintro p hp
    have hmem : p.1 ∈ s.places := hfst ▸ List.mem_map_of_mem hp
    rw [Array.size_replicate]
    exact (mem_places_iff_lt hplaces p.1).mp hmem

theorem rootDistances (h : t.Unfolds 0 s) (hplaces : s.places.Perm (List.range t.size)) :
    t.RootDistances t.depths where
  size_eq := (h.overwritten_depths hplaces).size_eq.trans Array.size_replicate
  existsUnique_path i hi :=
    h.existsUnique_path (nodup_places hplaces) ((mem_places_iff_lt hplaces i).mpr hi)
  getElem?_eq turns i hturns := by
    have hmem := h.mem_outline hturns 0
    rw [Nat.zero_add] at hmem
    exact (h.overwritten_depths hplaces).getElem?_of_mem _ hmem

/-- The pass over the preorder computes the depths. -/
theorem foldl_passDepth_eq (h : t.Unfolds 0 s) (hplaces : s.places.Perm (List.range t.size)) :
    s.places.foldl t.passDepth (Array.replicate t.size 0) = t.depths := by
  have hmem := mem_places_iff_lt hplaces
  apply Overwritten.unique (h.foldl_passDepth (nodup_places hplaces) ?_ ?_)
    (h.overwritten_depths hplaces)
  · intro i hi
    rw [Array.size_replicate]
    exact (hmem i).mp hi
  · simp [(hmem 0).mp h.mem_places]

end Unfolds

/-! ## Means -/

section Means

variable {α : Type} [OfNat α 0] [Add α] [Mul α] [Div α] [LT α] [DecidableLT α] {read : Single → α}

theorem meanFrom_succ_of_split {l r : Nat} (hnode : (t.node i).children = some (l, r))
    (fuel : Nat) : t.meanFrom read (fuel + 1) i =
      t.mixedMean read i l r (t.meanFrom read fuel l) (t.meanFrom read fuel r) := by
  rw [meanFrom, hnode]
  rfl

theorem meanFrom_of_leaf (hnode : (t.node i).children = none) (fuel : Nat) :
    t.meanFrom read fuel i = read (t.node i).value := by
  cases fuel with
  | zero => rfl
  | succ fuel => rw [meanFrom, hnode]

theorem getElem?_means (hi : i < t.size) :
    (t.means read)[i]? = some (t.meanFrom read t.size i) := by
  simp [means, hi]

/-- Where the children have their means by then, a node is given its own. -/
theorem CoverMeans.passMean_eq {target ms : Array α} (htarget : t.CoverMeans read target)
    (hi : i < t.size) (hchildren : ∀ l r, (t.node i).children = some (l, r) →
      ms.getD l 0 = target.getD l 0 ∧ ms.getD r 0 = target.getD r 0) :
    t.passMean read ms i = ms.setIfInBounds i (target.getD i 0) := by
  rw [passMean]
  congr 1
  cases hnode : (t.node i).children with
  | none =>
    have hmean := htarget.leaf i hi hnode
    simp only [Array.getD_eq_getD_getElem?, hmean, Option.getD_some]
  | some children =>
    obtain ⟨l, r⟩ := children
    obtain ⟨hl, hr⟩ := hchildren l r hnode
    obtain ⟨leftMean, rightMean, hleft, hright, hmean⟩ := htarget.split i hi l r hnode
    dsimp only
    rw [hl, hr]
    simp only [Array.getD_eq_getD_getElem?, hleft, hright, hmean, Option.getD_some]

namespace Unfolds

/-- With enough fuel a mean does not depend on the fuel. -/
theorem meanFrom_eq (h : t.Unfolds i s) (fuel fuel' : Nat) (hfuel : s.height ≤ fuel)
    (hfuel' : s.height ≤ fuel') : t.meanFrom read fuel i = t.meanFrom read fuel' i := by
  induction h generalizing fuel fuel' with
  | leaf hnode => rw [meanFrom_of_leaf hnode, meanFrom_of_leaf hnode]
  | split hnode _ _ hleft hright =>
    rw [Shape.height] at hfuel hfuel'
    obtain ⟨fuel, rfl⟩ : ∃ n, fuel = n + 1 := ⟨fuel - 1, by omega⟩
    obtain ⟨fuel', rfl⟩ : ∃ n, fuel' = n + 1 := ⟨fuel' - 1, by omega⟩
    rw [meanFrom_succ_of_split hnode, meanFrom_succ_of_split hnode,
      hleft fuel fuel' (by omega) (by omega), hright fuel fuel' (by omega) (by omega)]

theorem coverMeans (h : t.Unfolds 0 s) (hplaces : s.places.Perm (List.range t.size)) :
    t.CoverMeans read (t.means read) where
  size_eq := by simp [means]
  leaf i hi hnode := by rw [getElem?_means hi, meanFrom_of_leaf hnode]
  split i hi l r hnode := by
    have hmem := mem_places_iff_lt hplaces
    obtain ⟨below, hbelow, hrow⟩ := h.exists_below ((hmem i).mpr hi)
    have hheight : below.height < t.size := by
      have hlength := hrow.length_le
      rw [hplaces.length_eq, List.length_range] at hlength
      exact Nat.lt_of_lt_of_le below.height_lt_length_places hlength
    cases hbelow with
    | leaf hleaf =>
      rw [hnode] at hleaf
      cases hleaf
    | @split _ _ _ left right hsplit hleft hright =>
      rw [hnode] at hsplit
      cases hsplit
      have hlt : ∀ j ∈ left.places ++ right.places, j < t.size := fun j hj =>
        (hmem j).mp (hrow.subset (List.mem_cons_of_mem _ hj))
      refine ⟨_, _, getElem?_means (hlt l (List.mem_append_left _ hleft.mem_places)),
        getElem?_means (hlt r (List.mem_append_right _ hright.mem_places)), ?_⟩
      -- The children are computed with one step of fuel less, which they have to spare.
      rw [Shape.height] at hheight
      obtain ⟨fuel, hfuel⟩ : ∃ n, t.size = n + 1 := ⟨t.size - 1, by omega⟩
      rw [getElem?_means hi, hleft.meanFrom_eq t.size fuel (by omega) (by omega),
        hright.meanFrom_eq t.size fuel (by omega) (by omega), ← meanFrom_succ_of_split hnode, hfuel]

/-- A pass backwards over the places of a shape writes means that satisfy the recurrence. -/
theorem foldl_passMean (h : t.Unfolds i s) (hnodup : s.places.Nodup)
    (hlt : ∀ j ∈ s.places, j < t.size) {target : Array α} (htarget : t.CoverMeans read target)
    (ms : Array α) (hsize : ms.size = t.size) :
    Overwritten ms (s.places.reverse.foldl (t.passMean read) ms)
      (s.places.map fun j => (j, target.getD j 0)) := by
  induction h generalizing ms with
  | @leaf i hnode =>
    have hi : i < t.size := hlt i (List.mem_singleton_self i)
    have hstep : t.passMean read ms i = ms.setIfInBounds i (target.getD i 0) :=
      htarget.passMean_eq hi (by simp [hnode])
    simp only [Shape.places, List.reverse_singleton, List.foldl_cons, List.foldl_nil, hstep,
      List.map_singleton]
    exact Overwritten.setIfInBounds ms (hsize ▸ hi) _
  | @split i l r left right hnode hl hr hleft hright =>
    rw [Shape.places, List.nodup_cons, List.nodup_append'] at hnodup
    obtain ⟨hi, hnodupLeft, hnodupRight, hdisjoint⟩ := hnodup
    rw [Shape.places, List.forall_mem_cons, List.forall_mem_append] at hlt
    obtain ⟨hlti, hltLeft, hltRight⟩ := hlt
    have hfst : ∀ places : List Nat,
        (places.map fun j => (j, target.getD j 0)).map (·.1) = places := by
      simp [Function.comp_def]
    -- Backwards the right subtree comes first, then the left one, and the split itself last.
    have hpassRight := hright hnodupRight hltRight ms hsize
    have hpassLeft := hleft hnodupLeft hltLeft _ (hpassRight.size_eq.trans hsize)
    have hpass := hpassRight.append hpassLeft (by rw [hfst, hfst]; exact hdisjoint.symm)
    rw [← List.foldl_append, ← List.map_append] at hpass
    have hbelow : ∀ j ∈ right.places ++ left.places,
        ((right.places.reverse ++ left.places.reverse).foldl (t.passMean read) ms).getD j 0 =
          target.getD j 0 := by
      intro j hj
      rw [Array.getD_eq_getD_getElem?, hpass.getElem?_of_mem _ (List.mem_map_of_mem hj),
        Option.getD_some]
    have hstep : ∀ ms, (∀ j ∈ right.places ++ left.places, ms.getD j 0 = target.getD j 0) →
        t.passMean read ms i = ms.setIfInBounds i (target.getD i 0) := by
      intro ms hbelow
      apply htarget.passMean_eq hlti
      rintro l' r' hnode'
      cases hnode.symm.trans hnode'
      exact ⟨hbelow l (List.mem_append_right _ hl.mem_places),
        hbelow r (List.mem_append_left _ hr.mem_places)⟩
    have hwritten := hpass.append
      (Overwritten.setIfInBounds _ (hpass.size_eq ▸ hsize ▸ hlti) (target.getD i 0))
      (by simpa [hfst, and_comm] using hi)
    have horder : ((right.places ++ left.places).map (fun j => (j, target.getD j 0)) ++
        [(i, target.getD i 0)]).Perm
          ((i :: (left.places ++ right.places)).map fun j => (j, target.getD j 0)) :=
      List.perm_append_comm.trans ((List.perm_append_comm.map _).cons _)
    rw [Shape.places, List.reverse_cons, List.reverse_append, List.foldl_append, List.foldl_cons,
      List.foldl_nil, hstep _ hbelow]
    exact hwritten.perm horder

/-- The pass backwards over the preorder computes the means. -/
theorem foldl_passMean_eq (h : t.Unfolds 0 s) (hplaces : s.places.Perm (List.range t.size)) :
    s.places.reverse.foldl (t.passMean read) (Array.replicate t.size 0) = t.means read := by
  have hmeans : t.CoverMeans read (t.means read) := h.coverMeans hplaces
  have hmem := mem_places_iff_lt hplaces
  have hpass := h.foldl_passMean (nodup_places hplaces) (fun i => (hmem i).mp)
    hmeans (Array.replicate t.size 0) Array.size_replicate
  -- No entry keeps the zero that it starts with.
  apply Array.ext_getElem?
  intro i
  by_cases hi : i < t.size
  · rw [hpass.getElem?_of_mem _ (List.mem_map_of_mem ((hmem i).mpr hi)), getElem?_means hi,
      Array.getD_eq_getD_getElem?, getElem?_means hi, Option.getD_some]
  · rw [Array.getElem?_eq_none, Array.getElem?_eq_none]
    · exact hmeans.size_eq.trans_le (Nat.le_of_not_lt hi)
    · rw [hpass.size_eq, Array.size_replicate]
      exact Nat.le_of_not_lt hi

end Unfolds

end Means

/-- The walks of a tree that is read are right wherever its nodes stand, and they are what the
passes compute: the preorder over a stack, the depths forwards and the means backwards over the
preorder. -/
theorem walks_of_ofStored {s : StoredTree} (h : ofStored s features = .ok t) :
    (t.Preordered t.preorder ∧ t.walkStep^[t.size] ([0], []) = ([], t.preorder)) ∧
      (t.RootDistances t.depths ∧
        t.preorder.foldl t.passDepth (Array.replicate t.size 0) = t.depths) ∧
      ∀ {α : Type} [OfNat α 0] [Add α] [Mul α] [Div α] [LT α] [DecidableLT α] (read : Single → α),
        t.CoverMeans read (t.means read) ∧
          t.preorder.reverse.foldl (t.passMean read) (Array.replicate t.size 0) = t.means read := by
  obtain ⟨-, -, -, hvalid⟩ := ofStored_eq_ok h
  obtain ⟨s, hs, hplaces⟩ := exists_shape_of_validate hvalid
  rw [hs.preorder_eq hplaces]
  refine ⟨⟨hs.preordered hplaces, ?_⟩, ⟨hs.rootDistances hplaces, hs.foldl_passDepth_eq hplaces⟩,
    fun read => ⟨hs.coverMeans hplaces, hs.foldl_passMean_eq hplaces⟩⟩
  have hwalk := hs.iterate_walkStep [] []
  rwa [hplaces.length_eq, List.length_range, List.nil_append] at hwalk

/-- A tree in which nodes stand before their parents: the children of `3` are `1` and `4`. -/
def crossed : Tree where
  nodes := #[
    { feature := 0, threshold := 1, children := some (3, 2), defaultLeft := true, value := 2,
      gain := 7, cover := 9 },
    .leaf 1 2,
    .leaf 3 4,
    { feature := 1, threshold := 2, children := some (1, 4), defaultLeft := false, value := 5,
      gain := 6, cover := 5 },
    .leaf 4 3]

theorem walks_crossed : ofStored crossed.toStored 2 = .ok crossed ∧
    crossed.preorder = [0, 3, 1, 4, 2] ∧ crossed.Preordered crossed.preorder ∧
    crossed.depths = #[0, 2, 1, 1, 2] ∧ crossed.RootDistances crossed.depths ∧
    crossed.CoverMeans id (crossed.means id) :=
  have h : ofStored crossed.toStored 2 = .ok crossed := by decide +kernel
  have hwalks := walks_of_ofStored h
  ⟨h, by decide, hwalks.1.1, by decide, hwalks.2.1.1, (hwalks.2.2 id).1⟩

end Tree

end BoostedTrees
