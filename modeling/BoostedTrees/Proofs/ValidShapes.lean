import BoostedTrees.Proofs.TreeShapes

/-!
# Shapes that pass the check

The check of a tree is a search with marks. Where the nodes unfold to a shape in which every
place of the array stands once, the search finds no mark on a node that it comes to and no child
outside of the array, and in the end it has marked all nodes. So such a tree is valid, as long as
its splits use features of the model.

## Main results

* `Tree.visit_of_unfolds`: a search from nodes with disjoint shapes marks their places
* `Tree.validate_of_unfolds`: a tree with a shape that holds every place once is valid
-/

namespace BoostedTrees

namespace Tree

variable {t : Tree} {i j : Nat} {s : Shape} {features : UInt64}

/-- The node that unfolds to a shape stands in it. -/
theorem Unfolds.mem_places (h : t.Unfolds i s) : i ∈ s.places := by
  cases h with
  | leaf _ => exact List.mem_cons_self
  | split _ _ _ => exact List.mem_cons_self

theorem checkFeature_eq_ok (h : features ≠ 0 → (t.node i).feature.toNat < features.toNat) :
    t.checkFeature features i = .ok () :=
  if_neg fun hout => Nat.not_le_of_lt (h hout.1) hout.2

theorem checkChild_eq_ok (side : Side) (hne : j ≠ i) (hlt : j < t.size) :
    t.checkChild i side j = .ok () := by
  rw [checkChild, if_neg hne, if_neg (Nat.not_le_of_lt hlt)]

/-- Places of a tree, none of them named twice and none of them marked. -/
structure Unvisited (t : Tree) (seen : Array Bool) (places : List Nat) : Prop where
  size_eq : seen.size = t.size
  nodup : places.Nodup
  lt : ∀ i ∈ places, i < t.size
  unseen : ∀ i ∈ places, seen.getD i false = false

namespace Unvisited

variable {seen : Array Bool} {places places' : List Nat}

theorem perm (h : Unvisited t seen places) (hperm : places.Perm places') :
    Unvisited t seen places' where
  size_eq := h.size_eq
  nodup := hperm.nodup_iff.mp h.nodup
  lt j hj := h.lt j (hperm.mem_iff.mpr hj)
  unseen j hj := h.unseen j (hperm.mem_iff.mpr hj)

theorem head_lt (h : Unvisited t seen (i :: places)) : i < seen.size :=
  Nat.lt_of_lt_of_eq (h.lt i List.mem_cons_self) h.size_eq.symm

/-- The places after the first are others. -/
theorem ne_and_lt (h : Unvisited t seen (i :: places)) (hj : j ∈ places) : j ≠ i ∧ j < t.size := by
  refine ⟨?_, h.lt j (List.mem_cons_of_mem _ hj)⟩
  rintro rfl
  exact (List.nodup_cons.mp h.nodup).1 hj

/-- The places after one that is marked are still without a mark. -/
theorem mark (h : Unvisited t seen (i :: places)) :
    Unvisited t (seen.setIfInBounds i true) places where
  size_eq := Array.size_setIfInBounds.trans h.size_eq
  nodup := (List.nodup_cons.mp h.nodup).2
  lt j hj := h.lt j (List.mem_cons_of_mem _ hj)
  unseen := by
    intro j hj
    refine Bool.eq_false_iff.mpr fun hmark => ?_
    rcases (getD_mark_iff h.head_lt j).mp hmark with rfl | hold
    · exact (List.nodup_cons.mp h.nodup).1 hj
    · rw [h.unseen j (List.mem_cons_of_mem _ hj)] at hold
      cases hold

end Unvisited

/-- A search from nodes with shapes that share no place marks the places of these shapes. -/
theorem visit_of_unfolds
    (hfeatures : ∀ i children, (t.node i).children = some children → features ≠ 0 →
      (t.node i).feature.toNat < features.toNat)
    {fuel : Nat} {stack : List Nat} {shapes : List Shape} {seen : Array Bool}
    (hshapes : List.Forall₂ t.Unfolds stack shapes)
    (hunvisited : Unvisited t seen (shapes.flatMap Shape.places))
    (hfuel : (shapes.flatMap Shape.places).length < fuel) :
    ∃ seen', t.visit features fuel stack seen = .ok seen' ∧ seen'.size = t.size ∧
      ∀ i, seen.getD i false = true ∨ i ∈ shapes.flatMap Shape.places →
        seen'.getD i false = true := by
  induction fuel generalizing stack shapes seen with
  | zero => exact absurd hfuel (Nat.not_lt_zero _)
  | succ fuel ih =>
    cases hshapes with
    | nil => exact ⟨seen, rfl, hunvisited.size_eq, fun i hi => hi.resolve_right List.not_mem_nil⟩
    | @cons i s stack shapes hs hrest =>
      -- One step marks `i`; what is left is `below` it in its shape or in the other shapes.
      have hstep : ∀ {stack' : List Nat} {shapes' : List Shape} {below : List Nat},
          s.places = i :: below → List.Forall₂ t.Unfolds stack' shapes' →
          (below ++ shapes.flatMap Shape.places).Perm (shapes'.flatMap Shape.places) →
            ∃ seen', t.visit features fuel stack' (seen.setIfInBounds i true) = .ok seen' ∧
              seen'.size = t.size ∧ ∀ j, seen.getD j false = true ∨
                j ∈ (s :: shapes).flatMap Shape.places → seen'.getD j false = true := by
        intro stack' shapes' below hplaces hshapes' hperm
        rw [List.flatMap_cons, hplaces, List.cons_append] at hunvisited hfuel
        obtain ⟨seen', hvisit, hsize', hmarked⟩ := ih hshapes' (hunvisited.mark.perm hperm)
          (by rw [← hperm.length_eq]; exact Nat.lt_of_succ_lt_succ hfuel)
        refine ⟨seen', hvisit, hsize', fun j hj => hmarked j ?_⟩
        rw [List.flatMap_cons, hplaces, List.cons_append, List.mem_cons] at hj
        rw [getD_mark_iff hunvisited.head_lt, ← hperm.mem_iff]
        exact or_assoc.mpr (or_left_comm.mp hj)
      have hmark : ¬seen.getD i false = true := by
        rw [hunvisited.unseen i (List.mem_flatMap.mpr ⟨s, List.mem_cons_self, hs.mem_places⟩)]
        exact Bool.false_ne_true
      rw [visit, if_neg hmark]
      cases hs with
      | leaf hnode =>
        rw [hnode]
        have hplaces : (Shape.leaf i).places = i :: [] := rfl
        exact hstep hplaces hrest (.refl _)
      | @split _ l r left right hnode hleft hright =>
        have hchild : ∀ j ∈ left.places ++ right.places, j ≠ i ∧ j < t.size := by
          intro j hj
          rw [List.flatMap_cons, Shape.places, List.cons_append] at hunvisited
          exact hunvisited.ne_and_lt (List.mem_append_left _ hj)
        obtain ⟨hl, hl'⟩ := hchild l (List.mem_append_left _ hleft.mem_places)
        obtain ⟨hr, hr'⟩ := hchild r (List.mem_append_right _ hright.mem_places)
        have hperm : ((left.places ++ right.places) ++ shapes.flatMap Shape.places).Perm
            ((right :: left :: shapes).flatMap Shape.places) := by
          rw [List.flatMap_cons, List.flatMap_cons, ← List.append_assoc]
          exact List.perm_append_comm.append_right _
        rw [hnode]
        dsimp only
        rw [checkFeature_eq_ok (hfeatures i _ hnode), checkChild_eq_ok .left hl hl',
          checkChild_eq_ok .right hr hr']
        exact hstep rfl (.cons hright (.cons hleft hrest)) hperm

/-- A tree that unfolds to a shape in which every place stands once is valid, if its splits use
features of the model. -/
theorem validate_of_unfolds (h : t.Unfolds 0 s) (hplaces : s.places.Perm (List.range t.size))
    (hfeatures : ∀ i children, (t.node i).children = some children → features ≠ 0 →
      (t.node i).feature.toNat < features.toNat) :
    t.validate features = .ok () := by
  have hmem := mem_places_iff_lt hplaces
  have hunvisited : Unvisited t (Array.replicate t.size false) s.places :=
    { size_eq := Array.size_replicate
      nodup := nodup_places hplaces
      lt := fun i hi => (hmem i).mp hi
      unseen := fun i hi => by simp [Array.getD_eq_getD_getElem?, (hmem i).mp hi] }
  rw [← List.flatMap_singleton (f := Shape.places)] at hunvisited
  have hfuel : ([s].flatMap Shape.places).length < t.size + 1 := by
    rw [List.flatMap_singleton, hplaces.length_eq, List.length_range]
    exact Nat.lt_succ_self _
  obtain ⟨seen, hvisit, hsize, hmarked⟩ :=
    visit_of_unfolds hfeatures (.cons h .nil) hunvisited hfuel
  have hall : seen.findIdx? (!·) = none := by
    rw [Array.findIdx?_eq_none_iff]
    intro mark hmark
    obtain ⟨i, hi, rfl⟩ := Array.mem_iff_getElem.mp hmark
    have hseen := hmarked i (.inr (by
      rw [List.flatMap_singleton]
      exact (hmem i).mpr (hsize ▸ hi)))
    rw [Array.getD_eq_getD_getElem?, Array.getElem?_eq_getElem hi, Option.getD_some] at hseen
    rw [hseen]
    rfl
  have hpos : 0 < t.size := (hmem 0).mp h.mem_places
  simp only [validate, if_neg (Nat.ne_of_gt hpos), hvisit, hall, bind, Except.bind, pure,
    Except.pure]

end Tree

end BoostedTrees
