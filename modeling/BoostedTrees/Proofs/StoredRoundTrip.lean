import BoostedTrees.Proofs.Checkpoint
import BoostedTrees.Proofs.PlainPrediction
import BoostedTrees.Proofs.StoredSettings
import BoostedTrees.Proofs.WholeRounds

/-!
# Storing and loading

A stored model that any learner takes over is stored again as it was, up to its version,
a synonym of an objective and the NaNs. The other way round, a learner whose metadata fit,
whose trees are valid and form whole rounds, and whose base score is a number, stores a
model that every learner takes over, as long as the places of all nodes fit the fields for
children. Then both hold the same model: they predict alike and are saved alike.

## Main definitions

* `StoredModel.restored`: what a stored model is when it was taken over and stored again
* `Learner.Storable`: what a learner must keep to for its stored form to be taken over

## Main results

* `Tree.toStored_of_ofStored`, `Tree.ofStored_toStored`: trees, there and back
* `Learner.stored_roundTrip`: models, there and back
-/

namespace BoostedTrees

/-! ## Children -/

namespace Tree

theorem storedChild_toNat {child : Int32} (h : 0 ≤ child.toInt) :
    storedChild (some child.toInt.toNat) = child := by
  have hlt : child.toInt < 2 ^ 31 := Int32.toInt_lt child
  refine Int32.toInt_inj.mp ?_
  rw [toInt_storedChild (by omega), Int.toNat_of_nonneg h]

end Tree

namespace StoredTree

open BoostedTrees.Tree (storedChild storedChild_toNat toInt_storedChild)

variable {nodes i : Nat} {left right : Int32} {c : Option (Nat × Nat)}

/-- Children that are read are stored as the entries that they were read from. -/
theorem storedChild_of_children (h : children nodes i left right = .ok c) :
    storedChild (c.map (·.1)) = left ∧ storedChild (c.map (·.2)) = right := by
  have hplace : ∀ {side : Side} {child : Int32} {k : Nat},
      place nodes i side child = .ok k → storedChild (some k) = child := by
    intro side child k h
    unfold place at h
    split at h
    · cases h
    · next hin =>
      cases h
      have hle : ¬child < 0 := fun hlt => hin (.inl hlt)
      exact storedChild_toNat (Int32.le_iff_toInt_le.mp (Int32.not_lt.mp hle))
  unfold children at h
  split at h
  · next hleaf =>
    cases h
    exact ⟨hleaf.1.symm, hleaf.2.symm⟩
  split at h
  · cases h
  · obtain ⟨l, hl, h⟩ := Except.bind_eq_ok h
    obtain ⟨r, hr, h⟩ := Except.bind_eq_ok h
    cases h
    exact ⟨hplace hl, hplace hr⟩

/-- Children at places that fit their fields are read back. -/
theorem children_storedChild_eq (hnodes : nodes ≤ 2 ^ 31)
    (h : ∀ l r, c = some (l, r) → l < nodes ∧ r < nodes) :
    children nodes i (storedChild (c.map (·.1))) (storedChild (c.map (·.2))) = .ok c := by
  have hplace : ∀ (side : Side) {k : Nat}, k < nodes →
      storedChild (some k) ≠ noChild ∧ place nodes i side (storedChild (some k)) = .ok k := by
    intro side k hk
    have hint : (storedChild (some k)).toInt = k := toInt_storedChild (by omega)
    constructor
    · intro hno
      have hminus : (storedChild (some k)).toInt = -1 := congrArg Int32.toInt hno
      omega
    · rw [place, hint, Int.toNat_natCast, if_neg]
      rintro (hneg | hout)
      · have hneg := Int32.lt_iff_toInt_lt.mp hneg
        rw [hint] at hneg
        exact absurd hneg (by simp)
      · omega
  cases c with
  | none => rfl
  | some pair =>
    obtain ⟨l, r⟩ := pair
    obtain ⟨hl, hr⟩ := h l r rfl
    obtain ⟨hleft, hl⟩ := hplace .left hl
    obtain ⟨hright, hr⟩ := hplace .right hr
    simp only [children, Option.map_some, hleft, hright, false_and, or_self, if_false, hl, hr]
    rfl

variable {s : StoredTree}

/-- Lists that pass the check of their lengths all have as many entries as there are nodes. -/
theorem length_eq_of_checkLengths (h : s.checkLengths = .ok ()) :
    ∀ p ∈ s.lengths, p.2 = s.nodeCount := by
  unfold checkLengths at h
  split at h
  · cases h
  · next hnone =>
    intro p hp
    simpa using List.find?_eq_none.mp hnone p hp

end StoredTree

/-! ## Trees -/

namespace Tree

variable {t : Tree} {s : StoredTree} {features : UInt64}

theorem map_nodes_eq {α : Type} {f : Node → α} {l : List α} (a : α) (hlength : l.length = t.size)
    (h : ∀ i < t.size, f (t.node i) = l.toArray.getD i a) : t.nodes.toList.map f = l := by
  refine List.ext_getElem (by rw [List.length_map, hlength]; rfl) fun i hi hi' => ?_
  have hsize : i < t.nodes.size := by simpa using hi
  have hnode := h i hsize
  simpa [node, Array.getD_eq_getD_getElem?, hsize, hi'] using hnode

/-- A tree that is read is stored again as the lists that it was read from. -/
theorem toStored_of_ofStored (h : ofStored s features = .ok t) : t.toStored = s := by
  obtain ⟨hsize, hnodes⟩ := node_of_ofStored h
  obtain ⟨⟨⟩, hlengths, -⟩ := Except.bind_eq_ok h
  have hlengths := StoredTree.length_eq_of_checkLengths hlengths
  simp only [StoredTree.lengths, List.forall_mem_cons, ← hsize] at hlengths
  obtain ⟨hfeature, hthreshold, hright, hdefault, hvalue, hgain, hcover, -⟩ := hlengths
  have hfield : ∀ {α : Type} {f : Node → α} {l : List α} {a : α}, l.length = t.size →
      (∀ i c, f (s.nodeAt i c) = l.toArray.getD i a) → t.nodes.toList.map f = l := by
    intro α f l a hlength hf
    refine map_nodes_eq a hlength fun i hi => ?_
    obtain ⟨c, -, hn⟩ := hnodes i hi
    rw [hn, hf]
  have hchildren : ∀ i < t.size,
      storedChild ((t.node i).children.map (·.1)) =
          s.leftChildren.toArray.getD i StoredTree.noChild ∧
        storedChild ((t.node i).children.map (·.2)) =
          s.rightChildren.toArray.getD i StoredTree.noChild := by
    intro i hi
    obtain ⟨c, hc, hn⟩ := hnodes i hi
    rw [hn]
    exact StoredTree.storedChild_of_children hc
  -- Every list is read back entry by entry.
  have hleft : (t.nodes.toList.map fun n => storedChild (n.children.map (·.1))) =
      s.leftChildren := map_nodes_eq StoredTree.noChild hsize.symm fun i hi => (hchildren i hi).1
  have hright : (t.nodes.toList.map fun n => storedChild (n.children.map (·.2))) =
      s.rightChildren := map_nodes_eq StoredTree.noChild hright fun i hi => (hchildren i hi).2
  have hfeature : t.nodes.toList.map (·.feature) = s.splitIndices :=
    hfield hfeature fun _ _ => rfl
  have hthreshold : t.nodes.toList.map (·.threshold) = s.splitConditions :=
    hfield hthreshold fun _ _ => rfl
  have hdefault : t.nodes.toList.map (·.defaultLeft) = s.defaultLeft :=
    hfield hdefault fun _ _ => rfl
  have hvalue : t.nodes.toList.map (·.value) = s.baseWeights := hfield hvalue fun _ _ => rfl
  have hgain : t.nodes.toList.map (·.gain) = s.lossChanges := hfield hgain fun _ _ => rfl
  have hcover : t.nodes.toList.map (·.cover) = s.sumHessian := hfield hcover fun _ _ => rfl
  simp only [toStored, hleft, hright, hfeature, hthreshold, hdefault, hvalue, hgain, hcover]

/-- A valid tree is read back from the lists that it is stored as, if the places of all its
nodes fit the fields for children. -/
theorem ofStored_toStored (hvalid : t.validate features = .ok ()) (hsize : t.size ≤ 2 ^ 31) :
    ofStored t.toStored features = .ok t := by
  have hlengths : t.toStored.checkLengths = .ok () := by
    simp [StoredTree.checkLengths, StoredTree.lengths, StoredTree.nodeCount, toStored]
  have hcount : t.toStored.nodeCount = t.size := by simp [StoredTree.nodeCount, toStored, size]
  have hnodes : t.toStored.nodes = .ok ((List.range t.size).map t.node) := by
    rw [StoredTree.nodes, hcount]
    refine List.mapM_eq_pure fun i hi => ?_
    have hi : i < t.size := List.mem_range.mp hi
    -- The children of a valid tree are among its nodes.
    have hchildren : StoredTree.children t.size i (storedChild ((t.node i).children.map (·.1)))
        (storedChild ((t.node i).children.map (·.2))) = .ok (t.node i).children := by
      refine StoredTree.children_storedChild_eq hsize fun left right hnode => ?_
      have hchecked := splitChecked_of_validate hvalid hnode
      exact ⟨hchecked.left_lt, hchecked.right_lt⟩
    simp only [hchildren, toStored, getD_map_toArray t _ _ hi]
    rfl
  have hall : (⟨((List.range t.size).map t.node).toArray⟩ : Tree) = t := by
    refine congrArg Tree.mk (Array.ext (by simp [size]) fun i hi hi' => ?_)
    simp [node, Array.getD_eq_getD_getElem?, hi']
  simp only [ofStored, hlengths, hnodes, bind, Except.bind, hall, hvalid]
  rfl

end Tree

/-! ## Forests -/

namespace Learner

variable {l l' : Learner} {features : UInt64} {i : Nat} {ss : List StoredTree} {ts : List Tree}

theorem toStored_of_storedTrees (h : storedTrees features i ss = .ok ts) :
    ts.map Tree.toStored = ss := by
  induction ss generalizing i ts with
  | nil =>
    cases h
    rfl
  | cons s ss ih =>
    obtain ⟨t, rest, ht, hrest, rfl⟩ := storedTrees_cons h
    rw [List.map_cons, Tree.toStored_of_ofStored ht, ih hrest]

/-- A forest that is read is stored again as the lists that it was read from. -/
theorem toStored_of_storedForest {m : StoredModel} {outputs : Nat} {f : Forest}
    (h : storedForest m outputs = .ok f) :
    f.trees.map (·.tree.toStored) = m.forest.trees ∧ f.trees.map (·.output) = m.forest.treeInfo := by
  obtain ⟨hrounds, -, -, ts, hts, rfl⟩ := storedForest_eq_ok h
  obtain ⟨hinfo, -, -⟩ := checkRounds_ok hrounds
  -- There are as many outputs as trees, so none of them is cut off.
  have hlength : ts.length = m.forest.treeInfo.length := by rw [length_storedTrees hts, hinfo]
  rw [← toStored_of_storedTrees hts]
  constructor
  · exact List.ext_getElem (by simp [hlength]) fun i hi hi' => by simp
  · exact List.ext_getElem (by simp [hlength]) fun i hi hi' => by simp

theorem storedTrees_toStored {trees : List Tree}
    (h : ∀ t ∈ trees, Tree.ofStored t.toStored features = .ok t) :
    storedTrees features i (trees.map Tree.toStored) = .ok trees := by
  induction trees generalizing i with
  | nil => rfl
  | cons t trees ih =>
    obtain ⟨ht, hrest⟩ := List.forall_mem_cons.mp h
    simp only [List.map_cons, storedTrees, ht, ih hrest]
    rfl

/-- Whole rounds of trees pass the check of rounds. -/
theorem checkRounds_toStored (h : l.forest.WholeRounds l.outputs) :
    checkRounds l.toStored.forest l.outputs = .ok () := by
  have hnone : l.toStored.forest.treeInfo.find? (fun k => l.outputs ≤ k.toNat) = none := by
    apply List.find?_eq_none.mpr
    intro k hk
    obtain ⟨t, ht, rfl⟩ := List.mem_map.mp hk
    simpa using h.output_lt t ht
  have hmod : l.toStored.forest.trees.length % l.outputs = 0 := by
    simpa [toStored, Forest.size] using Nat.mod_eq_zero_of_dvd h.dvd_size
  have hlength : l.toStored.forest.treeInfo.length = l.toStored.forest.trees.length := by
    simp [toStored]
  simp only [checkRounds, hlength, hnone, hmod, ne_eq, not_true, if_false]

/-! ## Models -/

end Learner

theorem Objective.name_of_ofName {name : String} {o : Objective} (h : ofName name = .ok o) :
    o.name = if name = "reg:linear" then "reg:squarederror" else name := by
  unfold ofName at h
  split at h <;> cases h <;> rfl

/-- What a stored model is when it was taken over and stored again: it is of the current
version, the synonym of an objective is replaced, and so is a NaN. -/
def StoredModel.restored (m : StoredModel) : StoredModel :=
  { m with
    version := .current
    parameters := { m.parameters with baseScore := m.parameters.baseScore.readBack }
    objective := if m.objective = "reg:linear" then "reg:squarederror" else m.objective }

namespace Learner

variable {l l' : Learner}

/-- A learner that takes over what another one stored holds the same model. -/
theorem sameModel_takenOver (l l' : Learner) (given : Dictionary String) :
    l.SameModel (l'.takenOver l given l.forest) := ⟨rfl, rfl, rfl, rfl, rfl, rfl, rfl, rfl⟩

/-- A stored model that is taken over is stored again as it was, whatever the learner held
before. -/
theorem toStored_of_loadStored {m : StoredModel} (h : (loadStored m l).1 = .ok ()) :
    (loadStored m l).2.toStored = m.restored := by
  obtain ⟨s, forest, hs, hforest, hafter⟩ := loadStored_eq_ok h
  obtain ⟨o, ho, rfl⟩ := storedSettings_eq_ok hs
  obtain ⟨htrees, hinfo⟩ := toStored_of_storedForest hforest
  rw [hafter, toStored, StoredModel.restored]
  simp only [Settings.fixedBy, htrees, hinfo, Objective.name_of_ofName ho]

/-- What a learner must keep to for its stored form to be taken over: its metadata fit, its
trees are valid and form whole rounds, and its base score is a number. -/
structure Storable (l : Learner) : Prop where
  names : l.featureNames = [] ∨ l.featureNames.length = l.features.toNat
  types : l.featureTypes = [] ∨ l.featureTypes.length = l.features.toNat
  wholeRounds : l.forest.WholeRounds l.outputs
  valid : ∀ t ∈ l.forest.trees, t.tree.validate l.features = .ok ()
  score : l.settings.baseScore.isNaN = false

namespace Storable

/-- The trees of a storable learner are read back if their places fit the fields for
children. -/
theorem storedForest_eq (h : l.Storable) (hsize : ∀ t ∈ l.forest.trees, t.tree.size ≤ 2 ^ 31) :
    storedForest l.toStored l.outputs = .ok l.forest := by
  have hnames : checkFeatureInfo "feature_names" l.toStored.featureNames
      l.toStored.parameters.numFeature = .ok () := checkFeatureInfo_ok_iff.mpr h.names
  have htypes : checkFeatureInfo "feature_types" l.toStored.featureTypes
      l.toStored.parameters.numFeature = .ok () := checkFeatureInfo_ok_iff.mpr h.types
  have htrees : storedTrees l.toStored.parameters.numFeature 0 l.toStored.forest.trees =
      .ok (l.forest.trees.map (·.tree)) := by
    have hmap : l.toStored.forest.trees = (l.forest.trees.map (·.tree)).map Tree.toStored := by
      simp [toStored]
    rw [hmap]
    refine storedTrees_toStored fun t ht => ?_
    obtain ⟨o, ho, rfl⟩ := List.mem_map.mp ht
    exact Tree.ofStored_toStored (h.valid o ho) (hsize o ho)
  have hzip : List.zipWith OutputTree.mk (l.forest.trees.map (·.tree))
      (l.forest.trees.map (·.output)) = l.forest.trees := by
    rw [List.zipWith_map, List.zipWith_self]
    exact List.map_id _
  simp only [storedForest, checkRounds_toStored h.wholeRounds, hnames, htypes, htrees]
  exact congrArg (Except.ok ∘ Forest.mk) hzip

/-- The places of all nodes of a forest that is read back fit the fields for children. -/
theorem size_le_of_storedForest {outputs : Nat} {f : Forest}
    (h : storedForest l.toStored outputs = .ok f) :
    ∀ t ∈ l.forest.trees, t.tree.size ≤ 2 ^ 31 := by
  obtain ⟨-, -, -, ts, hts, -⟩ := storedForest_eq_ok h
  intro t ht
  obtain ⟨t', ht'⟩ := exists_of_storedTrees hts _ (List.mem_map_of_mem ht)
  have hsize : t'.size = t.tree.size := by
    rw [(Tree.node_of_ofStored ht').1]
    simp [StoredTree.nodeCount, Tree.toStored, Tree.size]
  by_contra hlarge
  exact Nat.lt_irrefl _ (Tree.lt_of_ofStored ht' (2 ^ 31) (by omega))

/-- A storable learner is taken over by every learner, which then holds the same model, if
the places of all nodes fit the fields for children; else no learner takes it over. -/
theorem loadStored_iff (h : l.Storable) (l' : Learner) :
    ((loadStored l.toStored l').1 = .ok () ↔ ∀ t ∈ l.forest.trees, t.tree.size ≤ 2 ^ 31) ∧
      ((loadStored l.toStored l').1 = .ok () → l.SameModel (loadStored l.toStored l').2) := by
  obtain ⟨given, hgiven⟩ := storedSettings_toStored h.score l'.settings
  have houtputs : (l'.settings.withStored l.settings given).outputs = l.outputs := rfl
  have hread : (loadStored l.toStored l').1 = .ok () →
      ∃ f, storedForest l.toStored l.outputs = .ok f := by
    intro hok
    obtain ⟨s, f, hs, hf, -⟩ := loadStored_eq_ok hok
    rw [hgiven] at hs
    cases hs
    exact ⟨f, hf⟩
  have hload : (∀ t ∈ l.forest.trees, t.tree.size ≤ 2 ^ 31) →
      loadStored l.toStored l' = (.ok (), l'.takenOver l given l.forest) := by
    intro hsize
    rw [loadStored_apply, hgiven]
    dsimp only
    rw [houtputs, h.storedForest_eq hsize]
    rfl
  have hfits : (loadStored l.toStored l').1 = .ok () → ∀ t ∈ l.forest.trees,
      t.tree.size ≤ 2 ^ 31 := by
    intro hok
    obtain ⟨f, hf⟩ := hread hok
    exact size_le_of_storedForest hf
  refine ⟨⟨hfits, fun hsize => congrArg Prod.fst (hload hsize)⟩, ?_⟩
  intro hok
  rw [hload (hfits hok)]
  exact sameModel_takenOver l l' given

end Storable

/-- Stored models and learners, there and back. A stored model that any learner takes over
is stored again as it was, up to its version, a synonym and the NaNs. A storable learner
whose places fit the fields for children is taken over by every learner. Then both hold the
same model, are saved as the same bytes in every format, and predict the same for rows
that are given directly, and for matrices as long as what is remembered is right. -/
theorem stored_roundTrip :
    (∀ (m : StoredModel) (l : Learner), (loadStored m l).1 = .ok () →
      (loadStored m l).2.toStored = m.restored) ∧
    ∀ l : Learner, l.Storable → ∀ l' : Learner,
      ((loadStored l.toStored l').1 = .ok () ↔ ∀ t ∈ l.forest.trees, t.tree.size ≤ 2 ^ 31) ∧
      ((loadStored l.toStored l').1 = .ok () →
        l.SameModel (loadStored l.toStored l').2 ∧
        (∀ format, (loadStored l.toStored l').2.save format = l.save format) ∧
        (∀ d first last code baseMargin,
          (predictDense d first last code baseMargin (loadStored l.toStored l').2).1 =
            (predictDense d first last code baseMargin l).1) ∧
        ∀ K, Matrix.Numbered K → l.cache.Sound K l.forest l.outputs →
          ∀ m, K m → ∀ mask limit,
            (predict m mask limit (loadStored l.toStored l').2).1 =
              (predict m mask limit l).1) := by
  refine ⟨fun m l h => toStored_of_loadStored h, ?_⟩
  intro l hl l'
  obtain ⟨hiff, hsame⟩ := hl.loadStored_iff l'
  refine ⟨hiff, fun hok => ?_⟩
  have hmodel := hsame hok
  refine ⟨hmodel, ?_, ?_, ?_⟩
  · intro format
    exact (hmodel.save_eq format).symm
  · intro d first last code baseMargin
    rw [predictDense_eq, predictDense_eq, hmodel.plainDense_eq]
  · intro K hK hsound m hm mask limit
    have hcache : (loadStored l.toStored l').2.cache = .empty := by
      obtain ⟨s, f, -, -, hafter⟩ := loadStored_eq_ok hok
      rw [hafter]
    rw [predict_fst hK hsound hm, hmodel.plainMatrix_eq]
    refine predict_fst hK ?_ hm mask limit
    rw [hcache]
    exact MarginCache.sound_empty K _ _

/-- A stump is storable, and a new learner takes it over. -/
theorem stored_roundTrip_stump :
    stump.Storable ∧ (loadStored stump.toStored (create [])).1 = .ok () ∧
      (loadStored stump.toStored (create [])).2.toStored = stump.toStored.restored ∧
      (predict (Matrix.lonelyRow 7) 0 0 (loadStored stump.toStored (create [])).2).1 =
        (predict (Matrix.lonelyRow 7) 0 0 stump).1 := by
  have hstump : stump.Storable := by
    refine ⟨.inr rfl, .inr rfl, ⟨?_, ?_⟩, ?_, isNaN_baseScore_stump⟩ <;> decide +kernel
  obtain ⟨hagain, hover⟩ := stored_roundTrip
  obtain ⟨hiff, hsame⟩ := hover stump hstump (create [])
  have hok : (loadStored stump.toStored (create [])).1 = .ok () := by
    refine hiff.mpr ?_
    decide
  obtain ⟨-, -, -, hpredict⟩ := hsame hok
  refine ⟨hstump, hok, hagain _ _ hok, ?_⟩
  exact hpredict _ Matrix.numbered_lonelyRow (MarginCache.sound_empty _ _ _) _ ⟨7, rfl⟩ 0 0

end Learner

end BoostedTrees
