import BoostedTrees.Proofs.Effects
import BoostedTrees.Proofs.StoredSettings
import BoostedTrees.Proofs.TreeStorage
import BoostedTrees.Proofs.WireForm

/-!
# The features that splits use

A model that knows its number of features should split on these features only. Training
grows such trees, and the loader takes no others as long as the number is known. While it
is not known, trees with any splits are loaded; training on a matrix fixes the number
then, and it does not look at the trees that are there. A history keeps the law as long as
the numbers that are fixed in this way are large enough for these trees.

## Main definitions

* `Tree.SplitsBelow`, `Forest.SplitsBelow`: all splits use features below a number
* `Learner.SplitsKnown`: all splits use features of the model, if their number is known

## Main results

* `Growth.splitsBelow_grow`: a tree is grown on the columns of its matrix
* `Learner.splitsKnown_iff`: the law holds along a history if and only if whatever number
  training fixes first is large enough for the trees that are there
-/

namespace BoostedTrees

namespace Tree

variable {t t' : Tree} {n n' : Nat} {features : UInt64}

/-- All splits use features below a number. -/
def SplitsBelow (t : Tree) (n : Nat) : Prop :=
  ∀ i children, (t.node i).children = some children → (t.node i).feature.toNat < n

theorem SplitsBelow.mono (h : t.SplitsBelow n) (hn : n ≤ n') : t.SplitsBelow n' :=
  fun i children hi => Nat.lt_of_lt_of_le (h i children hi) hn

theorem splitsBelow_of_validate (h : t.validate features = .ok ()) (hknown : features ≠ 0) :
    t.SplitsBelow features.toNat := by
  rintro i ⟨left, right⟩ hi
  exact (splitChecked_of_validate h hi).feature_lt hknown

/-! ## Growing -/

theorem splitsBelow_leaf (value cover : Single) (n : Nat) : (leaf value cover).SplitsBelow n := by
  intro i children h
  rcases i with _ | i
  · cases h
  · cases h

theorem feature_node_setStatistics (i j : Nat) (value cover : Single) :
    ((t.setStatistics i value cover).node j).feature = (t.node j).feature := by
  simp only [node, setStatistics, Array.getD_eq_getD_getElem?, Array.getElem?_modify]
  split
  · cases t.nodes[j]? <;> rfl
  · rfl

theorem SplitsBelow.setStatistics (h : t.SplitsBelow n) (i : Nat) (value cover : Single) :
    (t.setStatistics i value cover).SplitsBelow n := by
  intro j children hj
  rw [children_node_setStatistics] at hj
  rw [feature_node_setStatistics]
  exact h j children hj

/-- Only the node that is split gets another feature. -/
theorem feature_node_split {i j : Nat} {feature : UInt32} {threshold : Single}
    {defaultLeft : Bool} {gain : Single} {c : Nat × Nat}
    (h : ((t.split i feature threshold defaultLeft gain).node j).children = some c) :
    ((t.split i feature threshold defaultLeft gain).node j).feature = feature ∨
      (t.node j).children = some c ∧
        ((t.split i feature threshold defaultLeft gain).node j).feature = (t.node j).feature := by
  simp only [node, split, Array.getD_eq_getD_getElem?, Array.getElem?_push,
    Array.getElem?_modify] at h ⊢
  -- The two nodes that are new are leaves.
  split at h
  · cases h
  split at h
  · cases h
  next hlast hnew =>
  rw [if_neg hlast, if_neg hnew]
  by_cases hij : i = j
  · rw [if_pos hij] at h ⊢
    cases hj : t.nodes[j]? with
    | none => rw [hj] at h; cases h
    | some n => exact .inl rfl
  · rw [if_neg hij] at h ⊢
    exact .inr ⟨h, rfl⟩

theorem SplitsBelow.split (h : t.SplitsBelow n) {i : Nat} {feature : UInt32}
    (hfeature : feature.toNat < n) (threshold : Single) (defaultLeft : Bool) (gain : Single) :
    (t.split i feature threshold defaultLeft gain).SplitsBelow n := by
  intro j children hj
  rcases feature_node_split hj with hnew | ⟨hold, hsame⟩
  · rw [hnew]
    exact hfeature
  · rw [hsame]
    exact h j children hold

end Tree

namespace Split

variable {rules : GrowthRules} {m : Matrix} {g : Gradient} {rows : List Nat} {total : Sums}
  {s : Split}

theorem feature_of_mem_candidates {parent : Parent} {feature : UInt32} {lacking : Bool}
    {bs : List Boundary} (h : s ∈ candidates parent feature lacking bs) : s.feature = feature := by
  obtain ⟨b, -, h⟩ := List.mem_flatMap.mp h
  obtain ⟨side, -, h⟩ := List.mem_filterMap.mp h
  simp only [candidate?, Option.ite_none_left_eq_some, Option.some.injEq] at h
  obtain ⟨-, rfl⟩ := h
  rfl

/-- What is kept of candidates is one of them. -/
theorem mem_of_foldl_keep {candidates : List Split} {best? : Option Split}
    (h : candidates.foldl keep best? = some s) : s ∈ candidates ∨ best? = some s := by
  induction candidates generalizing best? with
  | nil => exact .inr h
  | cons c candidates ih =>
    rcases ih h with hmem | hkept
    · exact .inl (List.mem_cons_of_mem _ hmem)
    · cases best? with
      | none =>
        cases hkept
        exact .inl List.mem_cons_self
      | some best =>
        simp only [keep] at hkept
        split at hkept
        · exact .inr hkept
        · cases hkept
          exact .inl List.mem_cons_self

theorem feature_of_bestOf? {feature : Nat} (h : bestOf? rules m g rows total feature = some s) :
    s.feature = UInt32.ofNat feature := by
  unfold bestOf? at h
  dsimp only at h
  split at h
  · cases h
  · rcases mem_of_foldl_keep h with hmem | hnone
    · exact feature_of_mem_candidates hmem
    · cases hnone

/-- The best of some candidates is one of them. -/
theorem mem_of_best? {candidates : List Split} (h : best? candidates = some s) :
    s ∈ candidates := by
  have hfold : ∀ (rest : List Split) (first : Split),
      rest.foldl better first ∈ first :: rest := by
    intro rest
    induction rest with
    | nil => exact fun first => List.mem_cons_self
    | cons b rest ih =>
      intro first
      rw [List.foldl_cons]
      rcases List.mem_cons.mp (ih (better first b)) with hbest | hmem
      · rw [hbest]
        unfold better
        split
        · exact List.mem_cons_of_mem _ List.mem_cons_self
        · exact List.mem_cons_self
      · exact List.mem_cons_of_mem _ (List.mem_cons_of_mem _ hmem)
  cases candidates with
  | nil => cases h
  | cons first rest =>
    cases h
    exact hfold rest first

/-- The best of what is offered is one of the offers, however they are divided. -/
theorem Division.mem_of_best? {d : Division} {offers : List (Option Split)}
    (h : d.best? offers = some s) : s ∈ offers.filterMap id := by
  induction d generalizing offers s with
  | whole => exact Split.mem_of_best? h
  | cut width first second ihfirst ihsecond =>
    rw [← List.take_append_drop width offers, List.filterMap_append, List.mem_append]
    rw [best?, Option.merge_eq_some_iff] at h
    rcases h with ⟨hfirst, -⟩ | ⟨-, hsecond⟩ | ⟨a, b, hfirst, hsecond, rfl⟩
    · exact .inl (ihfirst hfirst)
    · exact .inr (ihsecond hsecond)
    · unfold better
      split
      · exact .inr (ihsecond hsecond)
      · exact .inl (ihfirst hfirst)

variable (rules m g rows total) in
/-- The best candidates of the features that have one. -/
def offered : List Split := (List.range (lowWord m.columns)).filterMap (bestOf? rules m g rows total)

theorem filterMap_offers :
    (offers rules m g rows total).filterMap id = offered rules m g rows total :=
  List.filterMap_map

/-- A split that is found is the best candidate of some column. -/
theorem exists_of_findBy? {d : Division} (h : findBy? d rules m g rows total = some s) :
    ∃ feature < lowWord m.columns, bestOf? rules m g rows total feature = some s := by
  unfold findBy? at h
  split at h
  · cases h
  split at h
  · cases h
  · next best hbest =>
    split at h
    · cases h
      have hmem := Division.mem_of_best? hbest
      rw [filterMap_offers] at hmem
      obtain ⟨feature, hfeature, hof⟩ := List.mem_filterMap.mp hmem
      exact ⟨feature, List.mem_range.mp hfeature, hof⟩
    · cases h

/-- A split that is found uses one of the columns. -/
theorem feature_lt_of_find? (h : find? rules m g rows total = some s) :
    s.feature.toNat < lowWord m.columns := by
  obtain ⟨feature, hfeature, hof⟩ := exists_of_findBy? h
  rw [feature_of_bestOf? hof]
  exact Nat.lt_of_le_of_lt (Nat.mod_le _ _) hfeature

end Split

namespace Growth

variable (rules : GrowthRules) (m : Matrix) (g : Gradient)

theorem splitsBelow_growAt (levels : Nat) (t : Tree) (i : Nat) (rows : List Nat)
    (h : t.SplitsBelow (lowWord m.columns)) :
    (growAt rules m g levels t i rows).SplitsBelow (lowWord m.columns) := by
  induction levels generalizing t i rows with
  | zero => exact h.setStatistics i _ _
  | succ levels ih =>
    rw [growAt]
    dsimp only
    split
    · exact h.setStatistics i _ _
    · next s hs =>
      exact ih _ _ _ (ih _ _ _ ((h.setStatistics i _ _).split (Split.feature_lt_of_find? hs) _ _ _))

/-- A tree is grown on the columns of its matrix. -/
theorem splitsBelow_grow (rows : List Nat) :
    (grow rules m g rows).SplitsBelow (lowWord m.columns) :=
  splitsBelow_growAt rules m g _ _ _ _ (Tree.splitsBelow_leaf 0 0 _)

end Growth

/-! ## Refusals -/

theorem List.mapM_eq_error {α β ε : Type} {f : α → Except ε β} {l : List α} {e : ε}
    (h : l.mapM f = .error e) : ∃ a ∈ l, f a = .error e := by
  induction l with
  | nil => cases h
  | cons a l ih =>
    rw [List.mapM_cons] at h
    rcases Except.bind_eq_error h with ha | ⟨b, -, h⟩
    · exact ⟨a, List.mem_cons_self, ha⟩
    rcases Except.bind_eq_error h with hl | ⟨bs, -, h⟩
    · obtain ⟨a', ha', hf⟩ := ih hl
      exact ⟨a', List.mem_cons_of_mem _ ha', hf⟩
    · cases h

namespace TreeError

/-- Whether a tree is refused for the feature of a split. -/
def NamesFeature : TreeError → Prop
  | featureOutOfBounds .. => True
  | _ => False

end TreeError

namespace StoredTree

variable {s : StoredTree} {e : TreeError}

theorem not_namesFeature_of_children {nodes i : Nat} {left right : Int32}
    (h : children nodes i left right = .error e) : ¬e.NamesFeature := by
  have hplace : ∀ {side : Side} {child : Int32} {e : TreeError},
      place nodes i side child = .error e → ¬e.NamesFeature := by
    intro side child e h
    unfold place at h
    split at h
    · cases h
      exact id
    · cases h
  unfold children at h
  split at h
  · cases h
  split at h
  · cases h
    exact id
  · rcases Except.bind_eq_error h with hleft | ⟨l, -, h⟩
    · exact hplace hleft
    rcases Except.bind_eq_error h with hright | ⟨r, -, h⟩
    · exact hplace hright
    · cases h

theorem not_namesFeature_of_nodes (h : s.nodes = .error e) : ¬e.NamesFeature := by
  obtain ⟨i, -, h⟩ := List.mapM_eq_error h
  rcases Except.bind_eq_error h with hchildren | ⟨c, -, h⟩
  · exact not_namesFeature_of_children hchildren
  · cases h

theorem not_namesFeature_of_checkLengths (h : s.checkLengths = .error e) : ¬e.NamesFeature := by
  unfold checkLengths at h
  split at h
  · cases h
    exact id
  · cases h

end StoredTree

namespace Tree

variable {t : Tree} {features : UInt64} {e : TreeError}

/-- A search is not refused for a feature of a split if all splits use features of the
model. -/
theorem not_namesFeature_of_visit (hbelow : features ≠ 0 → t.SplitsBelow features.toNat)
    {fuel : Nat} {stack : List Nat} {seen : Array Bool}
    (h : t.visit features fuel stack seen = .error e) : ¬e.NamesFeature := by
  have hchild : ∀ {i : Nat} {side : Side} {child : Nat} {e : TreeError},
      t.checkChild i side child = .error e → ¬e.NamesFeature := by
    intro i side child e h
    unfold checkChild at h
    split at h
    · cases h
      exact id
    split at h
    · cases h
      exact id
    · cases h
  induction fuel generalizing stack seen with
  | zero => cases h
  | succ fuel ih =>
    cases stack with
    | nil => cases h
    | cons i stack =>
      rw [visit] at h
      split at h
      · cases h
        exact id
      dsimp only at h
      split at h
      · exact ih h
      · next left right hnode =>
        rcases Except.bind_eq_error h with hfeature | ⟨⟨⟩, -, h⟩
        · -- The feature of a split is one of the model, so its check does not fail.
          unfold checkFeature at hfeature
          dsimp only at hfeature
          split at hfeature
          · next hout =>
            have hlt := hbelow hout.1 i _ hnode
            exact absurd hout.2 (Nat.not_le_of_lt hlt)
          · cases hfeature
        rcases Except.bind_eq_error h with hleft | ⟨⟨⟩, -, h⟩
        · exact hchild hleft
        rcases Except.bind_eq_error h with hright | ⟨⟨⟩, -, h⟩
        · exact hchild hright
        · exact ih h

theorem not_namesFeature_of_validate (hbelow : features ≠ 0 → t.SplitsBelow features.toNat)
    (h : t.validate features = .error e) : ¬e.NamesFeature := by
  unfold validate at h
  split at h
  · cases h
    exact id
  rcases Except.bind_eq_error h with hvisit | ⟨seen, -, h⟩
  · exact not_namesFeature_of_visit hbelow hvisit
  split at h
  · cases h
    exact id
  · cases h

/-- The nodes that are read back of a stored tree are splits only where the tree has one,
with the same feature. -/
theorem SplitsBelow.of_nodes_toStored {n : Nat} (h : t.SplitsBelow n) {ns : List Node}
    (hns : t.toStored.nodes = .ok ns) : (⟨ns.toArray⟩ : Tree).SplitsBelow n := by
  obtain ⟨hlength, hnodes⟩ := StoredTree.nodes_eq_ok hns
  have hcount : t.toStored.nodeCount = t.size := by simp [StoredTree.nodeCount, toStored, size]
  intro i children hi
  by_cases hlt : i < t.size
  · obtain ⟨c, hc, hn⟩ := hnodes i (by omega)
    have hnode : (⟨ns.toArray⟩ : Tree).node i = t.toStored.nodeAt i c := by
      rw [node, Array.getD_eq_getD_getElem?, List.getElem?_toArray, hn, Option.getD_some]
    rw [hnode] at hi ⊢
    cases hsplit : (t.node i).children with
    | none =>
      -- Both entries of a leaf say that it has no child, so it is read back as a leaf.
      have hleft : t.toStored.leftChildren.toArray.getD i StoredTree.noChild =
          storedChild ((t.node i).children.map (·.1)) :=
        getD_map_toArray t (fun n => storedChild (n.children.map Prod.fst)) _ hlt
      have hright : t.toStored.rightChildren.toArray.getD i StoredTree.noChild =
          storedChild ((t.node i).children.map (·.2)) :=
        getD_map_toArray t (fun n => storedChild (n.children.map Prod.snd)) _ hlt
      rw [hleft, hright, hsplit] at hc
      cases hc
      cases hi
    | some pair =>
      have hfeature : (t.toStored.nodeAt i c).feature = (t.node i).feature :=
        getD_map_toArray t (·.feature) _ hlt
      rw [hfeature]
      exact h i pair hsplit
  · have hnone : ns.toArray[i]? = none := Array.getElem?_eq_none (by simp; omega)
    rw [node, Array.getD_eq_getD_getElem?, hnone] at hi
    cases hi

/-- A stored tree is not refused for the feature of a split if all splits use features of
the model. -/
theorem not_namesFeature_of_ofStored (hbelow : features ≠ 0 → t.SplitsBelow features.toNat)
    (h : ofStored t.toStored features = .error e) : ¬e.NamesFeature := by
  unfold ofStored at h
  rcases Except.bind_eq_error h with hlengths | ⟨⟨⟩, -, h⟩
  · exact StoredTree.not_namesFeature_of_checkLengths hlengths
  rcases Except.bind_eq_error h with hnodes | ⟨ns, hns, h⟩
  · exact StoredTree.not_namesFeature_of_nodes hnodes
  rcases Except.bind_eq_error h with hvalid | ⟨⟨⟩, -, h⟩
  · exact not_namesFeature_of_validate (fun hknown => (hbelow hknown).of_nodes_toStored hns) hvalid
  · cases h

end Tree

/-! ## Forests and learners -/

namespace Forest

/-- All splits of all trees use features below a number. -/
def SplitsBelow (f : Forest) (n : Nat) : Prop := ∀ t ∈ f.trees, t.tree.SplitsBelow n

theorem splitsBelow_addRound_iff {f : Forest} {n : Nat} {round : List Tree}
    (hround : ∀ t ∈ round, t.SplitsBelow n) :
    (f.addRound round).SplitsBelow n ↔ f.SplitsBelow n := by
  constructor
  · intro h t ht
    exact h t (List.mem_append_left _ ht)
  · intro h t ht
    rcases List.mem_append.mp ht with ht | ht
    · exact h t ht
    · obtain ⟨⟨tree, k⟩, hmem, rfl⟩ := List.mem_map.mp ht
      exact hround tree (List.fst_mem_of_mem_zipIdx hmem)

end Forest

namespace Learner

variable {l : Learner} {n : UInt64}

/-- All splits use features of the model, if it is known how many there are. -/
def SplitsKnown (l : Learner) : Prop :=
  l.features ≠ 0 → l.forest.SplitsBelow l.features.toNat

theorem splitsKnown_create (created : List Matrix) : (create created).SplitsKnown :=
  fun _ _ ht => absurd ht List.not_mem_nil

/-- The trees of a round split on the columns of their matrix, as many as a word counts. -/
theorem splitsBelow_growRound (s : Settings) (iteration : Int32) (m : Matrix) (g : Gradient) :
    ∀ t ∈ growRound s iteration m g, t.SplitsBelow (UInt64.ofNat m.columns).toNat := by
  have hwords : lowWord m.columns ≤ (UInt64.ofNat m.columns).toNat := by
    change m.columns % 2 ^ 32 ≤ m.columns % 2 ^ 64
    calc m.columns % 2 ^ 32 = m.columns % 2 ^ 64 % 2 ^ 32 :=
          (Nat.mod_mod_of_dvd _ (Nat.pow_dvd_pow 2 (by omega))).symm
      _ ≤ m.columns % 2 ^ 64 := Nat.mod_le _ _
  exact forall_growOutputs (fun g rows => (Growth.splitsBelow_grow _ m g rows).mono hwords) g _ _

theorem splitsBelow_storedForest {m : StoredModel} {outputs : Nat} {f : Forest}
    (h : storedForest m outputs = .ok f) (hknown : m.parameters.numFeature ≠ 0) :
    f.SplitsBelow m.parameters.numFeature.toNat := by
  refine forall_of_storedForest (P := fun t => t.SplitsBelow _) h fun s t ht => ?_
  obtain ⟨-, -, -, hvalid⟩ := Tree.ofStored_eq_ok ht
  exact Tree.splitsBelow_of_validate hvalid hknown

/-- Whatever training makes of the number of features, the trees that are there keep the
law unless the number was not known. -/
theorem SplitsKnown.of_fixed (hl : l.SplitsKnown) (hn : l.FeaturesFixed n) :
    (n ≠ 0 → l.forest.SplitsBelow n.toNat) ↔
      (l.features = 0 → n ≠ 0 → l.forest.SplitsBelow n.toNat) := by
  refine ⟨fun h _ => h, fun h => ?_⟩
  rcases hn with rfl | hunknown | ⟨hempty, -⟩
  · exact hl
  · exact h hunknown
  · intro _ t ht
    rw [hempty] at ht
    cases ht

/-- A request keeps the law, unless it trains a learner that does not know its number of
features and fixes one that the trees that are there do not keep to. -/
theorem Effect.keeps_splitsKnown_iff {r : Request} {p} (h : Effect l r p) (hl : l.SplitsKnown) :
    p.2.SplitsKnown ↔
      (r.trains → l.features = 0 → p.2.features ≠ 0 →
        l.forest.SplitsBelow p.2.features.toNat) := by
  have hsame : l.features = 0 → l.features ≠ 0 → l.forest.SplitsBelow l.features.toNat :=
    fun hunknown hknown => absurd hunknown hknown
  cases h with
  | looked _ c => exact iff_of_true hl fun _ => hsame
  | setAttributes a => exact iff_of_true hl fun _ => hsame
  | setNames _ => exact iff_of_true hl fun _ => hsame
  | setTypes _ => exact iff_of_true hl fun _ => hsame
  | gaveSettings _ s _ =>
    simp only [SplitsKnown, withSettings_features, withSettings_forest]
    exact iff_of_true hl fun _ => hsame
  | loaded hr _ hforest =>
    exact iff_of_true (splitsBelow_storedForest hforest) fun htrains =>
      absurd htrains (Request.not_trains_of_loads hr)
  | refusedTraining hr hn c =>
    exact (hl.of_fixed hn).trans ⟨fun h _ => h, fun h => h hr⟩
  | trained hr hn iteration m g c hcolumns =>
    subst hcolumns
    -- The new trees split on columns of the matrix, and these are the features now.
    have hround := Forest.splitsBelow_addRound_iff (f := l.forest)
      (splitsBelow_growRound l.settings iteration m g)
    calc _ ↔ (UInt64.ofNat m.columns ≠ 0 →
          l.forest.SplitsBelow (UInt64.ofNat m.columns).toNat) := imp_congr_right fun _ => hround
      _ ↔ _ := (hl.of_fixed hn).trans ⟨fun h _ => h, fun h => h hr⟩

/-- Where the law holds, no model with the trees and the number of features of a learner
is refused for the feature of a split. -/
theorem SplitsKnown.load_ne (hl : l.SplitsKnown) {bytes : List UInt8}
    (hbytes : ∀ m, StoredModel.decode bytes = .ok m →
      m.forest.trees = l.toStored.forest.trees ∧ m.parameters.numFeature = l.features)
    (l' : Learner) (k i : Nat) (feature : UInt32) (features : UInt64) :
    (load bytes l').1 ≠
      .error (.invalidModel (.tree k (.featureOutOfBounds i feature features))) := by
  intro h
  obtain ⟨m, outputs, hm, hforest⟩ := exists_of_load_eq_invalidModel h
  obtain ⟨htrees, hfeatures⟩ := hbytes m hm
  obtain ⟨s, hs, hrefused⟩ := storedForest_eq_error hforest
  rw [htrees] at hs
  obtain ⟨t, ht, rfl⟩ := List.mem_map.mp hs
  rw [hfeatures] at hrefused
  exact Tree.not_namesFeature_of_ofStored (fun hknown => hl hknown t ht) hrefused trivial

/-- The law along any history of a new learner. In every state whose number of features is
known all splits use these features, if and only if whatever number training fixes, where
none was known, is large enough for the trees that are there. And what is saved while the
law holds is never refused for the feature of a split, whatever learner loads it. -/
theorem splitsKnown_iff (created : List Matrix) (os : List Occasion) :
    ((∀ l ∈ (create created).states os, l.SplitsKnown) ↔
      ∀ s ∈ (create created).steps os, s.2.request.trains → s.1.features = 0 →
        (s.1.answer s.2).2.features ≠ 0 →
          s.1.forest.SplitsBelow (s.1.answer s.2).2.features.toNat) ∧
    ∀ l ∈ (create created).states os, l.SplitsKnown →
      ∀ (l' : Learner) (k i : Nat) (feature : UInt32) (features : UInt64),
        (∀ bytes, l.save "ubj" = .ok bytes → (load bytes l').1 ≠
          .error (.invalidModel (.tree k (.featureOutOfBounds i feature features)))) ∧
        ∀ bytes m, StoredModel.decode bytes = .ok m →
          m.forest.trees = l.toStored.forest.trees → m.parameters.numFeature = l.features →
            (load bytes l').1 ≠
              .error (.invalidModel (.tree k (.featureOutOfBounds i feature features))) := by
  constructor
  · exact forall_states_iff (fun l o hl => (effect_answer l o).keeps_splitsKnown_iff hl)
      (splitsKnown_create created) os
  · intro l _ hl l' k i feature features
    refine ⟨?_, ?_⟩
    · intro bytes hsave
      cases hsave
      refine hl.load_ne (fun m hm => ?_) l' k i feature features
      obtain ⟨-, rfl⟩ := StoredModel.decode_toUbj_eq_ok_iff.mp hm
      exact ⟨rfl, rfl⟩
    · intro bytes m hm htrees hfeatures
      refine hl.load_ne (fun m' hm' => ?_) l' k i feature features
      rw [hm] at hm'
      cases hm'
      exact ⟨htrees, hfeatures⟩

end Learner

end BoostedTrees
