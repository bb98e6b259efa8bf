import BoostedTrees.Learner.Persistence
import BoostedTrees.Proofs.Calls

/-!
# What the loader accepts

A stored forest is accepted if its trees form whole rounds, if the lists of metadata fit
the number of features, and if every one of its trees is read. The forest is made of the
trees that were read, each with the output that was stored for it.

## Main results

* `Learner.storedForest_eq_ok`: a stored forest that is accepted has passed all checks
* `Learner.storedForest_error_cases`: one that is refused has failed one of them
* `Learner.forall_of_storedForest`: what holds of every tree that is read holds of the forest
* `Learner.checkRounds_ok`, `Learner.checkFeatureInfo_ok_iff`: what the checks say
-/

namespace BoostedTrees

namespace Learner

variable {features : UInt64} {i : Nat} {ss : List StoredTree} {ts : List Tree}

/-- The loader takes whole rounds only. -/
theorem checkRounds_ok {f : StoredForest} {outputs : Nat} (h : checkRounds f outputs = .ok ()) :
    f.treeInfo.length = f.trees.length ∧ (∀ k ∈ f.treeInfo, k.toNat < outputs) ∧
      outputs ∣ f.trees.length := by
  unfold checkRounds at h
  split at h
  · cases h
  · next hlength =>
    cases hfind : f.treeInfo.find? fun k => outputs ≤ k.toNat with
    | some k => simp only [hfind, reduceCtorEq] at h
    | none =>
      simp only [hfind] at h
      split at h
      · cases h
      · next hmod =>
        refine ⟨Decidable.not_not.mp hlength, ?_, ?_⟩
        · intro k hk
          simpa using List.find?_eq_none.mp hfind k hk
        · exact Nat.dvd_of_mod_eq_zero (Decidable.not_not.mp hmod)

/-- The loader takes lists that fit only, and does not take a number of zero for one that
is not known. -/
theorem checkFeatureInfo_ok_iff {field : String} {values : List String} :
    checkFeatureInfo field values features = .ok () ↔
      values = [] ∨ values.length = features.toNat := by
  unfold checkFeatureInfo
  split
  · next h => exact iff_of_false nofun (not_or.mpr h)
  · next h =>
    refine iff_of_true rfl ?_
    simpa only [ne_eq, Decidable.not_and_iff_not_or_not, Decidable.not_not] using h

theorem storedTrees_cons {s : StoredTree} (h : storedTrees features i (s :: ss) = .ok ts) :
    ∃ t rest, Tree.ofStored s features = .ok t ∧ storedTrees features (i + 1) ss = .ok rest ∧
      ts = t :: rest := by
  rw [storedTrees] at h
  split at h
  · cases h
  · next t ht =>
    obtain ⟨rest, hrest, h⟩ := Except.bind_eq_ok h
    cases h
    exact ⟨t, rest, ht, hrest, rfl⟩

theorem length_storedTrees (h : storedTrees features i ss = .ok ts) :
    ts.length = ss.length := by
  induction ss generalizing i ts with
  | nil =>
    cases h
    rfl
  | cons s ss ih =>
    obtain ⟨t, rest, -, hrest, rfl⟩ := storedTrees_cons h
    rw [List.length_cons, List.length_cons, ih hrest]

/-- What holds of every tree that is read holds of all trees of a list. -/
theorem forall_of_storedTrees {P : Tree → Prop} (h : storedTrees features i ss = .ok ts)
    (hP : ∀ s t, Tree.ofStored s features = .ok t → P t) : ∀ t ∈ ts, P t := by
  induction ss generalizing i ts with
  | nil =>
    cases h
    exact fun _ ht => absurd ht List.not_mem_nil
  | cons s ss ih =>
    obtain ⟨t, rest, ht, hrest, rfl⟩ := storedTrees_cons h
    exact List.forall_mem_cons.mpr ⟨hP s t ht, ih hrest⟩

/-- Every tree of a list that is read is read. -/
theorem exists_of_storedTrees (h : storedTrees features i ss = .ok ts) :
    ∀ s ∈ ss, ∃ t, Tree.ofStored s features = .ok t := by
  induction ss generalizing i ts with
  | nil => exact fun _ hs => absurd hs List.not_mem_nil
  | cons s ss ih =>
    obtain ⟨t, rest, ht, hrest, -⟩ := storedTrees_cons h
    exact List.forall_mem_cons.mpr ⟨⟨t, ht⟩, ih hrest⟩

/-- A list of trees is refused for one of them. -/
theorem storedTrees_eq_error {fault : ModelFault} (h : storedTrees features i ss = .error fault) :
    ∃ s ∈ ss, ∃ k e, Tree.ofStored s features = .error e ∧ fault = .tree k e := by
  induction ss generalizing i with
  | nil => cases h
  | cons s ss ih =>
    rw [storedTrees] at h
    split at h
    · next e he =>
      cases h
      exact ⟨s, List.mem_cons_self, i, e, he, rfl⟩
    · rcases Except.bind_eq_error h with hrest | ⟨rest, -, h⟩
      · obtain ⟨s', hs', hfault⟩ := ih hrest
        exact ⟨s', List.mem_cons_of_mem _ hs', hfault⟩
      · cases h

/-- A stored forest that is accepted has passed all checks, and its trees were read. -/
theorem storedForest_eq_ok {m : StoredModel} {outputs : Nat} {f : Forest}
    (h : storedForest m outputs = .ok f) :
    checkRounds m.forest outputs = .ok () ∧
      checkFeatureInfo "feature_names" m.featureNames m.parameters.numFeature = .ok () ∧
      checkFeatureInfo "feature_types" m.featureTypes m.parameters.numFeature = .ok () ∧
      ∃ ts, storedTrees m.parameters.numFeature 0 m.forest.trees = .ok ts ∧
        f = ⟨List.zipWith OutputTree.mk ts m.forest.treeInfo⟩ := by
  unfold storedForest at h
  obtain ⟨⟨⟩, hrounds, h⟩ := Except.bind_eq_ok h
  obtain ⟨⟨⟩, hnames, h⟩ := Except.bind_eq_ok h
  obtain ⟨⟨⟩, htypes, h⟩ := Except.bind_eq_ok h
  obtain ⟨ts, hts, h⟩ := Except.bind_eq_ok h
  cases h
  exact ⟨hrounds, hnames, htypes, ts, hts, rfl⟩

/-- What holds of every tree that is read holds of all trees of a forest. -/
theorem forall_of_storedForest {P : Tree → Prop} {m : StoredModel} {outputs : Nat} {f : Forest}
    (h : storedForest m outputs = .ok f)
    (hP : ∀ s t, Tree.ofStored s m.parameters.numFeature = .ok t → P t) :
    ∀ t ∈ f.trees, P t.tree := by
  obtain ⟨-, -, -, ts, hts, rfl⟩ := storedForest_eq_ok h
  intro t ht
  obtain ⟨i, hi, rfl⟩ := List.mem_iff_getElem.mp ht
  rw [List.getElem_zipWith]
  exact forall_of_storedTrees hts hP _ (List.getElem_mem _)

/-- The check of rounds names neither a tree nor a list of metadata. -/
theorem checkRounds_eq_error {f : StoredForest} {outputs : Nat} {fault : ModelFault}
    (h : checkRounds f outputs = .error fault) :
    (∀ k e, fault ≠ .tree k e) ∧ ∀ field length features,
      fault ≠ .featureInfoLength field length features := by
  unfold checkRounds at h
  split at h
  · cases h
    exact ⟨nofun, nofun⟩
  split at h
  · cases h
    exact ⟨nofun, nofun⟩
  split at h
  · cases h
    exact ⟨nofun, nofun⟩
  · cases h

/-- A list of metadata that is refused does not fit, and is named. -/
theorem checkFeatureInfo_eq_error {field : String} {values : List String} {fault : ModelFault}
    (h : checkFeatureInfo field values features = .error fault) :
    ¬(values = [] ∨ values.length = features.toNat) ∧
      fault = .featureInfoLength field values.length features := by
  unfold checkFeatureInfo at h
  split at h
  · next hfits =>
    cases h
    exact ⟨not_or.mpr hfits, rfl⟩
  · cases h

/-- A stored forest is refused by one of the checks, or for one of its trees. -/
theorem storedForest_error_cases {m : StoredModel} {outputs : Nat} {fault : ModelFault}
    (h : storedForest m outputs = .error fault) :
    checkRounds m.forest outputs = .error fault ∨
      checkFeatureInfo "feature_names" m.featureNames m.parameters.numFeature = .error fault ∨
      checkFeatureInfo "feature_types" m.featureTypes m.parameters.numFeature = .error fault ∨
      ∃ s ∈ m.forest.trees, ∃ k e, Tree.ofStored s m.parameters.numFeature = .error e ∧
        fault = .tree k e := by
  unfold storedForest at h
  rcases Except.bind_eq_error h with hrounds | ⟨⟨⟩, -, h⟩
  · exact .inl hrounds
  rcases Except.bind_eq_error h with hnames | ⟨⟨⟩, -, h⟩
  · exact .inr (.inl hnames)
  rcases Except.bind_eq_error h with htypes | ⟨⟨⟩, -, h⟩
  · exact .inr (.inr (.inl htypes))
  rcases Except.bind_eq_error h with htrees | ⟨ts, -, h⟩
  · exact .inr (.inr (.inr (storedTrees_eq_error htrees)))
  · cases h

/-- The checks beside those of the trees do not name a tree. -/
theorem storedForest_eq_error {m : StoredModel} {outputs k : Nat} {e : TreeError}
    (h : storedForest m outputs = .error (.tree k e)) :
    ∃ s ∈ m.forest.trees, Tree.ofStored s m.parameters.numFeature = .error e := by
  rcases storedForest_error_cases h with hrounds | hnames | htypes | ⟨s, hs, k', e', he, hfault⟩
  · exact absurd rfl ((checkRounds_eq_error hrounds).1 k e)
  · cases (checkFeatureInfo_eq_error hnames).2
  · cases (checkFeatureInfo_eq_error htypes).2
  · cases hfault
    exact ⟨s, hs, he⟩

/-- Loading a stored model takes over all of it, or nothing if it is refused. -/
theorem loadStored_apply (m : StoredModel) (l : Learner) :
    loadStored m l =
      match storedSettings l.settings m with
      | .error e => (.error e, l)
      | .ok s =>
        match storedForest m s.outputs with
        | .error fault => (.error (.invalidModel fault), l)
        | .ok forest => (.ok (), {
            settings := s
            attributes := m.attributes
            featureNames := m.featureNames
            featureTypes := m.featureTypes
            features := m.parameters.numFeature
            forest
            cache := .empty }) := by
  rw [loadStored, EngineM.bind_apply, EngineM.check_apply]
  cases storedSettings l.settings m with
  | error e => rfl
  | ok s =>
    dsimp only
    rw [EngineM.bind_apply, EngineM.check_apply]
    cases storedForest m s.outputs with
    | error fault => rfl
    | ok forest => rfl

/-- A stored model that is taken over has passed all checks. -/
theorem loadStored_eq_ok {m : StoredModel} {l : Learner} (h : (loadStored m l).1 = .ok ()) :
    ∃ s forest, storedSettings l.settings m = .ok s ∧ storedForest m s.outputs = .ok forest ∧
      (loadStored m l).2 = {
        settings := s
        attributes := m.attributes
        featureNames := m.featureNames
        featureTypes := m.featureTypes
        features := m.parameters.numFeature
        forest
        cache := .empty } := by
  rw [loadStored_apply] at h ⊢
  cases hs : storedSettings l.settings m with
  | error e =>
    rw [hs] at h
    cases h
  | ok s =>
    rw [hs] at h
    dsimp only at h ⊢
    cases hforest : storedForest m s.outputs with
    | error fault =>
      rw [hforest] at h
      cases h
    | ok forest => exact ⟨s, forest, rfl, hforest, rfl⟩

end Learner

end BoostedTrees
