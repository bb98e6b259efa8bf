import BoostedTrees.Proofs.Checkpoint
import BoostedTrees.Proofs.DumpLines
import BoostedTrees.Proofs.LeaseOperations
import BoostedTrees.Proofs.StackedRows
import BoostedTrees.Proofs.StructuredDumps

/-!
# Importance of the splits of a model

Importance is not taken from the trees but from their structured dumps, which are read again.
What it gives can still be said by the trees alone. If no node of a valid tree is too deep for
its dump to be read, the splits are added in preorder, tree after tree, each with its statistic
as it is read off the dump. One node that is too deep, in one tree, leaves no importance at all,
for the text dumps are asked for just if the engine refuses the structured ones.

## Main definitions

* `Learner.splits`: the splits of a model, tree after tree
* `Importance.scoreOf`: the importance of a feature by the splits on it
* `Tree.IsShallow`: no node is too deep

## Main results

* `Tally.get?_addAll`: what is counted and summed for a feature
* `Importance.ofJsonDump_dump`: the importance of valid trees
* `Lease.importance_of_isFinite`: the importance of a model, by features
-/

namespace BoostedTrees

/-! ## Tallies -/

namespace Dictionary

variable {α β γ : Type}

theorem get?_map (f : β → γ) (d : Dictionary β) (key : String) :
    (d.map f).get? key = (d.get? key).map f := by
  simp only [get?, map, List.find?_map, Option.map_map]
  rfl

/-- Under a key stands what its own entries make of what stood there. -/
theorem get?_foldl_insert (name : α → String) (step : Option β → α → β) (entries : List α)
    (d : Dictionary β) (key : String) :
    (entries.foldl (fun d a => d.insert (name a) (step (d.get? (name a)) a)) d).get? key =
      (entries.filter (name · = key)).foldl (fun found a => some (step found a)) (d.get? key) := by
  induction entries generalizing d with
  | nil => rfl
  | cons a entries ih =>
    rw [List.foldl_cons, ih, get?_insert]
    by_cases hkey : name a = key
    · subst hkey
      rw [if_pos rfl, List.filter_cons_of_pos (by simp), List.foldl_cons]
    · rw [if_neg (Ne.symm hkey), List.filter_cons_of_neg (by simpa using hkey)]

end Dictionary

namespace Tally

/-- The tally of values that are added one after another. -/
def ofValues (values : List Double) : Tally := ⟨values.length, values.foldl (· + ·) 0⟩

theorem ofValues_concat (values : List Double) (x : Double) :
    ofValues (values ++ [x]) = ⟨(ofValues values).count + 1, (ofValues values).sum + x⟩ := by
  rw [ofValues, List.length_append, List.foldl_append]
  rfl

variable {α : Type} (name : α → String) (value : α → Double)

/-- The tallies with more splits, each under its name and with its value. -/
def addAll (tallies : Dictionary Tally) (splits : List α) : Dictionary Tally :=
  splits.foldl (fun tallies n => add tallies (name n) (value n)) tallies

theorem addAll_append (tallies : Dictionary Tally) (splits more : List α) :
    addAll name value tallies (splits ++ more) =
      addAll name value (addAll name value tallies splits) more :=
  List.foldl_append

/-- Under a name stands the tally of the splits with this name, if there are any. -/
theorem get?_addAll (splits : List α) (key : String) :
    (addAll name value .empty splits).get? key =
      if (splits.filter (name · = key)).isEmpty then none
      else some (ofValues ((splits.filter (name · = key)).map value)) := by
  let step (found : Option Tally) (n : α) : Tally :=
    ⟨(found.getD ⟨0, 0⟩).count + 1, (found.getD ⟨0, 0⟩).sum + value n⟩
  refine (Dictionary.get?_foldl_insert name step splits .empty key).trans ?_
  generalize splits.filter (name · = key) = found
  rw [Dictionary.get?_empty]
  induction found using List.reverseRecOn with
  | nil => rfl
  | append_singleton found n ih =>
    rw [List.foldl_append, List.foldl_cons, List.foldl_nil, ih, List.map_append,
      List.map_singleton, ofValues_concat]
    cases found <;> rfl

end Tally

/-! ## Splits -/

/-- The splits of all trees, tree after tree, those of a tree in preorder. -/
def Learner.splits (l : Learner) : List Node := l.forest.trees.flatMap (·.tree.splits)

/-- No node of the tree is too deep for the structured dump to be read. -/
def Tree.IsShallow (t : Tree) : Prop := ∀ p ∈ t.outline, p.2 ≤ 63

instance (t : Tree) : Decidable t.IsShallow :=
  inferInstanceAs (Decidable (∀ p ∈ t.outline, p.2 ≤ 63))

namespace Importance

/-- What a split adds to a sum, if it can be read off a dump: nothing for a count. -/
def summand? (kind : Importance) (n : Node) : Option Double :=
  match kind.statistic? with
  | some .gain => n.gain.toDouble.reread?
  | some .cover => n.cover.toDouble.reread?
  | none => some 0

/-- The importance of a feature by the splits on it. -/
def scoreOf (kind : Importance) (splits : List Node) : Double :=
  let sum := (splits.filterMap kind.summand?).foldl (· + ·) 0
  match kind with
  | weight => Double.ofNat splits.length
  | gain => sum / Double.ofNat splits.length
  | cover => sum / Double.ofNat splits.length
  | totalGain => sum
  | totalCover => sum

variable (kind : Importance)

/-- Finite statistics are read off a dump. -/
theorem exists_summand?_eq {n : Node} (h : n.gain.isFinite ∧ n.cover.isFinite) :
    ∃ x, kind.summand? n = some x := by
  rw [summand?]
  split
  · exact Single.exists_reread?_toDouble h.1
  · exact Single.exists_reread?_toDouble h.2
  · exact ⟨0, rfl⟩

/-- The tally of splits has their score. -/
theorem score_ofValues {splits : List Node} {value : Node → Double}
    (h : ∀ n ∈ splits, kind.summand? n = some (value n)) :
    Tally.score kind (.ofValues (splits.map value)) = kind.scoreOf splits := by
  have hvalues : splits.filterMap kind.summand? = splits.map value := by
    rw [List.filterMap_congr h, List.filterMap_eq_map']
  cases kind <;> simp only [scoreOf, hvalues, Tally.ofValues, List.length_map] <;> rfl

/-- The scores of splits, by the names of their features. -/
theorem get?_scores_iff (map : FeatureMap) {splits : List Node} {value : Node → Double}
    (h : ∀ n ∈ splits, kind.summand? n = some (value n)) (key : String) (x : Double) :
    (kind.scores (Tally.addAll (map.name ·.feature) value .empty splits)).get? key = some x ↔
      (∃ n ∈ splits, map.name n.feature = key) ∧
        kind.scoreOf (splits.filter (map.name ·.feature = key)) = x := by
  have hempty : (splits.filter (map.name ·.feature = key)).isEmpty ↔
      ¬∃ n ∈ splits, map.name n.feature = key := by
    simp [List.filter_eq_nil_iff]
  rw [scores, Dictionary.get?_map, Tally.get?_addAll]
  by_cases hsome : ∃ n ∈ splits, map.name n.feature = key
  · rw [if_neg fun hno => hempty.mp hno hsome, Option.map_some, Option.some.injEq,
      score_ofValues kind fun n hn => h n (List.mem_of_mem_filter hn), and_iff_right hsome]
  · rw [if_pos (hempty.mpr hsome)]
    exact iff_of_false nofun fun hboth => hsome hboth.1

/-! ## Reading dumps -/

section Dumps

variable (map : FeatureMap) (value : Node → Double)

/-- What a split adds is what is read off its fields. -/
theorem nodeStatistic_splitFields (t : Tree) (depth i : Nat) {x : Double}
    (h : kind.summand? (t.node i) = some x) :
    kind.nodeStatistic (t.splitFields map true depth i).reread = .ok x := by
  cases kind with
  | weight =>
    cases h
    rfl
  | gain | totalGain =>
    have hgain : (t.splitFields map true depth i).reread.gain = some x := h
    simp only [nodeStatistic, statistic?, hgain]
  | cover | totalCover =>
    have hcover : (t.splitFields map true depth i).reread.cover = some x := h
    simp only [nodeStatistic, statistic?, hcover]

/-- The splits of a dump are added in preorder. -/
theorem addNode_toNode (t : Tree) (s : Tree.Shape) (depth : Nat) (tallies : Dictionary Tally)
    (h : ∀ n ∈ s.splits t, kind.summand? n = some (value n)) :
    kind.addNode tallies (s.toNode (fun s depth => (t.fieldsAt map true s depth).reread) depth) =
      .ok (Tally.addAll (map.name ·.feature) value tallies (s.splits t)) := by
  induction s generalizing depth tallies with
  | leaf i => rfl
  | split i left right hleft hright =>
    rw [Tree.Shape.splits, List.forall_mem_cons, List.forall_mem_append] at h
    obtain ⟨hroot, hbelow, hbeside⟩ := h
    have hfields : kind.addFields tallies (t.splitFields map true depth i).reread =
        .ok (Tally.add tallies (map.name (t.node i).feature) (value (t.node i))) := by
      show (do return Tally.add tallies _ (← kind.nodeStatistic _) : Except _ _) = _
      rw [nodeStatistic_splitFields kind map t depth i hroot]
      rfl
    -- The split itself comes first, then what is below it, the left before the right.
    rw [Tree.Shape.toNode, addNode, Tree.fieldsAt, hfields]
    show (addNodes kind _ _) = _
    rw [addNodes, hleft _ _ hbelow]
    show (addNodes kind _ _) = _
    rw [addNodes, hright _ _ hbeside, Tree.Shape.splits, ← List.singleton_append,
      Tally.addAll_append, Tally.addAll_append]
    rfl

/-- The splits of a valid tree are added just if its dump can be read. -/
theorem addDump_dump {t : Tree} {features : UInt64} (hvalid : t.validate features = .ok ())
    (tallies : Dictionary Tally) (h : ∀ n ∈ t.splits, kind.summand? n = some (value n)) :
    kind.addDump tallies (t.dump map true .json) =
      if t.IsShallow then .ok (Tally.addAll (map.name ·.feature) value tallies t.splits)
      else .error .malformedDump := by
  obtain ⟨s, hs, hplaces, hread⟩ := Tree.ofText?_dump hvalid map true
  have hshallow : t.IsShallow ↔ s.height ≤ 63 := hs.forall_depth_le_iff hplaces 63
  rw [hs.splits_eq hplaces] at h ⊢
  by_cases hheight : s.height ≤ 63
  · rw [addDump, hread, if_pos hheight, if_pos (hshallow.mpr hheight)]
    exact addNode_toNode kind map value t s 0 tallies h
  · rw [addDump, hread, if_neg hheight, if_neg fun h => hheight (hshallow.mp h)]

/-- The importance of valid trees, of which every dump must be read. -/
theorem ofJsonDump_dump {trees : List OutputTree}
    (hvalid : ∀ t ∈ trees, ∃ features, t.tree.validate features = .ok ())
    (h : ∀ n ∈ trees.flatMap (·.tree.splits), kind.summand? n = some (value n)) :
    ofJsonDump (trees.map (·.tree.dump map true .json)) kind =
      if ∀ t ∈ trees, t.tree.IsShallow then
        .ok (kind.scores (Tally.addAll (map.name ·.feature) value .empty
          (trees.flatMap (·.tree.splits))))
      else .error .malformedDump := by
  have hfold : ∀ tallies, (trees.map (·.tree.dump map true .json)).foldlM kind.addDump tallies =
      if ∀ t ∈ trees, t.tree.IsShallow then
        .ok (Tally.addAll (map.name ·.feature) value tallies (trees.flatMap (·.tree.splits)))
      else .error .malformedDump := by
    induction trees with
    | nil => exact fun tallies => rfl
    | cons t trees ih =>
      intro tallies
      obtain ⟨⟨features, hfirst⟩, hrest⟩ := List.forall_mem_cons.mp hvalid
      rw [List.flatMap_cons, List.forall_mem_append] at h
      rw [List.map_cons, List.foldlM_cons, addDump_dump kind map value hfirst tallies h.1,
        List.flatMap_cons, Tally.addAll_append]
      simp only [List.forall_mem_cons]
      by_cases hshallow : t.tree.IsShallow
      · simp only [hshallow, if_true, true_and]
        exact ih hrest h.2 _
      · -- One dump that is not read ends the whole.
        simp only [hshallow, if_false, false_and]
        rfl
  rw [ofJsonDump, hfold]
  split <;> rfl

end Dumps

end Importance

/-! ## Importance through a lease -/

/-- The feature map that the names of features are taken from. -/
def Naming.featureMap (files : Files) : Naming → Except EngineError FeatureMap
  | .file path? => files.featureMap path?
  | .names list => .ok (.ofNames list)

/-- Without a feature map a feature is known by its index, and no two by the same name. -/
theorem FeatureMap.name_empty_inj {i j : UInt32} :
    FeatureMap.empty.name i = FeatureMap.empty.name j ↔ i = j := by
  refine ⟨fun h => ?_, congrArg _⟩
  have hdigits := congrArg String.toList h
  rw [toList_name rfl, toList_name rfl] at hdigits
  have hnat := congrArg Numeral.ofDigits (List.cons.inj hdigits).2
  rw [Numeral.ofDigits_toDigits, Numeral.ofDigits_toDigits] at hnat
  exact UInt32.toNat_inj.mp hnat

theorem Learner.dump_name (l : Learner) (map : FeatureMap) (statistics : Bool)
    (format : DumpFormat) : l.dump map statistics format.name =
      .ok (l.forest.trees.map (·.tree.dump map statistics format)) := by
  cases format <;> rfl

namespace Lease

open LeaseM

variable {w : Workshop} {h : Handle} {learner : Learner} {naming : Naming} {map : FeatureMap}

/-- The trees are dumped by the feature map, and the learner stays as it is. -/
theorem dump_apply (hl : w.learner? h = some learner) (hmap : naming.featureMap w.files = .ok map)
    (version : Int32) (statistics : Bool) (format : DumpFormat) :
    dump Workshop.engine ⟨some h, version⟩ naming statistics format w =
      (.ok (learner.forest.trees.map (·.tree.dump map statistics format)),
        w.setLearner h learner) := by
  have hdump := learner.dump_name map statistics format
  cases naming with
  | file path? =>
    have hmap : w.files.featureMap path? = .ok map := hmap
    show native (Workshop.answer h (.dump path? statistics format.name)) w = _
    rw [native_apply, Workshop.answer, EngineM.bind_apply, Workshop.featureMap_apply, hmap]
    dsimp only
    rw [Workshop.ofLearner_apply hl, hdump]
    rfl
  | names names =>
    cases hmap
    show native (Workshop.ofLearner h (·.dump (.ofNames names) statistics format.name)) w = _
    rw [native_apply, Workshop.ofLearner_apply hl, hdump]
    rfl

/-- Importance is taken from the structured dumps. -/
theorem importance_apply (hl : w.learner? h = some learner) (hmap : naming.featureMap w.files = .ok map)
    (version : Int32) (kind : Importance) :
    importance Workshop.engine ⟨some h, version⟩ naming kind.name w =
      ((Importance.ofJsonDump (learner.forest.trees.map (·.tree.dump map true .json)) kind).mapError
        .native, w.setLearner h learner) := by
  have hkind : Importance.ofName kind.name = .ok kind := by cases kind <;> rfl
  have hdump : statisticsDump Workshop.engine ⟨some h, version⟩ naming w =
      (.ok (.json, learner.forest.trees.map (·.tree.dump map true .json)),
        w.setLearner h learner) := by
    rw [statisticsDump, dump_apply hl hmap]
  rw [importance, hkind]
  dsimp only
  rw [bind_apply, hdump]
  exact judge_apply _ _

/-- Let the trees of a model be valid and the statistics of its splits finite, so that each of
these is read off the dumps. If no node is too deep, every importance can be had: its keys are
those of the features that are split on, and the value of a feature is its score by the splits on
it, as they come in preorder, tree after tree. If one is too deep, there is only an error. -/
theorem importance_of_isFinite (hl : w.learner? h = some learner) (version : Int32)
    (hvalid : ∀ t ∈ learner.forest.trees, ∃ features, t.tree.validate features = .ok ())
    (hfinite : ∀ n ∈ learner.splits, n.gain.isFinite ∧ n.cover.isFinite) (kind : Importance) :
    let lease : Lease := ⟨some h, version⟩
    let result := (lease.importance Workshop.engine (.file none) kind.name w).1
    (∀ n ∈ learner.splits, ∃ x, kind.summand? n = some x) ∧
      ((∀ t ∈ learner.forest.trees, t.tree.IsShallow) → ∃ scores, result = .ok scores ∧
        ∀ key x, scores.get? key = some x ↔ ∃ i : UInt32, key = "f" ++ toString i.toNat ∧
          (∃ n ∈ learner.splits, n.feature = i) ∧
          x = kind.scoreOf (learner.splits.filter (·.feature = i))) ∧
      ((∃ t ∈ learner.forest.trees, ¬t.tree.IsShallow) →
        result = .error (.native .malformedDump)) := by
  intro lease result
  have hsummands : ∀ n ∈ learner.splits, ∃ x, kind.summand? n = some x :=
    fun n hn => kind.exists_summand?_eq (hfinite n hn)
  let value (n : Node) : Double := (kind.summand? n).getD 0
  have hvalue : ∀ n ∈ learner.splits, kind.summand? n = some (value n) := by
    intro n hn
    obtain ⟨x, hx⟩ := hsummands n hn
    show kind.summand? n = some ((kind.summand? n).getD 0)
    rw [hx, Option.getD_some]
  have hdumps := Importance.ofJsonDump_dump kind .empty value hvalid hvalue
  have hresult : result = (Importance.ofJsonDump _ kind).mapError .native :=
    congrArg Prod.fst (@importance_apply w h learner (.file none) .empty hl rfl version kind)
  rw [hdumps] at hresult
  refine ⟨hsummands, fun hshallow => ?_, fun ⟨t, ht, hdeep⟩ => ?_⟩
  · rw [if_pos hshallow] at hresult
    refine ⟨_, hresult, fun key x => ?_⟩
    refine (Importance.get?_scores_iff kind .empty hvalue key x).trans ⟨?_, ?_⟩
    · rintro ⟨⟨n, hn, rfl⟩, rfl⟩
      simp only [FeatureMap.name_empty_inj]
      exact ⟨n.feature, rfl, ⟨n, hn, rfl⟩, rfl⟩
    · rintro ⟨i, rfl, ⟨n, hn, rfl⟩, rfl⟩
      have hname : "f" ++ toString n.feature.toNat = FeatureMap.empty.name n.feature := rfl
      simp only [hname, FeatureMap.name_empty_inj]
      exact ⟨⟨n, hn, rfl⟩, trivial⟩
  · rw [if_neg fun hall => hdeep (hall t ht)] at hresult
    exact hresult

end Lease

namespace Learner

/-- A model of one tree, in which the splits stand one below the other. -/
def chain (depth : Nat) : Learner :=
  let node (i : Nat) : Node :=
    if i % 2 = 0 ∧ i < 2 * depth then ⟨0, 1, some (i + 1, i + 2), true, 0, 1, 2⟩ else .leaf 1 1
  { stump with forest := ⟨[⟨⟨((List.range (2 * depth + 1)).map node).toArray⟩, 0⟩]⟩ }

/-- Two splits are scored, but of sixty-four that stand one below the other none is. -/
theorem importance_of_isFinite_chain :
    let lease : Lease := ⟨some ⟨1, by decide⟩, 0⟩
    let result (depth : Nat) :=
      (lease.importance Workshop.engine (.file none) "weight" (soleWorkshop (chain depth))).1
    (∃ scores, result 2 = .ok scores ∧ scores.get? "f0" = some 2 ∧ scores.get? "f1" = none) ∧
      result 64 = .error (.native .malformedDump) := by
  intro lease result
  have hvalid : ∀ depth ∈ [2, 64], ∀ t ∈ (chain depth).forest.trees,
      t.tree.validate 1 = .ok () := by decide +kernel
  have hfinite : ∀ depth ∈ [2, 64], ∀ n ∈ (chain depth).splits,
      n.gain.isFinite ∧ n.cover.isFinite := by decide +kernel
  have hresult : ∀ depth ∈ [2, 64], _ := fun depth hdepth =>
    @Lease.importance_of_isFinite (soleWorkshop (chain depth)) ⟨1, by decide⟩ (chain depth) rfl 0
      (fun t ht => ⟨1, hvalid depth hdepth t ht⟩) (hfinite depth hdepth) .weight
  obtain ⟨-, hshallow, -⟩ := hresult 2 (by decide)
  obtain ⟨-, -, hdeep⟩ := hresult 64 (by decide)
  refine ⟨?_, hdeep (by decide +kernel)⟩
  obtain ⟨scores, hscores, hkeys⟩ := hshallow (by decide)
  have hsplits : (chain 2).splits = [⟨0, 1, some (1, 2), true, 0, 1, 2⟩,
      ⟨0, 1, some (3, 4), true, 0, 1, 2⟩] := by decide
  rw [hsplits] at hkeys
  refine ⟨scores, hscores, (hkeys _ _).mpr ⟨0, by decide, by decide, by decide⟩, ?_⟩
  refine Option.eq_none_iff_forall_ne_some.mpr fun x hx => ?_
  obtain ⟨i, hkey, ⟨n, hn, rfl⟩, -⟩ := (hkeys _ _).mp hx
  simp only [List.mem_cons, List.not_mem_nil, or_false] at hn
  rcases hn with rfl | rfl <;> exact absurd hkey (by decide)

end Learner

end BoostedTrees
