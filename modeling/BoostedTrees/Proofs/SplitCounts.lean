import BoostedTrees.Proofs.CutText
import BoostedTrees.Proofs.DumpLines
import BoostedTrees.Proofs.ImportanceScores
import BoostedTrees.Proofs.NumberText
import BoostedTrees.Proofs.WireForm

/-!
# Split counts from text and from structured dumps

The splits on every feature can be counted in two ways: by the lines of the text dumps, where
the name of the feature is cut out between a bracket and the condition, and by the nodes of the
structured dumps, which hold the name as a text of its own. Names are any texts, and the text
dump shows them as they are. So the two counts agree just if no feature that is split on has a
name with a closing bracket, a less-than sign or a line feed, which end the name too early.

## Main definitions

* `FeatureMap.IsLegible`: a name that is cut out of the text dump unchanged
* `Dictionary.counts`: how often every text occurs in a list

## Main results

* `Importance.splitFeature?_eq_some`: what is cut out of a line holds none of the three marks
* `Tree.splitFeature?_dumpRow`: what is cut out of the line of a split
* `Tree.lineFeatures_dumpText`: the names that the lines of a text dump show
* `Dictionary.sum_counts`: all counts together
* `Lease.splitCounts_eq_importance_iff`: when both ways to count agree
-/

namespace BoostedTrees

/-! ## Counts -/

namespace Dictionary

/-- Where a value is put in, the sum of all values grows by what is new of it. -/
theorem sum_insert (d : Dictionary Nat) (key : String) (value : Nat) :
    ((d.insert key value).entries.map (·.2)).sum + (d.get? key).getD 0 =
      (d.entries.map (·.2)).sum + value := by
  obtain ⟨l, hsorted⟩ := d
  simp only [insert, get?]
  induction l with
  | nil => simp [place]
  | cons entry rest ih =>
    obtain ⟨hfirst, hrest⟩ := List.pairwise_cons.mp hsorted
    by_cases hkey : key = entry.1
    · subst hkey
      simp [place]
      omega
    · rw [List.find?_cons_of_neg (by simpa using Ne.symm hkey)]
      by_cases hbefore : comesBefore key.toList entry.1.toList
      · -- All that follow come after the key, too.
        have hnone : rest.find? (·.1 = key) = none := by
          refine List.find?_eq_none.mpr fun e he heq => ?_
          have hafter := comesBefore_trans hbefore (hfirst e he)
          rw [of_decide_eq_true heq, comesBefore_irrefl] at hafter
          cases hafter
        simp [place, hkey, hbefore, hnone]
        omega
      · have hrest := ih hrest
        simp only [place, hkey, hbefore, if_false, List.map_cons, List.sum_cons,
          Bool.false_eq_true]
        omega

/-- How often every text occurs in a list. -/
def counts (keys : List String) : Dictionary Nat :=
  keys.foldl (fun counts key => counts.insert key ((counts.get? key).getD 0 + 1)) .empty

theorem counts_concat (keys : List String) (key : String) :
    counts (keys ++ [key]) =
      (counts keys).insert key (((counts keys).get? key).getD 0 + 1) := by
  rw [counts, List.foldl_append]
  rfl

theorem get?_counts (keys : List String) (key : String) :
    (counts keys).get? key = if key ∈ keys then some (keys.count key) else none := by
  have hkeys : keys.filter (· = key) = List.replicate (keys.count key) key := List.filter_eq key
  refine (get?_foldl_insert id (fun found _ => found.getD 0 + 1) keys .empty key).trans ?_
  have hcount : ∀ n, (List.replicate n key).foldl (fun found _ => some (found.getD 0 + 1)) none =
      if n = 0 then none else some n := by
    intro n
    induction n with
    | zero => rfl
    | succ n ih =>
      rw [List.replicate_succ', List.foldl_append, ih, if_neg n.succ_ne_zero]
      cases n <;> rfl
  simp only [id, hkeys, get?_empty, hcount, List.count_eq_zero, ite_not]

/-- All counts together are as many as there are texts. -/
theorem sum_counts (keys : List String) : ((counts keys).entries.map (·.2)).sum = keys.length := by
  induction keys using List.reverseRecOn with
  | nil => rfl
  | append_singleton keys last ih =>
    have hsum := (counts keys).sum_insert last (((counts keys).get? last).getD 0 + 1)
    rw [counts_concat, List.length_append, List.length_singleton]
    omega

end Dictionary

/-! ## Lines -/

/-- The name is not ended early by what stands around it in the text dump. -/
def FeatureMap.IsLegible (name : List Char) : Prop := ']' ∉ name ∧ '<' ∉ name ∧ '\n' ∉ name

namespace Importance

open Text

/-- What is cut out of a line stands there and holds neither mark. -/
theorem splitFeature?_eq_some {line name : List Char} (h : splitFeature? line = some name) :
    ']' ∉ name ∧ '<' ∉ name ∧ ∀ c ∈ name, c ∈ line := by
  rw [splitFeature?] at h
  obtain ⟨⟨start, rest⟩, hopen, hrest⟩ := Option.bind_eq_some_iff.mp h
  obtain ⟨⟨inner, after⟩, hclose, hlabel⟩ := Option.bind_eq_some_iff.mp hrest
  clear h hrest
  obtain ⟨rfl, -⟩ := eq_of_cutFirst_eq_some hopen
  obtain ⟨rfl, hinner⟩ := eq_of_cutFirst_eq_some hclose
  have hline : ∀ c ∈ inner, c ∈ start ++ '[' :: (inner ++ ']' :: after) := by
    intro c hc
    simp [hc]
  dsimp only at hlabel
  split at hlabel
  · next found condition hcut =>
    cases hlabel
    obtain ⟨rfl, hname⟩ := eq_of_cutFirst_eq_some hcut
    exact ⟨fun hmem => hinner (List.mem_append_left _ hmem), hname,
      fun c hc => hline c (List.mem_append_left _ hc)⟩
  · next hcut =>
    cases hlabel
    exact ⟨hinner, cutFirst_eq_none_iff.mp hcut, hline⟩

/-- A name without marks is cut out of its line. -/
theorem splitFeature?_label {start name condition : List Char} (hstart : '[' ∉ start)
    (hclose : ']' ∉ name) (hless : '<' ∉ name) (hcondition : ']' ∉ condition) (rest : List Char) :
    splitFeature? (start ++ '[' :: (name ++ '<' :: condition ++ ']' :: rest)) = some name := by
  have hlabel : ']' ∉ name ++ '<' :: condition := by
    simp [hclose, hcondition]
  simp only [splitFeature?, cutFirst_append hstart, cutFirst_append hlabel, cutFirst_append hless,
    Option.bind_eq_bind, Option.bind_some]
  rfl

/-- A name is cut out of its line with any condition behind it. -/
theorem splitFeature?_condition {start name condition : List Char} (hstart : '[' ∉ start)
    (hname : FeatureMap.IsLegible name) (hcondition : FeatureMap.Condition condition)
    (rest : List Char) :
    splitFeature? (start ++ '[' :: (name ++ condition ++ ']' :: rest)) = some name := by
  obtain ⟨hclose, hless, -⟩ := hname
  cases hcondition with
  | none =>
    rw [List.append_nil]
    simp only [splitFeature?, cutFirst_append hstart, cutFirst_append hclose,
      cutFirst_eq_none_iff.mpr hless, Option.bind_eq_bind, Option.bind_some]
    rfl
  | below hnumber =>
    have hnumber := (FeatureMap.Condition.below hnumber).notMem (c := ']') rfl (by simp [Single.marks])
    exact splitFeature?_label hstart hclose hless (List.not_mem_of_not_mem_cons hnumber) rest

theorem splitFeature?_eq_none {line : List Char} (h : '[' ∉ line) : splitFeature? line = none := by
  rw [splitFeature?, cutFirst_eq_none_iff.mpr h]
  rfl

/-- The names that are cut out of lines. -/
def lineFeatures (lines : List (List Char)) : List String :=
  (lines.filterMap splitFeature?).map String.ofList

theorem lineFeatures_flatMap {α : Type} (f : α → List (List Char)) (l : List α) :
    lineFeatures (l.flatMap f) = l.flatMap fun a => lineFeatures (f a) := by
  simp only [lineFeatures, List.filterMap_flatMap, List.map_flatMap]

theorem splitCounts_eq_counts (trees : List String) :
    splitCounts trees = .counts (lineFeatures (dumpLines trees)) := by
  rw [splitCounts, Dictionary.counts, lineFeatures, List.foldl_map, List.foldl_filterMap]
  congr 1
  funext counts line
  cases splitFeature? line <;> rfl

/-- Every name that is cut out of a dump is legible. -/
theorem isLegible_of_mem_lineFeatures {trees : List String} {name : String}
    (h : name ∈ lineFeatures (dumpLines trees)) : FeatureMap.IsLegible name.toList := by
  obtain ⟨chars, hchars, rfl⟩ := List.mem_map.mp h
  obtain ⟨line, hline, hfeature⟩ := List.mem_filterMap.mp hchars
  obtain ⟨tree, -, hline⟩ := List.mem_flatMap.mp hline
  obtain ⟨hclose, hless, hmem⟩ := splitFeature?_eq_some hfeature
  rw [String.toList_ofList]
  exact ⟨hclose, hless, fun hfeed => notMem_of_mem_lines hline (hmem _ hfeed)⟩

end Importance

/-! ## Text dumps -/

namespace Tree

open Importance Text

variable {t : Tree} {map : FeatureMap} {statistics : Bool} {p : Nat × Nat}

/-- The feature of a split is found in its line. -/
theorem splitFeature?_dumpRow {left right : Nat} (h : (t.node p.1).children = some (left, right))
    (hname : FeatureMap.IsLegible (map.name (t.node p.1).feature).toList) :
    splitFeature? (t.dumpRow map statistics p) = some (map.name (t.node p.1).feature).toList := by
  obtain ⟨condition, hcondition, hlabel⟩ :=
    map.exists_label_eq (t.node p.1).feature (t.node p.1).threshold
  have hstart : '[' ∉ List.replicate p.2 '\t' ++ (Nat.toDigits 10 p.1 ++ [':']) := by
    simp [isForeign_bracket.notMem_toDigits]
  rw [dumpRow, dumpLine_of_split h, hlabel]
  have hsplit := splitFeature?_condition hstart hname hcondition
  simp only [List.append_assoc, List.cons_append, List.nil_append] at hsplit ⊢
  exact hsplit _

/-- The line of a leaf shows no split. -/
theorem splitFeature?_dumpRow_of_leaf (h : (t.node p.1).children = none) :
    splitFeature? (t.dumpRow map statistics p) = none := by
  apply splitFeature?_eq_none
  rw [dumpRow, List.mem_append, not_or]
  exact ⟨by simp, isForeign_bracket.notMem_dumpLine h⟩

variable (t) (names : List String)

/-- The line of a node as it stands in the text dump, indented by its depth. -/
def indentedLine (p : Nat × Nat) : List Char :=
  List.replicate p.2 '\t' ++ t.dumpLine (.ofNames names) false p.1

variable {t names}

/-- The lines of a text dump show the features of the splits, in preorder. -/
theorem lineFeatures_dumpText (h : ∀ n ∈ t.splits,
      FeatureMap.IsLegible ((FeatureMap.ofNames names).name n.feature).toList) :
    lineFeatures (lines (t.dumpText (.ofNames names) false).toList) =
      t.splits.map fun n => (FeatureMap.ofNames names).name n.feature := by
  have hlines : lines (t.dumpText (.ofNames names) false).toList =
      t.outline.map (t.indentedLine names) := lines_dumpText fun n hn => (h n hn).2.2
  rw [hlines, lineFeatures, List.filterMap_map, splits, preorder]
  rw [splits, preorder] at h
  clear hlines
  generalize t.outline = outline at h ⊢
  induction outline with
  | nil => rfl
  | cons p rest ih =>
    simp only [List.map_cons] at h ⊢
    cases hchildren : (t.node p.1).children with
    | none =>
      have hleaf : (t.node p.1).isLeaf = true := by rw [Node.isLeaf, hchildren]; rfl
      have hnone : (splitFeature? ∘ t.indentedLine names) p = none :=
        splitFeature?_dumpRow_of_leaf hchildren
      rw [List.filter_cons_of_neg (by simp [hleaf])] at h ⊢
      rw [List.filterMap_cons_none hnone]
      exact ih h
    | some children =>
      obtain ⟨left, right⟩ := children
      have hsplit : (t.node p.1).isLeaf = false := by rw [Node.isLeaf, hchildren]; rfl
      rw [List.filter_cons_of_pos (by simp [hsplit])] at h ⊢
      obtain ⟨hfirst, hrest⟩ := List.forall_mem_cons.mp h
      have hsome : (splitFeature? ∘ t.indentedLine names) p = some _ :=
        splitFeature?_dumpRow hchildren hfirst
      rw [List.filterMap_cons_some hsome, List.map_cons, ih hrest, List.map_cons,
        String.ofList_toList]

end Tree

namespace Importance

variable {trees : List OutputTree} (names : List String)

/-- The lines of the text dumps of trees show the features of all splits, tree after tree. -/
theorem lineFeatures_dumpLines (h : ∀ n ∈ trees.flatMap (·.tree.splits),
      FeatureMap.IsLegible ((FeatureMap.ofNames names).name n.feature).toList) :
    lineFeatures (dumpLines (trees.map (·.tree.dump (.ofNames names) false .text))) =
      (trees.flatMap (·.tree.splits)).map fun n => (FeatureMap.ofNames names).name n.feature := by
  rw [dumpLines, List.flatMap_map, lineFeatures_flatMap, List.map_flatMap]
  refine List.flatMap_congr fun t ht => ?_
  exact Tree.lineFeatures_dumpText fun n hn => h n (List.mem_flatMap.mpr ⟨t, ht, hn⟩)

end Importance

/-- A model of valid trees has as many splits as there are in the arrays of its trees. -/
theorem Learner.length_splits {l : Learner}
    (hvalid : ∀ t ∈ l.forest.trees, ∃ features, t.tree.validate features = .ok ()) :
    l.splits.length = (l.forest.trees.map fun t => t.tree.nodes.toList.countP (!·.isLeaf)).sum := by
  rw [splits, List.length_flatMap]
  congr 1
  refine List.map_congr_left fun t ht => ?_
  obtain ⟨features, hfeatures⟩ := hvalid t ht
  rw [(Tree.perm_splits_of_validate hfeatures).length_eq, List.countP_eq_length_filter]

/-! ## Both counts through a lease -/

namespace Lease

open LeaseM

variable {w : Workshop} {h : Handle} {learner : Learner} {names : List String}

/-- The splits are counted in the text dumps. -/
theorem splitCounts_apply (hl : w.learner? h = some learner) (version : Int32) :
    splitCounts Workshop.engine ⟨some h, version⟩ (.names names) w =
      (.ok (Importance.splitCounts
        (learner.forest.trees.map (·.tree.dump (.ofNames names) false .text))),
        w.setLearner h learner) := by
  have hdump := @dump_apply w h learner (.names names) _ hl rfl version false .text
  rw [splitCounts, bind_apply, hdump]
  rfl

/-- In the structured dumps a name counts as often as there are splits with it. -/
theorem get?_importance_weight {naming : Naming} {map : FeatureMap}
    (hl : w.learner? h = some learner) (hmap : naming.featureMap w.files = .ok map) {version : Int32}
    (hvalid : ∀ t ∈ learner.forest.trees, ∃ features, t.tree.validate features = .ok ())
    {scores : Dictionary Double}
    (hscores : (importance Workshop.engine ⟨some h, version⟩ naming "weight" w).1 = .ok scores)
    (key : String) (x : Double) : scores.get? key = some x ↔
      (∃ n ∈ learner.splits, map.name n.feature = key) ∧
        x = Double.ofNat (learner.splits.countP (map.name ·.feature = key)) := by
  have hvalue : ∀ n ∈ learner.splits, Importance.weight.summand? n = some 0 := fun _ _ => rfl
  have happly := importance_apply hl hmap version .weight
  rw [Importance.ofJsonDump_dump .weight map (fun _ => 0) hvalid hvalue] at happly
  have hok := hscores.symm.trans (congrArg Prod.fst happly)
  split at hok
  · cases hok
    rw [List.countP_eq_length_filter, eq_comm (a := x)]
    exact Importance.get?_scores_iff .weight map hvalue key x
  · cases hok

/-- Let the splits of a model be counted in its text dumps and in its structured dumps. In these
every feature that is split on counts as often as there are splits on it. In the text dumps it
does so just if no feature that is split on has an illegible name, and then the counts are
together as many as the trees have splits. -/
theorem splitCounts_eq_importance_iff (hl : w.learner? h = some learner) (version : Int32)
    (hvalid : ∀ t ∈ learner.forest.trees, ∃ features, t.tree.validate features = .ok ())
    {counts : Dictionary Nat} {scores : Dictionary Double}
    (hcounts : (splitCounts Workshop.engine ⟨some h, version⟩ (.names names) w).1 = .ok counts)
    (hscores : (importance Workshop.engine ⟨some h, version⟩ (.names names) "weight" w).1 =
      .ok scores) :
    let name (n : Node) : String := (FeatureMap.ofNames names).name n.feature
    (∀ key x, scores.get? key = some x ↔ (∃ n ∈ learner.splits, name n = key) ∧
        x = Double.ofNat (learner.splits.countP (name · = key))) ∧
      ((∀ key, scores.get? key = (counts.get? key).map Double.ofNat) ↔
        ∀ n ∈ learner.splits, FeatureMap.IsLegible (name n).toList) ∧
      ((∀ n ∈ learner.splits, FeatureMap.IsLegible (name n).toList) →
        (counts.entries.map (·.2)).sum =
          (learner.forest.trees.map fun t => t.tree.nodes.toList.countP (!·.isLeaf)).sum) := by
  intro name
  have hcounts : counts = .counts (Importance.lineFeatures (Importance.dumpLines
      (learner.forest.trees.map (·.tree.dump (.ofNames names) false .text)))) := by
    rw [splitCounts_apply hl, Importance.splitCounts_eq_counts] at hcounts
    exact (Except.ok.inj hcounts).symm
  have hkey : ∀ key x, scores.get? key = some x ↔ (∃ n ∈ learner.splits, name n = key) ∧
      x = Double.ofNat (learner.splits.countP (name · = key)) :=
    @get?_importance_weight w h learner (.names names) _ hl rfl version hvalid _ hscores
  refine ⟨hkey, ⟨fun hsame n hn => ?_, fun hlegible key => ?_⟩, fun hlegible => ?_⟩
  · -- What is counted in the text was cut out of it.
    have hscore := (hkey (name n) _).mpr ⟨⟨n, hn, rfl⟩, rfl⟩
    rw [hsame, hcounts, Dictionary.get?_counts] at hscore
    split at hscore
    · next hmem => exact Importance.isLegible_of_mem_lineFeatures hmem
    · cases hscore
  · have hcount : (learner.splits.map name).count key =
        learner.splits.countP (name · = key) := by
      rw [List.count_eq_countP, List.countP_map]
      rfl
    have hfound : counts.get? key = if key ∈ learner.splits.map name then
        some ((learner.splits.map name).count key) else none := by
      rw [hcounts, Importance.lineFeatures_dumpLines names hlegible]
      exact Dictionary.get?_counts _ _
    refine Option.ext fun x => (hkey key x).trans ?_
    by_cases hmem : key ∈ learner.splits.map name
    · rw [hfound, if_pos hmem, hcount, Option.map_some, Option.some.injEq,
        and_iff_right (List.mem_map.mp hmem), eq_comm]
    · rw [hfound, if_neg hmem]
      exact iff_of_false (fun hboth => hmem (List.mem_map.mpr hboth.1)) nofun
  · rw [hcounts, Dictionary.sum_counts, Importance.lineFeatures_dumpLines names hlegible,
      List.length_map]
    exact Learner.length_splits hvalid

/-- The split of a stump is counted alike under a plain name, but not under one with a bracket. -/
theorem splitCounts_eq_importance_iff_stump :
    let lease : Lease := ⟨some ⟨1, by decide⟩, 0⟩
    let w : Workshop := Learner.soleWorkshop .stump
    (∃ counts scores, (lease.splitCounts Workshop.engine (.names ["a b"]) w).1 = .ok counts ∧
      (lease.importance Workshop.engine (.names ["a b"]) "weight" w).1 = .ok scores ∧
      (∀ key, scores.get? key = (counts.get? key).map Double.ofNat) ∧
      (counts.entries.map (·.2)).sum = 1) ∧
    ∃ counts scores, (lease.splitCounts Workshop.engine (.names ["a]b"]) w).1 = .ok counts ∧
      (lease.importance Workshop.engine (.names ["a]b"]) "weight" w).1 = .ok scores ∧
      ¬∀ key, scores.get? key = (counts.get? key).map Double.ofNat := by
  intro lease w
  have hl : w.learner? ⟨1, by decide⟩ = some .stump := rfl
  have hvalid : ∀ t ∈ Learner.stump.forest.trees, ∃ features,
      t.tree.validate features = .ok () := by
    intro t ht
    rw [List.mem_singleton.mp ht]
    exact ⟨1, by decide +kernel⟩
  have hruns : ∀ names, ∃ counts scores,
      (lease.splitCounts Workshop.engine (.names names) w).1 = .ok counts ∧
        (lease.importance Workshop.engine (.names names) "weight" w).1 = .ok scores := by
    intro names
    have happly := @importance_apply w _ _ (.names names) _ hl rfl 0 .weight
    rw [Importance.ofJsonDump_dump .weight _ (fun _ => 0) hvalid fun _ _ => rfl,
      if_pos (by decide)] at happly
    exact ⟨_, _, congrArg Prod.fst (splitCounts_apply hl 0), congrArg Prod.fst happly⟩
  have hsplits : Learner.stump.splits = [⟨0, 2, some (1, 2), true, 0, 8, 2⟩] := by decide
  constructor
  · obtain ⟨counts, scores, hcounts, hscores⟩ := hruns ["a b"]
    obtain ⟨-, hsame, hsum⟩ := splitCounts_eq_importance_iff hl 0 hvalid hcounts hscores
    have hlegible : ∀ n ∈ Learner.stump.splits,
        FeatureMap.IsLegible ((FeatureMap.ofNames ["a b"]).name n.feature).toList := by
      simp [hsplits, FeatureMap.IsLegible, FeatureMap.name, FeatureMap.ofNames]
    exact ⟨counts, scores, hcounts, hscores, hsame.mpr hlegible, hsum hlegible⟩
  · obtain ⟨counts, scores, hcounts, hscores⟩ := hruns ["a]b"]
    obtain ⟨-, hsame, -⟩ := splitCounts_eq_importance_iff hl 0 hvalid hcounts hscores
    refine ⟨counts, scores, hcounts, hscores, fun hall => ?_⟩
    have hlegible := hsame.mp hall
    simp [hsplits, FeatureMap.IsLegible, FeatureMap.name, FeatureMap.ofNames] at hlegible

end Lease

end BoostedTrees
