import BoostedTrees.Proofs.CacheInvariants
import Mathlib.Algebra.GroupWithZero.Nat

/-!
# Requests that fail change nothing

A request that is meant to change a learner either succeeds or leaves the learner as it
was. For most requests the checks simply stand before the first change. A round with the
gradient of the objective is different: it fixes the number of features, remembers its
matrix, and then hands the gradient on to a round with a given gradient, which checks
everything again. None of the later checks fails. The margins exist because the metadata
was found to fit, the gradient has an entry for every margin because it is computed from
them, and the number of features was settled a moment ago.

## Main definitions

* `Request.writes`: the requests that are meant to change a learner

## Main results

* `Objective.size_gradient`: a gradient has an entry for every output of every row
* `Learner.round_of_fixed`: once the features are fixed, a round of training succeeds
* `Learner.answer_of_not_succeeded`: a request that fails changes nothing but what is
  remembered, and not even that if it was meant to change the learner
-/

namespace BoostedTrees

open EngineM

/-! ## Sizes of pieces -/

section Pieces

variable {α : Type}

/-- The first pieces of an array, of one size each, hold as much as there is. -/
theorem sum_size_extract (a : Array α) (width count : Nat) :
    ((List.range count).map fun i => (a.extract (i * width) ((i + 1) * width)).size).sum =
      min (count * width) a.size := by
  induction count with
  | zero => simp
  | succ count ih =>
    rw [List.range_succ, List.map_append, List.sum_append, ih, List.map_singleton,
      List.sum_singleton, Array.size_extract, Nat.succ_mul]
    omega

/-- Consecutive runs that fit an array cut out as much as they are long. -/
theorem sum_size_slice_chain (a : Array α) (start : Nat) (lengths : List Nat)
    (h : start + lengths.sum ≤ a.size) :
    ((Span.chain start lengths).map fun s => (s.slice a).size).sum = lengths.sum := by
  induction lengths generalizing start with
  | nil => rfl
  | cons length rest ih =>
    rw [List.sum_cons] at h ⊢
    have hrest := ih (start + length) (by omega)
    have hfirst : ((⟨start, length⟩ : Span).slice a).size = length := by
      simp only [Span.slice, Span.stop, Array.size_extract]
      omega
    rw [Span.chain, List.map_cons, List.sum_cons, hrest, hfirst]

end Pieces

/-! ## Sizes of gradients -/

/-- Both derivatives are given at the same number of places. -/
def Gradient.HasSize (g : Gradient) (n : Nat) : Prop := g.first.size = n ∧ g.second.size = n

namespace Gradient

theorem hasSize_ofList (entries : List (Single × Single)) :
    (ofList entries).HasSize entries.length := by
  simp only [HasSize, ofList, List.size_toArray, List.length_map, and_self]

theorem HasSize.append {g g' : Gradient} {n n' : Nat} (h : g.HasSize n) (h' : g'.HasSize n') :
    (g ++ g').HasSize (n + n') := by
  constructor
  · exact Array.size_append.trans (congrArg₂ _ h.1 h'.1)
  · exact Array.size_append.trans (congrArg₂ _ h.2 h'.2)

/-- Gradients one after another are as long as all of them together. -/
theorem hasSize_foldl {ι : Type} {part : ι → Gradient} {size : ι → Nat}
    (h : ∀ i, (part i).HasSize (size i)) (is : List ι) {g : Gradient} {n : Nat}
    (hg : g.HasSize n) :
    ((is.map part).foldl (· ++ ·) g).HasSize (n + (is.map size).sum) := by
  induction is generalizing g n with
  | nil => exact hg
  | cons i is ih =>
    rw [List.map_cons, List.foldl_cons, List.map_cons, List.sum_cons, ← Nat.add_assoc]
    exact ih (hg.append (h i))

end Gradient

namespace Objective

theorem length_softmax (row : List Single) : (softmax row).length = row.length := by
  simp only [softmax, List.length_map]

theorem length_classLoss (weight : Single) (margins : List Single) (label : Single) :
    (classLoss weight margins label).length = margins.length := by
  rw [classLoss, List.length_map, List.length_zipIdx, length_softmax]

theorem hasSize_rankPair {weight : Single} {margins : Array Single} {g : Gradient} {n : Nat}
    (h : g.HasSize n) (pair : Nat × Nat) : (rankPair weight margins g pair).HasSize n := by
  constructor
  · simpa only [rankPair, Array.size_modify] using h.1
  · simpa only [rankPair, Array.size_modify] using h.2

/-- The gradient on a query group has an entry for every row of it. -/
theorem hasSize_rankGroup (weight : Single) (margins labels : Array Single) :
    (rankGroup weight margins labels).HasSize labels.size := by
  have hpairs : ∀ (pairs : List (Nat × Nat)) (g : Gradient), g.HasSize labels.size →
      (pairs.foldl (rankPair weight margins) g).HasSize labels.size := by
    intro pairs
    induction pairs with
    | nil => exact fun g hg => hg
    | cons pair rest ih => exact fun g hg => ih _ (hasSize_rankPair hg pair)
  obtain ⟨hfirst, hsecond⟩ := hpairs
    ((orderedPairs labels.size).filter fun p => !decide (labels.getD p.1 0 ≤ labels.getD p.2 0))
    ⟨Array.replicate labels.size 0, Array.replicate labels.size 0⟩
    ⟨Array.size_replicate, Array.size_replicate⟩
  exact ⟨hfirst, (Array.size_map ..).trans hsecond⟩

variable {o : Objective} {outputs : Nat} {m : Matrix} {margins : Array Single}

/-- A loss by row gives an entry for every row. -/
theorem hasSize_perRow (loss : Single → Single → Single → Single × Single) :
    (Gradient.ofList ((List.range m.rows).map fun i =>
      loss (m.rowWeight i) (margins.getD i 0) (m.label i))).HasSize m.rows := by
  have h := Gradient.hasSize_ofList ((List.range m.rows).map fun i =>
    loss (m.rowWeight i) (margins.getD i 0) (m.label i))
  rwa [List.length_map, List.length_range] at h

/-- A loss by class gives an entry for every margin. -/
theorem hasSize_perClass (hmargins : margins.size = entryCount m.rows outputs) :
    (Gradient.ofList ((List.range m.rows).flatMap fun i =>
      classLoss (m.rowWeight i) (margins.extract (i * outputs) ((i + 1) * outputs)).toList
        (m.label i))).HasSize (entryCount m.rows outputs) := by
  have h := Gradient.hasSize_ofList ((List.range m.rows).flatMap fun i =>
    classLoss (m.rowWeight i) (margins.extract (i * outputs) ((i + 1) * outputs)).toList
      (m.label i))
  -- The rows go through all margins, of which there are no more than fill the rows.
  have hall : min (m.rows * outputs) margins.size = entryCount m.rows outputs := by
    rw [hmargins]
    exact Nat.min_eq_right (Nat.mod_le _ _)
  simpa only [List.length_flatMap, length_classLoss, Array.length_toList, sum_size_extract,
    hall] using h

theorem sum_groupLengths (hmeta : m.checkMetadata outputs = .ok ()) :
    m.groupLengths.sum = m.rows ∧ m.labels.size = m.rows := by
  simp only [Matrix.checkMetadata] at hmeta
  split at hmeta
  · cases hmeta
  next hcovered =>
    split at hmeta
    · cases hmeta
    next hlabels =>
      refine ⟨?_, Decidable.not_not.mp hlabels⟩
      rw [List.sum_eq_foldl]
      exact Decidable.not_not.mp hcovered

/-- The gradients on the query groups have an entry for every row that a group covers. -/
theorem hasSize_perGroup (hcovered : m.groupLengths.sum = m.rows)
    (hlabels : m.labels.size = m.rows) :
    ((m.groupSpans.zipIdx.map fun p =>
      rankGroup (m.groupWeight p.2) (p.1.slice margins) (p.1.slice m.labels)).foldl
        (· ++ ·) Gradient.empty).HasSize m.rows := by
  have hempty : Gradient.empty.HasSize 0 := ⟨rfl, rfl⟩
  have h := Gradient.hasSize_foldl (fun p : Span × Nat => hasSize_rankGroup (m.groupWeight p.2)
    (p.1.slice margins) (p.1.slice m.labels)) m.groupSpans.zipIdx hempty
  have hsizes : (m.groupSpans.zipIdx.map fun p => (p.1.slice m.labels).size) =
      m.groupSpans.map fun span => (span.slice m.labels).size := by
    conv_rhs => rw [← List.zipIdx_map_fst 0 m.groupSpans, List.map_map]
    rfl
  rwa [hsizes, Matrix.groupSpans, sum_size_slice_chain _ _ _ (by omega), hcovered,
    Nat.zero_add] at h

/-- A gradient has an entry for every output of every row, if the metadata fits the rows and
there is a margin for every output. -/
theorem size_gradient (houtputs : o.isMulticlass = false → outputs = 1)
    (hrows : m.rows < sizeBound) (hmeta : m.checkMetadata outputs = .ok ())
    (hmargins : margins.size = entryCount m.rows outputs) :
    (o.gradient outputs m margins).HasSize (entryCount m.rows outputs) := by
  have hsingle : o.isMulticlass = false → entryCount m.rows outputs = m.rows := by
    intro ho
    rw [houtputs ho, entryCount_of_lt (by omega), Nat.mul_one]
  cases o with
  | squaredError => exact (hsingle rfl).symm ▸ hasSize_perRow squaredLoss
  | logistic => exact (hsingle rfl).symm ▸ hasSize_perRow logisticLoss
  | binaryLogistic => exact (hsingle rfl).symm ▸ hasSize_perRow logisticLoss
  | binaryMargin => exact (hsingle rfl).symm ▸ hasSize_perRow logisticLoss
  | classProbabilities => exact hasSize_perClass hmargins
  | mostLikelyClass => exact hasSize_perClass hmargins
  | pairwiseRank =>
    obtain ⟨hcovered, hlabels⟩ := sum_groupLengths hmeta
    exact (hsingle rfl).symm ▸ hasSize_perGroup hcovered hlabels

end Objective

/-! ## Rounds of training -/

namespace Learner

variable {l : Learner} {m : Matrix}

theorem outputs_eq_one (l : Learner) (h : l.settings.objective.isMulticlass = false) :
    l.outputs = 1 := by
  simp only [outputs, Settings.outputs, h, Bool.false_eq_true, if_false]

/-- Once the features are fixed, a gradient that fits the rows is taken. -/
theorem boost_of_fixed (iteration : Int32) {g : Gradient}
    (hg : g.HasSize (l.outputCount m.rows)) (hmeta : m.checkMetadata l.outputs = .ok ())
    (hfeatures : l.features = UInt64.ofNat m.columns) :
    ∃ l', boost iteration m g l = (.ok (), l') := by
  rcases boost_cases iteration m g l with ⟨hrefused, -⟩ | ⟨-, c, h⟩
  · exact absurd ⟨hg.1, hg.2, hmeta, .inl hfeatures.symm⟩ hrefused
  · exact ⟨_, h⟩

/-- A round with a given gradient is refused before anything changes. -/
theorem boost_of_error {iteration : Int32} {g : Gradient} {e : EngineError}
    (h : (boost iteration m g l).1 = .error e) : (boost iteration m g l).2 = l := by
  rcases boost_cases iteration m g l with ⟨-, e', hrefused⟩ | ⟨-, c, hgrown⟩
  · rw [hrefused]
  · rw [hgrown] at h
    cases h

/-- Data that can be trained on has margins to start from. -/
theorem exists_startingMargins (h : l.checkTrainingData m = .ok ()) :
    m.checkMetadata l.outputs = .ok () ∧
      ∃ start, l.startingMargins m.rows m.baseMargin = .ok start := by
  obtain ⟨_, hmeta, h⟩ := Except.bind_eq_ok h
  obtain ⟨_, -, h⟩ := Except.bind_eq_ok h
  obtain ⟨margin, hmargin, -⟩ := Except.bind_eq_ok h
  refine ⟨hmeta, ?_⟩
  unfold startingMargins
  split
  · rw [hmargin]
    exact ⟨_, rfl⟩
  next hgiven =>
    -- Margins that are given have been counted with the metadata.
    have hsize : m.baseMargin.size = l.outputCount m.rows := by
      simp only [Matrix.checkMetadata] at hmeta
      split at hmeta
      · cases hmeta
      split at hmeta
      · cases hmeta
      split at hmeta
      · cases hmeta
      split at hmeta
      · cases hmeta
      next hfits =>
        have hne : m.baseMargin.size ≠ 0 := by
          simpa only [Array.isEmpty_iff_size_eq_zero] using hgiven
        exact Decidable.not_not.mp fun hsize => hfits ⟨hne, hsize⟩
    rw [if_neg (not_not_intro hsize)]
    exact ⟨_, rfl⟩

theorem margins_apply {start : StartingMargins}
    (h : l.startingMargins m.rows m.baseMargin = .ok start) (register : Bool) :
    margins m register l =
      (.ok (addMargins start.toArray (treeSums m register l).1), (treeSums m register l).2) := by
  unfold margins
  rw [bind_apply, check_apply, h]
  rfl

/-- Remembering the matrix changes the cache only, which boosting does not look at. -/
theorem objectiveRound_apply (iteration : Int32) {start : StartingMargins}
    (hstart : l.startingMargins m.rows m.baseMargin = .ok start) :
    ∃ c : MarginCache, objectiveRound iteration m l =
      boost iteration m (l.settings.objective.gradient l.outputs m
        (addMargins start.toArray (treeSums m true l).1)) { l with cache := c } := by
  obtain ⟨c, hc⟩ := Looks.treeSums m true l
  rw [lift_apply] at hc
  dsimp only at hc
  refine ⟨c, ?_⟩
  rw [objectiveRound, bind_apply, margins_apply hstart true, hc]
  dsimp only
  rw [get_bind_apply]
  simp only [outputs]

/-- Once the features are fixed, the gradient of the objective is one that fits. -/
theorem round_of_fixed (hsized : l.cache.Sized) (hrows : m.rows < sizeBound) (iteration : Int32)
    (hmeta : m.checkMetadata l.outputs = .ok ()) {start : StartingMargins}
    (hstart : l.startingMargins m.rows m.baseMargin = .ok start)
    (hfeatures : l.features = UInt64.ofNat m.columns) :
    ∃ l', objectiveRound iteration m l = (.ok (), l') := by
  have hmargins : (addMargins start.toArray (treeSums m true l).1).size =
      entryCount m.rows l.outputs := by
    rw [addMargins, Array.size_zipWith, size_startingMargins hstart, size_treeSums hsized m true,
      outputCount, Nat.min_self]
  have hgradient := Objective.size_gradient l.outputs_eq_one hrows hmeta hmargins
  obtain ⟨c, hround⟩ := objectiveRound_apply iteration hstart
  rw [hround]
  exact boost_of_fixed (l := { l with cache := c }) iteration hgradient hmeta hfeatures

/-- A round with the gradient of the objective is refused before anything changes. -/
theorem update_of_error (hsized : l.cache.Sized) (hrows : m.rows < sizeBound)
    {iteration : Int32} {e : EngineError} (h : (update iteration m l).1 = .error e) :
    (update iteration m l).2 = l := by
  rcases update_cases iteration m l with ⟨e', hrefused⟩ | ⟨hdata, -, hupdate⟩
  · rw [hrefused]
  · -- The features are fixed now, so the round must not fail any more.
    exfalso
    obtain ⟨hmeta, start, hstart⟩ := exists_startingMargins hdata
    obtain ⟨l', hround⟩ := round_of_fixed
      (l := { l with features := UInt64.ofNat m.columns }) hsized hrows iteration hmeta hstart rfl
    rw [hupdate, hround] at h
    cases h

end Learner

/-! ## All requests -/

/-- Whether a request is meant to change the learner. -/
def Request.writes : Request → Bool
  | setParameter .. => true
  | setAttribute .. => true
  | setFeatureInfo .. => true
  | update .. => true
  | boost .. => true
  | loadFile _ => true
  | load _ => true
  | loadConfig _ => true
  | _ => false

namespace Learner

variable {l : Learner} {e : EngineError}

theorem setFeatureInfo_of_error {field : String} {values : List String}
    (h : (setFeatureInfo field values l).1 = .error e) : (setFeatureInfo field values l).2 = l := by
  unfold setFeatureInfo at h ⊢
  rw [get_bind_apply] at h ⊢
  by_cases hlength : values ≠ [] ∧ l.features ≠ 0 ∧ values.length ≠ l.features.toNat
  · simp only [if_pos hlength]
    rfl
  simp only [if_neg hlength] at h ⊢
  split at h
  · cases h
  · cases htype : values.find? fun t => !isFeatureType t with
    | some type => rfl
    | none =>
      simp only [htype] at h
      cases h
  · rfl

theorem load_of_error {bytes : List UInt8} (h : (load bytes l).1 = .error e) :
    (load bytes l).2 = l := by
  have hload := loaded_load bytes l
  generalize load bytes l = p at h hload ⊢
  cases hload with
  | refused e => rfl
  | done hs hforest => cases h

/-- Settings are taken over when all of them have been read. -/
theorem withSettings_of_error {f : Learner → Except EngineError Settings}
    (h : ((check f >>= fun s => modify (·.withSettings s)) l).1 = .error e) :
    ((check f >>= fun s => modify (·.withSettings s)) l).2 = l := by
  rw [bind_apply, check_apply] at h ⊢
  cases hf : f l with
  | error e => rfl
  | ok s =>
    rw [hf] at h
    cases h

/-- A request that fails and was meant to change the learner leaves it as it was. -/
theorem respond_of_error (hsized : l.cache.Sized) {files : Files} {r : Request}
    (hrows : ∀ m ∈ r.matrices, m.rows < sizeBound) (hr : r.writes)
    (h : (respond files r l).1 = .error e) : (respond files r l).2 = l := by
  cases r with
  | setParameter key value => exact withSettings_of_error h
  | setAttribute key value? => cases h
  | setFeatureInfo field values => exact setFeatureInfo_of_error h
  | update iteration m => exact update_of_error hsized (hrows m List.mem_cons_self) h
  | boost iteration m g => exact boost_of_error h
  | load bytes => exact load_of_error h
  | loadFile path =>
    simp only [respond] at h ⊢
    cases hread : files.read? path with
    | none => rfl
    | some bytes =>
      rw [hread] at h
      exact load_of_error h
  | loadConfig text => exact withSettings_of_error h
  | _ => cases hr

/-- A request that is not meant to change a learner changes nothing but what is remembered. -/
theorem looks_respond (files : Files) {r : Request} (hr : r.writes = false) :
    Looks (respond files r) := by
  cases r with
  | evaluate iteration ms names => exact .evaluate iteration ms names
  | predict m mask limit => exact .predict m mask limit
  | predictDense d first last code baseMargin => exact .predictDense d first last code _
  | getAttribute key => exact .check _
  | attributeNames => exact .check _
  | featureInfo field => exact .check _
  | featureCount => exact .check _
  | roundCount => exact .check _
  | saveFile path => exact .check _
  | save format => exact .check _
  | dump mapPath? statistics format => exact .check _
  | dumpNamed names statistics format => exact .check _
  | config => exact .check _
  | _ => cases hr

/-- Take any history of a new learner and one more request, whose matrices have a number of
rows that is a word. If the request is not answered with a value, then settings with their
texts and metrics, attributes, feature names and types, the number of features and the forest
are as before. If the request was meant to change any of these, then even what is remembered
is as before. -/
theorem answer_of_not_succeeded (created : List Matrix) (os : List Occasion) (o : Occasion)
    (hrows : ∀ m ∈ o.request.matrices, m.rows < sizeBound)
    (hfail : ¬(((create created).after os).answer o).1.Succeeded) :
    let l := (create created).after os
    (∃ c, (l.answer o).2 = { l with cache := c }) ∧ (o.request.writes → (l.answer o).2 = l) := by
  intro l
  obtain ⟨e, he⟩ : ∃ e, (respond o.files o.request l).1 = .error e := by
    cases hreply : (respond o.files o.request l).1 with
    | error e => exact ⟨e, rfl⟩
    | ok a => exact absurd ⟨a, hreply⟩ hfail
  have hwrites : o.request.writes → (l.answer o).2 = l := fun hr =>
    respond_of_error (sized_after created os) hrows hr he
  refine ⟨?_, hwrites⟩
  cases hr : o.request.writes with
  | true => exact ⟨l.cache, hwrites hr⟩
  | false => exact looks_respond o.files hr l

/-- Training on one column where there are two features. -/
def narrowUpdate : Occasion := ⟨.empty, .update 0 (Matrix.lonelyRow 7)⟩

theorem answer_of_not_succeeded_narrow :
    let l := (create [⟨8, 1, 2, #[1, 1], #[1], #[], [], #[], rfl⟩]).after
      [⟨.empty, .setAttribute "stage" (some "first")⟩]
    ¬(l.answer narrowUpdate).1.Succeeded ∧ (l.answer narrowUpdate).2 = l := by
  intro l
  have hreply : (l.answer narrowUpdate).1.reply = .error (.trainingColumns 1 2) := rfl
  have hfail : ¬(l.answer narrowUpdate).1.Succeeded := by
    rintro ⟨a, ha⟩
    cases hreply.symm.trans ha
  refine ⟨hfail, (answer_of_not_succeeded _ _ narrowUpdate ?_ hfail).2 rfl⟩
  intro m hm
  rw [List.mem_singleton.mp hm]
  decide

end Learner

end BoostedTrees
