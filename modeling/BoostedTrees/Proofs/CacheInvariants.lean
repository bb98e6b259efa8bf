import BoostedTrees.Proofs.Effects
import BoostedTrees.Proofs.RememberedSums

/-!
# What holds of every cache

A request touches what a learner remembers in three ways: it brings an entry up to date,
it makes room for a new entry and adds it, or it drops everything. A property of caches
that outlives all three holds along a history if it holds at its start. Nothing is asked
of the matrices: two of them may even share a number.

## Main definitions

* `MarginCache.Stable`: a property of caches outlives what requests do to a cache
* `MarginCache.Sized`: every entry has as many sums as its rows and outputs ask for

## Main results

* `MarginCache.Stable.after`: a stable property holds along every history
* `MarginCache.stable_sized`: the sizes of entries are such a property
-/

namespace BoostedTrees

open EngineM

/-! ## Stable properties -/

namespace MarginCache

/-- A property of caches that outlives all that requests do to a cache. -/
structure Stable (Q : MarginCache → Prop) : Prop where
  /-- Everything may be dropped. -/
  empty : Q .empty
  /-- The entry of a matrix may be brought up to date. -/
  brought {c : MarginCache} {e : RememberedSums} {m : Matrix} {outputs : Nat} (f : Forest)
    (houtputs : 0 < outputs) (hc : Q c) (he : c.find? m.id = some e) :
    Q (c.put (e.brought f outputs m))
  /-- Where a matrix has no entry, one may be added. -/
  taken {c : MarginCache} {m : Matrix} {outputs : Nat} (f : Forest)
    (houtputs : 0 < outputs) (hc : Q c) (hm : c.find? m.id = none) :
    Q (c.withRoom.put (.taken f outputs m))

namespace Stable

variable {Q : MarginCache → Prop}

/-- The call preserves the property of what a learner remembers. -/
abbrev Keeps {α : Type} (Q : MarginCache → Prop) (x : LearnerM α) : Prop :=
  Preserves (fun l : Learner => Q l.cache) x

section Calls

variable (h : Stable Q)
include h

theorem keeps_treeSums (m : Matrix) (register : Bool) :
    Keeps Q (liftM (Learner.treeSums m register) : LearnerM (Array Single)) := by
  intro l hl
  rw [lift_apply, Learner.treeSums_apply]
  cases hfind : l.cache.find? m.id with
  | some e => exact h.brought l.forest l.settings.outputs_pos hl hfind
  | none =>
    cases register with
    | false => exact hl
    | true => exact h.taken l.forest l.settings.outputs_pos hl hfind

theorem keeps_sumsWithin (range : Forest.Range) (rows : Rows) (m? : Option Matrix) :
    Keeps Q (liftM (Learner.sumsWithin range rows m?) : LearnerM (Array Single)) := by
  intro l hl
  cases m? with
  | none => exact hl
  | some m =>
    rw [lift_apply, Learner.sumsWithin_apply]
    split
    · exact h.keeps_treeSums m false l hl
    · exact hl

theorem keeps_margins (m : Matrix) (register : Bool) : Keeps Q (Learner.margins m register) :=
  .bind (.check _) fun _ => .bind (h.keeps_treeSums m register) fun _ => .pure _

theorem keeps_predictRows (kind : PredictionKind) (first last : UInt32) (rows : Rows)
    (m? : Option Matrix) (baseMargin : Array Single) :
    Keeps Q (Learner.predictRows kind first last rows m? baseMargin) := by
  refine .bind .get fun l => ?_
  split
  · exact .throw _
  · refine .bind (.check _) fun start => ?_
    cases kind with
    | contributions => exact .pure _
    | leaf => exact .pure _
    | margin => exact .bind (h.keeps_sumsWithin _ _ _) fun _ => .pure _
    | value => exact .bind (h.keeps_sumsWithin _ _ _) fun _ => .pure _

theorem keeps_predictDense (d : DenseRows) (first last : UInt32) (code : Int32)
    (baseMargin : Array Single) : Keeps Q (Learner.predictDense d first last code baseMargin) := by
  refine .bind (.check _) fun kind => ?_
  dsimp only
  split
  · exact .throw _
  · exact .bind (.check _) fun _ => h.keeps_predictRows _ _ _ _ _ _

theorem keeps_evaluateEach (ps : List (Matrix × String)) : Keeps Q (Learner.evaluateEach ps) := by
  induction ps with
  | nil => exact .pure _
  | cons p ps ih =>
    have hscored : Keeps Q (Learner.scoredPredictions p.1) :=
      .bind (h.keeps_margins p.1 false) fun _ => .bind .get fun _ => .pure _
    exact .bind hscored fun _ => .bind (.check _) fun _ => .bind ih fun _ => .pure _

theorem keeps_evaluate (iteration : Int32) (ms : List Matrix) (names : List String) :
    Keeps Q (Learner.evaluate iteration ms names) := by
  unfold Learner.evaluate
  dsimp only
  split
  · exact .throw _
  · exact .bind (.check _) fun _ => .bind (h.keeps_evaluateEach _) fun _ => .pure _

omit h in
theorem keeps_fixFeatures (m : Matrix) : Keeps Q (Learner.fixFeatures m) := by
  intro l hl
  rcases Learner.fixFeatures_cases m l with ⟨-, e, hfix⟩ | ⟨-, hfix⟩
  · rw [hfix]
    exact hl
  · rw [hfix]
    exact hl

theorem keeps_boost (iteration : Int32) (m : Matrix) (g : Gradient) :
    Keeps Q (Learner.boost iteration m g) := by
  refine .bind .get fun l => ?_
  dsimp only
  split
  · exact .throw _
  · refine .bind (.check _) fun _ => .bind (keeps_fixFeatures m) fun _ => ?_
    exact .bind (.modify fun _ hl => hl) fun _ => .bind (h.keeps_treeSums m true) fun _ => .pure _

theorem keeps_update (iteration : Int32) (m : Matrix) : Keeps Q (Learner.update iteration m) :=
  .bind (.check _) fun _ => .bind (keeps_fixFeatures m) fun _ =>
    .bind (h.keeps_margins m true) fun _ => .bind .get fun _ => h.keeps_boost iteration m _

/-- New settings leave the cache as it is or empty it. -/
theorem withSettings (l : Learner) (hl : Q l.cache) (s : Settings) :
    Q (l.withSettings s).cache := by
  unfold Learner.withSettings
  split
  · exact hl
  · exact h.empty

omit h in
theorem keeps_setFeatureInfo (field : String) (values : List String) :
    Keeps Q (Learner.setFeatureInfo field values) := by
  intro l hl
  unfold Learner.setFeatureInfo
  rw [get_bind_apply]
  by_cases hlength : values ≠ [] ∧ l.features ≠ 0 ∧ values.length ≠ l.features.toNat
  · simp only [if_pos hlength]
    exact hl
  simp only [if_neg hlength]
  split
  · exact hl
  · cases values.find? fun t => !Learner.isFeatureType t with
    | some type => exact hl
    | none => exact hl
  · exact hl

theorem keeps_load (bytes : List UInt8) : Keeps Q (Learner.load bytes) := by
  intro l hl
  have hload := Learner.loaded_load bytes l
  generalize Learner.load bytes l = p at hload ⊢
  cases hload with
  | refused e => exact hl
  | done hs hforest => exact h.empty

/-- Every request preserves a stable property. -/
theorem keeps_respond (files : Files) (r : Request) : Keeps Q (Learner.respond files r) := by
  cases r with
  | setParameter key value => exact .bind (.check _) fun s => .modify fun l hl => h.withSettings l hl s
  | setAttribute key value? => exact .modify fun _ hl => hl
  | setFeatureInfo field values => exact keeps_setFeatureInfo field values
  | update iteration m => exact h.keeps_update iteration m
  | boost iteration m g => exact h.keeps_boost iteration m g
  | evaluate iteration ms names => exact h.keeps_evaluate iteration ms names
  | predict m mask limit => exact .bind (.check _) fun _ => h.keeps_predictRows _ _ _ _ _ _
  | predictDense d first last code baseMargin => exact h.keeps_predictDense d first last code _
  | load bytes => exact h.keeps_load bytes
  | loadFile path =>
    simp only [Learner.respond]
    cases files.read? path with
    | none => exact .throw _
    | some bytes => exact h.keeps_load bytes
  | loadConfig text => exact .bind (.check _) fun s => .modify fun l hl => h.withSettings l hl s
  | _ => exact .check _

/-- A stable property that holds at the start of a history holds at its end. -/
theorem after {l : Learner} (hl : Q l.cache) (os : List Occasion) : Q (l.after os).cache :=
  Learner.after_induction (P := fun l => Q l.cache) hl
    fun o _ l hl => h.keeps_respond o.files o.request l hl

end Calls

end Stable

end MarginCache

/-! ## Sizes -/

theorem size_sumsOf {outputs : Nat} (houtputs : 0 < outputs) (trees : List OutputTree)
    (rows : Rows) : (sumsOf trees rows outputs).size = entryCount rows.count outputs := by
  rw [sumsOf, size_addToRows rows _ houtputs, Array.size_replicate]

namespace RememberedSums

variable {e : RememberedSums} {outputs : Nat}

/-- An entry has a sum for every output of every row. -/
def Sized (e : RememberedSums) : Prop := e.sums.size = entryCount e.rows e.outputs

theorem sized_start (m : Matrix) : (start m).Sized := by
  simp only [Sized, start, entryCount, Nat.mul_zero, Nat.zero_mod, List.size_toArray,
    List.length_nil]

theorem sized_taken (houtputs : 0 < outputs) (f : Forest) (m : Matrix) :
    (taken f outputs m).Sized := size_sumsOf houtputs f.trees m.toRows

/-- An entry that was brought up to date has the size that its matrix asks for. -/
theorem Sized.size_brought (he : e.Sized) (houtputs : 0 < outputs) (f : Forest) (m : Matrix) :
    (e.brought f outputs m).sums.size = entryCount m.rows outputs ∧
      (e.brought f outputs m).Sized := by
  unfold brought
  split
  · next hfits =>
    simp only [fits, Bool.and_eq_true, decide_eq_true_eq] at hfits
    obtain ⟨⟨hrows, rfl⟩, -⟩ := hfits
    rw [← hrows]
    split
    · -- Trees that come later add to the sums that are there, and to no others.
      have hsize := (size_addToRows m.toRows e.sums houtputs (f.trees.drop e.trees)).trans he
      exact ⟨hsize, hsize⟩
    · exact ⟨he, he⟩
  · exact ⟨sized_taken houtputs f m, sized_taken houtputs f m⟩

end RememberedSums

namespace MarginCache

/-- Every entry has as many sums as its rows and outputs ask for. -/
def Sized (c : MarginCache) : Prop := ∀ e ∈ c.entries, e.Sized

theorem Sized.put {c : MarginCache} (hc : c.Sized) {e : RememberedSums} (he : e.Sized) :
    (c.put e).Sized := by
  intro x hx
  rcases mem_put hx with rfl | hx
  · exact he
  · exact hc x hx

theorem stable_sized : Stable Sized where
  empty := fun _ h => absurd h List.not_mem_nil
  brought f houtputs hc hfind :=
    hc.put ((hc _ (mem_of_find? hfind).1).size_brought houtputs f _).2
  taken f houtputs hc _ :=
    Sized.put (fun x hx => hc x (mem_of_mem_withRoom hx)) (RememberedSums.sized_taken houtputs f _)

theorem sized_ofMatrices (ms : List Matrix) : (ofMatrices ms).Sized := by
  suffices h : ∀ (ms : List Matrix) (c : MarginCache), c.Sized →
      (ms.foldl (fun c m => c.put (.start m)) c).Sized from h ms _ stable_sized.empty
  intro ms
  induction ms with
  | nil =>
    intro c hc
    exact hc
  | cons m ms ih =>
    intro c hc
    exact ih _ (hc.put (RememberedSums.sized_start m))

end MarginCache

namespace Learner

/-- What a learner remembers has the right size at the end of every history. -/
theorem sized_after (created : List Matrix) (os : List Occasion) :
    ((create created).after os).cache.Sized :=
  MarginCache.stable_sized.after (MarginCache.sized_ofMatrices created) os

/-- The sums that are asked for are as many as the matrix has outputs. -/
theorem size_treeSums {l : Learner} (hl : l.cache.Sized) (m : Matrix) (register : Bool) :
    (treeSums m register l).1.size = entryCount m.rows l.outputs := by
  rw [treeSums_apply]
  cases hfind : l.cache.find? m.id with
  | some e =>
    exact ((hl e (MarginCache.mem_of_find? hfind).1).size_brought l.settings.outputs_pos _ m).1
  | none => exact size_sumsOf l.settings.outputs_pos l.forest.trees m.toRows

/-- There is a starting margin for every output of every row. -/
theorem size_startingMargins {l : Learner} {count : Nat} {given : Array Single}
    {start : StartingMargins} (h : l.startingMargins count given = .ok start) :
    start.toArray.size = l.outputCount count := by
  unfold startingMargins at h
  split at h
  · cases hscore : l.settings.objective.baseMargin l.settings.baseScore with
    | error e =>
      rw [hscore] at h
      cases h
    | ok margin =>
      rw [hscore] at h
      cases h
      exact Array.size_replicate
  split at h
  · cases h
  · next hsize =>
    cases h
    exact Decidable.not_not.mp hsize

end Learner

end BoostedTrees
