import BoostedTrees.Proofs.CacheInvariants
import BoostedTrees.Proofs.CheckedKernels
import BoostedTrees.Proofs.StoredRoundTrip

/-!
# Predictions from models that were loaded

A model that was loaded has passed the loader's checks, whatever bytes it came from. Its
trees can be walked, and they add to outputs that there are. So among the checks of a
prediction none that is about a place in an array can fail.

What the loader does not look at is how large answers get. A model may claim any number of
features, and contributions have a column for every one of them; rows without columns take
no memory, so there may be any number of them, too. A prediction whose sizes are no words, or
too large for an array, is not refused but stopped. So models that were loaded predict as far
as there is room, and this is the exact condition.

## Main definitions

* `Checked.predict`, `Checked.predictDense`: predictions by kernels that check
* `Learner.Safe`: all trees of a learner are safe
* `Learner.Room`, `Learner.HasRoom`: there is room for what a prediction computes

## Main results

* `Checked.runs_predictRows`: on safe trees predictions ask for room, and for nothing else
* `Learner.load_safe_iff`: loading fails, or predictions run to the end just if there is room
-/

namespace BoostedTrees

open EngineM
open BoostedTrees.Matrix (lonelyRow)

/-! ## Predictions by kernels that check -/

namespace Checked

/-- The trees at the places of a range, if these are places of the forest. -/
def within (f : Forest) (r : Forest.Range) : Option (List OutputTree) :=
  if r.start ≤ r.stop ∧ r.stop ≤ f.size then some (f.within r) else none

/-- What a row fills, if it is as much as there is room for. -/
def filled {α : Type} (width : Nat) (chunk : List α) : Option (List α) :=
  if chunk.length = width then some chunk else none

/-- The `width` entries of every row, row after row, if there is room for them. -/
def entries {α : Type} (rows : Rows) (width : Nat) (entriesOf : Nat → Option (List α)) :
    Option (List α) := do
  let _ ← entryCount rows.count width
  if width = 0 then some []
  else
    let chunks ← (List.range rows.count).mapM fun i => do filled width (← entriesOf i)
    return chunks.flatten

/-- The contributions for one of the rows, which start from the given margins. -/
def contributionsFor (explained : List (Explained Single)) (features outputs : Nat) (rows : Rows)
    (base : Array Single) (i : Nat) : Option (List Single) := do
  let row ← rowOf rows i
  let margins ← slice base (i * outputs) ((i + 1) * outputs)
  return (← contributions explained features outputs row margins.toList).toList

/-- What the trees of a range say of rows that start from the given margins. -/
def predictRange (l : Learner) (kind : PredictionKind) (range : Forest.Range) (rows : Rows)
    (start : StartingMargins) : Option (List Single) := do
  let trees ← within l.forest range
  match kind with
  | .contributions =>
    let features := l.contributionColumns rows.columns
    let columns ← word (features + 1)
    let width ← word (l.outputs * columns)
    let explained ← explain id trees
    entries rows width (contributionsFor explained features l.outputs rows start.toArray)
  | .leaf =>
    entries rows trees.length fun i => do
      return (← leavesOf trees (← rowOf rows i)).map Single.ofNat
  | .margin => return (Learner.addMargins start.toArray (← sumsOf trees rows l.outputs)).toList
  | .value =>
    let margins := Learner.addMargins start.toArray (← sumsOf trees rows l.outputs)
    return l.settings.objective.outputTransform l.outputs margins.toList

/-- The margins that rows start from, if there is room for them. Given margins are compared
with their number first, which must be a word. -/
def startingMargins (l : Learner) (rows : Nat) (given : Array Single) :
    Option (Except EngineError StartingMargins) :=
  if given.isEmpty then
    match l.settings.objective.baseMargin l.settings.baseScore with
    | .error e => some (.error e)
    | .ok margin => do return .ok (.uniform (← entryCount rows l.outputs) margin)
  else do
    let expected ← word (rows * l.outputs)
    if given.size ≠ expected then some (.error (.baseMarginSize given.size expected))
    else
      let _ ← entryCount rows l.outputs
      return .ok (.given given)

/-- Predicts for rows. What is refused is refused before any kernel runs. -/
def predictRows (l : Learner) (kind : PredictionKind) (first last : UInt32) (rows : Rows)
    (baseMargin : Array Single) : Option (Except EngineError (List Single)) :=
  match l.forest.range? l.outputs first last with
  | none => some (.error (.roundRange first last l.rounds))
  | some range => do
    match ← startingMargins l rows.count baseMargin with
    | .error e => some (.error e)
    | .ok start => return .ok (← predictRange l kind range rows start)

/-- Predicts for a matrix. -/
def predict (l : Learner) (m : Matrix) (mask : Int32) (limit : UInt32) :
    Option (Except EngineError (List Single)) :=
  match l.checkColumns m.columns with
  | .error e => some (.error e)
  | .ok _ => predictRows l (.ofMask mask) 0 limit m.toRows m.baseMargin

/-- Predicts for rows that are given without a matrix. -/
def predictDense (l : Learner) (d : DenseRows) (first last : UInt32) (code : Int32)
    (baseMargin : Array Single) : Option (Except EngineError (List Single)) :=
  match Learner.kindOfCode code with
  | .error e => some (.error e)
  | .ok kind =>
    if !d.fitsShape then some (.error (.denseSize d.values.size d.rows d.columns))
    else
      match l.checkColumns d.columns with
      | .error e => some (.error e)
      | .ok _ => predictRows l kind first last d.toRows baseMargin

end Checked

/-! ## Sizes -/

theorem Matrix.filled_toRows (m : Matrix) : m.toRows.Filled := m.size_values

theorem DenseRows.filled_toRows {d : DenseRows} (h : d.fitsShape) : d.toRows.Filled := by
  have hsize : d.values.size = d.rows * d.columns := by
    simp only [fitsShape, Matrix.cells?] at h
    split at h
    · exact (Option.some.inj (of_decide_eq_true h)).symm
    · simp at h
  simp only [Rows.Filled, toRows]
  split
  · exact hsize
  · rw [Array.size_map, hsize]

namespace Learner

/-- How many entries are computed for every row. -/
def entriesPerRow (l : Learner) (kind : PredictionKind) (range : Forest.Range) (columns : Nat) :
    Nat :=
  match kind with
  | .contributions => l.outputs * (l.contributionColumns columns + 1)
  | .leaf => (l.forest.within range).length
  | .margin => l.outputs
  | .value => l.outputs

/-- There is room for what the trees of a range say of rows: for a margin for every output
of every row, and for the entries that are computed. A word counts the columns of
contributions. -/
structure Room (l : Learner) (kind : PredictionKind) (range : Forest.Range) (rows : Rows) :
    Prop where
  margins : rows.count * l.outputs < Checked.roomBound
  columns : kind = .contributions → l.entriesPerRow kind range rows.columns < sizeBound
  entries : rows.count * l.entriesPerRow kind range rows.columns < Checked.roomBound

/-- There is room for a prediction, as far as it gets. Where the rounds are there, a word
counts the margins that given ones are compared with; where the rows have starting margins,
there is room for the rest. -/
structure HasRoom (l : Learner) (kind : PredictionKind) (first last : UInt32) (rows : Rows)
    (baseMargin : Array Single) : Prop where
  given : ∀ range, l.forest.range? l.outputs first last = some range → baseMargin ≠ #[] →
    rows.count * l.outputs < sizeBound
  room : ∀ range start, l.forest.range? l.outputs first last = some range →
    l.startingMargins rows.count baseMargin = .ok start → l.Room kind range rows

variable {l : Learner} {kind : PredictionKind} {first last : UInt32} {rows : Rows}

/-- Where contributions are not asked for, it is the entries that there must be room for. -/
theorem room_iff_of_ne {range : Forest.Range} (hkind : kind ≠ .contributions)
    (hmargins : rows.count * l.outputs < Checked.roomBound) :
    rows.count * l.entriesPerRow kind range rows.columns < Checked.roomBound ↔
      l.Room kind range rows :=
  ⟨fun h => ⟨hmargins, fun hcontributions => absurd hcontributions hkind, h⟩, Room.entries⟩

/-- What is asked for in turn, where the rounds are there. -/
theorem hasRoom_iff_of_range {range : Forest.Range}
    (hrange : l.forest.range? l.outputs first last = some range) (baseMargin : Array Single) :
    l.HasRoom kind first last rows baseMargin ↔
      ((baseMargin ≠ #[] → rows.count * l.outputs < sizeBound) ∧
        ∀ start, l.startingMargins rows.count baseMargin = .ok start →
          rows.count * l.outputs < Checked.roomBound) ∧
      ∀ start, l.startingMargins rows.count baseMargin = .ok start → l.Room kind range rows := by
  constructor
  · intro h
    have hroom := fun start => h.room range start hrange
    exact ⟨⟨h.given range hrange, fun start hstart => (hroom start hstart).margins⟩, hroom⟩
  · rintro ⟨⟨hgiven, -⟩, hroom⟩
    refine ⟨fun _ _ => hgiven, fun range' start h => ?_⟩
    cases hrange.symm.trans h
    exact hroom start

/-- All trees of a learner can be walked, and add to outputs that there are. -/
def Safe (l : Learner) : Prop := ∀ t ∈ l.forest.trees, t.Safe l.outputs

end Learner

/-! ## No check fails -/

namespace Checked

variable {l : Learner} {kind : PredictionKind} {range : Forest.Range} {first last : UInt32}
  {rows : Rows}

/-- Ranges of rounds are places of the forest. -/
theorem within_eq (h : l.forest.range? l.outputs first last = some range) :
    within l.forest range = some (l.forest.within range) :=
  if_pos ⟨Forest.start_le_stop h, Forest.stop_le_size h⟩

/-- Where every row fills its entries, they ask for room for all of them. -/
theorem runs_entries {α : Type} {width : Nat} {f : Nat → Option (List α)} {g : Nat → List α}
    (hrow : ∀ i < rows.count, f i = some (g i) ∧ (g i).length = width) :
    Runs (entries rows width f) (rows.count * width < roomBound) (rows.entries width g) := by
  refine ((runs_entryCount rows.count width).bind fun _ => .of_eq ?_ trivial).congr
    (iff_of_eq (and_true _))
  -- No row is cut short or runs over, so the count was the only check that could fail.
  have hchunks : (List.range rows.count).mapM (fun i => do filled width (← f i)) =
      some ((List.range rows.count).map g) := by
    refine List.mapM_eq_pure fun i hi => ?_
    obtain ⟨hf, hlength⟩ := hrow i (List.mem_range.mp hi)
    rw [hf]
    exact if_pos hlength
  rw [Rows.entries, hchunks]
  split <;> rfl

/-- Where there is a margin for every output of every row, the contributions for a row pass
all checks. -/
theorem contributionsFor_eq {explained : List (Explained Single)} {features outputs i : Nat}
    (h : ∀ e ∈ explained, e.Safe outputs) (hrows : rows.Filled) {base : Array Single}
    (hsize : base.size = rows.count * outputs) (hi : i < rows.count) :
    contributionsFor explained features outputs rows base i =
        some (BoostedTrees.contributions explained features outputs (rows.row i)
          (base.extract (i * outputs) ((i + 1) * outputs)).toList).toList ∧
      (BoostedTrees.contributions explained features outputs (rows.row i)
        (base.extract (i * outputs) ((i + 1) * outputs)).toList).toList.length =
          outputs * (features + 1) := by
  have hstop : (i + 1) * outputs ≤ base.size := hsize ▸ Nat.mul_le_mul_right _ hi
  have hmargins : (base.extract (i * outputs) ((i + 1) * outputs)).toList.length = outputs := by
    rw [Array.length_toList, Array.size_extract, Nat.min_eq_left hstop, Nat.succ_mul,
      Nat.add_sub_cancel_left]
  obtain ⟨hcontributions, hfilled⟩ := contributions_eq h features (rows.row i) hmargins.le
  constructor
  · rw [contributionsFor, rowOf_eq hrows hi,
      slice_eq (Nat.mul_le_mul_right _ (Nat.le_succ i)) hstop]
    simp only [Option.bind_eq_bind, Option.bind_some, hcontributions]
    rfl
  · rw [Array.length_toList, hfilled]

/-- Rows get their starting margins if a word counts them where margins are given, and there
is room for them where they are not refused. -/
theorem runs_startingMargins (l : Learner) (count : Nat) (given : Array Single) :
    Runs (startingMargins l count given)
      ((given ≠ #[] → count * l.outputs < sizeBound) ∧
        ∀ start, l.startingMargins count given = .ok start → count * l.outputs < roomBound)
      (l.startingMargins count given) := by
  have hcount (h : count * l.outputs < sizeBound) : l.outputCount count = count * l.outputs :=
    BoostedTrees.entryCount_of_lt h
  unfold startingMargins Learner.startingMargins
  -- Without given margins nothing is compared. With them the number to compare with is
  -- computed first, so it must be a word even where they are refused then.
  by_cases hempty : given.isEmpty
  · have hgiven : ¬given ≠ #[] := not_not_intro (Array.isEmpty_iff.mp hempty)
    simp only [if_pos hempty]
    cases l.settings.objective.baseMargin l.settings.baseScore with
    | error e => exact .of_eq rfl ⟨fun h => absurd h hgiven, nofun⟩
    | ok margin =>
      refine ((runs_entryCount count l.outputs).bind fun hroom => .of_eq ?_ trivial).congr ?_
      · rw [hcount (lt_sizeBound hroom)]
        rfl
      · constructor
        · exact fun h => ⟨fun hne => absurd hne hgiven, fun _ _ => h.1⟩
        · exact fun h => ⟨h.2 _ rfl, trivial⟩
  · have hgiven : given ≠ #[] := fun h => hempty (Array.isEmpty_iff.mpr h)
    simp only [if_neg hempty]
    refine ((runs_word (count * l.outputs)).bind fun hword => ?_).congr
      (and_congr_left' ⟨fun h _ => h, fun h => h hgiven⟩)
    rw [hcount hword]
    split
    · exact .of_eq rfl nofun
    · refine ((runs_entryCount count l.outputs).map fun _ => _).congr ?_
      exact ⟨fun h _ _ => h, fun h => h _ rfl⟩

/-- The kernels run to the end on trees that are safe and rows that are all there, if there
is room for what they compute. -/
theorem runs_predictRange (hl : l.Safe) (hrows : rows.Filled)
    (hrange : l.forest.range? l.outputs first last = some range)
    (hmargins : rows.count * l.outputs < roomBound) {baseMargin : Array Single}
    {start : StartingMargins} (hstart : l.startingMargins rows.count baseMargin = .ok start) :
    Runs (predictRange l kind range rows start) (l.Room kind range rows)
      (l.plainRange kind range rows start) := by
  have htrees : ∀ t ∈ l.forest.within range, t.Safe l.outputs :=
    fun t ht => hl t (Forest.mem_of_mem_within ht)
  have houtputs : 0 < l.outputs := l.settings.outputs_pos
  -- Sums ask for as much room as the starting margins did.
  have hsums := runs_sumsOf htrees houtputs hrows
  refine ((Runs.of_eq (within_eq hrange) trivial).bind fun _ => ?_).congr (iff_of_eq (true_and _))
  cases kind with
  | contributions =>
    have hsize : start.toArray.size = rows.count * l.outputs := by
      rw [Learner.size_startingMargins hstart, Learner.outputCount,
        BoostedTrees.entryCount_of_lt (lt_sizeBound hmargins)]
    refine ((runs_word _).bind fun _ => (runs_word _).bind fun _ =>
      (Runs.of_eq (explain_eq htrees id) trivial).bind fun _ => runs_entries fun i hi =>
        contributionsFor_eq (safe_explain htrees id) hrows hsize hi).congr ?_
    constructor
    · rintro ⟨-, hcolumns, -, hentries⟩
      exact ⟨hmargins, fun _ => hcolumns, hentries⟩
    · intro h
      have hcolumns := h.columns rfl
      -- Where a word counts the columns of all outputs, one counts those of one output.
      exact ⟨Nat.lt_of_le_of_lt (Nat.le_mul_of_pos_left _ houtputs) hcolumns, hcolumns, trivial,
        h.entries⟩
  | leaf =>
    have hkind : PredictionKind.leaf ≠ .contributions := by decide
    refine (runs_entries fun i hi => ⟨?_, ?_⟩).congr (Learner.room_iff_of_ne hkind hmargins)
    · rw [rowOf_eq hrows hi, Option.bind_eq_bind, Option.bind_some, leavesOf_eq htrees]
      rfl
    · rw [List.length_map, BoostedTrees.leavesOf, List.length_map]
  | margin =>
    have hkind : PredictionKind.margin ≠ .contributions := by decide
    refine (hsums.map fun sums => (Learner.addMargins start.toArray sums).toList).congr ?_
    exact Learner.room_iff_of_ne hkind hmargins
  | value =>
    have hkind : PredictionKind.value ≠ .contributions := by decide
    refine (hsums.map fun sums => l.settings.objective.outputTransform l.outputs
      (Learner.addMargins start.toArray sums).toList).congr ?_
    exact Learner.room_iff_of_ne hkind hmargins

/-- What is refused is refused alike, and what is not runs to the end if there is room. -/
theorem runs_predictRows (hl : l.Safe) (hrows : rows.Filled) (baseMargin : Array Single) :
    Runs (predictRows l kind first last rows baseMargin)
      (l.HasRoom kind first last rows baseMargin)
      (l.plainRows kind first last rows baseMargin) := by
  unfold predictRows Learner.plainRows
  cases hrange : l.forest.range? l.outputs first last with
  | none =>
    -- Where the rounds are not there, nothing is computed that could need room.
    refine .of_eq rfl ⟨?_, ?_⟩
    · intro _ h
      cases hrange.symm.trans h
    · intro _ _ h
      cases hrange.symm.trans h
  | some range =>
    rw [Learner.hasRoom_iff_of_range hrange]
    refine (runs_startingMargins l rows.count baseMargin).bind fun hmargins => ?_
    cases hstart : l.startingMargins rows.count baseMargin with
    | error e => exact .of_eq rfl nofun
    | ok start =>
      have hroom := hmargins.2 start hstart
      refine ((runs_predictRange hl hrows hrange hroom hstart).map Except.ok).congr ?_
      exact ⟨fun h _ _ => h, fun h => h start rfl⟩

theorem runs_predict (hl : l.Safe) (m : Matrix) (mask : Int32) (limit : UInt32) :
    Runs (predict l m mask limit)
      (l.checkColumns m.columns = .ok () →
        l.HasRoom (.ofMask mask) 0 limit m.toRows m.baseMargin)
      (l.plainMatrix m mask limit) := by
  unfold predict Learner.plainMatrix
  cases l.checkColumns m.columns with
  | error e => exact .of_eq rfl nofun
  | ok _ =>
    exact (runs_predictRows hl m.filled_toRows _).congr ⟨fun h _ => h, fun h => h rfl⟩

theorem runs_predictDense (hl : l.Safe) (d : DenseRows) (first last : UInt32) (code : Int32)
    (baseMargin : Array Single) :
    Runs (predictDense l d first last code baseMargin)
      (∀ kind, Learner.kindOfCode code = .ok kind → d.fitsShape →
        l.checkColumns d.columns = .ok () → l.HasRoom kind first last d.toRows baseMargin)
      (l.plainDense d first last code baseMargin) := by
  unfold predictDense Learner.plainDense
  cases Learner.kindOfCode code with
  | error e => exact .of_eq rfl fun _ => nofun
  | ok kind =>
    by_cases hshape : d.fitsShape
    · simp only [hshape, Bool.not_true, Bool.false_eq_true, if_false]
      cases l.checkColumns d.columns with
      | error e => exact .of_eq rfl fun _ _ _ => nofun
      | ok _ =>
        refine (runs_predictRows hl (DenseRows.filled_toRows hshape) baseMargin).congr ?_
        constructor
        · rintro h _ ⟨⟩ - -
          exact h
        · exact fun h => h kind rfl trivial rfl
    · simp only [hshape, Bool.not_false, if_true]
      exact .of_eq rfl fun _ _ => nofun

end Checked

/-! ## Loading -/

namespace Learner

/-- The loader takes safe trees only. -/
theorem safe_storedForest {m : StoredModel} {outputs : Nat} {f : Forest}
    (h : storedForest m outputs = .ok f) : ∀ t ∈ f.trees, t.Safe outputs := by
  have hordered := forall_of_storedForest h
    (P := fun t => ∃ features order, t.Ordered features order) (by
      intro s t ht
      obtain ⟨-, -, -, hvalid⟩ := Tree.ofStored_eq_ok ht
      exact ⟨_, Tree.exists_ordered_of_validate hvalid⟩)
  intro t ht
  exact ⟨(wholeRounds_storedForest h).output_lt t ht, hordered t ht⟩

/-- Loading is refused and changes nothing, or it leaves safe trees and nothing that is
remembered. -/
theorem load_cases (bytes : List UInt8) (l : Learner) :
    (∃ e, load bytes l = (.error e, l)) ∨
      ∃ l', load bytes l = (.ok (), l') ∧ l'.Safe ∧ l'.cache = .empty := by
  have hloaded := loaded_load bytes l
  generalize load bytes l = p at hloaded
  cases hloaded with
  | refused e => exact .inl ⟨e, rfl⟩
  | done hs hforest => exact .inr ⟨_, rfl, safe_storedForest hforest, rfl⟩

/-- Models that were loaded are safe to use as far as there is room. Whatever the bytes,
loading them into a learner fails and leaves the learner as it was, or it leaves one

* whose trees can be walked by every row, by nodes of the tree and at most as many as there
  are, up to a leaf, and each of which adds to one of the outputs;
* that answers every prediction for a matrix and for rows in place, under any mask, code and
  range of rounds, and is not changed by it, just if there is room: no other check of an
  access is failed. The margins of all rows and what is computed for them must be fewer
  entries than an array holds, and the columns of contributions, one for every feature that
  the model claims and one more, must be counted by a word. -/
theorem load_safe_iff (bytes : List UInt8) (l : Learner) :
    (∃ e, load bytes l = (.error e, l)) ∨
    ∃ l', load bytes l = (.ok (), l') ∧
      (∀ t ∈ l'.forest.trees, t.output.toNat < l'.outputs ∧
        ∀ row, Checked.path t.tree row = some (t.tree.path row) ∧
          (t.tree.path row).length ≤ t.tree.size ∧
          (t.tree.path row).getLast? = some (t.tree.leafOf row) ∧
          (t.tree.node (t.tree.leafOf row)).isLeaf) ∧
      (∀ m mask limit,
        ((Checked.predict l' m mask limit).isSome ↔
          (l'.checkColumns m.columns = .ok () →
            l'.HasRoom (.ofMask mask) 0 limit m.toRows m.baseMargin)) ∧
        ∀ answer, Checked.predict l' m mask limit = some answer →
          predict m mask limit l' = (answer, l')) ∧
      ∀ d first last code baseMargin,
        ((Checked.predictDense l' d first last code baseMargin).isSome ↔
          ∀ kind, kindOfCode code = .ok kind → d.fitsShape → l'.checkColumns d.columns = .ok () →
            l'.HasRoom kind first last d.toRows baseMargin) ∧
        ∀ answer, Checked.predictDense l' d first last code baseMargin = some answer →
          predictDense d first last code baseMargin l' = (answer, l') := by
  rcases load_cases bytes l with hrefused | ⟨l', hload, hsafe, hcache⟩
  · exact .inl hrefused
  refine .inr ⟨l', hload, ?_, ?_, ?_⟩
  · intro t ht
    refine ⟨(hsafe t ht).output_lt, fun row => ?_⟩
    obtain ⟨_, _, hordered⟩ := (hsafe t ht).exists_ordered
    obtain ⟨-, hlength, hlast, hleaf⟩ := Checked.spec_path hordered row
    exact ⟨Checked.path_eq hordered row, hlength, hlast, hleaf⟩
  · intro m mask limit
    have hruns := Checked.runs_predict hsafe m mask limit
    -- Nothing is remembered after loading, so the answer is that of the plain kernels.
    refine ⟨hruns.isSome_iff, fun answer hanswer => ?_⟩
    rw [predict_of_empty hcache, hruns.eq_of_eq_some hanswer]
  · intro d first last code baseMargin
    have hruns := Checked.runs_predictDense hsafe d first last code baseMargin
    refine ⟨hruns.isSome_iff, fun answer hanswer => ?_⟩
    rw [predictDense_eq, hruns.eq_of_eq_some hanswer]

theorem hasRoom_stump (given : Dictionary String) :
    ((create []).takenOver stump given stump.forest).HasRoom .contributions 0 0
      (lonelyRow 7).toRows #[] := by
  refine ⟨fun _ _ h => absurd rfl h, fun range _ _ _ => ?_⟩
  -- The one output has a column for the one feature, and one for the bias.
  have hmargins : 1 * 1 < Checked.roomBound := by decide
  have hcolumns : 1 * (1 + 1) < sizeBound := by decide
  have hentries : 1 * (1 * (1 + 1)) < Checked.roomBound := by decide
  exact ⟨hmargins, fun _ => hcolumns, hentries⟩

/-- A model without trees that claims as many features as a word can count. -/
def vast : Learner := { create [] with features := 0xffffffffffffffff }

theorem load_vast (l : Learner) :
    ∃ given, load vast.toStored.toUbj l = (.ok (), l.takenOver vast given vast.forest) := by
  have hfits : Wire.ModelFits vast.toStored := by
    refine ⟨?_, ?_, ?_, ?_, ?_⟩ <;> decide +kernel
  exact load_toStored (by decide) hfits rfl l

/-- There is no room for contributions to a model with as many features as a word can count,
not even for those to a single row. -/
theorem not_hasRoom_vast (given : Dictionary String) :
    ¬((create []).takenOver vast given vast.forest).HasRoom .contributions 0 0
      (lonelyRow 7).toRows #[] := by
  intro h
  have hrange : vast.forest.range? vast.outputs 0 0 = some ⟨0, 0⟩ := rfl
  have hstart : vast.startingMargins 1 #[] = .ok (.uniform 1 (1 / 2)) := by decide +kernel
  have hcolumns : vast.entriesPerRow .contributions ⟨0, 0⟩ 1 < sizeBound :=
    (h.room ⟨0, 0⟩ _ hrange hstart).columns rfl
  exact absurd hcolumns (by decide)

/-- A stump is loaded from its bytes. Its split takes one off the mean of two for a row that
goes left, and the starting margin stands in the bias. A model that claims too many features
is loaded as well, and its contributions to the same row are stopped. -/
theorem load_safe_iff_vast :
    (∃ l', load stump.toStored.toUbj (create []) = (.ok (), l') ∧
      Checked.predict l' (lonelyRow 7) PredictionKind.contributions.mask 0 =
        some (.ok [-1, 5 / 2]) ∧
      predict (lonelyRow 7) PredictionKind.contributions.mask 0 l' = (.ok [-1, 5 / 2], l')) ∧
    ∃ l', load vast.toStored.toUbj (create []) = (.ok (), l') ∧
      Checked.predict l' (lonelyRow 7) PredictionKind.contributions.mask 0 = none := by
  constructor
  · obtain ⟨given, hload⟩ := load_stump (create [])
    rcases load_safe_iff stump.toStored.toUbj (create []) with ⟨e, hrefused⟩ |
      ⟨l', hloaded, -, hsafe, -⟩
    · cases hload.symm.trans hrefused
    cases hload.symm.trans hloaded
    obtain ⟨hruns, hsame⟩ := hsafe (lonelyRow 7) PredictionKind.contributions.mask 0
    obtain ⟨answer, hchecked⟩ := Option.isSome_iff_exists.mp (hruns.mpr fun _ =>
      hasRoom_stump given)
    have hpredict := hsame answer hchecked
    have hanswer : answer = .ok [-1, 5 / 2] := by
      rw [predict_of_empty rfl, ← (sameModel_takenOver stump _ given).plainMatrix_eq] at hpredict
      rw [← (Prod.mk.inj hpredict).1]
      decide +kernel
    subst hanswer
    exact ⟨_, hload, hchecked, hpredict⟩
  · obtain ⟨given, hload⟩ := load_vast (create [])
    rcases load_safe_iff vast.toStored.toUbj (create []) with ⟨e, hrefused⟩ |
      ⟨l', hloaded, -, hsafe, -⟩
    · cases hload.symm.trans hrefused
    cases hload.symm.trans hloaded
    obtain ⟨hruns, -⟩ := hsafe (lonelyRow 7) PredictionKind.contributions.mask 0
    refine ⟨_, hload, ?_⟩
    rw [← Option.not_isSome_iff_eq_none, hruns]
    exact fun h => not_hasRoom_vast given (h rfl)

end Learner

end BoostedTrees
