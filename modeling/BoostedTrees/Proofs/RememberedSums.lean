import BoostedTrees.Learner.Cache
import Mathlib.Data.List.Basic

/-!
# Remembered sums are the sums

Adding the outputs of some trees to the sums of the rows, and then those of further
trees, is adding those of all of them in order (`addToRows_append`). So an entry that
holds the sums over the first trees of a forest holds them still when the forest has
grown, and bringing it up to date gives the sums over all trees.

## Main definitions

* `RememberedSums.Sound`: an entry holds the sums over the first trees of a forest
* `MarginCache.Sound`: all entries do, for every matrix they may be asked for

## Main results

* `RememberedSums.Sound.brought`: a sound entry is brought to the sums over all trees
* `MarginCache.Sound.addRound`: soundness outlives a round of training
-/

namespace BoostedTrees

/-! ## Cutting sums into rows -/

section Rows

variable {α : Type} {k size i : Nat}

/-- Lists of one length fill as many places as there are lists of that length. -/
theorem length_flatMap_range {c : Nat → List α} (h : ∀ j < i, (c j).length = k) :
    ((List.range i).flatMap c).length = i * k := by
  induction i with
  | zero => simp
  | succ i ih =>
    rw [List.range_succ, List.flatMap_append, List.length_append, ih fun j hj => h j (by omega),
      Nat.succ_mul]
    simp [h i (by omega)]

/-- The length of the row `i` when `size` places are cut into rows of `k`. -/
def rowLength (k size i : Nat) : Nat := min k (size - i * k)

theorem lt_rowsNeeded_iff (hk : 0 < k) : i < rowsNeeded k size ↔ i * k < size := by
  have h : i < rowsNeeded k size ↔ (i + 1) * k ≤ size + k - 1 := by
    rw [rowsNeeded, ← Nat.succ_le_iff, Nat.le_div_iff_mul_le hk]
  rw [h, Nat.succ_mul]
  omega

theorem rowLength_of_succ_lt (hk : 0 < k) (h : i + 1 < rowsNeeded k size) :
    rowLength k size i = k := by
  have hlt := (lt_rowsNeeded_iff hk).mp h
  rw [Nat.succ_mul] at hlt
  exact Nat.min_eq_left (by omega)

/-- Rows that were put one after another are cut out again. -/
theorem drop_take_flatMap_range {c : Nat → List α} (hk : 0 < k)
    (hc : ∀ j < rowsNeeded k size, (c j).length = rowLength k size j)
    (hi : i < rowsNeeded k size) :
    (((List.range (rowsNeeded k size)).flatMap c).drop (i * k)).take k = c i := by
  -- Rows before the last are full, so the row `i` begins at the place `i * k`.
  have hfull : ((List.range i).flatMap c).length = i * k :=
    length_flatMap_range fun j hj => by
      rw [hc j (by omega), rowLength_of_succ_lt hk (by omega)]
  obtain ⟨r, hr⟩ : ∃ r, rowsNeeded k size = i + (r + 1) :=
    ⟨rowsNeeded k size - (i + 1), by omega⟩
  rw [hr, List.range_add, List.flatMap_append, List.drop_left' hfull, List.range_succ_eq_map]
  simp only [List.map_cons, List.flatMap_cons, Nat.add_zero]
  -- Only the last row may be shorter, and nothing follows it.
  rcases Nat.eq_zero_or_pos r with rfl | hpos
  · have hle : (c i).length ≤ k := hc i hi ▸ Nat.min_le_left _ _
    simp [List.take_of_length_le hle]
  · exact List.take_left' (by rw [hc i hi, rowLength_of_succ_lt hk (by omega)])

/-- The rows fill all places. -/
theorem length_flatMap_rows {c : Nat → List α} (hk : 0 < k)
    (hc : ∀ j < rowsNeeded k size, (c j).length = rowLength k size j) :
    ((List.range (rowsNeeded k size)).flatMap c).length = size := by
  rcases Nat.eq_zero_or_pos (rowsNeeded k size) with h0 | hpos
  · have hsize : ¬0 * k < size := mt (lt_rowsNeeded_iff hk).mpr (by omega)
    rw [h0, List.range_zero, List.flatMap_nil, List.length_nil]
    omega
  · -- All rows but the last are full, and the last one takes what is left.
    obtain ⟨r, hr⟩ : ∃ r, rowsNeeded k size = r + 1 := ⟨rowsNeeded k size - 1, by omega⟩
    have hlast : r * k < size := (lt_rowsNeeded_iff hk).mp (by omega)
    have hend : ¬(r + 1) * k < size := mt (lt_rowsNeeded_iff hk).mpr (by omega)
    have hfull : ((List.range r).flatMap c).length = r * k :=
      length_flatMap_range fun j hj => by
        rw [hc j (by omega), rowLength_of_succ_lt hk (by omega)]
    rw [hr, List.range_succ, List.flatMap_append, List.length_append, hfull]
    rw [Nat.succ_mul] at hend
    simp only [List.flatMap_cons, List.flatMap_nil, List.append_nil, hc r (by omega), rowLength]
    omega

end Rows

/-! ## Adding trees to the sums -/

section Adding

variable (rows : Rows) {outputs : Nat} (a b : List OutputTree) (sums : Array Single)

@[simp] theorem size_addOutputs (trees : List OutputTree) (row : Array Single) :
    (addOutputs id trees row sums).size = sums.size := by
  induction trees generalizing sums with
  | nil => rfl
  | cons t rest ih => rw [addOutputs, List.foldl_cons, ← addOutputs, ih, Array.size_modify]

theorem addOutputs_append (row : Array Single) :
    addOutputs id (a ++ b) row sums = addOutputs id b row (addOutputs id a row sums) :=
  List.foldl_append

/-- The sums of one row, with the outputs of trees added. -/
def addToRow (trees : List OutputTree) (rows : Rows) (outputs : Nat) (sums : Array Single)
    (i : Nat) : List Single :=
  (addOutputs id trees (rows.row i) (sums.extract (i * outputs) ((i + 1) * outputs))).toList

theorem toList_addToRows (trees : List OutputTree) :
    (addToRows trees rows outputs sums).toList =
      (List.range (rowsNeeded outputs sums.size)).flatMap (addToRow trees rows outputs sums) :=
  rfl

theorem length_addToRow (trees : List OutputTree) (i : Nat) :
    (addToRow trees rows outputs sums i).length = rowLength outputs sums.size i := by
  rw [addToRow, Array.length_toList, size_addOutputs, Array.size_extract, rowLength, Nat.succ_mul]
  omega

theorem size_addToRows (hk : 0 < outputs) (trees : List OutputTree) :
    (addToRows trees rows outputs sums).size = sums.size := by
  rw [← Array.length_toList, toList_addToRows]
  exact length_flatMap_rows hk fun j _ => length_addToRow rows sums trees j

/-- A row is cut out of the sums as it was put there. -/
theorem extract_addToRows (hk : 0 < outputs) (trees : List OutputTree) {i : Nat}
    (hi : i < rowsNeeded outputs sums.size) :
    (addToRows trees rows outputs sums).extract (i * outputs) ((i + 1) * outputs) =
      addOutputs id trees (rows.row i) (sums.extract (i * outputs) ((i + 1) * outputs)) := by
  have hwidth : (i + 1) * outputs - i * outputs = outputs := by
    rw [Nat.succ_mul, Nat.add_sub_cancel_left]
  apply Array.toList_inj.mp
  rw [Array.toList_extract, toList_addToRows, List.extract_eq_take_drop, hwidth]
  exact drop_take_flatMap_range hk (fun j _ => length_addToRow rows sums trees j) hi

/-- Adding the outputs of trees and then those of others adds those of all. -/
theorem addToRows_append (hk : 0 < outputs) :
    addToRows (a ++ b) rows outputs sums =
      addToRows b rows outputs (addToRows a rows outputs sums) := by
  apply Array.toList_inj.mp
  rw [toList_addToRows, toList_addToRows, size_addToRows rows sums hk]
  refine List.flatMap_congr fun i hi => ?_
  rw [addToRow, addToRow, extract_addToRows rows sums hk a (List.mem_range.mp hi),
    addOutputs_append]

theorem sumsOf_append (hk : 0 < outputs) :
    sumsOf (a ++ b) rows outputs = addToRows b rows outputs (sumsOf a rows outputs) :=
  addToRows_append rows a b _ hk

end Adding

/-! ## Entries -/

namespace RememberedSums

variable {e : RememberedSums} {f : Forest} {outputs : Nat} {m : Matrix}

/-- An entry holds the sums over the first trees of a forest, if it is one for the rows
and the number of outputs that they are asked for. -/
structure Sound (e : RememberedSums) (f : Forest) (outputs : Nat) (m : Matrix) : Prop where
  trees_le : e.trees ≤ f.size
  sums_eq : e.rows = m.rows → e.outputs = outputs →
    e.sums = sumsOf (f.trees.take e.trees) m.toRows outputs

theorem sound_start (n m : Matrix) (f : Forest) (hk : 0 < outputs) :
    (start n).Sound f outputs m :=
  ⟨Nat.zero_le _, fun _ h => absurd h (Nat.ne_of_lt hk)⟩

theorem sound_taken (f : Forest) (outputs : Nat) {n : Matrix} (h : n.toRows = m.toRows) :
    (taken f outputs n).Sound f outputs m :=
  ⟨Nat.le_refl _, fun _ _ => by simp only [taken, h, Forest.size, List.take_length]⟩

@[simp] theorem matrix_taken (f : Forest) (outputs : Nat) (m : Matrix) :
    (taken f outputs m).matrix = m.id := rfl

theorem matrix_brought (h : e.matrix = m.id) : (e.brought f outputs m).matrix = m.id := by
  unfold brought
  split
  · split <;> exact h
  · rfl

namespace Sound

theorem trees_brought (h : e.Sound f outputs m) : (e.brought f outputs m).trees = f.size := by
  unfold RememberedSums.brought
  split
  · split
    · rfl
    · -- An entry that is not behind is not ahead either.
      have hle := h.trees_le
      omega
  · rfl

/-- Bringing a sound entry up to date gives the sums over all trees. -/
theorem brought (h : e.Sound f outputs m) (hk : 0 < outputs) :
    (e.brought f outputs m).sums = sumsOf f.trees m.toRows outputs := by
  unfold RememberedSums.brought
  split
  · next hfits =>
    simp only [fits, Bool.and_eq_true, decide_eq_true_eq] at hfits
    obtain ⟨⟨hrows, houtputs⟩, -⟩ := hfits
    have hsums := h.sums_eq hrows houtputs
    split
    · -- The outputs of the trees that are new are added to those of the trees before.
      rw [hsums, ← sumsOf_append _ _ _ hk, List.take_append_drop]
    · have hall : f.size ≤ e.trees := by omega
      rw [hsums, List.take_of_length_le hall]
  · rfl

/-- An entry that was brought up to date is sound for every matrix with the same rows. -/
theorem sound_brought (h : e.Sound f outputs m) (hk : 0 < outputs) {n : Matrix}
    (hn : n.toRows = m.toRows) : (e.brought f outputs m).Sound f outputs n := by
  refine ⟨Nat.le_of_eq h.trees_brought, fun _ _ => ?_⟩
  rw [h.brought hk, h.trees_brought, hn, Forest.size, List.take_length]

theorem addRound (h : e.Sound f outputs m) (round : List Tree) :
    e.Sound (f.addRound round) outputs m := by
  have hle : e.trees ≤ (f.addRound round).size := by
    rw [Forest.size_addRound]
    exact Nat.le_add_right_of_le h.trees_le
  refine ⟨hle, ?_⟩
  intro hr ho
  rw [h.sums_eq hr ho, Forest.addRound, List.take_append_of_le_length h.trees_le]

end Sound

end RememberedSums

/-! ## Caches -/

/-- The matrices under consideration have numbers of their own: those of the same number
have the same rows. -/
def Matrix.Numbered (K : Matrix → Prop) : Prop :=
  ∀ ⦃m n⦄, K m → K n → m.id = n.id → m.toRows = n.toRows

/-- A matrix of one row and one column. -/
def Matrix.lonelyRow (id : Nat) : Matrix := ⟨id, 1, 1, #[1], #[1], #[], [], #[], rfl⟩

theorem Matrix.numbered_lonelyRow : Matrix.Numbered fun m => ∃ id, m = lonelyRow id := by
  rintro m n ⟨i, rfl⟩ ⟨j, rfl⟩ -
  rfl

namespace MarginCache

variable {c : MarginCache} {f : Forest} {outputs : Nat} {K : Matrix → Prop}

/-- Every entry is sound for the matrices of its number. -/
def Sound (K : Matrix → Prop) (c : MarginCache) (f : Forest) (outputs : Nat) : Prop :=
  ∀ e ∈ c.entries, ∀ m, K m → m.id = e.matrix → e.Sound f outputs m

theorem sound_empty (K : Matrix → Prop) (f : Forest) (outputs : Nat) :
    empty.Sound K f outputs := fun _ h => absurd h List.not_mem_nil

theorem mem_put {e x : RememberedSums} (h : x ∈ (c.put e).entries) : x = e ∨ x ∈ c.entries :=
  (List.mem_cons.mp h).imp_right fun h => List.mem_of_mem_filter h

theorem mem_of_mem_withRoom {x : RememberedSums} (h : x ∈ c.withRoom.entries) :
    x ∈ c.entries := by
  unfold withRoom at h
  split at h
  · exact h
  · split at h
    · exact List.mem_of_mem_filter h
    · exact h

/-- The entry of a matrix that is found is its own and one of the cache. -/
theorem mem_of_find? {id : Nat} {e : RememberedSums} (h : c.find? id = some e) :
    e ∈ c.entries ∧ e.matrix = id :=
  ⟨List.mem_of_find?_eq_some h, by simpa using List.find?_some h⟩

namespace Sound

theorem mono (h : c.Sound K f outputs) {c' : MarginCache}
    (hsub : ∀ e ∈ c'.entries, e ∈ c.entries) : c'.Sound K f outputs :=
  fun e he => h e (hsub e he)

theorem put (h : c.Sound K f outputs) {e : RememberedSums}
    (he : ∀ m, K m → m.id = e.matrix → e.Sound f outputs m) : (c.put e).Sound K f outputs := by
  intro x hx
  rcases mem_put hx with rfl | hx
  · exact he
  · exact h x hx

theorem withRoom (h : c.Sound K f outputs) : c.withRoom.Sound K f outputs :=
  h.mono fun _ => mem_of_mem_withRoom

theorem addRound (h : c.Sound K f outputs) (round : List Tree) :
    c.Sound K (f.addRound round) outputs :=
  fun e he m hm hid => (h e he m hm hid).addRound round

end Sound

theorem sound_ofMatrices (K : Matrix → Prop) (ms : List Matrix) (f : Forest)
    (hk : 0 < outputs) : (ofMatrices ms).Sound K f outputs := by
  have h : ∀ (ms : List Matrix) (c : MarginCache), c.Sound K f outputs →
      (ms.foldl (fun c m => c.put (.start m)) c).Sound K f outputs := by
    intro ms
    induction ms with
    | nil =>
      intro c hc
      exact hc
    | cons m ms ih =>
      intro c hc
      exact ih _ (hc.put fun n _ _ => RememberedSums.sound_start m n f hk)
  exact h ms empty (sound_empty K f outputs)

end MarginCache

end BoostedTrees
